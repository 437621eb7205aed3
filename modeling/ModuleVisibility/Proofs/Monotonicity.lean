import ModuleVisibility.Proofs.Opening
import ModuleVisibility.Proofs.Wording

/-!
Denials depend on visibilities in one direction only. Whoever had access keeps it when something is
made public, and the only denials that go away are those of what was made public; what cannot be
resolved stays as it was.
-/
namespace ModuleVisibility

/-! Denials after a revision that opens. -/

/-- Whether what is named is degraded, so that its visibility is not enforced. -/
def Target.isDegraded : Target → Bool
  | .symbol _ s => s.isUnresolved
  | .member _ _ m => m.isDegraded

namespace Target.Revised

variable {φ : Revision} {t t' : Target} (h : t.Revised φ t')
include h

theorem home_eq : t'.home = t.home := by
  cases h <;> rfl

theorem isDegraded_eq : t'.isDegraded = t.isDegraded := by
  cases h <;> rfl

theorem visibility_eq_or (hopens : φ.Opens) :
    t'.visibility = t.visibility ∨ t'.visibility = .public := by
  cases h with
  | symbol id s => exact hopens.symbol id s.visibility
  | member id owner key m => exact hopens.member m.source m.index m.visibility

end Target.Revised

theorem ModuleGraph.permits_effective_public (g : ModuleGraph) (home accessor : ModuleId)
    (isDegraded : Bool) : (g.effective .public home isDegraded).permits accessor home = true := by
  unfold effective
  rw [ite_self]
  rfl

namespace Analysis

/-- Who is denied a target follows from its visibility, its module and whether it is degraded. -/
theorem denies_iff {a : Analysis} {current : Option SymbolId} {kind : ReferenceKind} {t : Target}
    (ht : a.Resolves current kind t) (accessor : ModuleId) :
    a.Denies accessor t ↔
      (a.modules.effective t.visibility t.home t.isDegraded).permits accessor t.home = false := by
  cases t with
  | symbol id s =>
    unfold Denies isAccessible?
    simp only [ht.get?, Option.map_some, Option.some.injEq]
    exact Iff.rfl
  | member owner key m => exact Iff.rfl

namespace Revised

variable {φ : Revision} {a a' : Analysis} {d : Diagnostic} (h : a.Revised φ a')
include h

/-- Opening denies nobody anything. -/
theorem isDenial_of_opened (hopens : φ.Opens) (hd : a'.IsDenial d) : a.IsDenial d := by
  obtain ⟨e, r, t', he, hr, ht', hdenied, rfl⟩ := hd
  obtain ⟨t, hrevised, ht⟩ := h.of_resolves ht'
  refine ⟨e, r, t, h.runs_iff.1 he, hr, ht, (denies_iff ht _).2 ?_, h.denial hrevised e r⟩
  have hdenied := (denies_iff ht' _).1 hdenied
  rw [h.modules, hrevised.home_eq, hrevised.isDegraded_eq] at hdenied
  rcases hrevised.visibility_eq_or hopens with hsame | hpublic
  · rwa [hsame] at hdenied
  · rw [hpublic, ModuleGraph.permits_effective_public] at hdenied
    cases hdenied

/-- A denial stays if its target keeps its visibility. -/
theorem isDenial_of_kept {e : Execution} {r : Reference} {t : Target} (he : a.Runs e)
    (hr : r ∈ e.body) (ht : a.Resolves e.current r.kind t) (hdenied : a.Denies e.accessor t)
    (hkept : ∀ t', t.Revised φ t' → t'.visibility = t.visibility) :
    a'.IsDenial (a.denial e r t) := by
  obtain ⟨t', hrevised, ht'⟩ := h.exists_resolves ht
  refine ⟨e, r, t', h.runs_iff.2 he, hr, ht', (denies_iff ht' _).2 ?_, (h.denial hrevised e r).symm⟩
  rw [h.modules, hrevised.home_eq, hrevised.isDegraded_eq, hkept t' hrevised]
  exact (denies_iff ht _).1 hdenied

end Revised

/-- A member that is found on a class or trait is declared by its source, under the same key and
with the same visibility. -/
theorem declared_of_resolveMember? {units : List ParsedUnit} {id : SymbolId} {key : MemberKey}
    {m : ResolvedMember}
    (h : (checked units).flattening.resolveMember? (checked units).symbols id key = some m) :
    ∃ source declared, (checked units).symbols.get? m.source = some source ∧
      source.members[m.index]? = some declared ∧ key = ⟨declared.kind, declared.name⟩ ∧
      m.visibility = declared.visibility := by
  have hdeclared : ∀ {source : SymbolId} {index : Nat} {v : Visibility},
      (collected units).symbols.DeclaresAt source index key v →
      ∃ s declared, (checked units).symbols.get? source = some s ∧
        s.members[index]? = some declared ∧ key = ⟨declared.kind, declared.name⟩ ∧
        v = declared.visibility := by
    rintro source index v ⟨old, declared, hold, _, hm, hkind, hname, rfl⟩
    have hs := get?_checked units source
    rw [hold, Option.map_some] at hs
    exact ⟨_, declared, hs, hm, by rw [hkind, hname], rfl⟩
  obtain ⟨owner, howner, hfound⟩ := Option.bind_eq_some_iff.1 h
  split at hfound
  · next index declared hown =>
    cases hfound
    obtain ⟨⟨m, i⟩, hfind, heq⟩ := Option.map_eq_some_iff.1 hown
    cases heq
    have hkey := List.find?_some hfind
    rw [Bool.and_eq_true, beq_iff_eq, beq_iff_eq] at hkey
    have hmember := List.mem_zipIdx_iff_getElem?.1 (List.mem_of_find?_eq_some hfind)
    exact ⟨owner, _, howner, hmember, by rw [hkey.1, hkey.2], rfl⟩
  · obtain ⟨old, hold, hsame⟩ := of_get?_checked howner
    unfold Flattening.composedMember? at hfound
    split at hfound
    · next hclass =>
      obtain ⟨r, hr, rfl⟩ := Option.map_eq_some_iff.1 hfound
      have hclass : old.kind = .class := by
        rw [hsame] at hclass
        exact hclass
      obtain ⟨chain, hchain⟩ := Flattening.exists_inheritsOver hold hclass hr
      exact hdeclared hchain.declared
    · obtain ⟨entry, hentry, rfl⟩ := Option.map_eq_some_iff.1 hfound
      obtain ⟨rest, hrest⟩ := Flattening.exists_delivers hentry
      exact hdeclared hrest.declared
    · cases hfound

end Analysis

/-- What is named is what the site declares: the declaration there, or its member, found on some
class or trait. -/
def Site.Declares (site : Site) (units : List ParsedUnit) (a : Analysis) : Target → Prop
  | .symbol _ s => site.member = none ∧
    ∃ d, site.declaration? (units.map (·.unit)) = some d ∧ s.ComesFrom site.unit d
  | .member _ key m => site.member = some m.index ∧
    ∃ d source declared, site.declaration? (units.map (·.unit)) = some d ∧
      a.symbols.get? m.source = some source ∧ source.ComesFrom site.unit d ∧
      d.content.members[m.index]? = some declared ∧ key = ⟨declared.kind, declared.name⟩

namespace Analysis

variable {site : Site} {units : List ParsedUnit}

/-- A symbol as it is checked comes from the declaration that it was collected from. -/
theorem comesFrom_checked {old s : Symbol} {unit : Nat} {d : Declaration} {isUnresolved : Bool}
    (h : old.ComesFrom unit d) (hs : s = { old with isUnresolved }) : s.ComesFrom unit d := by
  subst hs
  exact ⟨h.unit, h.name, h.visibility, h.span, h.content⟩

theorem opensSymbol_revise_openings {id : SymbolId} {old : Symbol}
    (hold : (collected units).symbols.get? id = some old) :
    site.OpensSymbol (units.map (·.unit)) old (old.revise (openings site units) id) := by
  have hold' : (Collection.ofUnits (texts units) (units.map (·.unit))).symbols.get? id = some old :=
    hold
  obtain ⟨s', hs', hopens⟩ := Site.opensSymbol_get? site _ _ hold'
  have hrevise := hopens.revise hs'
  rw [← collected_openIn] at hrevise
  unfold openings
  rwa [hrevise]

/-- What changes its visibility when the site is opened is what the site declares. -/
theorem declares_of_visibility_ne (policy : Policy) {current : Option SymbolId}
    {kind : ReferenceKind} {t t' : Target} (ht : (ofUnits policy units).Resolves current kind t)
    (hrevised : t.Revised (openings site units) t') (hne : t'.visibility ≠ t.visibility) :
    site.Declares units (ofUnits policy units) t := by
  cases hrevised with
  | symbol id s =>
    have hget : (checked units).symbols.get? id = some s := ht.get?
    obtain ⟨old, hold, hs⟩ := of_get?_checked hget
    have hne' : (old.revise (openings site units) id).visibility ≠ old.visibility := by
      rw [hs] at hne
      exact hne
    obtain ⟨hmember, d, hd, hfrom⟩ := (opensSymbol_revise_openings hold).of_visibility_ne hne'
    exact ⟨hmember, d, hd, comesFrom_checked hfrom hs⟩
  | member id owner key m =>
    obtain ⟨found, hm⟩ := ht.resolveMember? (distinctNames_ofUnits policy units)
    obtain ⟨source, declared, hsource, hdeclared, hkey, hvisibility⟩ :=
      declared_of_resolveMember? hm
    obtain ⟨old, hold, hs⟩ := of_get?_checked hsource
    have hdeclared' : old.members[m.index]? = some declared := by
      rw [hs] at hdeclared
      exact hdeclared
    have hne' : (declared.revise (openings site units) m.source m.index).visibility ≠
        declared.visibility := by
      have hne : (openings site units).member m.source m.index m.visibility ≠ m.visibility := hne
      rw [hvisibility] at hne
      exact hne
    have hrevised := old.getElem?_members_revise (φ := openings site units) m.source m.index
    rw [hdeclared', Option.map_some] at hrevised
    obtain ⟨hmember, d, hd, hfrom⟩ :=
      (opensSymbol_revise_openings hold).of_member_ne hdeclared' hrevised hne'
    refine ⟨hmember, d, source, declared, hd, hsource, comesFrom_checked hfrom hs, ?_, hkey⟩
    rw [← hfrom.content]
    exact hdeclared'

/-- Opening a site takes away denials of what the site declares, and changes nothing else about
denials and unresolved references. -/
structure OpensOnly (site : Site) (units : List ParsedUnit) (a a' : Analysis) : Prop where
  subset : ∀ d ∈ a'.diagnostics, d.kind = .internalAccessViolation → d ∈ a.diagnostics
  missing : ∀ d ∈ a.diagnostics, d.kind = .internalAccessViolation → d ∉ a'.diagnostics →
    ∃ e r t, a.Runs e ∧ r ∈ e.body ∧ a.Resolves e.current r.kind t ∧ a.Denies e.accessor t ∧
      d = a.denial e r t ∧ site.Declares units a t
  unresolved : a'.unresolved = a.unresolved

/-- A denial of a program without marks in its names is reported as it is. -/
theorem mem_of_isDenial {settings : DiagnosticSettings} {a' : Analysis} {d : Diagnostic}
    (hplain : a'.PlainNames) (hsub : ∀ d, (ofUnits (.ofSettings settings) units).IsDenial d →
      a'.IsDenial d) (h : (ofUnits (.ofSettings settings) units).IsDenial d) :
    d ∈ (ofUnits (.ofSettings settings) units).diagnostics := by
  obtain ⟨reported, hreported, hkind, hkey⟩ := exists_reported h
  have hsame := (hsub _ (isDenial_of_mem hreported hkind)).eq_of_key_eq hplain (hsub d h) hkey
  rwa [← hsame]

/-- Making one declaration or one member public is monotone. -/
theorem opensOnly_openIn (settings : DiagnosticSettings) (site : Site) (units : List ParsedUnit)
    (hplain : ∀ u ∈ units, ∀ name ∈ u.unit.names, Plain name) :
    OpensOnly site units (ofUnits (.ofSettings settings) units)
      (ofUnits (.ofSettings settings) (site.openIn units)) := by
  have hrevised := revised_openIn (.ofSettings settings) site units
  have hopens : (openings site units).Opens := SymbolTable.opens_openings _
  have hnames := plainNames_ofUnits (.ofSettings settings) hplain
  refine ⟨fun d hd hkind => ?_, fun d hd hkind hmissing => ?_, ?_⟩
  · have hdenial := hrevised.isDenial_of_opened hopens (isDenial_of_mem hd hkind)
    exact mem_of_isDenial hnames (fun _ h => h) hdenial
  · obtain ⟨e, r, t, he, hr, ht, hdenied, rfl⟩ := isDenial_of_mem hd hkind
    refine ⟨e, r, t, he, hr, ht, hdenied, rfl, ?_⟩
    by_contra hother
    have hkept := hrevised.isDenial_of_kept he hr ht hdenied fun t' ht' =>
      not_not.1 fun hne => hother (declares_of_visibility_ne _ ht ht' hne)
    exact hmissing (mem_of_isDenial hnames (fun _ h => hrevised.isDenial_of_opened hopens h) hkept)
  · rw [unresolved_ofUnits, unresolved_ofUnits]
    exact hrevised.program.unresolved

/-- A class from without that composes an internal member of a module, and a call of it. -/
def composedInternal : List SourceFile :=
  [⟨"module.php", "<?hh\nnew module M \x7b\x7d\n"⟩,
    ⟨"trait.php", "<?hh\nmodule M;\n<<__ModuleLevelTrait>>\n"
      ++ "trait T \x7b internal function m(): void \x7b\x7d \x7d\n"⟩,
    ⟨"main.php", "<?hh\nclass C \x7b use T; \x7d\n"
      ++ "function main(): void \x7b (new C())->m(); \x7d\n"⟩]

/-- Once the member is public, the call of it through the class is denied no more. -/
theorem opensOnly_openIn_composedInternal :
    (ofFiles (.ofSettings .default) composedInternal).diagnostics.length = 1 ∧
      (ofUnits (.ofSettings .default)
        (Site.openIn ⟨1, 0, some 0⟩ (parseProgram composedInternal))).diagnostics = [] ∧
      OpensOnly ⟨1, 0, some 0⟩ (parseProgram composedInternal)
        (ofFiles (.ofSettings .default) composedInternal)
        (ofUnits (.ofSettings .default)
          (Site.openIn ⟨1, 0, some 0⟩ (parseProgram composedInternal))) := by
  have hchecks : (∀ u ∈ parseProgram composedInternal, ∀ name ∈ u.unit.names, Plain name) ∧
      (ofFiles (.ofSettings .default) composedInternal).diagnostics.length = 1 ∧
      (ofUnits (.ofSettings .default)
        (Site.openIn ⟨1, 0, some 0⟩ (parseProgram composedInternal))).diagnostics = [] := by
    decide +kernel
  obtain ⟨hplain, hdenied, hopened⟩ := hchecks
  exact ⟨hdenied, hopened, opensOnly_openIn .default ⟨1, 0, some 0⟩ _ hplain⟩

end Analysis
end ModuleVisibility
