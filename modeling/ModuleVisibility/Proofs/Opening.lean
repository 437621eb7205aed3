import Mathlib.Data.List.Forall2
import ModuleVisibility.Proofs.Declaring
import ModuleVisibility.Proofs.ListEdit
import ModuleVisibility.Proofs.RevisedCheck

/-!
Making one declaration or member public. A site says where it stands in the units; the symbols that
are collected once it is public are those from before with their visibilities revised, and nothing
else about the program changes.
-/
namespace ModuleVisibility

/-- Whatever the revision changes is public afterwards. -/
structure Revision.Opens (φ : Revision) : Prop where
  symbol : ∀ id v, φ.symbol id v = v ∨ φ.symbol id v = .public
  member : ∀ source index v, φ.member source index v = v ∨ φ.member source index v = .public

/-! The place of a declaration or member, and what opening it does to the units. -/

/-- A declaration of a program by its unit and its place there, or a member by its place in that
declaration. -/
structure Site where
  unit : Nat
  declaration : Nat
  member : Option Nat

/-- The content with the member at a place made public. -/
def DeclarationContent.opened (member : Option Nat) (content : DeclarationContent) :
    DeclarationContent :=
  content.mapMembers fun index m =>
    if member = some index then { m with visibility := .public } else m

/-- The declaration made public, or its member at a place. -/
def Declaration.opened (member : Option Nat) (d : Declaration) : Declaration :=
  { d with
    visibility := if member = none then .public else d.visibility
    content := d.content.opened member }

def Symbol.opened (member : Option Nat) (s : Symbol) : Symbol :=
  { s with
    visibility := if member = none then .public else s.visibility
    content := s.content.opened member }

def CompilationUnit.opened (declaration : Nat) (member : Option Nat) (u : CompilationUnit) :
    CompilationUnit :=
  { u with declarations := u.declarations.modify declaration (Declaration.opened member) }

/-- The symbol is that of a declaration of a unit. -/
structure Symbol.ComesFrom (s : Symbol) (unit : Nat) (d : Declaration) : Prop where
  unit : s.unit = unit
  name : s.name = d.name
  visibility : s.visibility = d.visibility
  span : s.span = d.span
  content : s.content = d.content

namespace Site

/-- The program with what is at the site made public. -/
def openIn (site : Site) (units : List ParsedUnit) : List ParsedUnit :=
  units.modify site.unit fun u => { u with unit := u.unit.opened site.declaration site.member }

def openUnits (site : Site) (units : List CompilationUnit) : List CompilationUnit :=
  units.modify site.unit (CompilationUnit.opened site.declaration site.member)

/-- The declaration at the site. -/
def declaration? (site : Site) (units : List CompilationUnit) : Option Declaration :=
  units[site.unit]?.bind (·.declarations[site.declaration]?)

end Site

section

variable {α : Type} {R : α → α → Prop}

theorem forall₂_modify (hrefl : ∀ a, R a a) {f : α → α} {l : List α} {k : Nat}
    (hf : ∀ a, l[k]? = some a → R a (f a)) : List.Forall₂ R l (l.modify k f) := by
  induction l generalizing k with
  | nil =>
    rw [List.modify_nil]
    exact .nil
  | cons head rest ih =>
    cases k with
    | zero => exact .cons (hf head rfl) (List.forall₂_same.2 fun a _ => hrefl a)
    | succ k => exact .cons (hrefl head) (ih fun a ha => hf a ha)

theorem forall₂_getElem? {l l' : List α} (h : List.Forall₂ R l l') (k : Nat) :
    (l[k]? = none ∧ l'[k]? = none) ∨ ∃ a b, l[k]? = some a ∧ l'[k]? = some b ∧ R a b := by
  induction h generalizing k with
  | nil => exact .inl ⟨rfl, rfl⟩
  | @cons a b _ _ hab _ ih =>
    cases k with
    | zero => exact .inr ⟨a, b, rfl, rfl, hab⟩
    | succ k => exact ih k

theorem forall₂_distinctBy {β : Type} [DecidableEq β] {key : α → β}
    (hkey : ∀ a b, R a b → key b = key a) {l l' : List α} (h : List.Forall₂ R l l') :
    List.Forall₂ R (distinctBy key l) (distinctBy key l') := by
  induction h with
  | nil => exact .nil
  | @cons a b l l' hab _ ih =>
    refine .cons hab (List.rel_filter (fun c d hcd => ?_) ih)
    simp only [hkey a b hab, hkey c d hcd]

end

/-- Declarations do not bear on which modules there are. -/
theorem ModuleGraph.ofUnits_modify (f : CompilationUnit → CompilationUnit)
    (hf : ∀ u, { f u with declarations := [] } = { u with declarations := [] })
    (units : List CompilationUnit) (index : Nat) :
    ofUnits (units.modify index f) = ofUnits units := by
  have hunits : ∀ units : List CompilationUnit, ofUnits units =
      ((units.map fun u => { u with declarations := [] }).zipIdx).foldl
        (fun g p => g.addUnit p.2 p.1) .empty := by
    intro units
    unfold ofUnits
    rw [List.zipIdx_map, List.foldl_map]
    rfl
  rw [hunits, hunits units, map_modify_of_eq f hf]

namespace Site

variable {site : Site} {units : List CompilationUnit}

/-- A numbered declaration before and after the site is opened. -/
def Opens (site : Site) (units : List CompilationUnit) (p p' : Nat × Declaration) : Prop :=
  p' = p ∨ p.1 = site.unit ∧ site.declaration? units = some p.2 ∧
    p' = (p.1, p.2.opened site.member)

theorem opens_numbered (site : Site) (units : List CompilationUnit) :
    List.Forall₂ (site.Opens units) (numbered units)
      (numbered (site.openUnits units)) := by
  have hunits : List.Forall₂ (fun q q' : CompilationUnit × Nat => q' = q ∨
      q.2 = site.unit ∧ units[site.unit]? = some q.1 ∧
        q' = (q.1.opened site.declaration site.member, q.2)) units.zipIdx
      (site.openUnits units).zipIdx := by
    rw [openUnits, zipIdx_modify]
    refine forall₂_modify (fun _ => .inl rfl) fun q hq => ?_
    rw [List.getElem?_zipIdx, Option.map_eq_some_iff] at hq
    obtain ⟨u, hu, rfl⟩ := hq
    exact .inr ⟨Nat.zero_add _, hu, rfl⟩
  refine List.rel_flatMap hunits fun q q' hq => ?_
  rcases hq with rfl | ⟨hindex, hu, rfl⟩
  · exact List.forall₂_same.2 fun _ _ => .inl rfl
  · refine List.forall₂_map_left_iff.2 (List.forall₂_map_right_iff.2 ?_)
    refine forall₂_modify (fun _ => .inl rfl) fun d hd => ?_
    refine .inr ⟨hindex, ?_, rfl⟩
    unfold declaration?
    rw [hu]
    exact hd

/-- A symbol before and after the site is opened. -/
def OpensSymbol (site : Site) (units : List CompilationUnit) (s s' : Symbol) : Prop :=
  s' = s ∨ (∃ d, site.declaration? units = some d ∧ s.ComesFrom site.unit d) ∧
    s' = s.opened site.member

theorem modules_openUnits (site : Site) (units : List CompilationUnit) :
    ModuleGraph.ofUnits (site.openUnits units) = ModuleGraph.ofUnits units :=
  ModuleGraph.ofUnits_modify (CompilationUnit.opened site.declaration site.member) (fun _ => rfl)
    units site.unit

theorem Opens.name_eq {p p' : Nat × Declaration} (h : site.Opens units p p') :
    p'.2.name = p.2.name := by
  rcases h with rfl | ⟨_, _, rfl⟩ <;> rfl

theorem names_openUnits (site : Site) (units : List CompilationUnit) :
    (numbered (site.openUnits units)).map (·.2.name) = (numbered units).map (·.2.name) := by
  have hnames : List.Forall₂ Eq ((numbered units).map (·.2.name))
      ((numbered (site.openUnits units)).map (·.2.name)) := by
    refine List.rel_map (R := site.Opens units) (fun p p' hp => ?_) (opens_numbered site units)
    exact (Opens.name_eq hp).symm
  rw [List.forall₂_eq_eq_eq] at hnames
  exact hnames.symm

theorem opensSymbol_collected (site : Site) (sources : SourceMap) (units : List CompilationUnit) :
    List.Forall₂ (site.OpensSymbol units) (Collection.ofUnits sources units).symbols.symbols
      (Collection.ofUnits sources (site.openUnits units)).symbols.symbols := by
  have hcount : ∀ name, (numbered (site.openUnits units)).countP (·.2.name == name) =
      (numbered units).countP (·.2.name == name) := by
    intro name
    have hmap : ∀ ds : List (Nat × Declaration), ds.countP (·.2.name == name) =
        (ds.map (·.2.name)).countP (· == name) := by
      intro ds
      rw [List.countP_map]
      rfl
    rw [hmap, hmap, names_openUnits]
  rw [(Collection.declares_ofUnits sources units).symbols,
    (Collection.declares_ofUnits sources (site.openUnits units)).symbols, modules_openUnits]
  refine List.rel_map (fun p p' hp => ?_)
    (forall₂_distinctBy (fun _ _ hp => Opens.name_eq hp) (opens_numbered site units))
  rcases hp with rfl | ⟨hunit, hd, rfl⟩
  · refine .inl ?_
    unfold Collection.symbolAmong
    rw [hcount]
  · refine .inr ⟨⟨p.2, hd, hunit, rfl, rfl, rfl, rfl⟩, ?_⟩
    unfold Collection.symbolAmong
    rw [hcount]
    rfl

theorem modules_collected (site : Site) (sources : SourceMap) (units : List CompilationUnit) :
    (Collection.ofUnits sources (site.openUnits units)).modules =
      (Collection.ofUnits sources units).modules := by
  rw [(Collection.declares_ofUnits sources _).modules_eq,
    (Collection.declares_ofUnits sources units).modules_eq, names_openUnits, modules_openUnits]

end Site

/-! What has been made public, as a revision. -/

namespace SymbolTable

/-- The revision that makes public what is public in the table. -/
def openings (t : SymbolTable) : Revision where
  symbol id v := if (t.get? id).any (·.visibility == .public) then .public else v
  member source index v :=
    if ((t.get? source).bind (·.members[index]?)).any (·.visibility == .public) then .public else v

theorem opens_openings (t : SymbolTable) : t.openings.Opens where
  symbol id v := by
    unfold openings
    dsimp only
    split
    · exact .inr rfl
    · exact .inl rfl
  member source index v := by
    unfold openings
    dsimp only
    split
    · exact .inr rfl
    · exact .inl rfl

end SymbolTable

theorem Visibility.public_or_self (v : Visibility) :
    (if (v == .public) = true then .public else v) = v := by
  cases v <;> rfl

theorem DeclarationContent.mapMembers_congr {content : DeclarationContent}
    {f g : Nat → Member → Member}
    (h : ∀ index m, content.members[index]? = some m → f index m = g index m) :
    content.mapMembers f = content.mapMembers g := by
  have hmembers : ∀ members : List Member, (∀ index m, members[index]? = some m →
      f index m = g index m) → members.mapIdx f = members.mapIdx g := by
    intro members hall
    refine List.ext_getElem? fun index => ?_
    rw [List.getElem?_mapIdx, List.getElem?_mapIdx]
    cases hm : members[index]? with
    | none => rfl
    | some m => rw [Option.map_some, Option.map_some, hall index m hm]
  cases content with
  | function body => rfl
  | constant => rfl
  | «class» uses members => exact congrArg (DeclarationContent.class uses) (hmembers members h)
  | trait isModuleLevel uses members =>
    exact congrArg (DeclarationContent.trait isModuleLevel uses) (hmembers members h)

theorem DeclarationContent.mapMembers_id (content : DeclarationContent) :
    content.mapMembers (fun _ m => m) = content := by
  cases content with
  | function body => rfl
  | constant => rfl
  | «class» uses members =>
    exact congrArg (DeclarationContent.class uses) (List.mapIdx_eq_iff.2 fun index => by simp)
  | trait isModuleLevel uses members =>
    exact congrArg (DeclarationContent.trait isModuleLevel uses)
      (List.mapIdx_eq_iff.2 fun index => by simp)

/-- The revision finds back whatever is as it was or has been made public. -/
theorem Symbol.revise_openings {t : SymbolTable} {id : SymbolId} {s s' : Symbol}
    (hs' : t.get? id = some s') {v : Visibility} {f : Nat → Member → Member}
    (hv : v = s.visibility ∨ v = .public)
    (hf : ∀ index m, f index m = m ∨ f index m = { m with visibility := .public })
    (heq : s' = { s with visibility := v, content := s.content.mapMembers f }) :
    s.revise t.openings id = s' := by
  have hvisibility : t.openings.symbol id s.visibility = v := by
    unfold SymbolTable.openings
    dsimp only
    rw [hs', Option.any_some, heq]
    rcases hv with hsame | hpublic
    · rw [hsame]
      exact Visibility.public_or_self s.visibility
    · rw [hpublic]
      rfl
  have hmembers : s.content.mapMembers (Member.revise t.openings id) = s.content.mapMembers f := by
    refine DeclarationContent.mapMembers_congr fun index m hm => ?_
    have hopened : s'.members[index]? = some (f index m) := by
      have hmembers : s'.members = s.content.members.mapIdx f := by
        rw [heq]
        exact s.content.members_mapMembers f
      rw [hmembers, List.getElem?_mapIdx, hm, Option.map_some]
    unfold Member.revise SymbolTable.openings
    dsimp only
    rw [hs', Option.bind_some, hopened, Option.any_some]
    rcases hf index m with hsame | hpublic
    · rw [hsame, Visibility.public_or_self]
    · rw [hpublic]
      rfl
  rw [heq, Symbol.revise, hvisibility, hmembers]

namespace Site

variable {site : Site} {units : List CompilationUnit} {s s' : Symbol}

theorem OpensSymbol.revise (h : site.OpensSymbol units s s') {t : SymbolTable} {id : SymbolId}
    (hs' : t.get? id = some s') : s.revise t.openings id = s' := by
  rcases h with rfl | ⟨_, rfl⟩
  · refine Symbol.revise_openings hs' (.inl rfl) (f := fun _ m => m) (fun _ _ => .inl rfl) ?_
    rw [DeclarationContent.mapMembers_id]
  · refine Symbol.revise_openings hs' ?_ (fun index m => ?_) rfl
    · by_cases hmember : site.member = none
      · exact .inr (if_pos hmember)
      · exact .inl (if_neg hmember)
    · by_cases hmember : site.member = some index
      · exact .inr (if_pos hmember)
      · exact .inl (if_neg hmember)

/-- A symbol of the program, in the opened one. -/
theorem opensSymbol_get? (site : Site) (sources : SourceMap) (units : List CompilationUnit)
    {id : SymbolId} (hs : (Collection.ofUnits sources units).symbols.get? id = some s) :
    ∃ s', (Collection.ofUnits sources (site.openUnits units)).symbols.get? id = some s' ∧
      site.OpensSymbol units s s' := by
  rcases forall₂_getElem? (opensSymbol_collected site sources units) id.index with
    ⟨hnone, _⟩ | ⟨old, s', hold, hs', hopens⟩
  · cases hs.symm.trans ((SymbolTable.get?_eq _ id).trans hnone)
  · cases hs.symm.trans ((SymbolTable.get?_eq _ id).trans hold)
    exact ⟨s', (SymbolTable.get?_eq _ id).trans hs', hopens⟩

/-- The symbols of the opened program are the revised ones. -/
theorem symbols_collected (site : Site) (sources : SourceMap) (units : List CompilationUnit) :
    (Collection.ofUnits sources (site.openUnits units)).symbols =
      (Collection.ofUnits sources units).symbols.revise
        (Collection.ofUnits sources (site.openUnits units)).symbols.openings := by
  refine SymbolTable.ext_get? fun id => ?_
  rw [SymbolTable.get?_revise]
  rcases forall₂_getElem? (opensSymbol_collected site sources units) id.index with
    ⟨hnone, hnone'⟩ | ⟨s, s', hs, hs', hopens⟩
  · rw [SymbolTable.get?_eq, SymbolTable.get?_eq, hnone, hnone', Option.map_none]
  · have hsame : s.revise
        (Collection.ofUnits sources (site.openUnits units)).symbols.openings id = s' :=
      hopens.revise ((SymbolTable.get?_eq _ id).trans hs')
    rw [SymbolTable.get?_eq, SymbolTable.get?_eq, hs, hs', Option.map_some, hsame]

/-- A symbol that is made public is that of the declaration at the site. -/
theorem OpensSymbol.of_visibility_ne (h : site.OpensSymbol units s s')
    (hne : s'.visibility ≠ s.visibility) :
    site.member = none ∧ ∃ d, site.declaration? units = some d ∧ s.ComesFrom site.unit d := by
  rcases h with rfl | ⟨hd, rfl⟩
  · exact absurd rfl hne
  · refine ⟨?_, hd⟩
    by_contra hmember
    exact hne (if_neg hmember)

/-- A member that is made public is the one at the site. -/
theorem OpensSymbol.of_member_ne (h : site.OpensSymbol units s s') {index : Nat} {m m' : Member}
    (hm : s.members[index]? = some m) (hm' : s'.members[index]? = some m')
    (hne : m'.visibility ≠ m.visibility) :
    site.member = some index ∧
      ∃ d, site.declaration? units = some d ∧ s.ComesFrom site.unit d := by
  rcases h with rfl | ⟨hd, rfl⟩
  · cases hm.symm.trans hm'
    exact absurd rfl hne
  · refine ⟨?_, hd⟩
    by_contra hmember
    have hopened : (s.opened site.member).members = s.members.mapIdx fun index m =>
        if site.member = some index then { m with visibility := .public } else m :=
      s.content.members_mapMembers _
    rw [hopened, List.getElem?_mapIdx, hm, Option.map_some, if_neg hmember] at hm'
    cases hm'
    exact hne rfl

end Site

namespace Analysis

variable (policy : Policy) (site : Site) (units : List ParsedUnit)

theorem texts_openIn : texts (site.openIn units) = texts units := by
  unfold texts Site.openIn
  exact congrArg SourceMap.mk (map_modify_of_eq _ (by intro u; rfl) units site.unit)

theorem collected_openIn : collected (site.openIn units) =
    Collection.ofUnits (texts units) (site.openUnits (units.map (·.unit))) := by
  have hunits : (site.openIn units).map (·.unit) = site.openUnits (units.map (·.unit)) := by
    unfold Site.openIn Site.openUnits
    exact map_modify _ _ (by intro u; rfl) units site.unit
  unfold collected
  rw [texts_openIn, hunits]

/-- What is made public in a program. -/
def openings (site : Site) (units : List ParsedUnit) : Revision :=
  (collected (site.openIn units)).symbols.openings

theorem checked_openIn :
    (checked units).Revised (openings site units) (checked (site.openIn units)) := by
  have hsymbols : (collected (site.openIn units)).symbols =
      (collected units).symbols.revise (openings site units) := by
    unfold openings
    rw [collected_openIn]
    exact Site.symbols_collected site (texts units) (units.map (·.unit))
  have hmodules : (collected (site.openIn units)).modules = (collected units).modules := by
    rw [collected_openIn]
    exact Site.modules_collected site (texts units) (units.map (·.unit))
  have hflattening := Flattening.revised_ofProgram (φ := openings site units)
    (collected units).symbols (collected units).modules (texts units)
  have hmarked : ∀ (ids : List SymbolId) (t : SymbolTable),
      ids.foldl SymbolTable.markUnresolved (t.revise (openings site units)) =
        (ids.foldl SymbolTable.markUnresolved t).revise (openings site units) := by
    intro ids
    induction ids with
    | nil => exact fun _ => rfl
    | cons first rest ih =>
      intro t
      rw [List.foldl_cons, List.foldl_cons, SymbolTable.markUnresolved_revise, ih]
  unfold checked
  dsimp only
  rw [hsymbols, hmodules, texts_openIn]
  refine ⟨?_, rfl, hflattening⟩
  rw [hflattening.cyclic, hmarked]

theorem revised_openIn :
    (ofUnits policy units).Revised (openings site units) (ofUnits policy (site.openIn units)) where
  sources := texts_openIn site units
  program := checked_openIn site units
  names := distinctNames_ofUnits policy units
  pinned := pinned_ofUnits policy units
  pinned' := pinned_ofUnits policy (site.openIn units)

end Analysis
end ModuleVisibility
