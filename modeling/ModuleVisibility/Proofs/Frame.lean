import ModuleVisibility.Proofs.Appending

/-!
What appended units leave alone. Where they have nothing to do with a program but for modules, all
that is reported in the units of the program, and all that is unresolved there, is as it was.
-/
namespace ModuleVisibility

/-- The numbers of the units that a program has. -/
theorem Analysis.locate_texts (units added : List ParsedUnit) {unit : Nat} (h : unit < units.length)
    (span : Span) : (texts (units ++ added)).locate unit span = (texts units).locate unit span := by
  have hlt : unit < (units.map (·.file)).length := by rwa [List.length_map]
  unfold SourceMap.locate SourceMap.get? texts
  rw [List.map_append, List.getElem?_append_left hlt]

namespace Analysis

theorem isSome_checked (units : List ParsedUnit) (id : SymbolId) :
    ((checked units).symbols.get? id).isSome = ((collected units).symbols.get? id).isSome := by
  rw [get?_checked, Option.isSome_map]

theorem get?_checked_eq_none_iff {units : List ParsedUnit} {id : SymbolId} :
    (checked units).symbols.get? id = none ↔ (collected units).symbols.get? id = none := by
  rw [get?_checked, Option.map_eq_none_iff]

theorem isSome_of_holds {id : SymbolId} {key : MemberKey} {m : FlatMember}
    (hm : (checked units).flattening.Holds id key m) :
    ((checked units).symbols.get? m.source).isSome := by
  obtain ⟨_, hrest⟩ := Flattening.exists_delivers (Flattening.traitMember?_of_holds hm)
  obtain ⟨source, _, hsource, _⟩ := hrest.declared
  rw [isSome_checked]
  exact Option.isSome_iff_exists.2 ⟨source, hsource⟩

theorem isSome_of_inherits {id : SymbolId} {key : MemberKey} {r : InheritedMember}
    (hr : (checked units).flattening.Inherits id key r) :
    ((checked units).symbols.get? r.source).isSome := by
  obtain ⟨table, htable, hmem⟩ := hr
  obtain ⟨owner, howner, hclass, hentry⟩ := Flattening.of_mem_inherited htable hmem
  obtain ⟨_, hchain⟩ := Flattening.exists_inheritsOver howner hclass hentry
  obtain ⟨source, _, hsource, _⟩ := hchain.declared
  rw [isSome_checked]
  exact Option.isSome_iff_exists.2 ⟨source, hsource⟩

theorem mem_newTraits_of_checked {units units' : List ParsedUnit} {id : SymbolId} {s : Symbol}
    (hnone : (collected units).symbols.get? id = none)
    (hs : (checked units').symbols.get? id = some s) (hkind : s.kind = .trait) :
    id ∈ (collected units).symbols.newTraits (collected units').symbols := by
  obtain ⟨old, hold, rfl⟩ := of_get?_checked hs
  exact SymbolTable.mem_newTraits.2 ⟨hnone, old, hold, hkind⟩

/-! The symbols and runs of some units. -/

theorem Runs.current {a : Analysis} {e : Execution} (h : a.Runs e) {id : SymbolId}
    (hid : e.current = some id) : (a.symbols.get? id).isSome := by
  cases h with
  | function hs => cases hid
  | classMember hs | inherited hs | traitMember hs | composed hs =>
    cases hid
    exact Option.isSome_iff_exists.2 ⟨_, hs⟩

variable {policy : Policy} {units : List ParsedUnit} {e : Execution}

theorem Runs.knows_accessor (h : (ofUnits policy units).Runs e) :
    (checked units).modules.Knows e.accessor := by
  cases h with
  | function hs => exact knows_home hs
  | classMember hs => exact knows_home hs
  | @inherited id s key r source m hs hkind hr hsource hm =>
    obtain ⟨table, htable, hmem⟩ := hr
    obtain ⟨owner, howner, hclass, hentry⟩ := Flattening.of_mem_inherited htable hmem
    exact knows_inherited howner hclass hentry
  | traitMember hs => exact knows_home hs
  | @composed id s key r source home m hs hlevel hr hother horigin hsource hm =>
    have hknown := knows_origin (Flattening.traitMember?_of_holds hr) (knows_home hs)
    rwa [horigin] at hknown

theorem knows_denied {kind : ReferenceKind} {what name : String} {home : ModuleId}
    (h : .denied what name home ∈ (checked units).outcomes e kind) :
    (checked units).modules.Knows home := by
  obtain ⟨t, ht, _, _, _, rfl⟩ := (denied_mem_outcomes (a := ofUnits .default units)
    (distinctNames_checked units)).1 h
  cases t with
  | symbol id s => exact knows_home ht.get?
  | member owner key m =>
    obtain ⟨id, hm⟩ := ht.resolveMember? (distinctNames_ofUnits .default units)
    exact knows_of_resolveMember? hm

/-- What a body looks up is looked up in its unit's declarations. -/
theorem Runs.lookedUp (h : (ofUnits policy units).Runs e) {r : Reference} (hr : r ∈ e.body)
    {name : String} (hname : name ∈ r.kind.lookedUp) :
    name ∈ lookedUpNames (units.map (·.unit)) := by
  obtain ⟨id, s, hs, _, hbody⟩ := h.exists_body
  obtain ⟨u, hu, d, hd, _, hcontent⟩ := exists_declaration hs
  rw [hcontent] at hbody
  refine List.mem_flatMap.2 ⟨u.unit, List.mem_map_of_mem (List.mem_of_getElem? hu),
    List.mem_flatMap.2 ⟨d, hd, ?_⟩⟩
  exact List.mem_append_right _ (List.mem_flatMap.2
    ⟨e.body, hbody, List.mem_flatMap.2 ⟨r, hr, hname⟩⟩)

theorem Runs.unit_lt (h : (ofUnits policy units).Runs e) : e.unit < units.length := by
  obtain ⟨id, s, hs, hunit, _⟩ := h.exists_body
  rw [hunit]
  obtain ⟨_, hu, _⟩ := exists_declaration hs
  exact (List.getElem?_eq_some_iff.1 hu).1

/-- The units `added` can be appended: what they declare is new, and their traits use no trait of
`units`. -/
structure Appendable (units added : List ParsedUnit) : Prop where
  apart : Apart (units.map (·.unit)) (added.map (·.unit))
  traits : ∀ u ∈ added, ∀ d ∈ u.unit.declarations, d.content.kind = .trait →
    ∀ clause ∈ d.content.uses, (collected units).symbols.useTarget? clause = none

namespace Appendable

variable {added : List ParsedUnit} (h : Appendable units added)
include h

theorem collected : (collected units).Extended units.length (texts units) (texts (units ++ added))
    (collected (units ++ added)) := by
  have htraits : ∀ u ∈ added.map (·.unit), ∀ d ∈ u.declarations, d.content.kind = .trait →
      ∀ clause ∈ d.content.uses, (Analysis.collected units).symbols.useTarget? clause = none := by
    intro u hu
    obtain ⟨parsed, hparsed, rfl⟩ := List.mem_map.1 hu
    exact h.traits parsed hparsed
  have hlength : (units.map (·.unit)).length = units.length := List.length_map _
  have hextended : (Analysis.collected units).Extended (units.map (·.unit)).length (texts units)
      (texts (units ++ added))
      (.ofUnits (texts (units ++ added)) (units.map (·.unit) ++ added.map (·.unit))) :=
    Collection.extended_append h.apart
      (fun unit hunit => locate_texts units added (hlength ▸ hunit)) htraits
  rw [hlength, ← List.map_append] at hextended
  exact hextended

/-- A trait of a cycle is one before and after, so symbols are marked as they were. -/
theorem get?_checked_append {id : SymbolId} {s : Symbol}
    (hs : (checked units).symbols.get? id = some s) :
    (checked (units ++ added)).symbols.get? id = some s := by
  obtain ⟨old, hold, rfl⟩ := of_get?_checked hs
  have hcyclic : (checked (units ++ added)).flattening.cyclic.contains id =
      (checked units).flattening.cyclic.contains id :=
    h.collected.contains_cyclic (Option.isSome_iff_exists.2 ⟨old, hold⟩)
  rw [get?_checked, SymbolTable.get?_of_grown h.collected.symbols hold, Option.map_some, hcyclic]

/-- A symbol afterwards is one from before, or new. -/
theorem old_or_new {id : SymbolId} {s : Symbol}
    (hs : (checked (units ++ added)).symbols.get? id = some s) :
    (checked units).symbols.get? id = some s ∨
      (Analysis.collected units).symbols.get? id = none := by
  cases hold : (checked units).symbols.get? id with
  | some old => exact .inl ((h.get?_checked_append hold).symm.trans hs)
  | none => exact .inr (get?_checked_eq_none_iff.1 hold)

theorem inherits_iff {id : SymbolId} {s : Symbol} (hs : (checked units).symbols.get? id = some s)
    {key : MemberKey} {r : InheritedMember} :
    (checked (units ++ added)).flattening.Inherits id key r ↔
      (checked units).flattening.Inherits id key r := by
  have hid : ((Analysis.collected units).symbols.get? id).isSome := by
    rw [← isSome_checked, hs, Option.isSome_some]
  have hsame : (checked (units ++ added)).flattening.inherited? id =
      (checked units).flattening.inherited? id := h.collected.inherited? hid
  unfold Flattening.Inherits
  rw [hsame]

theorem holds_iff {id : SymbolId} {s : Symbol} (hs : (checked units).symbols.get? id = some s)
    {key : MemberKey} {m : FlatMember} :
    (checked (units ++ added)).flattening.Holds id key m ↔
      (checked units).flattening.Holds id key m := by
  have hid : ((Analysis.collected units).symbols.get? id).isSome := by
    rw [← isSome_checked, hs, Option.isSome_some]
  have hsame : (checked (units ++ added)).flattening.traitMembers? id =
      (checked units).flattening.traitMembers? id := h.collected.traitMembers? hid
  unfold Flattening.Holds
  rw [hsame]

theorem checked (hrelocated : ∀ id s, (checked units).symbols.get? id = some s →
      s.isModuleLevelTrait = false → ∀ index,
        (id, index) ∈ (checked (units ++ added)).relocated ↔
          (id, index) ∈ (checked units).relocated) :
    (checked units).Extended (checked (units ++ added)) where
  symbols := SymbolTable.prefix_of_get? fun _ _ => h.get?_checked_append
  modules := h.collected.modules
  homes s hs := by
    obtain ⟨id, hs⟩ := SymbolTable.exists_get?_of_mem hs
    exact knows_home hs
  members _ _ _ := knows_of_resolveMember?
  traits id hid := h.collected.traitMembers? (isSome_checked units id ▸ hid)
  classes id hid := h.collected.inherited? (isSome_checked units id ▸ hid)
  held _ _ _ := isSome_of_holds
  inherited _ _ _ := isSome_of_inherits
  relocated := hrelocated

/-- What is taken over from old traits was taken over before, if that is so of what new classes
inherit. -/
theorem mem_relocated_iff (hclasses : ∀ id key r,
      (Analysis.collected units).symbols.get? id = none →
      (Analysis.checked (units ++ added)).flattening.Inherits id key r →
        ∀ source, (Analysis.checked units).symbols.get? r.source = some source →
          source.isModuleLevelTrait = false →
            (ofUnits .default units).Relocated r.source r.index)
    {id : SymbolId} {s : Symbol} (hs : (Analysis.checked units).symbols.get? id = some s)
    (hordinary : s.isModuleLevelTrait = false) (index : Nat) :
    (id, index) ∈ (Analysis.checked (units ++ added)).relocated ↔
      (id, index) ∈ (Analysis.checked units).relocated := by
  have hbefore : (id, index) ∈ (Analysis.checked units).relocated ↔
      (ofUnits .default units).Relocated id index :=
    mem_relocated (a := ofUnits .default units) hs hordinary
  have hafter : (id, index) ∈ (Analysis.checked (units ++ added)).relocated ↔
      (ofUnits .default (units ++ added)).Relocated id index :=
    mem_relocated (a := ofUnits .default (units ++ added)) (h.get?_checked_append hs) hordinary
  refine hafter.trans (Iff.trans ⟨?_, ?_⟩ hbefore.symm)
  · rintro (⟨owner, t, key, r, ht, hclass, hr, rfl, rfl⟩ | ⟨owner, t, key, m, ht,
      hlevel, hm, rfl, rfl⟩)
    · rcases h.old_or_new ht with hold | hnew
      · exact .inl ⟨owner, t, key, r, hold, hclass, (h.inherits_iff hold).1 hr, rfl, rfl⟩
      · exact hclasses owner key r hnew hr s hs hordinary
    · rcases h.old_or_new ht with hold | hnew
      · exact .inr ⟨owner, t, key, m, hold, hlevel, (h.holds_iff hold).1 hm, rfl, rfl⟩
      · have hnone := h.collected.get?_source_of_holds (mem_newTraits_of_checked hnew ht
          (Symbol.kind_of_isModuleLevelTrait hlevel)) hm
        have hsome := isSome_checked units m.source
        rw [hnone, hs] at hsome
        cases hsome
  · rintro (⟨owner, t, key, r, ht, hclass, hr, rfl, rfl⟩ | ⟨owner, t, key, m, ht,
      hlevel, hm, rfl, rfl⟩)
    · exact .inl ⟨owner, t, key, r, h.get?_checked_append ht, hclass,
        (h.inherits_iff ht).2 hr, rfl, rfl⟩
    · exact .inr ⟨owner, t, key, m, h.get?_checked_append ht, hlevel,
        (h.holds_iff ht).2 hm, rfl, rfl⟩

/-! The runs that there were. -/

theorem of_new {id : SymbolId} {s : Symbol}
    (hnone : (Analysis.collected units).symbols.get? id = none)
    (hs : (Analysis.collected (units ++ added)).symbols.get? id = some s) :
    units.length ≤ s.unit ∧ ∃ u ∈ added, ∃ d ∈ u.unit.declarations, s.name = d.name ∧
      s.content = d.content := by
  unfold Analysis.collected at hs
  rw [List.map_append] at hs
  obtain ⟨hunit, v, hv, hd⟩ := Collection.of_new h.apart hnone hs
  obtain ⟨u, hu, rfl⟩ := List.mem_map.1 hv
  rw [List.length_map] at hunit
  exact ⟨hunit, u, hu, hd⟩

theorem below_collected :
    Diagnostic.below units.length (Analysis.collected (units ++ added)).diagnostics =
    (Analysis.collected units).diagnostics := by
  have hlength : (units.map (·.unit)).length = units.length := List.length_map _
  have hbelow : Diagnostic.below (units.map (·.unit)).length
      (Collection.ofUnits (texts (units ++ added))
        (units.map (·.unit) ++ added.map (·.unit))).diagnostics =
      (Analysis.collected units).diagnostics :=
    Collection.below_append h.apart fun unit hunit => locate_texts units added (hlength ▸ hunit)
  rw [hlength, ← List.map_append] at hbelow
  exact hbelow

variable (hextended : (Analysis.checked units).Extended (Analysis.checked (units ++ added)))
include hextended

theorem outcomes (he : (ofUnits policy units).Runs e) {r : Reference} (hr : r ∈ e.body) :
    (Analysis.checked (units ++ added)).outcomes e r.kind =
      (Analysis.checked units).outcomes e r.kind := by
  refine hextended.outcomes (fun _ id hid => he.current hid) fun name hname => ?_
  have hnew : name ∉ declaredNames (added.map (·.unit)) :=
    fun hdeclared => h.apart.lookedUp name hdeclared (he.lookedUp hr hname)
  rw [find?_checked, find?_checked]
  unfold Analysis.collected
  rw [List.map_append]
  exact Collection.find?_append h.apart hnew

/-- A run that there was is denied what it was denied, and in the same words. -/
theorem deniedIn (he : (ofUnits policy units).Runs e) :
    (Analysis.checked (units ++ added)).deniedIn (texts (units ++ added)) e =
      (Analysis.checked units).deniedIn (texts units) e := by
  unfold CheckedProgram.deniedIn
  refine List.flatMap_congr fun r hr => ?_
  rw [h.outcomes hextended he hr]
  refine List.filterMap_congr fun o ho => ?_
  refine hextended.violation? (locate_texts units added he.unit_lt r.span) he.knows_accessor ?_
  rintro what name home rfl
  exact knows_denied ho

theorem unresolvedIn (he : (ofUnits policy units).Runs e) :
    (Analysis.checked (units ++ added)).unresolvedIn e =
      (Analysis.checked units).unresolvedIn e := by
  unfold CheckedProgram.unresolvedIn
  refine List.flatMap_congr fun r hr => ?_
  rw [h.outcomes hextended he hr]

/-- What was denied is denied again, and what new runs are denied besides comes behind it. -/
theorem violations : (Analysis.checked (units ++ added)).violations (texts (units ++ added)) =
    distinctBy CheckedProgram.violationKey
      ((Analysis.checked units).executions.flatMap
        ((Analysis.checked units).deniedIn (texts units)) ++
        ((Analysis.checked units).newExecutions (Analysis.checked (units ++ added))).flatMap
          ((Analysis.checked (units ++ added)).deniedIn (texts (units ++ added)))) := by
  have hold : (Analysis.checked units).executions.flatMap
      ((Analysis.checked (units ++ added)).deniedIn (texts (units ++ added))) =
        (Analysis.checked units).executions.flatMap
        ((Analysis.checked units).deniedIn (texts units)) :=
    List.flatMap_congr fun e he => h.deniedIn hextended
      ((mem_executions_iff (pinned_ofUnits .default units)).1 he)
  rw [CheckedProgram.violations_eq, hextended.executions, List.flatMap_append, hold]

theorem unresolved : (Analysis.checked (units ++ added)).unresolved =
    distinctBy id
      ((Analysis.checked units).executions.flatMap (Analysis.checked units).unresolvedIn ++
        ((Analysis.checked units).newExecutions (Analysis.checked (units ++ added))).flatMap
          (Analysis.checked (units ++ added)).unresolvedIn) := by
  have hold : (Analysis.checked units).executions.flatMap
      (Analysis.checked (units ++ added)).unresolvedIn =
        (Analysis.checked units).executions.flatMap (Analysis.checked units).unresolvedIn :=
    List.flatMap_congr fun e he => h.unresolvedIn hextended
      ((mem_executions_iff (pinned_ofUnits .default units)).1 he)
  rw [CheckedProgram.unresolved_eq, hextended.executions, List.flatMap_append, hold]

end Appendable

/-- The units `added` are apart from `units`, and their classes and traits use no trait of these. -/
structure Unrelated (units added : List ParsedUnit) : Prop where
  apart : Apart (units.map (·.unit)) (added.map (·.unit))
  uses : ∀ u ∈ added, ∀ d ∈ u.unit.declarations, ∀ clause ∈ d.content.uses,
    (collected units).symbols.useTarget? clause = none

namespace Unrelated

variable {added : List ParsedUnit} (h : Unrelated units added)
include h

theorem appendable : Appendable units added where
  apart := h.apart
  traits u hu d hd _ := h.uses u hu d hd

theorem get?_source_of_inherits {id : SymbolId} (hnone : (collected units).symbols.get? id = none)
    {key : MemberKey} {r : InheritedMember}
    (hr : (checked (units ++ added)).flattening.Inherits id key r) :
    (collected units).symbols.get? r.source = none := by
  have hinherits := hr
  obtain ⟨_, htable, hmem⟩ := hinherits
  obtain ⟨owner, howner, _, _⟩ := Flattening.of_mem_inherited htable hmem
  obtain ⟨_, v, hv, d, hd, _, hcontent⟩ := h.appendable.of_new hnone howner
  refine h.appendable.collected.get?_source_of_inherits howner (fun clause hclause => ?_) hr
  unfold Symbol.uses at hclause
  rw [hcontent] at hclause
  exact h.uses v hv d hd clause hclause

theorem extended : (checked units).Extended (checked (units ++ added)) := by
  refine h.appendable.checked fun id s hs hordinary index =>
    h.appendable.mem_relocated_iff (fun owner key r hnone hr source hsource _ => ?_)
      hs hordinary index
  obtain ⟨old, hold, _⟩ := of_get?_checked hsource
  rw [h.get?_source_of_inherits hnone hr] at hold
  cases hold

/-- What the new units bring about runs in them. -/
theorem unit_of_new (he : e ∈ (checked units).newExecutions (checked (units ++ added))) :
    units.length ≤ e.unit := by
  have hunit : ∀ {id s}, (collected units).symbols.get? id = none →
      (checked (units ++ added)).symbols.get? id = some s → units.length ≤ s.unit := by
    intro id s hnone hs
    obtain ⟨old, hold, rfl⟩ := of_get?_checked hs
    exact (h.appendable.of_new hnone hold).1
  obtain ⟨id, s, hnone, hs, hrun⟩ := CheckedProgram.mem_newExecutions.1 he
  rw [get?_checked_eq_none_iff] at hnone
  rcases CheckedProgram.unit_of_mem_symbolExecutions hrun with hown | ⟨source, t, hfrom, ht, htaken⟩
  · rw [hown]
    exact hunit hnone hs
  · have hsource : (collected units).symbols.get? source = none := by
      rcases hfrom with ⟨key, r, hr, rfl⟩ | ⟨hkind, key, m, hm, rfl⟩
      · exact h.get?_source_of_inherits hnone hr
      · exact h.appendable.collected.get?_source_of_holds
          (mem_newTraits_of_checked hnone hs hkind) hm
    rw [htaken]
    exact hunit hsource ht

omit h in
theorem unit_lt_of_mem_executions (he : e ∈ (checked units).executions) : e.unit < units.length :=
  ((mem_executions_iff (pinned_ofUnits .default units)).1 he).unit_lt

theorem below_violations :
    Diagnostic.below units.length
        ((checked (units ++ added)).violations (texts (units ++ added))) =
      (checked units).violations (texts units) := by
  rw [h.appendable.violations h.extended, CheckedProgram.violations_eq]
  apply filter_distinctBy_append
  · intro d hd
    obtain ⟨e, he, hd⟩ := List.mem_flatMap.1 hd
    rw [CheckedProgram.unit_of_mem_deniedIn hd]
    exact decide_eq_true (unit_lt_of_mem_executions he)
  · intro d hd
    obtain ⟨e, he, hd⟩ := List.mem_flatMap.1 hd
    rw [CheckedProgram.unit_of_mem_deniedIn hd]
    simpa using h.unit_of_new he

theorem below_unresolved :
    (checked (units ++ added)).unresolved.filter (·.unit < units.length) =
      (checked units).unresolved := by
  rw [h.appendable.unresolved h.extended, CheckedProgram.unresolved_eq]
  apply filter_distinctBy_append
  · intro u hu
    obtain ⟨e, he, hu⟩ := List.mem_flatMap.1 hu
    rw [CheckedProgram.unit_of_mem_unresolvedIn hu]
    exact decide_eq_true (unit_lt_of_mem_executions he)
  · intro u hu
    obtain ⟨e, he, hu⟩ := List.mem_flatMap.1 hu
    rw [CheckedProgram.unit_of_mem_unresolvedIn hu]
    simpa using h.unit_of_new he

omit h in
theorem below_syntaxDiagnostics (units added : List ParsedUnit) :
    Diagnostic.below units.length
        (syntaxDiagnostics (texts (units ++ added)) (units ++ added)) =
      syntaxDiagnostics (texts units) units := by
  have hunit : ∀ (sources : SourceMap) (p : ParsedUnit × Nat), ∀ d ∈ p.1.errors.map (fun e =>
      (Finding.malformed e.message).report (sources.locate p.2 e.span)), d.location.unit = p.2 := by
    intro sources p d hd
    obtain ⟨e, _, rfl⟩ := List.mem_map.1 hd
    exact SourceMap.unit_locate ..
  unfold syntaxDiagnostics
  rw [List.zipIdx_append, List.flatMap_append, Diagnostic.below_append]
  have hold : ∀ p ∈ units.zipIdx, p.1.errors.map (fun e =>
      (Finding.malformed e.message).report ((texts (units ++ added)).locate p.2 e.span)) =
        p.1.errors.map fun e =>
        (Finding.malformed e.message).report ((texts units).locate p.2 e.span) := by
    intro p hp
    have hlt : p.2 < units.length := by simpa using (List.mem_zipIdx hp).2.1
    exact List.map_congr_left fun e _ => by rw [locate_texts units added hlt]
  rw [List.flatMap_congr hold]
  unfold Diagnostic.below
  rw [List.filter_eq_self.2, List.filter_eq_nil_iff.2, List.append_nil]
  · intro d hd
    obtain ⟨p, hp, hd⟩ := List.mem_flatMap.1 hd
    rw [hunit _ p d hd]
    simpa using (List.mem_zipIdx hp).1
  · intro d hd
    obtain ⟨p, hp, hd⟩ := List.mem_flatMap.1 hd
    rw [hunit _ p d hd]
    simpa using (List.mem_zipIdx hp).2.1

theorem below_found : Diagnostic.below units.length (found (units ++ added)) = found units := by
  unfold found
  have hflattening :
    Diagnostic.below units.length (checked (units ++ added)).flattening.diagnostics =
      (checked units).flattening.diagnostics := h.appendable.collected.below_flattening
  rw [Diagnostic.below_append, Diagnostic.below_append, Diagnostic.below_append, h.below_violations,
    below_syntaxDiagnostics, h.appendable.below_collected, hflattening]
end Unrelated

/-- Whatever the policy, what is reported in some units stays as it is when unrelated units are
appended, and so does what is unresolved in them. -/
theorem reports_of_unrelated (policy : Policy) {units added : List ParsedUnit}
    (h : Unrelated units added) :
    Diagnostic.below units.length (ofUnits policy (units ++ added)).diagnostics =
        (ofUnits policy units).diagnostics ∧
      (ofUnits policy (units ++ added)).unresolved.filter (·.unit < units.length) =
        (ofUnits policy units).unresolved := by
  constructor
  · rw [diagnostics_ofUnits, diagnostics_ofUnits, Diagnostic.below_sort,
      Policy.below_apply, h.below_found]
  · rw [unresolved_ofUnits, unresolved_ofUnits]
    exact h.below_unresolved

/-- A program with a cycle, a declaration too many, a denied call and a call of nothing. -/
def troubled : List SourceFile :=
  [⟨"lib.php", "<?hh\nnew module Lib \x7b\x7d\nmodule Lib;\n"
      ++ "internal function secret(): void \x7b\x7d\n"⟩,
    ⟨"main.php", "<?hh\ntrait A \x7b use B; \x7d\ntrait B \x7b use A; \x7d\n"
      ++ "function main(): void \x7b secret(); missing(); \x7d\nfunction main(): void \x7b\x7d\n"⟩]

/-- The same again, under other names. -/
def troubledAgain : List SourceFile :=
  [⟨"more.php", "<?hh\ntrait D \x7b use E; \x7d\ntrait E \x7b use D; \x7d\n"
    ++ "function more(): void \x7b secret(); missing(); \x7d\nfunction more(): void \x7b\x7d\n"⟩]

/-- Each of the two programs is reported as if the other were not there. -/
theorem reports_of_unrelated_troubled :
    Unrelated (parseProgram troubled) (parseProgram troubledAgain) ∧
      Diagnostic.below 2
          (ofUnits .default (parseProgram troubled ++ parseProgram troubledAgain)).diagnostics =
        (ofUnits .default (parseProgram troubled)).diagnostics ∧
      (ofUnits .default (parseProgram troubled ++ parseProgram troubledAgain)).unresolved.filter
          (·.unit < 2) =
        (ofUnits .default (parseProgram troubled)).unresolved ∧
      (found (parseProgram troubled)).map (·.kind) =
        [.duplicateSymbol, .cyclicTraitComposition, .internalAccessViolation] ∧
      (ofUnits .default (parseProgram troubled)).unresolved.map (·.name) = ["missing"] := by
  have hnames : (∀ name ∈ declaredNames ((parseProgram troubledAgain).map (·.unit)),
        name ∉ declaredNames ((parseProgram troubled).map (·.unit)) ∧
        name ∉ lookedUpNames ((parseProgram troubled).map (·.unit)) ∧
        name ∉ moduleNames ((parseProgram troubled).map (·.unit))) ∧
      (∀ name ∈ moduleNames ((parseProgram troubledAgain).map (·.unit)),
        name ∈ declaredNames ((parseProgram troubled).map (·.unit)) →
          name ∈ moduleNames ((parseProgram troubled).map (·.unit))) ∧
      (parseProgram troubled).length = 2 := by decide +kernel
  obtain ⟨hdeclared, hmodules, hlength⟩ := hnames
  have hunrelated : Unrelated (parseProgram troubled) (parseProgram troubledAgain) :=
    ⟨⟨fun name hname => (hdeclared name hname).1, fun name hname => (hdeclared name hname).2.1,
      fun name hname => (hdeclared name hname).2.2, hmodules⟩, by decide +kernel⟩
  obtain ⟨hdiagnostics, hunresolved⟩ := reports_of_unrelated .default hunrelated
  rw [hlength] at hdiagnostics hunresolved
  exact ⟨hunrelated, hdiagnostics, hunresolved, by decide +kernel⟩

end Analysis
end ModuleVisibility
