import ModuleVisibility.Composition.Flattening
import ModuleVisibility.Proofs.SymbolTable

/-!
Programs that differ in their use clauses only. A bare symbol is one without its clauses; where the
bare symbols of two programs agree, so does everything that is found by name, kind or member, and a
clause brings in the same trait.
-/
namespace ModuleVisibility

/-- The content with other use clauses; what has none stays as it is. -/
def DeclarationContent.mapUses (f : List UseClause → List UseClause) :
    DeclarationContent → DeclarationContent
  | .function body => .function body
  | .class uses members => .class (f uses) members
  | .trait isModuleLevel uses members => .trait isModuleLevel (f uses) members
  | .constant => .constant

def Declaration.mapUses (f : List UseClause → List UseClause) (d : Declaration) : Declaration :=
  { d with content := d.content.mapUses f }

def Symbol.mapUses (f : List UseClause → List UseClause) (s : Symbol) : Symbol :=
  { s with content := s.content.mapUses f }

/-- The symbol without its use clauses. -/
def Symbol.bare (s : Symbol) : Symbol := s.mapUses fun _ => []

namespace SymbolTable

/-- The symbols without their use clauses. -/
def bare (t : SymbolTable) : SymbolTable := ofSymbols (t.symbols.map Symbol.bare)

/-- The table with other use clauses for one symbol. -/
def rewire (t : SymbolTable) (id : SymbolId) (f : List UseClause → List UseClause) : SymbolTable :=
  ofSymbols (t.symbols.modify id.index (Symbol.mapUses f))

end SymbolTable

variable {f : List UseClause → List UseClause}

namespace DeclarationContent

variable (f) (content : DeclarationContent)

@[simp] theorem kind_mapUses : (content.mapUses f).kind = content.kind := by
  cases content <;> rfl

@[simp] theorem members_mapUses : (content.mapUses f).members = content.members := by
  cases content <;> rfl

@[simp] theorem body_mapUses : (content.mapUses f).body = content.body := by
  cases content <;> rfl

@[simp] theorem isModuleLevelTrait_mapUses :
    (content.mapUses f).isModuleLevelTrait = content.isModuleLevelTrait := by
  cases content <;> rfl

theorem uses_mapUses {f : List UseClause → List UseClause} (hf : f [] = []) :
    (content.mapUses f).uses = f content.uses := by
  cases content <;> first | rfl | exact hf.symm

theorem mapUses_mapUses (g : List UseClause → List UseClause) :
    (content.mapUses f).mapUses g = content.mapUses fun uses => g (f uses) := by
  cases content <;> rfl

end DeclarationContent

namespace Symbol

variable (s : Symbol)

@[simp] theorem kind_mapUses : (s.mapUses f).kind = s.kind := s.content.kind_mapUses f

@[simp] theorem members_mapUses : (s.mapUses f).members = s.members := s.content.members_mapUses f

@[simp] theorem isModuleLevelTrait_mapUses :
    (s.mapUses f).isModuleLevelTrait = s.isModuleLevelTrait :=
  s.content.isModuleLevelTrait_mapUses f

@[simp] theorem member?_mapUses (kind : MemberKind) (name : String) :
    (s.mapUses f).member? kind name = s.member? kind name := by
  unfold member?
  rw [members_mapUses]

theorem uses_mapUses (hf : f [] = []) : (s.mapUses f).uses = f s.uses := s.content.uses_mapUses hf

@[simp] theorem bare_mapUses : (s.mapUses f).bare = s.bare := by
  unfold bare mapUses
  rw [DeclarationContent.mapUses_mapUses]

@[simp] theorem kind_bare : s.bare.kind = s.kind := s.kind_mapUses

@[simp] theorem members_bare : s.bare.members = s.members := s.members_mapUses

@[simp] theorem isModuleLevelTrait_bare : s.bare.isModuleLevelTrait = s.isModuleLevelTrait :=
  s.isModuleLevelTrait_mapUses

@[simp] theorem member?_bare (kind : MemberKind) (name : String) :
    s.bare.member? kind name = s.member? kind name :=
  s.member?_mapUses kind name

@[simp] theorem body_bare : s.bare.content.body = s.content.body := s.content.body_mapUses _

/-- What does not look at use clauses is the same for symbols that agree in all else. -/
theorem eq_of_bare_eq {s s' : Symbol} {α : Type} {view : Symbol → α} (h : s'.bare = s.bare)
    (hview : ∀ s, view s.bare = view s) : view s' = view s :=
  (hview s').symm.trans ((congrArg view h).trans (hview s))

end Symbol

theorem Origin.throughTrait_bare (s : Symbol) : throughTrait s.bare = throughTrait s := by
  funext o
  cases o with
  | pinned m => rfl
  | composer =>
    unfold throughTrait
    rw [Symbol.isModuleLevelTrait_bare]
    rfl

namespace SymbolTable

variable (t : SymbolTable)

theorem get?_bare (id : SymbolId) : t.bare.get? id = (t.get? id).map Symbol.bare := by
  rw [bare, get?_ofSymbols, List.getElem?_map, get?_eq]

theorem entries_bare : t.bare.entries = t.entries.map fun (id, s) => (id, s.bare) := by
  refine List.ext_getElem? fun index => ?_
  rw [List.getElem?_map, getElem?_entries, getElem?_entries, get?_bare, Option.map_map,
    Option.map_map]
  rfl

theorem name_bare (id : SymbolId) : t.bare.name id = t.name id := by
  unfold name
  rw [get?_bare, Option.map_map]
  rfl

theorem find?_bare (name : String) : t.bare.find? name = t.find? name := by
  refine find?_eq_of_names ?_ name
  rw [bare, symbols_ofSymbols, List.map_map]
  rfl

theorem lookup?_bare (name : String) :
    t.bare.lookup? name = (t.lookup? name).map fun (id, s) => (id, s.bare) := by
  unfold lookup?
  rw [find?_bare]
  cases t.find? name with
  | none => rfl
  | some id =>
    simp only [bind, Option.bind_some, get?_bare]
    cases t.get? id <;> rfl

theorem lookupKind?_bare (kind : SymbolKind) (name : String) :
    t.bare.lookupKind? kind name = (t.lookupKind? kind name).map fun (id, s) => (id, s.bare) := by
  unfold lookupKind?
  rw [lookup?_bare, Option.filter_map]
  simp only [Function.comp_def, Symbol.kind_bare]

theorem ofKind_bare (kind : SymbolKind) : t.bare.ofKind kind = t.ofKind kind := by
  rw [ofKind_eq, ofKind_eq, entries_bare, List.filter_map, List.map_map]
  simp only [Function.comp_def, Symbol.kind_bare]

theorem useTarget?_bare : t.bare.useTarget? = t.useTarget? := by
  funext clause
  unfold useTarget?
  rw [lookupKind?_bare, Option.map_map]
  rfl

/-- What is reported of a clause of `owner`. -/
def useReport? (sources : SourceMap) (owner : Symbol) (clause : UseClause) :
    Option Diagnostic :=
  (t.useFinding? owner clause).map (·.report (sources.locate owner.unit clause.span))

theorem useDiagnostics_eq_flatMap (sources : SourceMap) :
    t.useDiagnostics sources = t.symbols.flatMap fun s =>
      s.uses.filterMap (t.useReport? sources s) :=
  rfl

/-! What two tables with the same bare symbols have in common. -/

section

variable {t} {t' : SymbolTable} (h : t'.bare = t.bare)
include h

theorem exists_get?_of_bare_eq {id : SymbolId} {s : Symbol} (hs : t.get? id = some s) :
    ∃ s', t'.get? id = some s' ∧ s'.bare = s.bare := by
  have hbare := t.get?_bare id
  rw [← h, get?_bare, hs, Option.map_some] at hbare
  exact Option.map_eq_some_iff.1 hbare

theorem get?_eq_none_of_bare_eq {id : SymbolId} (hs : t.get? id = none) : t'.get? id = none := by
  have hbare := t'.get?_bare id
  rw [h, get?_bare, hs, Option.map_none] at hbare
  exact Option.map_eq_none_iff.1 hbare.symm

theorem find?_of_bare_eq (name : String) : t'.find? name = t.find? name := by
  rw [← find?_bare, h, find?_bare]

theorem name_of_bare_eq (id : SymbolId) : t'.name id = t.name id := by
  rw [← name_bare, h, name_bare]

theorem ofKind_of_bare_eq (kind : SymbolKind) : t'.ofKind kind = t.ofKind kind := by
  rw [← ofKind_bare, h, ofKind_bare]

theorem useTarget?_of_bare_eq : t'.useTarget? = t.useTarget? := by
  rw [← useTarget?_bare, h, useTarget?_bare]

/-- The report of a clause does not depend on other clauses. -/
theorem useReport?_of_bare_eq (sources : SourceMap) {owner owner' : Symbol}
    (howner : owner'.bare = owner.bare) :
    t'.useReport? sources owner' = t.useReport? sources owner := by
  have hbare : ∀ (t : SymbolTable) (s : Symbol),
      t.bare.useReport? sources s.bare = t.useReport? sources s := by
    intro t s
    funext clause
    unfold useReport? useFinding?
    rw [lookup?_bare]
    cases t.lookup? clause.name with
    | none => rfl
    | some found => simp only [Option.map_some, Symbol.kind_bare]; rfl
  rw [← hbare, h, howner, hbare]

end

/-! Changing the clauses of one symbol. -/

theorem get?_rewire (id other : SymbolId) :
    (t.rewire id f).get? other =
      (t.get? other).map fun s => if other = id then s.mapUses f else s := by
  obtain ⟨index⟩ := id
  obtain ⟨other⟩ := other
  simp only [rewire, get?_eq, symbols_ofSymbols, List.getElem?_modify, SymbolId.mk.injEq]
  by_cases h : index = other
  · subst h
    simp
  · simp [h, Ne.symm h]

variable {t} in
theorem uses_of_get?_rewire (hf : f [] = []) {id other : SymbolId} {owner owner' : Symbol}
    (howner : t.get? other = some owner) (howner' : (t.rewire id f).get? other = some owner') :
    owner'.uses = if other = id then f owner.uses else owner.uses := by
  rw [get?_rewire, howner, Option.map_some, Option.some.injEq] at howner'
  subst howner'
  split
  · exact owner.uses_mapUses hf
  · rfl

theorem entries_rewire (id : SymbolId) : (t.rewire id f).entries =
    t.entries.map fun (other, s) => (other, if other = id then s.mapUses f else s) := by
  refine List.ext_getElem? fun index => ?_
  rw [List.getElem?_map, getElem?_entries, getElem?_entries, get?_rewire, Option.map_map,
    Option.map_map]
  rfl

theorem bare_rewire (id : SymbolId) : (t.rewire id f).bare = t.bare := by
  refine ext_get? fun other => ?_
  rw [get?_bare, get?_rewire, get?_bare, Option.map_map]
  refine congrArg (Option.map · _) (funext fun s => ?_)
  simp only [Function.comp_apply]
  split
  · exact s.bare_mapUses
  · rfl

theorem markUnresolved_rewire (id marked : SymbolId) :
    (t.rewire id f).markUnresolved marked = (t.markUnresolved marked).rewire id f := by
  refine ext_get? fun other => ?_
  rw [get?_markUnresolved, get?_rewire, get?_rewire, get?_markUnresolved, Option.map_map,
    Option.map_map]
  refine congrArg (Option.map · _) (funext fun s => ?_)
  simp only [Function.comp_apply]
  split <;> split <;> rfl

theorem foldl_markUnresolved_rewire (id : SymbolId) (marked : List SymbolId) :
    marked.foldl markUnresolved (t.rewire id f) = (marked.foldl markUnresolved t).rewire id f := by
  induction marked generalizing t with
  | nil => rfl
  | cons first rest ih => rw [List.foldl_cons, List.foldl_cons, markUnresolved_rewire, ih]

end SymbolTable
end ModuleVisibility
