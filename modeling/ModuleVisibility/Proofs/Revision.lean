import ModuleVisibility.Composition.Flattening
import ModuleVisibility.Proofs.SymbolTable

/-!
Programs that differ in their visibilities only. A revision gives every symbol and every member
another visibility and leaves the rest of a program alone. Nothing that composition does depends on
visibilities: names are looked up, cycles found and members chosen as before, so the tables of the
revised program are the revised tables.
-/
namespace ModuleVisibility

/-- New visibilities for the symbols of a program, and for the members that they declare. -/
structure Revision where
  symbol : SymbolId → Visibility → Visibility
  member : SymbolId → Nat → Visibility → Visibility

variable {φ : Revision}

/-- The content with other members in their places. -/
def DeclarationContent.mapMembers (f : Nat → Member → Member) :
    DeclarationContent → DeclarationContent
  | .function body => .function body
  | .class uses members => .class uses (members.mapIdx f)
  | .trait isModuleLevel uses members => .trait isModuleLevel uses (members.mapIdx f)
  | .constant => .constant

def Member.revise (φ : Revision) (source : SymbolId) (index : Nat) (m : Member) : Member :=
  { m with visibility := φ.member source index m.visibility }

def Symbol.revise (φ : Revision) (id : SymbolId) (s : Symbol) : Symbol :=
  { s with
    visibility := φ.symbol id s.visibility
    content := s.content.mapMembers (Member.revise φ id) }

def FlatMember.revise (φ : Revision) (m : FlatMember) : FlatMember :=
  { m with visibility := φ.member m.source m.index m.visibility }

def InheritedMember.revise (φ : Revision) (m : InheritedMember) : InheritedMember :=
  { m with visibility := φ.member m.source m.index m.visibility }

def SymbolTable.revise (φ : Revision) (t : SymbolTable) : SymbolTable :=
  .ofSymbols (t.symbols.mapIdx fun index s => s.revise φ ⟨index⟩)

namespace DeclarationContent

variable (f : Nat → Member → Member) (content : DeclarationContent)

@[simp] theorem kind_mapMembers : (content.mapMembers f).kind = content.kind := by
  cases content <;> rfl

@[simp] theorem uses_mapMembers : (content.mapMembers f).uses = content.uses := by
  cases content <;> rfl

@[simp] theorem body_mapMembers : (content.mapMembers f).body = content.body := by
  cases content <;> rfl

@[simp] theorem isModuleLevelTrait_mapMembers :
    (content.mapMembers f).isModuleLevelTrait = content.isModuleLevelTrait := by
  cases content <;> rfl

@[simp] theorem members_mapMembers : (content.mapMembers f).members = content.members.mapIdx f := by
  cases content <;> rfl

end DeclarationContent

namespace Symbol

variable (id : SymbolId) (s : Symbol)

@[simp] theorem kind_revise : (s.revise φ id).kind = s.kind :=
  s.content.kind_mapMembers _

@[simp] theorem uses_revise : (s.revise φ id).uses = s.uses :=
  s.content.uses_mapMembers _

@[simp] theorem isModuleLevelTrait_revise :
    (s.revise φ id).isModuleLevelTrait = s.isModuleLevelTrait :=
  s.content.isModuleLevelTrait_mapMembers _

@[simp] theorem members_revise :
    (s.revise φ id).members = s.members.mapIdx (Member.revise φ id) :=
  s.content.members_mapMembers _

theorem getElem?_members_revise (index : Nat) :
    (s.revise φ id).members[index]? = s.members[index]?.map (Member.revise φ id index) := by
  rw [members_revise, List.getElem?_mapIdx]

theorem zipIdx_members_revise :
    (s.revise φ id).members.zipIdx =
      s.members.zipIdx.map fun (m, index) => (m.revise φ id index, index) := by
  rw [members_revise]
  refine List.ext_getElem? fun index => ?_
  rw [List.getElem?_zipIdx, List.getElem?_map, List.getElem?_zipIdx, List.getElem?_mapIdx]
  cases s.members[index]? <;> simp

/-- The member of a key is found by its kind and name. -/
theorem member?_revise (kind : MemberKind) (name : String) :
    (s.revise φ id).member? kind name =
      (s.member? kind name).map fun (index, m) => (index, m.revise φ id index) := by
  unfold member?
  rw [zipIdx_members_revise, List.find?_map, Option.map_map, Option.map_map]
  rfl

end Symbol

namespace SymbolTable

variable (t : SymbolTable)

theorem get?_revise (id : SymbolId) :
    (t.revise φ).get? id = (t.get? id).map (Symbol.revise φ id) := by
  rw [revise, get?_ofSymbols, List.getElem?_mapIdx, get?_eq]

theorem entries_revise :
    (t.revise φ).entries = t.entries.map fun (id, s) => (id, s.revise φ id) := by
  refine List.ext_getElem? fun index => ?_
  rw [List.getElem?_map, getElem?_entries, getElem?_entries, get?_revise, Option.map_map,
    Option.map_map]
  rfl

theorem names_revise : (t.revise φ).symbols.map Symbol.name = t.symbols.map Symbol.name := by
  refine List.ext_getElem? fun index => ?_
  rw [revise, symbols_ofSymbols, List.getElem?_map, List.getElem?_map,
    List.getElem?_mapIdx, Option.map_map]
  rfl

theorem find?_revise (name : String) : (t.revise φ).find? name = t.find? name :=
  find?_eq_of_names t.names_revise name

theorem lookup?_revise (name : String) :
    (t.revise φ).lookup? name = (t.lookup? name).map fun (id, s) => (id, s.revise φ id) := by
  unfold lookup?
  rw [find?_revise]
  cases t.find? name with
  | none => rfl
  | some id =>
    simp only [bind, Option.bind_some, get?_revise]
    cases t.get? id <;> rfl

theorem lookupKind?_revise (kind : SymbolKind) (name : String) :
    (t.revise φ).lookupKind? kind name =
      (t.lookupKind? kind name).map fun (id, s) => (id, s.revise φ id) := by
  unfold lookupKind?
  rw [lookup?_revise, Option.filter_map]
  congr 2
  funext ⟨id, s⟩
  simp

theorem ofKind_revise (kind : SymbolKind) : (t.revise φ).ofKind kind = t.ofKind kind := by
  rw [ofKind_eq, ofKind_eq, entries_revise, List.filter_map, List.map_map]
  have hkind : ∀ e : SymbolId × Symbol,
      ((e.2.revise φ e.1).kind == kind) = (e.2.kind == kind) := fun e => by simp
  simp only [Function.comp_def, hkind]

theorem markUnresolved_revise (id : SymbolId) :
    (t.revise φ).markUnresolved id = (t.markUnresolved id).revise φ := by
  refine ext_get? fun other => ?_
  rw [get?_markUnresolved, get?_revise, get?_revise, get?_markUnresolved, Option.map_map,
    Option.map_map]
  refine congrArg (Option.map · _) (funext fun s => ?_)
  simp only [Function.comp_apply]
  split <;> rfl

/-! Clauses name the same traits. -/

theorem useTarget?_revise (clause : UseClause) :
    (t.revise φ).useTarget? clause = t.useTarget? clause := by
  unfold useTarget?
  rw [lookupKind?_revise, Option.map_map]
  rfl

theorem useGraph_revise : (t.revise φ).useGraph = t.useGraph := by
  have htarget : (t.revise φ).useTarget? = t.useTarget? := funext t.useTarget?_revise
  unfold useGraph
  rw [ofKind_revise, entries_revise, htarget, List.map_map]
  simp only [Function.comp_def, Symbol.uses_revise]

end SymbolTable

end ModuleVisibility
