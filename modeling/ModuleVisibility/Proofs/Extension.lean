import ModuleVisibility.Access.Visibility
import ModuleVisibility.Proofs.Collection
import ModuleVisibility.Proofs.ExtendedSearch

/-!
Tables that have grown at the end. Symbols and modules keep their numbers, so whatever is looked up
by number is found as before; lookups by name agree where the name has not been declared meanwhile.
-/
namespace ModuleVisibility

namespace SymbolTable

variable {t t' : SymbolTable} {id : SymbolId} {s : Symbol} {name : String}

theorem prefix_of_get? (h : ∀ id s, t.get? id = some s → t'.get? id = some s) :
    t.symbols <+: t'.symbols := by
  rw [List.prefix_iff_getElem?]
  intro index hindex
  have hget := h ⟨index⟩ t.symbols[index] ((t.get?_eq _).trans (List.getElem?_eq_getElem hindex))
  rwa [get?_eq] at hget

/-- The traits of `t'` that `t` does not have. -/
def newTraits (t t' : SymbolTable) : List SymbolId :=
  (t'.ofKind .trait).filter fun id => (t.get? id).isNone

theorem mem_newTraits :
    id ∈ t.newTraits t' ↔ t.get? id = none ∧ ∃ s, t'.get? id = some s ∧ s.kind = .trait := by
  unfold newTraits
  rw [List.mem_filter, mem_ofKind, Option.isNone_iff_eq_none, and_comm]

section

variable (h : t.symbols <+: t'.symbols)
include h

theorem get?_of_grown (hs : t.get? id = some s) : t'.get? id = some s := by
  obtain ⟨later, hlater⟩ := h
  rw [get?_eq] at hs ⊢
  rw [← hlater, List.getElem?_append_left (List.getElem?_eq_some_iff.1 hs).1, hs]

theorem get?_eq_of_grown (hid : (t.get? id).isSome) : t'.get? id = t.get? id := by
  obtain ⟨s, hs⟩ := Option.isSome_iff_exists.1 hid
  rw [hs, get?_of_grown h hs]

theorem name_of_grown (hid : (t.get? id).isSome) : t'.name id = t.name id := by
  unfold name
  rw [get?_eq_of_grown h hid]

/-- The symbols that have been added, with their numbers, stand behind the others. -/
theorem entries_of_grown :
    t'.entries = t.entries ++ t'.entries.filter fun e => (t.get? e.1).isNone := by
  obtain ⟨later, hlater⟩ := h
  have hentries : t'.entries =
      t.entries ++ (later.zipIdx t.size).map fun p => ((⟨p.2⟩ : SymbolId), p.1) := by
    rw [entries_eq, entries_eq, size_eq, ← hlater, List.zipIdx_append,
      List.map_append, Nat.zero_add]
  have hold : t.entries.filter (fun e => (t.get? e.1).isNone) = [] := by
    refine List.filter_eq_nil_iff.2 fun e he => ?_
    rw [mem_entries.1 (show (e.1, e.2) ∈ t.entries from he)]
    simp
  have hnew : ∀ e ∈ (later.zipIdx t.size).map fun p => ((⟨p.2⟩ : SymbolId), p.1),
      (t.get? e.1).isNone := by
    intro e he
    obtain ⟨⟨s, i⟩, hs, rfl⟩ := List.mem_map.1 he
    have hle : t.symbols.length ≤ i := t.size_eq ▸ (List.mem_zipIdx hs).1
    simpa [get?_eq] using hle
  conv_rhs => rw [hentries, List.filter_append, hold, List.nil_append, List.filter_eq_self.2 hnew]
  exact hentries

theorem ofKind_of_grown (kind : SymbolKind) :
    t'.ofKind kind = t.ofKind kind ++ (t'.ofKind kind).filter fun id => (t.get? id).isNone := by
  rw [ofKind_eq, ofKind_eq]
  conv_lhs => rw [entries_of_grown h]
  rw [List.filter_append, List.map_append, List.filter_map, List.filter_filter, List.filter_filter]
  congr 2
  refine List.filter_congr fun e _ => ?_
  exact Bool.and_comm ..

theorem filter_ofKind_of_grown (kind : SymbolKind) :
    (t'.ofKind kind).filter (fun id => (t.get? id).isSome) = t.ofKind kind := by
  have hold : (t.ofKind kind).filter (fun id => (t.get? id).isSome) = t.ofKind kind :=
    List.filter_eq_self.2 fun id hid => isSome_of_mem_ofKind hid
  have hnew : ((t'.ofKind kind).filter fun id => (t.get? id).isNone).filter
      (fun id => (t.get? id).isSome) = [] := by
    refine List.filter_eq_nil_iff.2 fun id hid => ?_
    rw [Option.isNone_iff_eq_none.1 (List.mem_filter.1 hid).2]
    simp
  rw [ofKind_of_grown h, List.filter_append, hold, hnew, List.append_nil]

theorem find?_of_grown (hid : t.find? name = some id) : t'.find? name = some id := by
  obtain ⟨later, hlater⟩ := h
  rw [find?_eq] at hid
  obtain ⟨index, hindex, rfl⟩ := Option.map_eq_some_iff.1 hid
  rw [find?_eq, ← hlater, List.findIdx?_append, hindex]
  rfl

/-- A name that is found among the old symbols was found there before. -/
theorem find?_eq_of_isSome (hid : t'.find? name = some id) (hold : (t.get? id).isSome) :
    t.find? name = some id := by
  cases hfind : t.find? name with
  | some other => exact (find?_of_grown h hfind).symm.trans hid
  | none =>
    obtain ⟨s, hs⟩ := Option.isSome_iff_exists.1 hold
    obtain ⟨s', hs', hname⟩ := get?_of_find? hid
    cases (get?_of_grown h hs).symm.trans hs'
    exact absurd hname (find?_eq_none_iff.1 hfind s (mem_symbols_of_get? hs))

theorem lookup?_of_grown (hname : t'.find? name = t.find? name) :
    t'.lookup? name = t.lookup? name := by
  unfold lookup?
  rw [hname]
  cases hfind : t.find? name with
  | none => rfl
  | some id =>
    obtain ⟨s, hs, _⟩ := get?_of_find? hfind
    simp only [bind, Option.bind_some, hs, get?_of_grown h hs]

theorem lookupKind?_of_grown (hname : t'.find? name = t.find? name) (kind : SymbolKind) :
    t'.lookupKind? kind name = t.lookupKind? kind name := by
  unfold lookupKind?
  rw [lookup?_of_grown h hname]

theorem useTarget?_of_grown {clause : UseClause}
    (hname : t'.find? clause.name = t.find? clause.name) :
    t'.useTarget? clause = t.useTarget? clause := by
  unfold useTarget?
  rw [lookupKind?_of_grown h hname]

/-- Symbols that use the same traits as before. -/
theorem uses_useGraph_of_grown (hs : t.get? id = some s)
    (hnames : ∀ clause ∈ s.uses, t'.find? clause.name = t.find? clause.name) :
    t'.useGraph.uses id = t.useGraph.uses id := by
  rw [uses_useGraph hs, uses_useGraph (get?_of_grown h hs)]
  exact List.map_congr_left fun clause hclause => useTarget?_of_grown h (hnames clause hclause)

/-- An owner whose clauses name no trait from before uses new traits only. -/
theorem mem_newTraits_of_leads {used : SymbolId} (hs : t'.get? id = some s)
    (hclauses : ∀ clause ∈ s.uses, t.useTarget? clause = none)
    (hleads : t'.useGraph.Leads id used) :
    used ∈ t.newTraits t' := by
  refine mem_newTraits.2 ⟨?_, mem_ofKind.1 (t'.closed_useGraph id used hleads)⟩
  unfold UseGraph.Leads at hleads
  rw [uses_useGraph hs] at hleads
  obtain ⟨clause, hclause, htarget⟩ := List.mem_map.1 hleads
  obtain ⟨target, hfind, hget, hkind⟩ := useTarget?_eq_some_iff.1 htarget
  by_contra hold
  have hold := Option.isSome_iff_ne_none.2 hold
  have htarget' : t.useTarget? clause = some used := useTarget?_eq_some_iff.2
    ⟨target, find?_eq_of_isSome h hfind hold, get?_eq_of_grown h hold ▸ hget, hkind⟩
  rw [hclauses clause hclause] at htarget'
  cases htarget'

/-- Where what has been added uses no trait from before, the use graph has been extended. -/
theorem extended_useGraph
    (hnames : ∀ s ∈ t.symbols, ∀ clause ∈ s.uses, t'.find? clause.name = t.find? clause.name)
    (hapart : ∀ id s, t.get? id = none → t'.get? id = some s → s.kind = .trait →
      ∀ clause ∈ s.uses, t.useTarget? clause = none) :
    t.useGraph.Extended (t.newTraits t') t'.useGraph where
  traits := ofKind_of_grown h .trait
  fresh id hid htrait := by
    have hsome := isSome_of_mem_ofKind htrait
    rw [(mem_newTraits.1 hid).1] at hsome
    cases hsome
  uses id hid := by
    obtain ⟨s, hs, _⟩ := mem_ofKind.1 hid
    exact uses_useGraph_of_grown h hs fun clause hclause =>
      hnames s (mem_symbols_of_get? hs) clause hclause
  apart id hid used hleads := by
    obtain ⟨hnew, s, hs, hkind⟩ := mem_newTraits.1 hid
    exact mem_newTraits_of_leads h hs (hapart id s hnew hs hkind) hleads

end

end SymbolTable

namespace ModuleGraph

variable {g g' : ModuleGraph} {home : ModuleId} (h : g.modules <+: g'.modules)
  (hhome : g.Knows home)
include h hhome

theorem get?_of_grown : g'.get? home = g.get? home := by
  obtain ⟨later, hlater⟩ := h
  cases home with
  | global => rw [get?_global, get?_global]
  | declared index =>
    have hlt : index < g.modules.length := hhome
    rw [get?_declared, get?_declared, ← hlater, List.getElem?_append_left hlt]

theorem name_of_grown : g'.name home = g.name home := by
  have hget := get?_of_grown h hhome
  cases home with
  | global => rw [name_global, name_global]
  | declared index =>
    rw [get?_declared, get?_declared] at hget
    rw [name_declared, name_declared, hget]

theorem effective_of_grown (v : Visibility) (isDegraded : Bool) :
    g'.effective v home isDegraded = g.effective v home isDegraded := by
  unfold effective
  rw [scopesInternal_eq, scopesInternal_eq, get?_of_grown h hhome]

end ModuleGraph

end ModuleVisibility
