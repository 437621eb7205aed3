import ModuleVisibility.Program.Symbol
import ModuleVisibility.Proofs.Lookup

/-!
What lookups in a symbol table find, and what declaring and marking change. Every symbol that has
been declared is found under its name, since a name is declared only once.
-/
namespace ModuleVisibility.SymbolTable

variable {t : SymbolTable}

/-! A table is its symbols in order, and answers every question by them. -/

theorem get?_eq (t : SymbolTable) (id : SymbolId) : t.get? id = t.symbols[id.index]? := by
  unfold symbols
  rw [List.getElem?_map]
  rfl

theorem size_eq (t : SymbolTable) : t.size = t.symbols.length := by
  unfold symbols
  rw [List.length_map]
  rfl

theorem arena_eq (t : SymbolTable) :
    t.arena = t.symbols.zipIdx.map fun (s, index) => s.record ⟨index⟩ := by
  refine List.ext_getElem? fun index => ?_
  rw [List.getElem?_map, List.getElem?_zipIdx, symbols, List.getElem?_map]
  cases hr : t.arena[index]? with
  | none => rfl
  | some r => simpa using t.sound.numbered index r hr

theorem entries_eq (t : SymbolTable) :
    t.entries = t.symbols.zipIdx.map fun (s, index) => (⟨index⟩, s) := by
  unfold entries
  rw [arena_eq, List.map_map]
  rfl

theorem ofKind_eq (t : SymbolTable) (kind : SymbolKind) :
    t.ofKind kind = (t.entries.filter fun (_, s) => s.kind == kind).map Prod.fst := by
  unfold ofKind entries
  rw [List.filter_map, List.map_map]
  congr 1
  refine List.filter_congr fun r hr => ?_
  obtain ⟨index, hindex⟩ := List.mem_iff_getElem?.1 hr
  rw [t.sound.numbered index r hindex]
  rfl

/-- Among numbered symbols a name has the number of the first one that it is the name of. -/
theorem lookup_zipIdx (symbols : List Symbol) (start : Nat) (name : String) :
    ((symbols.zipIdx start).map fun (s, index) => (s.name, (⟨index⟩ : SymbolId))).lookup name =
      (symbols.findIdx? (·.name == name)).map fun index => ⟨index + start⟩ := by
  induction symbols generalizing start with
  | nil => rfl
  | cons s rest ih =>
    rw [List.zipIdx_cons, List.map_cons, List.lookup_cons, ih, List.findIdx?_cons]
    by_cases hname : s.name = name
    · simp [hname]
    · have hother : (name == s.name) = false := beq_eq_false_iff_ne.2 (Ne.symm hname)
      simp only [hother, beq_eq_false_iff_ne.2 hname, Bool.false_eq_true, if_false, Option.map_map]
      congr 1
      funext index
      simp only [Function.comp_apply, SymbolId.mk.injEq]
      omega

theorem find?_eq (t : SymbolTable) (name : String) :
    t.find? name = (t.symbols.findIdx? (·.name == name)).map .mk := by
  have hentries : t.byName.entries = t.symbols.zipIdx.map fun (s, index) => (s.name, ⟨index⟩) := by
    rw [t.sound.indexed, arena_eq, List.map_map]
    rfl
  have hlookup : t.find? name = t.byName.entries.lookup name := rfl
  rw [hlookup, hentries, lookup_zipIdx]
  rfl

/-- Tables of the same symbols are the same. -/
theorem eq_of_symbols {t t' : SymbolTable} (h : t.symbols = t'.symbols) : t = t' := by
  have harena : t.arena = t'.arena := by rw [arena_eq, arena_eq, h]
  have hnames : t.byName = t'.byName := by
    have hentries : t.byName.entries = t'.byName.entries := by
      rw [t.sound.indexed, t'.sound.indexed, harena]
    exact congrArg NameMap.mk hentries
  obtain ⟨⟨arena, byName⟩, sound⟩ := t
  cases harena
  cases hnames
  rfl

/-- The table of some symbols, in order. -/
def ofSymbols (symbols : List Symbol) : SymbolTable where
  arena := symbols.zipIdx.map fun (s, index) => s.record ⟨index⟩
  byName := ⟨symbols.zipIdx.map fun (s, index) => (s.name, ⟨index⟩)⟩
  sound := by
    constructor
    · intro index r hr
      rw [List.getElem?_map, List.getElem?_zipIdx] at hr
      obtain ⟨p, hp, rfl⟩ := Option.map_eq_some_iff.1 hr
      obtain ⟨s, -, rfl⟩ := Option.map_eq_some_iff.1 hp
      simp [Symbol.record]
    · rw [List.map_map]
      rfl

@[simp] theorem symbols_ofSymbols (symbols : List Symbol) :
    (ofSymbols symbols).symbols = symbols := by
  rw [SymbolTable.symbols, ofSymbols, List.map_map]
  exact List.zipIdx_map_fst 0 symbols

theorem get?_ofSymbols (symbols : List Symbol) (id : SymbolId) :
    (ofSymbols symbols).get? id = symbols[id.index]? := by
  rw [get?_eq, symbols_ofSymbols]

/-- Tables that have the same symbols at all numbers are the same. -/
theorem ext_get? {t t' : SymbolTable} (h : ∀ id, t.get? id = t'.get? id) : t = t' := by
  refine eq_of_symbols (List.ext_getElem? fun index => ?_)
  rw [← get?_eq t ⟨index⟩, ← get?_eq t' ⟨index⟩, h]

theorem getElem?_entries (t : SymbolTable) (index : Nat) :
    t.entries[index]? = (t.get? ⟨index⟩).map fun s => (⟨index⟩, s) := by
  rw [entries_eq, List.getElem?_map, List.getElem?_zipIdx, get?_eq, Option.map_map]
  simp [Function.comp_def]

/-- What declaring makes of the store it makes of the symbols. -/
theorem declare_of_store {s : Symbol} {store : SymbolStore} {answer : Except DuplicateName SymbolId}
    (h : t.toSymbolStore.declare s = (store, answer)) :
    t.declare s = (ofSymbols (store.arena.map SymbolRecord.symbol), answer) := by
  obtain rfl : (t.toSymbolStore.declare s).1 = store := by rw [h]
  obtain rfl : (t.toSymbolStore.declare s).2 = answer := by rw [h]
  exact Prod.ext (eq_of_symbols (symbols_ofSymbols _).symm) rfl

theorem declare_of_find?_eq_some {s : Symbol} {id : SymbolId} (h : t.find? s.name = some id) :
    t.declare s = (t, .error ⟨s.name, id⟩) := by
  have hrefused : t.toSymbolStore.declare s = (t.toSymbolStore, .error ⟨s.name, id⟩) := by
    have hfind : t.toSymbolStore.find? s.name = some id := h
    rw [SymbolStore.declare, hfind]
  rw [declare_of_store hrefused]
  exact congrArg (·, _) (eq_of_symbols (symbols_ofSymbols _))

theorem declare_of_find?_eq_none {s : Symbol} (h : t.find? s.name = none) :
    t.declare s = (ofSymbols (t.symbols ++ [s]), .ok ⟨t.size⟩) := by
  have hadded : t.toSymbolStore.declare s = (t.toSymbolStore.add s, .ok ⟨t.size⟩) := by
    have hfind : t.toSymbolStore.find? s.name = none := h
    rw [SymbolStore.declare, hfind]
    rfl
  rw [declare_of_store hadded, SymbolStore.add, List.map_append]
  rfl

theorem symbols_markUnresolved (t : SymbolTable) (id : SymbolId) :
    (t.markUnresolved id).symbols =
      t.symbols.modify id.index fun s => { s with isUnresolved := true } := by
  refine List.ext_getElem? fun index => ?_
  have harena : (t.markUnresolved id).arena = t.arena.modify id.index .markUnresolved := rfl
  rw [symbols, symbols, harena, List.getElem?_map, List.getElem?_modify, List.getElem?_modify,
    List.getElem?_map]
  cases t.arena[index]? with
  | none => rfl
  | some r =>
    by_cases hplace : id.index = index
    · simp [hplace, SymbolRecord.markUnresolved]
    · simp [hplace]

/-! What the table holds. -/

theorem mem_entries {id : SymbolId} {s : Symbol} : (id, s) ∈ t.entries ↔ t.get? id = some s := by
  obtain ⟨index⟩ := id
  simp only [entries_eq, get?_eq, List.mem_map, Prod.mk.injEq, SymbolId.mk.injEq, Prod.exists]
  constructor
  · rintro ⟨s', i, hmem, rfl, rfl⟩
    exact List.mem_zipIdx_iff_getElem?.1 hmem
  · intro h
    exact ⟨s, index, List.mem_zipIdx_iff_getElem?.2 h, rfl, rfl⟩

theorem symbols_entries (t : SymbolTable) : t.entries.map Prod.snd = t.symbols := by
  unfold entries
  rw [List.map_map]
  rfl

theorem mem_symbols_of_get? {id : SymbolId} {s : Symbol} (h : t.get? id = some s) :
    s ∈ t.symbols := by
  rw [get?_eq] at h
  exact List.mem_of_getElem? h

theorem exists_get?_of_mem {s : Symbol} (h : s ∈ t.symbols) : ∃ id, t.get? id = some s := by
  obtain ⟨index, hindex⟩ := List.mem_iff_getElem?.1 h
  exact ⟨⟨index⟩, (t.get?_eq _).trans hindex⟩

theorem nodup_ids (t : SymbolTable) : (t.entries.map Prod.fst).Nodup := by
  have hids : t.entries.map Prod.fst = (t.symbols.zipIdx.map Prod.snd).map SymbolId.mk := by
    simp only [entries_eq, List.map_map]
    rfl
  rw [hids, List.zipIdx_map_snd, ← List.range_eq_range']
  exact List.Pairwise.map _ (fun _ _ hne h => hne (SymbolId.mk.inj h)) List.nodup_range

theorem lookup_entries (t : SymbolTable) (id : SymbolId) : t.entries.lookup id = t.get? id := by
  refine Option.ext fun s => ?_
  rw [lookup_eq_some_iff_mem t.nodup_ids]
  exact mem_entries

theorem mem_ofKind {kind : SymbolKind} {id : SymbolId} :
    id ∈ t.ofKind kind ↔ ∃ s, t.get? id = some s ∧ s.kind = kind := by
  simp only [ofKind_eq, List.mem_map, List.mem_filter, Prod.exists, beq_iff_eq, mem_entries]
  constructor
  · rintro ⟨_, s, h, rfl⟩
    exact ⟨s, h⟩
  · rintro ⟨s, h⟩
    exact ⟨id, s, h, rfl⟩

theorem nodup_ofKind (t : SymbolTable) (kind : SymbolKind) : (t.ofKind kind).Nodup := by
  rw [ofKind_eq]
  exact t.nodup_ids.sublist (List.filter_sublist.map _)

theorem isSome_of_mem_ofKind {kind : SymbolKind} {id : SymbolId} (h : id ∈ t.ofKind kind) :
    (t.get? id).isSome := by
  obtain ⟨s, hs, _⟩ := mem_ofKind.1 h
  exact Option.isSome_iff_exists.2 ⟨s, hs⟩

/-! Lookups by name. -/

theorem get?_of_find? {name : String} {id : SymbolId} (h : t.find? name = some id) :
    ∃ s, t.get? id = some s ∧ s.name = name := by
  rw [find?_eq] at h
  obtain ⟨i, hi, rfl⟩ := Option.map_eq_some_iff.1 h
  obtain ⟨hlt, hname, _⟩ := List.findIdx?_eq_some_iff_getElem.1 hi
  exact ⟨t.symbols[i], (t.get?_eq _).trans (List.getElem?_eq_getElem hlt), by simpa using hname⟩

theorem find?_eq_none_iff {name : String} :
    t.find? name = none ↔ ∀ s ∈ t.symbols, s.name ≠ name := by
  simp [find?_eq]

/-- Names alone decide what is found. -/
theorem find?_eq_of_names {t' : SymbolTable}
    (hnames : t'.symbols.map Symbol.name = t.symbols.map Symbol.name) (name : String) :
    t'.find? name = t.find? name := by
  have hindex : ∀ t : SymbolTable, t.find? name =
      ((t.symbols.map Symbol.name).findIdx? (· == name)).map SymbolId.mk := by
    intro t
    rw [find?_eq, List.findIdx?_map]
    rfl
  rw [hindex, hindex, hnames]

theorem lookup?_eq_some_iff {name : String} {id : SymbolId} {s : Symbol} :
    t.lookup? name = some (id, s) ↔ t.find? name = some id ∧ t.get? id = some s := by
  simp only [lookup?, bind, Option.bind_eq_some_iff, pure, Option.some.injEq, Prod.mk.injEq]
  constructor
  · rintro ⟨_, hfind, _, hget, rfl, rfl⟩
    exact ⟨hfind, hget⟩
  · rintro ⟨hfind, hget⟩
    exact ⟨id, hfind, s, hget, rfl, rfl⟩

theorem lookupKind?_eq_some_iff {kind : SymbolKind} {name : String} {id : SymbolId} {s : Symbol} :
    t.lookupKind? kind name = some (id, s) ↔
      t.find? name = some id ∧ t.get? id = some s ∧ s.kind = kind := by
  simp only [lookupKind?, Option.filter_eq_some_iff, lookup?_eq_some_iff, beq_iff_eq, and_assoc]

/-- No two symbols have one name. -/
def DistinctNames (t : SymbolTable) : Prop := (t.symbols.map Symbol.name).Nodup

theorem DistinctNames.find? (h : t.DistinctNames) {id : SymbolId} {s : Symbol}
    (hget : t.get? id = some s) : t.find? s.name = some id := by
  cases hfind : t.find? s.name with
  | none => exact absurd rfl (find?_eq_none_iff.1 hfind s (mem_symbols_of_get? hget))
  | some other =>
    obtain ⟨s', hget', hname⟩ := get?_of_find? hfind
    have hlt : id.index < (t.symbols.map Symbol.name).length := by
      rw [get?_eq] at hget
      simpa using (List.getElem?_eq_some_iff.1 hget).1
    have heq :
        (t.symbols.map Symbol.name)[id.index]? = (t.symbols.map Symbol.name)[other.index]? := by
      rw [get?_eq] at hget hget'
      rw [List.getElem?_map, List.getElem?_map, hget, hget', Option.map_some, Option.map_some,
        hname]
    have hindex : id.index = other.index := (List.getElem?_inj hlt h).1 heq
    exact congrArg some (congrArg SymbolId.mk hindex.symm)

/-- Symbols are told apart by their names. -/
theorem DistinctNames.eq_of_name (h : t.DistinctNames) {a b : SymbolId}
    (ha : (t.get? a).isSome) (hb : (t.get? b).isSome) (hname : t.name a = t.name b) : a = b := by
  obtain ⟨s, hs⟩ := Option.isSome_iff_exists.1 ha
  obtain ⟨s', hs'⟩ := Option.isSome_iff_exists.1 hb
  have hfind := h.find? hs
  have hfind' := h.find? hs'
  have hsame : s.name = s'.name := by simpa [name, hs, hs'] using hname
  rw [hsame, hfind'] at hfind
  exact (Option.some.inj hfind).symm

/-! Declaring and marking. -/

theorem get?_markUnresolved (t : SymbolTable) (marked id : SymbolId) :
    (t.markUnresolved marked).get? id =
      (t.get? id).map fun s => if id = marked then { s with isUnresolved := true } else s := by
  obtain ⟨index⟩ := id
  obtain ⟨marked⟩ := marked
  simp only [get?_eq, symbols_markUnresolved, List.getElem?_modify, SymbolId.mk.injEq]
  by_cases h : marked = index
  · subst h
    simp
  · simp [h, Ne.symm h]

theorem of_mem_markUnresolved {marked : SymbolId} {s : Symbol}
    (h : s ∈ (t.markUnresolved marked).symbols) :
    s ∈ t.symbols ∨ ∃ old, t.get? marked = some old ∧ s = { old with isUnresolved := true } := by
  obtain ⟨id, hget⟩ := exists_get?_of_mem h
  rw [get?_markUnresolved] at hget
  obtain ⟨old, hold, rfl⟩ := Option.map_eq_some_iff.1 hget
  split
  · next heq =>
    rw [heq] at hold
    exact .inr ⟨old, hold, rfl⟩
  · exact .inl (mem_symbols_of_get? hold)

theorem names_markUnresolved (t : SymbolTable) (marked : SymbolId) :
    (t.markUnresolved marked).symbols.map Symbol.name = t.symbols.map Symbol.name := by
  rw [symbols_markUnresolved]
  exact map_modify_of_eq _ (by intro s; rfl) _ _

theorem DistinctNames.markUnresolved (h : t.DistinctNames) (marked : SymbolId) :
    (t.markUnresolved marked).DistinctNames := by
  unfold DistinctNames
  rw [names_markUnresolved]
  exact h

/-- The symbol that is marked is the one of its name. -/
theorem DistinctNames.markUnresolved_find? (h : t.DistinctNames) {name : String} {id : SymbolId}
    (hfind : t.find? name = some id) :
    (t.markUnresolved id).symbols =
      t.symbols.map fun s => if s.name = name then { s with isUnresolved := true } else s := by
  refine List.ext_getElem? fun index => ?_
  have hget := t.get?_markUnresolved id ⟨index⟩
  rw [get?_eq] at hget
  rw [hget, get?_eq, List.getElem?_map]
  cases hs : t.symbols[index]? with
  | none => rfl
  | some s =>
    have hself : t.find? s.name = some ⟨index⟩ := h.find? ((t.get?_eq _).trans hs)
    have hsame : (⟨index⟩ : SymbolId) = id ↔ s.name = name := by
      constructor
      · rintro rfl
        obtain ⟨found, hfound, hname⟩ := get?_of_find? hfind
        cases hs.symm.trans ((t.get?_eq _).symm.trans hfound)
        exact hname
      · rintro rfl
        rw [hself] at hfind
        exact Option.some.inj hfind
    simp only [Option.map_some, hsame]

theorem DistinctNames.declare (h : t.DistinctNames) (s : Symbol) :
    (t.declare s).1.DistinctNames := by
  cases hfind : t.find? s.name with
  | some id =>
    rw [declare_of_find?_eq_some hfind]
    exact h
  | none =>
    have hfresh := find?_eq_none_iff.1 hfind
    simp only [declare_of_find?_eq_none hfind, DistinctNames, symbols_ofSymbols, List.map_append,
      List.map_cons, List.map_nil] at h ⊢
    refine List.nodup_append.2 ⟨h, by simp, fun name hname other hother => ?_⟩
    obtain ⟨s', hmem, rfl⟩ := List.mem_map.1 hname
    rw [List.mem_singleton.1 hother]
    exact hfresh s' hmem

end ModuleVisibility.SymbolTable
