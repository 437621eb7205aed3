import ModuleVisibility.Proofs.Degradation
import ModuleVisibility.Proofs.Extension
import ModuleVisibility.Proofs.RenumberedFlattening

/-!
Flattening a program that has grown at the end. The tables of the old traits and classes stay as
they are, since those of the traits they use do; so does whatever is reported of them, in its order.
-/
namespace ModuleVisibility

/-- Where old elements list what they listed and new ones nothing of the kind, what is listed of the
kind is what the old ones list. -/
theorem filter_flatMap_eq {α β : Type} {old : α → Bool} {p : β → Bool} {l : List α}
    {f f' : α → List β}
    (hold : ∀ a ∈ l, old a = true → (f' a).filter p = f a)
    (hnew : ∀ a ∈ l, old a = false → (f' a).filter p = []) :
    (l.flatMap f').filter p = (l.filter old).flatMap f := by
  induction l with
  | nil => rfl
  | cons a rest ih =>
    have hrest := ih (fun b hb => hold b (List.mem_cons_of_mem a hb))
      fun b hb => hnew b (List.mem_cons_of_mem a hb)
    rw [List.flatMap_cons, List.filter_append, hrest]
    cases ha : old a with
    | true => rw [List.filter_cons_of_pos ha, List.flatMap_cons, hold a List.mem_cons_self ha]
    | false =>
      rw [List.filter_cons_of_neg (by simp [ha]), hnew a List.mem_cons_self ha, List.nil_append]

/-! Cycles whose traits have the names they had. -/

namespace CycleReport

variable {t t' : SymbolTable} {cycle : List SymbolId}

theorem takeWhile_dropWhile_congr {α : Type} {p q : α → Bool} {l : List α}
    (h : ∀ a ∈ l, p a = q a) :
    l.takeWhile p = l.takeWhile q ∧ l.dropWhile p = l.dropWhile q := by
  induction l with
  | nil => exact ⟨rfl, rfl⟩
  | cons a rest ih =>
    obtain ⟨htake, hdrop⟩ := ih fun b hb => h b (List.mem_cons_of_mem a hb)
    rw [List.takeWhile_cons, List.takeWhile_cons, List.dropWhile_cons, List.dropWhile_cons,
      h a List.mem_cons_self, htake, hdrop]
    exact ⟨rfl, rfl⟩

theorem rotate_congr (h : ∀ id ∈ cycle, t'.name id = t.name id) :
    rotate t' cycle = rotate t cycle := by
  unfold rotate
  rw [List.map_congr_left h]
  have hnames : ∀ id ∈ cycle, decide (t'.name id ≠ least (cycle.map t.name)) =
      decide (t.name id ≠ least (cycle.map t.name)) := fun id hid => by rw [h id hid]
  obtain ⟨htake, hdrop⟩ := takeWhile_dropWhile_congr hnames
  dsimp only
  rw [htake, hdrop]

theorem ofRotated?_of_grown {sources sources' : SourceMap} {ids : List SymbolId}
    (h : t.symbols <+: t'.symbols) (hids : ∀ id ∈ ids, (t.get? id).isSome)
    (hplaces : ∀ s ∈ t.symbols, ∀ span, sources'.locate s.unit span = sources.locate s.unit span) :
    ofRotated? t' sources' ids = ofRotated? t sources ids := by
  have hnames : ids.map t'.name = ids.map t.name :=
    List.map_congr_left fun id hid => SymbolTable.name_of_grown h (hids id hid)
  cases ids with
  | nil => rfl
  | cons first others =>
    obtain ⟨head, hhead⟩ := Option.isSome_iff_exists.1 (hids first List.mem_cons_self)
    have hnext : t'.name (others.headD first) = t.name (others.headD first) := by
      refine SymbolTable.name_of_grown h (hids _ ?_)
      cases others <;> simp
    have hplace := hplaces head (SymbolTable.mem_symbols_of_get? hhead)
    unfold ofRotated?
    simp only [SymbolTable.get?_of_grown h hhead, hhead, hnames, hnext, Option.map_some, hplace]

theorem unit_of_ofRotated? {sources : SourceMap} {ids : List SymbolId} {d : Diagnostic}
    (h : ofRotated? t sources ids = some d) :
    ∃ id ∈ ids, ∃ head, t.get? id = some head ∧ d.location.unit = head.unit := by
  cases ids with
  | nil => cases h
  | cons first others =>
    obtain ⟨head, hhead, rfl⟩ := Option.map_eq_some_iff.1 h
    exact ⟨first, List.mem_cons_self, head, hhead, SourceMap.unit_locate ..⟩

end CycleReport

/-! What is pinned is pinned to a module that was there, or to that of the owner. -/

namespace Origin

variable {owner : Symbol} {o : Origin} {home : ModuleId}

theorem of_throughTrait (h : throughTrait owner o = .pinned home) :
    o = .pinned home ∨ home = owner.home := by
  cases o with
  | pinned old => exact .inl h
  | composer =>
    simp only [throughTrait] at h
    split at h
    · cases h
      exact .inr rfl
    · cases h

theorem of_throughClass (h : throughClass owner o = .pinned home) :
    o = .pinned home ∨ home = owner.home := by
  cases o with
  | pinned old => exact .inl h
  | composer =>
    cases h
    exact .inr rfl

end Origin

namespace FlattenContext

variable {x x' : FlattenContext} {added : List SymbolId} {id : SymbolId} {owner : Symbol}

/-- The context in which a program that has grown is flattened: the tables are longer, and the new
traits `added` use none of the old ones. -/
structure Extended (x : FlattenContext) (added : List SymbolId) (x' : FlattenContext) : Prop where
  symbols : x.symbols.symbols <+: x'.symbols.symbols
  modules : x.modules.modules <+: x'.modules.modules
  homes : ∀ s ∈ x.symbols.symbols, x.modules.Knows s.home
  places : ∀ s ∈ x.symbols.symbols, ∀ span,
    x'.sources.locate s.unit span = x.sources.locate s.unit span
  graph : x.uses.Extended added x'.uses
  owners : ∀ id, (x.symbols.get? id).isSome → x'.uses.uses id = x.uses.uses id
  cyclic : ∀ id ∈ x.uses.traits, x'.cyclic.contains id = x.cyclic.contains id

/-- The entry came through a trait that there is, and its module is there too. -/
def Known (x : FlattenContext) (m : FlatMember) : Prop :=
  (x.symbols.get? m.via).isSome ∧ ∀ home, m.origin = .pinned home → x.modules.Knows home

namespace Extended

variable (h : x.Extended added x') (hx : x.WellFormed)
include h hx

theorem isUnresolved (hid : id ∈ x.uses.traits) : x'.isUnresolved id = x.isUnresolved id := by
  obtain ⟨s, hs, _⟩ := (hx.traits id).1 hid
  unfold FlattenContext.isUnresolved
  rw [h.cyclic id hid, SymbolTable.get?_eq_of_grown h.symbols (by simp [hs])]

theorem composeUses {done done' : TraitTables} (hid : (x.symbols.get? id).isSome)
    (hdone : ∀ target, x.uses.Leads id target → done'.lookup target = done.lookup target)
    (through : Origin → Origin) :
    x'.composeUses id owner through done' = x.composeUses id owner through done :=
  composeUses_congr (h.owners id hid)
    (fun target hleads => h.isUnresolved hx (hx.closed id target hleads)) hdone through

theorem addOwn (hid : id ∈ x.uses.traits) (composed : MemberTable FlatMember) :
    x'.addOwn id owner composed = x.addOwn id owner composed := by
  unfold FlattenContext.addOwn
  rw [h.isUnresolved hx hid]

theorem get?_of_trait (hid : id ∈ x.uses.traits) :
    ∃ s, x.symbols.get? id = some s ∧ x'.symbols.get? id = some s ∧ s.kind = .trait := by
  obtain ⟨s, hs, hkind⟩ := (hx.traits id).1 hid
  exact ⟨s, hs, SymbolTable.get?_of_grown h.symbols hs, hkind⟩

/-- The tables of the old traits, since those of the traits they use have stayed. -/
theorem lookup_flattenTraits (hx' : x'.WellFormed) (hid : id ∈ x.uses.traits) :
    x'.flattenTraits.1.lookup id = x.flattenTraits.1.lookup id := by
  have hends := hx.ends id
  induction hends with
  | intro id _ ih =>
    obtain ⟨s, hs, hs', hkind⟩ := h.get?_of_trait hx hid
    rw [FlattenContext.lookup_flattenTraits hx hs hkind,
      FlattenContext.lookup_flattenTraits hx' hs' hkind]
    unfold flattenTrait
    dsimp only
    rw [h.composeUses hx (by simp [hs]) fun target hleads =>
      ih target hleads (hx.closed id target hleads), h.addOwn hx hid]

omit hx

theorem finding {c : Collision} (hexisting : x.Known c.existing) (hincoming : x.Known c.incoming)
    (owner : Symbol) :
    c.finding x'.symbols x'.modules owner = c.finding x.symbols x.modules owner := by
  have hhomes : c.homes? x'.modules = c.homes? x.modules := by
    unfold Collision.homes?
    cases hbefore : c.existing.origin with
    | composer => rfl
    | pinned before =>
      cases hafter : c.incoming.origin with
      | composer => rfl
      | pinned after =>
        simp only [ModuleGraph.name_of_grown h.modules (hexisting.2 before hbefore),
          ModuleGraph.name_of_grown h.modules (hincoming.2 after hafter)]
  unfold Collision.finding
  rw [SymbolTable.name_of_grown h.symbols hincoming.1,
    SymbolTable.name_of_grown h.symbols hexisting.1, hhomes]

theorem collisionDiagnostics {collisions : List Collision} (howner : owner ∈ x.symbols.symbols)
    (hknown : ∀ c ∈ collisions, x.Known c.existing ∧ x.Known c.incoming) :
    x'.collisionDiagnostics owner collisions = x.collisionDiagnostics owner collisions := by
  unfold FlattenContext.collisionDiagnostics
  refine List.map_congr_left fun c hc => ?_
  rw [h.finding (hknown c hc).1 (hknown c hc).2, h.places owner howner]

end Extended

/-- Whatever is reported of an owner is reported in its unit. -/
theorem unit_of_mem_collisionDiagnostics {collisions : List Collision} {d : Diagnostic}
    (hd : d ∈ x.collisionDiagnostics owner collisions) : d.location.unit = owner.unit := by
  obtain ⟨c, _, rfl⟩ := List.mem_map.1 hd
  exact SourceMap.unit_locate ..

/-- What the tables of some traits give to an owner is known if they are and it is. -/
theorem all_known_composeUses {done : TraitTables} {through : Origin → Origin} (hx : x.WellFormed)
    (hdone : ∀ target table, done.lookup target = some table → ∀ e ∈ table.entries, ∀ home,
      e.2.origin = .pinned home → x.modules.Knows home)
    (hthrough : ∀ {o home}, through o = .pinned home → o = .pinned home ∨ home = owner.home)
    (howner : x.modules.Knows owner.home) :
    (x.composeUses id owner through done).All x.Known := by
  refine all_composeUses fun target table hleads htable e he => ⟨?_, fun home hhome => ?_⟩
  · obtain ⟨s, hs, _⟩ := (hx.traits target).1 (hx.closed id target hleads)
    exact Option.isSome_iff_exists.2 ⟨s, hs⟩
  · rcases hthrough hhome with hold | rfl
    · exact hdone target table htable e he home hold
    · exact howner

end FlattenContext

/-- The tables `c'` of a program to which units from number `n` on have been added. Symbols and
modules are at first those of `c`; the clauses of old symbols name what they named, and new traits
use none of the old ones. -/
structure Collection.Extended (n : Nat) (sources sources' : SourceMap) (c c' : Collection) :
    Prop where
  symbols : c.symbols.symbols <+: c'.symbols.symbols
  modules : c.modules.modules <+: c'.modules.modules
  homes : ∀ s ∈ c.symbols.symbols, c.modules.Knows s.home
  below : ∀ s ∈ c.symbols.symbols, s.unit < n
  beyond : ∀ id s, c.symbols.get? id = none → c'.symbols.get? id = some s → n ≤ s.unit
  places : ∀ unit < n, ∀ span, sources'.locate unit span = sources.locate unit span
  clauses : ∀ s ∈ c.symbols.symbols, ∀ clause ∈ s.uses,
    c'.symbols.find? clause.name = c.symbols.find? clause.name
  apart : ∀ id s, c.symbols.get? id = none → c'.symbols.get? id = some s → s.kind = .trait →
    ∀ clause ∈ s.uses, c.symbols.useTarget? clause = none

namespace Collection.Extended

variable {n : Nat} {sources sources' : SourceMap} {c c' : Collection}
  (h : c.Extended n sources sources' c')
include h

theorem graph :
    c.symbols.useGraph.Extended (c.symbols.newTraits c'.symbols) c'.symbols.useGraph :=
  SymbolTable.extended_useGraph h.symbols h.clauses h.apart

theorem beyond_ofGraph : CycleSearch.Beyond (c.symbols.newTraits c'.symbols)
    (CycleSearch.ofGraph c.symbols.useGraph) (CycleSearch.ofGraph c'.symbols.useGraph) :=
  CycleSearch.beyond_ofGraph h.graph c.symbols.closed_useGraph

theorem context : (Flattening.context c.symbols c.modules sources).Extended
    (c.symbols.newTraits c'.symbols) (Flattening.context c'.symbols c'.modules sources') where
  symbols := h.symbols
  modules := h.modules
  homes := h.homes
  places s hs := h.places s.unit (h.below s hs)
  graph := by
    obtain ⟨more, hmore, howners⟩ := h.beyond_ofGraph.closing
    have hdropped := h.graph.drop (CycleSearch.ofGraph c.symbols.useGraph).closing howners
    rwa [← hmore] at hdropped
  owners id hid := by
    obtain ⟨more, hmore, howners⟩ := h.beyond_ofGraph.closing
    obtain ⟨s, hs⟩ := Option.isSome_iff_exists.1 hid
    have hs : c.symbols.get? id = some s := hs
    have huses : c'.symbols.useGraph.uses id = c.symbols.useGraph.uses id :=
      SymbolTable.uses_useGraph_of_grown h.symbols hs fun clause hclause =>
        h.clauses s (SymbolTable.mem_symbols_of_get? hs) clause hclause
    have hothers : ∀ clause ∈ more, clause.owner ≠ id := by
      rintro clause hclause rfl
      rw [(SymbolTable.mem_newTraits.1 (howners clause hclause)).1] at hs
      cases hs
    have hdropped := UseGraph.uses_drop_append (CycleSearch.ofGraph c.symbols.useGraph).closing
      huses hothers
    rwa [← hmore] at hdropped
  cyclic id hid := by
    obtain ⟨more, hmore, hids⟩ := h.beyond_ofGraph.cycles
    have hid : id ∈ c.symbols.useGraph.traits := hid
    have hid' : id ∈ c'.symbols.useGraph.traits := by
      rw [h.graph.traits]
      exact List.mem_append_left _ hid
    rw [Bool.eq_iff_iff, List.contains_iff_mem, List.contains_iff_mem]
    have hmem : ∀ {t : SymbolTable} {modules sources}, id ∈ t.useGraph.traits →
        (id ∈ (Flattening.context t modules sources).cyclic ↔
          ∃ cycle ∈ (CycleSearch.ofGraph t.useGraph).cycles, id ∈ cycle) := fun hid =>
      CycleSearch.mem_cyclic.trans (and_iff_right hid)
    rw [hmem hid, hmem hid', hmore]
    simp only [List.mem_append, or_and_right, exists_or, or_iff_left_iff_imp]
    rintro ⟨cycle, hcycle, hin⟩
    exact absurd hid (h.graph.fresh id (hids cycle hcycle id hin))

theorem contains_cyclic {id : SymbolId} (hid : (c.symbols.get? id).isSome) :
    (Flattening.ofProgram c'.symbols c'.modules sources').cyclic.contains id =
      (Flattening.ofProgram c.symbols c.modules sources).cyclic.contains id := by
  obtain ⟨s, hs⟩ := Option.isSome_iff_exists.1 hid
  have hs' := SymbolTable.get?_of_grown h.symbols hs
  by_cases hkind : s.kind = .trait
  · exact h.context.cyclic id (SymbolTable.mem_ofKind.2 ⟨s, hs, hkind⟩)
  · have hnot : ∀ {t : SymbolTable} {modules sources}, t.get? id = some s →
        (Flattening.ofProgram t modules sources).cyclic.contains id = false := by
      intro t modules sources hs
      refine Bool.eq_false_iff.2 fun hcontains => hkind ?_
      have htrait : id ∈ t.ofKind .trait :=
        (CycleSearch.mem_cyclic.1 (List.contains_iff_mem.1 hcontains)).1
      obtain ⟨found, hfound, htrait⟩ := SymbolTable.mem_ofKind.1 htrait
      cases hs.symm.trans hfound
      exact htrait
    rw [hnot hs, hnot hs']

/-- The old symbols are those of the old units. -/
theorem filter_entries : c'.symbols.entries.filter (·.2.unit < n) = c.symbols.entries := by
  have hold : ∀ e ∈ c.symbols.entries, decide (e.2.unit < n) = true := fun e he =>
    decide_eq_true (h.below e.2 (SymbolTable.mem_symbols_of_get? (SymbolTable.mem_entries.1 he)))
  have hnew : ∀ e ∈ c'.symbols.entries.filter fun e => (c.symbols.get? e.1).isNone,
      ¬ decide (e.2.unit < n) = true := by
    intro e he
    obtain ⟨he, hnone⟩ := List.mem_filter.1 he
    have hle := h.beyond e.1 e.2 (Option.isNone_iff_eq_none.1 hnone) (SymbolTable.mem_entries.1 he)
    simpa using hle
  rw [SymbolTable.entries_of_grown h.symbols, List.filter_append, List.filter_eq_self.2 hold,
    List.filter_eq_nil_iff.2 hnew, List.append_nil]

theorem filter_symbols : c'.symbols.symbols.filter (·.unit < n) = c.symbols.symbols := by
  rw [← SymbolTable.symbols_entries, ← SymbolTable.symbols_entries, List.filter_map,
    ← h.filter_entries]
  rfl

/-! The tables of old traits and classes. -/

theorem lookup_traits {id : SymbolId} (hid : id ∈ c.symbols.ofKind .trait) :
    (Flattening.ofProgram c'.symbols c'.modules sources').traits.lookup id =
      (Flattening.ofProgram c.symbols c.modules sources).traits.lookup id :=
  h.context.lookup_flattenTraits (Flattening.wellFormed_context ..)
    (Flattening.wellFormed_context ..) hid

theorem traitMembers? {id : SymbolId} (hid : (c.symbols.get? id).isSome) :
    (Flattening.ofProgram c'.symbols c'.modules sources').traitMembers? id =
      (Flattening.ofProgram c.symbols c.modules sources).traitMembers? id := by
  obtain ⟨s, hs⟩ := Option.isSome_iff_exists.1 hid
  have hs' := SymbolTable.get?_of_grown h.symbols hs
  by_cases hkind : s.kind = .trait
  · exact h.lookup_traits (SymbolTable.mem_ofKind.2 ⟨s, hs, hkind⟩)
  · have hnone : ∀ {t : SymbolTable} {modules sources}, t.get? id = some s →
        (Flattening.ofProgram t modules sources).traitMembers? id = none := by
      intro t modules sources hs
      refine Option.eq_none_iff_forall_ne_some.2 fun table htable => ?_
      obtain ⟨owner, howner, htrait, _⟩ := Flattening.of_traitMembers? htable
      cases hs.symm.trans howner
      exact hkind htrait
    rw [hnone hs, hnone hs']

theorem composeUses {id : SymbolId} {s : Symbol} (hs : c.symbols.get? id = some s)
    (through : Origin → Origin) :
    (Flattening.context c'.symbols c'.modules sources').composeUses id s through
        (Flattening.ofProgram c'.symbols c'.modules sources').traits =
      (Flattening.context c.symbols c.modules sources).composeUses id s through
        (Flattening.ofProgram c.symbols c.modules sources).traits := by
  have hx := Flattening.wellFormed_context c.symbols c.modules sources
  have hid : (c.symbols.get? id).isSome := Option.isSome_iff_exists.2 ⟨s, hs⟩
  exact h.context.composeUses hx hid (fun target hleads =>
    h.lookup_traits (hx.closed id target hleads))
    through

theorem inherited? {id : SymbolId} (hid : (c.symbols.get? id).isSome) :
    (Flattening.ofProgram c'.symbols c'.modules sources').inherited? id =
      (Flattening.ofProgram c.symbols c.modules sources).inherited? id := by
  obtain ⟨s, hs⟩ := Option.isSome_iff_exists.1 hid
  have hs' := SymbolTable.get?_of_grown h.symbols hs
  have hclass : id ∈ c'.symbols.ofKind .class ↔ id ∈ c.symbols.ofKind .class := by
    rw [SymbolTable.mem_ofKind, SymbolTable.mem_ofKind, hs, hs']
  rw [Flattening.inherited?_ofProgram, Flattening.inherited?_ofProgram, hs, hs']
  simp only [hclass, Option.map_some, FlattenContext.flattenClass, h.composeUses hs]

/-! What new traits and classes have. -/

/-- A chain of use clauses from an owner that names no old trait leads over new traits only. -/
theorem mem_newTraits_of_chain {id : SymbolId} {s : Symbol} (hs : c'.symbols.get? id = some s)
    (hclauses : ∀ clause ∈ s.uses, c.symbols.useTarget? clause = none) {rest : List SymbolId}
    (hchain : List.IsChain c'.symbols.keptGraph.Leads (id :: rest)) :
    ∀ d ∈ rest, d ∈ c.symbols.newTraits c'.symbols := by
  induction rest generalizing id s with
  | nil => simp
  | cons next rest ih =>
    obtain ⟨hleads, hrest⟩ := List.isChain_cons_cons.1 hchain
    have hnext : next ∈ c.symbols.newTraits c'.symbols :=
      SymbolTable.mem_newTraits_of_leads h.symbols hs hclauses hleads.of_drop
    obtain ⟨hnone, t, ht, hkind⟩ := SymbolTable.mem_newTraits.1 hnext
    intro d hd
    rcases List.mem_cons.1 hd with rfl | hd
    · exact hnext
    · exact ih ht (h.apart next t hnone ht hkind) hrest d hd

/-- The table of a new trait holds members of new traits. -/
theorem get?_source_of_holds {id : SymbolId} (hid : id ∈ c.symbols.newTraits c'.symbols)
    {key : MemberKey} {m : FlatMember}
    (hm : (Flattening.ofProgram c'.symbols c'.modules sources').Holds id key m) :
    c.symbols.get? m.source = none := by
  obtain ⟨hnone, s, hs, hkind⟩ := SymbolTable.mem_newTraits.1 hid
  obtain ⟨rest, hrest⟩ := Flattening.exists_delivers (Flattening.traitMember?_of_holds hm)
  rcases List.mem_cons.1 (List.mem_of_getLast? hrest.source) with heq | hmem
  · rwa [heq]
  · exact (SymbolTable.mem_newTraits.1
      (h.mem_newTraits_of_chain hs (h.apart id s hnone hs hkind) hrest.uses _ hmem)).1

/-- A new class that names no old trait inherits members of new traits. -/
theorem get?_source_of_inherits {id : SymbolId} {s : Symbol} (hs : c'.symbols.get? id = some s)
    (hclauses : ∀ clause ∈ s.uses, c.symbols.useTarget? clause = none) {key : MemberKey}
    {r : InheritedMember}
    (hr : (Flattening.ofProgram c'.symbols c'.modules sources').Inherits id key r) :
    c.symbols.get? r.source = none := by
  obtain ⟨table, htable, hmem⟩ := hr
  obtain ⟨owner, howner, hclass, hentry⟩ := Flattening.of_mem_inherited htable hmem
  obtain ⟨chain, hchain⟩ := Flattening.exists_inheritsOver howner hclass hentry
  exact (SymbolTable.mem_newTraits.1 (h.mem_newTraits_of_chain hs hclauses hchain.uses _
    (List.mem_of_getLast? hchain.source))).1

/-! The reports. -/

/-- What traits and classes compose came through traits that there are, from modules that there
are. -/
theorem all_known {id : SymbolId} {s : Symbol} (hs : c.symbols.get? id = some s)
    {through : Origin → Origin} (hthrough : ∀ {o home}, through o = .pinned home →
      o = .pinned home ∨ home = s.home) :
    ((Flattening.context c.symbols c.modules sources).composeUses id s through
      (Flattening.ofProgram c.symbols c.modules sources).traits).All
        (Flattening.context c.symbols c.modules sources).Known := by
  refine FlattenContext.all_known_composeUses (Flattening.wellFormed_context ..) ?_ hthrough
    (h.homes s (SymbolTable.mem_symbols_of_get? hs))
  intro target table htable e he home horigin
  obtain ⟨rest, hrest⟩ := Flattening.exists_delivers
    (Flattening.traitMember?_of_holds ⟨table, htable, he⟩)
  rw [hrest.origin] at horigin
  cases hpinned : c.symbols.pinnedHome? (target :: rest) with
  | none =>
    rw [hpinned] at horigin
    cases horigin
  | some pinned =>
    rw [hpinned] at horigin
    cases horigin
    exact SymbolTable.knows_pinnedHome h.homes hpinned

theorem flattenTrait_reports {id : SymbolId} {s : Symbol} (hs : c.symbols.get? id = some s) :
    ((Flattening.context c'.symbols c'.modules sources').flattenTrait
        (Flattening.ofProgram c'.symbols c'.modules sources').traits id s).2 =
      ((Flattening.context c.symbols c.modules sources).flattenTrait
        (Flattening.ofProgram c.symbols c.modules sources).traits id s).2 := by
  unfold FlattenContext.flattenTrait
  dsimp only
  rw [h.composeUses hs]
  exact h.context.collisionDiagnostics (SymbolTable.mem_symbols_of_get? hs)
    (h.all_known hs Origin.of_throughTrait).collisions

theorem flattenClass_reports {id : SymbolId} {s : Symbol} (hs : c.symbols.get? id = some s) :
    ((Flattening.context c'.symbols c'.modules sources').flattenClass
        (Flattening.ofProgram c'.symbols c'.modules sources').traits id s).2 =
      ((Flattening.context c.symbols c.modules sources).flattenClass
        (Flattening.ofProgram c.symbols c.modules sources).traits id s).2 := by
  unfold FlattenContext.flattenClass
  dsimp only
  rw [h.composeUses hs]
  exact h.context.collisionDiagnostics (SymbolTable.mem_symbols_of_get? hs)
    (h.all_known hs Origin.of_throughClass).collisions

/-- Of what is reported when some symbols are flattened, the old ones have what they had. -/
theorem below_reports {α : Type} {flatten flatten' : SymbolId → Symbol → α × List Diagnostic}
    (hsame : ∀ id s, c.symbols.get? id = some s → (flatten' id s).2 = (flatten id s).2)
    (hunit : ∀ id s, ∀ d ∈ (flatten' id s).2, d.location.unit = s.unit) (ids : List SymbolId) :
    Diagnostic.below n
        ((Flattening.context c'.symbols c'.modules sources').reports flatten' ids) =
      (Flattening.context c.symbols c.modules sources).reports flatten
        (ids.filter fun id => (c.symbols.get? id).isSome) := by
  refine filter_flatMap_eq (fun id _ hid => ?_) fun id _ hid => ?_
  · obtain ⟨s, hs⟩ := Option.isSome_iff_exists.1 hid
    have hget : (Flattening.context c.symbols c.modules sources).symbols.get? id = some s := hs
    have hget' : (Flattening.context c'.symbols c'.modules sources').symbols.get? id = some s :=
      SymbolTable.get?_of_grown h.symbols hs
    rw [hget, hget', Option.map_some, Option.map_some, Option.getD_some, Option.getD_some,
      ← hsame id s hs]
    refine List.filter_eq_self.2 fun d hd => decide_eq_true ?_
    rw [hunit id s d hd]
    exact h.below s (SymbolTable.mem_symbols_of_get? hs)
  · have hnone : c.symbols.get? id = none := by simpa using hid
    cases hs' : (Flattening.context c'.symbols c'.modules sources').symbols.get? id with
    | none => rfl
    | some s =>
      refine List.filter_eq_nil_iff.2 fun d hd hbelow => ?_
      have hlt : d.location.unit < n := of_decide_eq_true hbelow
      rw [hunit id s d hd] at hlt
      exact absurd (h.beyond id s hnone hs') (Nat.not_le_of_lt hlt)

theorem below_flattenTraits :
    Diagnostic.below n (Flattening.context c'.symbols c'.modules sources').flattenTraits.2 =
      (Flattening.context c.symbols c.modules sources).flattenTraits.2 := by
  have hx := Flattening.wellFormed_context c.symbols c.modules sources
  have hx' := Flattening.wellFormed_context c'.symbols c'.modules sources'
  have hlevels := UseGraph.flatten_levels_extended h.context.graph hx.closed hx.nodup hx'.nodup
  have hold : ∀ id ∈ (Flattening.context c'.symbols c'.modules sources').uses.levels.flatten,
      decide (id ∈ (Flattening.context c.symbols c.modules sources).uses.traits) =
        (c.symbols.get? id).isSome := by
    intro id hid
    obtain ⟨s', hs', hkind⟩ :=
      (hx'.traits id).1 ((UseGraph.mem_flatten_levels hx'.nodup hx'.closed hx'.ends).1 hid)
    rw [Bool.eq_iff_iff, decide_eq_true_eq, hx.traits, Option.isSome_iff_exists]
    constructor
    · rintro ⟨s, hs, _⟩
      exact ⟨s, hs⟩
    · rintro ⟨s, hs⟩
      cases (SymbolTable.get?_of_grown h.symbols hs).symm.trans hs'
      exact ⟨_, hs, hkind⟩
  rw [FlattenContext.reports_flattenTraits hx', FlattenContext.reports_flattenTraits hx, ← hlevels,
    List.filter_congr hold]
  exact h.below_reports (fun _ _ hs => h.flattenTrait_reports hs)
    (fun _ _ _ hd => FlattenContext.unit_of_mem_collisionDiagnostics hd) _

theorem below_flattenClasses :
    Diagnostic.below n ((Flattening.context c'.symbols c'.modules sources').reports
        ((Flattening.context c'.symbols c'.modules sources').flattenClass
          (Flattening.ofProgram c'.symbols c'.modules sources').traits)
            (c'.symbols.ofKind .class)) =
      (Flattening.context c.symbols c.modules sources).reports
        ((Flattening.context c.symbols c.modules sources).flattenClass
          (Flattening.ofProgram c.symbols c.modules sources).traits) (c.symbols.ofKind .class) := by
  rw [← SymbolTable.filter_ofKind_of_grown h.symbols]
  exact h.below_reports (fun _ _ hs => h.flattenClass_reports hs)
    (fun _ _ _ hd => FlattenContext.unit_of_mem_collisionDiagnostics hd) _

theorem below_useDiagnostics : Diagnostic.below n (c'.symbols.useDiagnostics sources') =
    c.symbols.useDiagnostics sources := by
  unfold SymbolTable.useDiagnostics
  rw [← h.filter_symbols]
  refine filter_flatMap_eq (fun owner howner hold => ?_) fun owner _ hnew => ?_
  · have howner : owner ∈ c.symbols.symbols := by
      rw [← h.filter_symbols]
      exact List.mem_filter.2 ⟨howner, hold⟩
    have hsame : ∀ clause ∈ owner.uses,
        ((c'.symbols.useFinding? owner clause).map
          (·.report (sources'.locate owner.unit clause.span))) =
          (c.symbols.useFinding? owner clause).map
          (·.report (sources.locate owner.unit clause.span)) := by
      intro clause hclause
      unfold SymbolTable.useFinding?
      rw [SymbolTable.lookup?_of_grown h.symbols (h.clauses owner howner clause hclause),
        h.places owner.unit (h.below owner howner)]
    rw [List.filterMap_congr hsame]
    refine List.filter_eq_self.2 fun d hd => ?_
    obtain ⟨clause, _, hd⟩ := List.mem_filterMap.1 hd
    obtain ⟨finding, _, rfl⟩ := Option.map_eq_some_iff.1 hd
    simpa [Finding.report] using h.below owner howner
  · refine List.filter_eq_nil_iff.2 fun d hd => ?_
    obtain ⟨clause, _, hd⟩ := List.mem_filterMap.1 hd
    obtain ⟨finding, _, rfl⟩ := Option.map_eq_some_iff.1 hd
    simpa [Finding.report] using hnew

/-- The cycles of old traits. -/
theorem below_oldCycles {cycles : List (List SymbolId)}
    (hknown : ∀ cycle ∈ cycles, ∀ id ∈ cycle, (c.symbols.get? id).isSome) :
    Diagnostic.below n (cycles.filterMap fun cycle =>
        CycleReport.ofRotated? c'.symbols sources' (CycleReport.rotate c'.symbols cycle)) =
      cycles.filterMap fun cycle =>
        CycleReport.ofRotated? c.symbols sources (CycleReport.rotate c.symbols cycle) := by
  have hsame : ∀ cycle ∈ cycles,
      CycleReport.ofRotated? c'.symbols sources' (CycleReport.rotate c'.symbols cycle) =
        CycleReport.ofRotated? c.symbols sources (CycleReport.rotate c.symbols cycle) := by
    intro cycle hcycle
    rw [CycleReport.rotate_congr fun id hid =>
      SymbolTable.name_of_grown h.symbols (hknown cycle hcycle id hid)]
    refine CycleReport.ofRotated?_of_grown h.symbols (fun id hid => ?_) fun s hs =>
      h.places s.unit (h.below s hs)
    exact hknown cycle hcycle id ((CycleReport.perm_rotate c.symbols cycle).mem_iff.1 hid)
  rw [List.filterMap_congr hsame]
  refine List.filter_eq_self.2 fun d hd => ?_
  obtain ⟨cycle, _, hd⟩ := List.mem_filterMap.1 hd
  obtain ⟨id, _, head, hhead, hunit⟩ := CycleReport.unit_of_ofRotated? hd
  rw [hunit]
  exact decide_eq_true (h.below head (SymbolTable.mem_symbols_of_get? hhead))

/-- The cycles of new traits. -/
theorem below_newCycles {cycles : List (List SymbolId)}
    (hnew : ∀ cycle ∈ cycles, ∀ id ∈ cycle, id ∈ c.symbols.newTraits c'.symbols) :
    Diagnostic.below n (cycles.filterMap fun cycle =>
      CycleReport.ofRotated? c'.symbols sources' (CycleReport.rotate c'.symbols cycle)) = [] := by
  refine List.filter_eq_nil_iff.2 fun d hd => ?_
  obtain ⟨cycle, hcycle, hd⟩ := List.mem_filterMap.1 hd
  obtain ⟨id, hid, head, hhead, hunit⟩ := CycleReport.unit_of_ofRotated? hd
  have hid := (CycleReport.perm_rotate c'.symbols cycle).mem_iff.1 hid
  have hbeyond := h.beyond id head (SymbolTable.mem_newTraits.1 (hnew cycle hcycle id hid)).1 hhead
  rw [hunit]
  simpa using hbeyond

theorem below_cycles :
    Diagnostic.below n (CycleReport.diagnostics c'.symbols sources'
        (CycleSearch.ofGraph c'.symbols.useGraph).cycles) =
      CycleReport.diagnostics c.symbols sources
        (CycleSearch.ofGraph c.symbols.useGraph).cycles := by
  obtain ⟨more, hmore, hnew⟩ := h.beyond_ofGraph.cycles
  have hknown : ∀ cycle ∈ (CycleSearch.ofGraph c.symbols.useGraph).cycles, ∀ id ∈ cycle,
      (c.symbols.get? id).isSome := fun cycle hcycle id hid =>
    SymbolTable.isSome_of_mem_ofKind
      ((CycleSearch.valid_ofGraph c.symbols.closed_useGraph).cycles cycle hcycle id hid)
  have hsets : ∀ cycle ∈ (CycleSearch.ofGraph c.symbols.useGraph).cycles,
      CycleReport.nameSet c'.symbols cycle = CycleReport.nameSet c.symbols cycle := by
    intro cycle hcycle
    unfold CycleReport.nameSet
    rw [List.map_congr_left fun id hid =>
      SymbolTable.name_of_grown h.symbols (hknown cycle hcycle id hid)]
  have hdistinct : distinctBy (CycleReport.nameSet c'.symbols)
      (CycleSearch.ofGraph c.symbols.useGraph).cycles =
        distinctBy (CycleReport.nameSet c.symbols)
        (CycleSearch.ofGraph c.symbols.useGraph).cycles :=
    distinctBy_congr fun a ha b hb => by rw [hsets a ha, hsets b hb]
  unfold CycleReport.diagnostics
  rw [hmore, distinctBy_append, List.filterMap_append, Diagnostic.below_append, hdistinct,
    h.below_oldCycles fun cycle hcycle => hknown cycle (mem_of_mem_distinctBy hcycle),
    h.below_newCycles fun cycle hcycle =>
      hnew cycle (mem_of_mem_distinctBy (List.mem_filter.1 hcycle).1), List.append_nil]

/-- What flattening reports in the old units. -/
theorem below_flattening :
    Diagnostic.below n (Flattening.ofProgram c'.symbols c'.modules sources').diagnostics =
      (Flattening.ofProgram c.symbols c.modules sources).diagnostics := by
  have hreports : ∀ (t : SymbolTable) modules sources,
      (Flattening.ofProgram t modules sources).diagnostics =
        t.useDiagnostics sources
          ++ CycleReport.diagnostics t sources (CycleSearch.ofGraph t.useGraph).cycles
          ++ (Flattening.context t modules sources).flattenTraits.2
          ++ (Flattening.context t modules sources).reports
            ((Flattening.context t modules sources).flattenClass
              (Flattening.ofProgram t modules sources).traits) (t.ofKind .class) := by
    intro t modules sources
    rw [← FlattenContext.flatMap_flattenAll]
    rfl
  rw [hreports, hreports, Diagnostic.below_append, Diagnostic.below_append, Diagnostic.below_append,
    h.below_useDiagnostics, h.below_cycles, h.below_flattenTraits, h.below_flattenClasses]

end Collection.Extended

end ModuleVisibility
