import Mathlib.Data.List.Perm.Subperm
import ModuleVisibility.Proofs.Analysis
import ModuleVisibility.Proofs.Declaring
import ModuleVisibility.Proofs.Renumbering

/-!
Another order of the units of a program and of the declarations in them gives the same modules and
symbols at other numbers, if no name is declared twice.
-/
namespace ModuleVisibility

/-- The first number stays, and those behind it change as `σ` says. -/
def behindFirst (σ : Equiv.Perm Nat) : Equiv.Perm Nat where
  toFun i := if i = 0 then 0 else σ (i - 1) + 1
  invFun i := if i = 0 then 0 else σ.symm (i - 1) + 1
  left_inv i := by
    by_cases h : i = 0
    · simp [h]
    · simp [h, Nat.sub_add_cancel (Nat.pos_of_ne_zero h)]
  right_inv i := by
    by_cases h : i = 0
    · simp [h]
    · simp [h, Nat.sub_add_cancel (Nat.pos_of_ne_zero h)]

@[simp] theorem behindFirst_zero (σ : Equiv.Perm Nat) : behindFirst σ 0 = 0 := rfl

@[simp] theorem behindFirst_succ (σ : Equiv.Perm Nat) (i : Nat) :
    behindFirst σ (i + 1) = σ i + 1 := by
  simp [behindFirst]

/-- The numbers by which two orders of a list differ. -/
theorem exists_numbers_of_perm {α : Type} {l l' : List α} (h : l.Perm l') :
    ∃ σ : Equiv.Perm Nat, ∀ i, l'[σ i]? = l[i]? := by
  induction h with
  | nil => exact ⟨.refl _, fun i => rfl⟩
  | @cons a l l' _ ih =>
    obtain ⟨σ, hσ⟩ := ih
    refine ⟨behindFirst σ, fun i => ?_⟩
    cases i with
    | zero => simp
    | succ i => simp [hσ i]
  | swap a b l =>
    refine ⟨Equiv.swap 0 1, fun i => ?_⟩
    rcases i with _ | _ | i
    · rfl
    · rfl
    · rw [Equiv.swap_apply_of_ne_of_ne (by omega) (by omega)]
      rfl
  | trans _ _ ih ih' =>
    obtain ⟨σ, hσ⟩ := ih
    obtain ⟨τ, hτ⟩ := ih'
    exact ⟨σ.trans τ, fun i => (hτ (σ i)).trans (hσ i)⟩

/-- Two lists that differ in the places of their elements, and in these only as `R` says. -/
structure Placed {α : Type} (R : α → α → Prop) (σ : Equiv.Perm Nat) (l l' : List α) : Prop where
  length : l'.length = l.length
  get? : ∀ i a, l[i]? = some a → ∃ a', l'[σ i]? = some a' ∧ R a a'

namespace Placed

variable {α β : Type} {R : α → α → Prop} {σ : Equiv.Perm Nat} {l l' : List α}

theorem map (h : Placed R σ l l') {S : β → β → Prop} {f : α → β}
    (hf : ∀ a a', R a a' → S (f a) (f a')) : Placed S σ (l.map f) (l'.map f) where
  length := by simp [h.length]
  get? i b hb := by
    rw [List.getElem?_map] at hb
    obtain ⟨a, ha, rfl⟩ := Option.map_eq_some_iff.1 hb
    obtain ⟨a', ha', hR⟩ := h.get? i a ha
    exact ⟨f a', by rw [List.getElem?_map, ha', Option.map_some], hf a a' hR⟩

theorem perm_range (h : Placed R σ l l') :
    ((List.range l.length).map σ).Perm (List.range l'.length) := by
  have hnodup : ((List.range l.length).map σ).Nodup := List.nodup_range.map σ.injective
  have hsubset : (List.range l.length).map σ ⊆ List.range l'.length := by
    intro j hj
    obtain ⟨i, hi, rfl⟩ := List.mem_map.1 hj
    obtain ⟨a', ha', _⟩ := h.get? i _ (List.getElem?_eq_getElem (List.mem_range.1 hi))
    exact List.mem_range.2 (List.getElem?_eq_some_iff.1 ha').1
  refine (List.subperm_of_subset hnodup hsubset).perm_of_length_le ?_
  simp [h.length]

theorem exists_get? (h : Placed R σ l l') {i : Nat} {a' : α} (ha' : l'[σ i]? = some a') :
    ∃ a, l[i]? = some a ∧ R a a' := by
  have hlt : σ i ∈ List.range l'.length := List.mem_range.2 (List.getElem?_eq_some_iff.1 ha').1
  obtain ⟨j, hj, hji⟩ := List.mem_map.1 (h.perm_range.mem_iff.2 hlt)
  rw [σ.injective hji] at hj
  have hi : i < l.length := List.mem_range.1 hj
  have ha : l[i]? = some l[i] := List.getElem?_eq_getElem hi
  obtain ⟨b, hb, hR⟩ := h.get? i _ ha
  cases ha'.symm.trans hb
  exact ⟨_, ha, hR⟩

theorem get?_eq (h : Placed Eq σ l l') (i : Nat) : l'[σ i]? = l[i]? := by
  refine Option.ext fun a => ⟨fun ha' => ?_, fun ha => ?_⟩
  · obtain ⟨_, ha, rfl⟩ := h.exists_get? ha'
    exact ha
  · obtain ⟨_, ha', rfl⟩ := h.get? i a ha
    exact ha'

theorem exists_iff (h : Placed R σ l l') {P : α → Prop} (hP : ∀ a a', R a a' → (P a ↔ P a')) :
    (∃ a ∈ l, P a) ↔ ∃ a' ∈ l', P a' := by
  constructor
  · rintro ⟨a, ha, hPa⟩
    obtain ⟨i, hi⟩ := List.mem_iff_getElem?.1 ha
    obtain ⟨a', ha', hR⟩ := h.get? i a hi
    exact ⟨a', List.mem_of_getElem? ha', (hP a a' hR).1 hPa⟩
  · rintro ⟨a', ha', hPa'⟩
    obtain ⟨j, hj⟩ := List.mem_iff_getElem?.1 ha'
    rw [← σ.apply_symm_apply j] at hj
    obtain ⟨a, ha, hR⟩ := h.exists_get? hj
    exact ⟨a, List.mem_of_getElem? ha, (hP a a' hR).2 hPa'⟩

theorem flatMap_zipIdx (l : List α) (f : α → Nat → List β) :
    (l.zipIdx.flatMap fun p => f p.1 p.2) =
      (List.range l.length).flatMap fun i => (l[i]?.map (f · i)).getD [] := by
  induction l using List.reverseRecOn with
  | nil => rfl
  | append_singleton l a ih =>
    have hbefore : ∀ i ∈ List.range l.length, ((l ++ [a])[i]?.map (f · i)).getD [] =
        (l[i]?.map (f · i)).getD [] := by
      intro i hi
      rw [List.getElem?_append_left (List.mem_range.1 hi)]
    rw [List.zipIdx_append, List.flatMap_append, ih, List.length_append, List.length_singleton,
      List.range_succ, List.flatMap_append, List.flatMap_congr hbefore]
    simp

/-- What is gathered from the elements with their places is gathered in another order. -/
theorem perm_flatMap (h : Placed R σ l l') (f f' : α → Nat → List β)
    (hf : ∀ i a a', l[i]? = some a → R a a' → (f' a' (σ i)).Perm (f a i)) :
    (l'.zipIdx.flatMap fun p => f' p.1 p.2).Perm (l.zipIdx.flatMap fun p => f p.1 p.2) := by
  rw [flatMap_zipIdx, flatMap_zipIdx]
  refine (List.Perm.flatMap_right _ h.perm_range.symm).trans ?_
  rw [List.flatMap_map]
  refine List.Perm.flatMap_left _ fun i hmem => ?_
  have hi : i < l.length := List.mem_range.1 hmem
  have ha : l[i]? = some l[i] := List.getElem?_eq_getElem hi
  obtain ⟨a', ha', hR⟩ := h.get? i _ ha
  rw [ha, ha']
  exact hf i _ a' ha hR

end Placed

/-- The same unit with what it declares in another order. -/
structure CompilationUnit.Rearranged (u u' : CompilationUnit) : Prop where
  directive : u'.directive = u.directive
  definitions : u'.definitions.Perm u.definitions
  declarations : u'.declarations.Perm u.declarations

/-- The same text and faults, with what the unit declares in another order. -/
structure ParsedUnit.Rearranged (u u' : ParsedUnit) : Prop where
  file : u'.file = u.file
  errors : u'.errors = u.errors
  unit : u.unit.Rearranged u'.unit

/-- The same units in another order, and in each the declarations in another order. -/
def Rearranged (units units' : List ParsedUnit) : Prop :=
  ∃ order, units.Perm order ∧ List.Forall₂ ParsedUnit.Rearranged order units'

/-- Another order of the units alone. -/
theorem Rearranged.of_perm {units units' : List ParsedUnit} (h : units.Perm units') :
    Rearranged units units' :=
  ⟨units', h, List.forall₂_same.2 fun _ _ => ⟨rfl, rfl, ⟨rfl, .refl _, .refl _⟩⟩⟩

theorem Rearranged.placed {units units' : List ParsedUnit} (h : Rearranged units units') :
    ∃ σ, Placed ParsedUnit.Rearranged σ units units' := by
  obtain ⟨order, hperm, hpairs⟩ := h
  obtain ⟨σ, hσ⟩ := exists_numbers_of_perm hperm
  refine ⟨σ, hpairs.length_eq.symm.trans hperm.length_eq.symm, fun i u hu => ?_⟩
  rw [← hσ i] at hu
  obtain ⟨hlt, hget⟩ := List.getElem?_eq_some_iff.1 hu
  have hlt' : σ i < units'.length := hpairs.length_eq ▸ hlt
  refine ⟨units'[σ i], List.getElem?_eq_getElem hlt', ?_⟩
  rw [← hget]
  exact hpairs.get hlt hlt'

theorem CompilationUnit.Rearranged.mem_mentions {u u' : CompilationUnit} (h : u.Rearranged u')
    {name : String} : name ∈ u.mentions ↔ name ∈ u'.mentions := by
  unfold CompilationUnit.mentions
  rw [List.mem_append, List.mem_append, h.directive, (h.definitions.map _).mem_iff]

/-- The numbers of units and modules that an order of units gives. -/
structure SameModules (ρ : Renumbering) (units units' : List CompilationUnit) : Prop where
  placed : Placed CompilationUnit.Rearranged ρ.unit units units'
  names : ∀ i : Nat, (ModuleGraph.ofUnits units').names[ρ.home i]? =
    (ModuleGraph.ofUnits units).names[i]?

theorem exists_sameModules {σ : Equiv.Perm Nat} {units units' : List CompilationUnit}
    (h : Placed CompilationUnit.Rearranged σ units units') :
    ∃ τ, SameModules ⟨σ, τ, .refl _⟩ units units' := by
  have hmem : ∀ name, name ∈ (ModuleGraph.ofUnits units).names ↔
      name ∈ (ModuleGraph.ofUnits units').names := by
    intro name
    rw [ModuleGraph.mem_names_ofUnits, ModuleGraph.mem_names_ofUnits]
    exact h.exists_iff fun _ _ hu => hu.mem_mentions
  have hperm := (List.perm_ext_iff_of_nodup (ModuleGraph.nodup_names_ofUnits units)
    (ModuleGraph.nodup_names_ofUnits units')).2 hmem
  obtain ⟨τ, hτ⟩ := exists_numbers_of_perm hperm
  exact ⟨τ, h, hτ⟩

namespace SameModules

variable {ρ : Renumbering} {units units' : List CompilationUnit}

theorem mem_names (h : SameModules ρ units units') {name : String} :
    name ∈ (ModuleGraph.ofUnits units').names ↔ name ∈ (ModuleGraph.ofUnits units).names := by
  rw [ModuleGraph.mem_names_ofUnits, ModuleGraph.mem_names_ofUnits]
  exact (h.placed.exists_iff fun _ _ hu => hu.mem_mentions).symm

/-- A name belongs to the same module. -/
theorem lookup? (h : SameModules ρ units units') (name : String) :
    (ModuleGraph.ofUnits units').lookup? name =
      ((ModuleGraph.ofUnits units).lookup? name).map (ModuleId.renumber ρ) := by
  cases hlookup : (ModuleGraph.ofUnits units).lookup? name with
  | none =>
    have hnew := ModuleGraph.lookup?_eq_none_iff.1 hlookup
    rw [← h.mem_names] at hnew
    exact ModuleGraph.lookup?_eq_none_iff.2 hnew
  | some id =>
    obtain ⟨index, hindex, rfl⟩ :=
      (ModuleGraph.lookup?_eq_some_iff (ModuleGraph.nodup_names_ofUnits units)).1 hlookup
    rw [← h.names index] at hindex
    exact (ModuleGraph.lookup?_eq_some_iff (ModuleGraph.nodup_names_ofUnits units')).2
      ⟨ρ.home index, hindex, rfl⟩

theorem homeIn (h : SameModules ρ units units') {u u' : CompilationUnit} (hu : u.Rearranged u')
    (position : Nat) : (ModuleGraph.ofUnits units').homeIn u' position =
      ((ModuleGraph.ofUnits units).homeIn u position).renumber ρ := by
  unfold ModuleGraph.homeIn
  rw [hu.directive]
  cases u.directive with
  | none => rfl
  | some directive =>
    simp only [h.lookup?]
    split
    · cases (ModuleGraph.ofUnits units).lookup? directive.name <;> rfl
    · rfl

theorem moduleAt (h : SameModules ρ units units') {index : Nat} {u : CompilationUnit}
    (hu : units[index]? = some u) (position : Nat) :
    (ModuleGraph.ofUnits units').moduleAt (ρ.unit index) position =
      ((ModuleGraph.ofUnits units).moduleAt index position).renumber ρ := by
  obtain ⟨u', hu', hsame⟩ := h.placed.get? index u hu
  rw [ModuleGraph.moduleAt_ofUnits hu, ModuleGraph.moduleAt_ofUnits hu', h.homeIn hsame]

theorem perm_numbered (h : SameModules ρ units units') :
    (numbered units').Perm ((numbered units).map fun p => (ρ.unit p.1, p.2)) := by
  have hgather := h.placed.perm_flatMap (fun u index => u.declarations.map (ρ.unit index, ·))
    (fun u index => u.declarations.map (index, ·)) fun _ _ _ _ hu => hu.declarations.map _
  refine hgather.trans (List.Perm.of_eq ?_)
  simp only [numbered, List.map_flatMap, List.map_map]
  rfl

theorem perm_declaredNames (h : SameModules ρ units units') :
    (declaredNames units').Perm (declaredNames units) := by
  have hperm := h.perm_numbered.map (·.2.name)
  rw [names_numbered, List.map_map] at hperm
  rw [← names_numbered units]
  exact hperm

/-- A declaration and its unit. -/
theorem exists_unit {p : Nat × Declaration} (hp : p ∈ numbered units) :
    ∃ u, units[p.1]? = some u := by
  obtain ⟨⟨u, index⟩, hu, hp⟩ := List.mem_flatMap.1 hp
  obtain ⟨d, _, rfl⟩ := List.mem_map.1 hp
  exact ⟨u, List.mem_zipIdx_iff_getElem?.1 hu⟩

variable {sources sources' : SourceMap}

theorem modules (h : SameModules ρ units units') :
    (Collection.ofUnits sources units).modules.Renumbered ρ
      (Collection.ofUnits sources' units').modules := by
  have hdeclares := Collection.declares_ofUnits sources units
  have hdeclares' := Collection.declares_ofUnits sources' units'
  have hresolved : ∀ (units : List CompilationUnit) (i : Nat),
      (ModuleGraph.ofUnits units).modules[i]? =
        (ModuleGraph.ofUnits units).names[i]?.map (⟨·, false⟩) := by
    intro units i
    unfold ModuleGraph.names
    rw [List.getElem?_map, Option.map_map]
    cases hm : (ModuleGraph.ofUnits units).modules[i]? with
    | none => rfl
    | some m =>
      have hinitial := (ModuleGraph.initial_ofUnits units).resolved m (List.mem_of_getElem? hm)
      simp [← hinitial]
  intro index
  rw [hdeclares.modules, hdeclares'.modules, List.getElem?_map, List.getElem?_map, hresolved,
    hresolved, h.names, Option.map_map, Option.map_map]
  have hdeclared : ∀ name, name ∈ (numbered units').map (·.2.name) ↔
      name ∈ (numbered units).map (·.2.name) := by
    intro name
    rw [names_numbered, names_numbered, h.perm_declaredNames.mem_iff]
  simp only [Function.comp_def, hdeclared]

theorem lookup?_collected (h : SameModules ρ units units') (name : String) :
    (Collection.ofUnits sources' units').modules.lookup? name =
      ((Collection.ofUnits sources units).modules.lookup? name).map (ModuleId.renumber ρ) := by
  have hdeclares := Collection.declares_ofUnits sources units
  have hdeclares' := Collection.declares_ofUnits sources' units'
  rw [ModuleGraph.lookup?_congr hdeclares.names, ModuleGraph.lookup?_congr hdeclares'.names,
    h.lookup?]

theorem nodup_numbered (h : SameModules ρ units units') (hnames : (declaredNames units).Nodup) :
    ((numbered units).map (·.2.name)).Nodup ∧ ((numbered units').map (·.2.name)).Nodup := by
  rw [names_numbered, names_numbered]
  exact ⟨hnames, h.perm_declaredNames.nodup_iff.2 hnames⟩

theorem perm_symbols (h : SameModules ρ units units') (sources sources' : SourceMap)
    (hnames : (declaredNames units).Nodup) :
    (Collection.ofUnits sources' units').symbols.symbols.Perm
      ((Collection.ofUnits sources units).symbols.symbols.map (Symbol.renumber ρ)) := by
  obtain ⟨hnodup, hnodup'⟩ := h.nodup_numbered hnames
  rw [(Collection.declares_ofUnits sources units).symbols_of_nodup hnodup,
    (Collection.declares_ofUnits sources' units').symbols_of_nodup hnodup', List.map_map]
  refine (h.perm_numbered.map _).trans (List.Perm.of_eq ?_)
  rw [List.map_map]
  refine List.map_congr_left fun p hp => ?_
  obtain ⟨u, hu⟩ := exists_unit hp
  simp only [Function.comp_apply, h.moduleAt hu]
  rfl

theorem perm_conflicts (h : SameModules ρ units units') (hnames : (declaredNames units).Nodup)
    (hsources : sources.Renumbered ρ sources') :
    (Collection.ofUnits sources' units').diagnostics.Perm
      ((Collection.ofUnits sources units).diagnostics.map (Diagnostic.renumber ρ)) := by
  obtain ⟨hnodup, hnodup'⟩ := h.nodup_numbered hnames
  have hconflict : ∀ unit d,
      Collection.conflict? (ModuleGraph.ofUnits units') sources' (ρ.unit unit) d =
        (Collection.conflict? (ModuleGraph.ofUnits units) sources unit d).map
          (Diagnostic.renumber ρ) := by
    intro unit d
    unfold Collection.conflict?
    simp only [h.mem_names, hsources.locate]
    split <;> rfl
  rw [(Collection.declares_ofUnits sources units).diagnostics_of_nodup hnodup,
    (Collection.declares_ofUnits sources' units').diagnostics_of_nodup hnodup']
  exact perm_filterMap_of_map h.perm_numbered fun p _ => hconflict p.1 p.2

end SameModules

namespace Analysis

/-- The units' texts, modules, symbols and faults are the same, at other numbers. -/
structure Renumbered (ρ : Renumbering) (units units' : List ParsedUnit) : Prop where
  sources : (texts units).Renumbered ρ (texts units')
  modules : (collected units).modules.Renumbered ρ (collected units').modules
  lookup? : ∀ name, (collected units').modules.lookup? name =
    ((collected units).modules.lookup? name).map (ModuleId.renumber ρ)
  symbols : (collected units).symbols.Renumbered ρ (collected units').symbols
  faults : (syntaxDiagnostics (texts units') units').Perm
    ((syntaxDiagnostics (texts units) units).map (Diagnostic.renumber ρ))
  conflicts : (collected units').diagnostics.Perm
    ((collected units).diagnostics.map (Diagnostic.renumber ρ))

theorem perm_syntaxDiagnostics {ρ : Renumbering} {units units' : List ParsedUnit}
    {sources sources' : SourceMap} (h : Placed ParsedUnit.Rearranged ρ.unit units units')
    (hsources : sources.Renumbered ρ sources') :
    (syntaxDiagnostics sources' units').Perm
      ((syntaxDiagnostics sources units).map (Diagnostic.renumber ρ)) := by
  have hgather := h.perm_flatMap
    (fun u index => u.errors.map fun e =>
      ((Finding.malformed e.message).report (sources.locate index e.span)).renumber ρ)
    (fun u index => u.errors.map fun e =>
      (Finding.malformed e.message).report (sources'.locate index e.span))
    fun index u u' _ hu => by simp [hu.errors, hsources.locate]
  refine hgather.trans (List.Perm.of_eq ?_)
  simp only [syntaxDiagnostics, List.map_flatMap, List.map_map]
  rfl

/-- Rearranged units have the same modules and symbols at other numbers. -/
theorem exists_renumbered {units units' : List ParsedUnit} (h : Rearranged units units')
    (hnames : (declaredNames (units.map (·.unit))).Nodup) :
    ∃ ρ, Renumbered ρ units units' := by
  obtain ⟨σ, hplaced⟩ := h.placed
  obtain ⟨τ, hmodules⟩ := exists_sameModules
    (hplaced.map (f := ParsedUnit.unit) fun _ _ hu => hu.unit)
  have hfiles := hplaced.map (f := ParsedUnit.file) (S := Eq) fun _ _ hu => hu.file.symm
  have hsources : (texts units).Renumbered ⟨σ, τ, .refl _⟩ (texts units') := fun i =>
    hfiles.get?_eq i
  obtain ⟨π, hπ⟩ := exists_numbers_of_perm
    (hmodules.perm_symbols (texts units) (texts units') hnames).symm
  refine ⟨⟨σ, τ, π⟩, hsources, hmodules.modules, hmodules.lookup?_collected,
    ⟨fun id => ?_, ?_, ?_⟩,
    perm_syntaxDiagnostics hplaced hsources, hmodules.perm_conflicts hnames hsources⟩
  · have hget := hπ id.index
    rw [List.getElem?_map] at hget
    rw [SymbolTable.get?_eq, SymbolTable.get?_eq]
    exact hget
  · exact (Collection.sound_ofUnits _ _).names
  · exact (Collection.sound_ofUnits _ _).names

end Analysis
end ModuleVisibility
