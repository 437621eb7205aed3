import ModuleVisibility.Proofs.CollisionReport

/-!
How severe a collision is. A warning says that a public member becomes internal, by what the two
members declare. What is enforced differs from this where `internal` has no force: a member that
becomes internal in the global module stays open, and one that leaves it may become internal
although both are declared so.
-/
namespace ModuleVisibility

/-- The visibility that is enforced for a member which a class inherits. -/
def InheritedMember.enforced (m : InheritedMember) (modules : ModuleGraph) : Visibility :=
  modules.effective m.visibility m.home m.isDegraded

theorem Visibility.ne_internal_iff {v : Visibility} : v ≠ .internal ↔ v = .public := by
  cases v <;> simp

/-- What is declared internal is enforced where `internal` has force. -/
theorem InheritedMember.enforced_eq_internal_iff {m : InheritedMember} {modules : ModuleGraph} :
    m.enforced modules = .internal ↔
      m.declaredVisibility = .internal ∧ modules.scopesInternal m.home = true := by
  unfold enforced ModuleGraph.effective declaredVisibility
  cases m.isDegraded <;> cases modules.scopesInternal m.home <;> simp

theorem InheritedMember.enforced_eq_public_iff {m : InheritedMember} {modules : ModuleGraph} :
    m.enforced modules = .public ↔
      m.declaredVisibility = .public ∨ modules.scopesInternal m.home = false := by
  rw [← Visibility.ne_internal_iff, Ne, enforced_eq_internal_iff, not_and_or,
    ← Visibility.ne_internal_iff, Bool.not_eq_true]

namespace Collision

variable {c : Collision} {symbols : SymbolTable} {modules : ModuleGraph} {sources : SourceMap}
  {owner : Symbol}

/-- The member that is replaced, as the class `owner` would inherit it. -/
def before (c : Collision) (owner : Symbol) : InheritedMember := .ofFlat owner.home c.existing

/-- The member that replaces it, as the class `owner` would inherit it. -/
def after (c : Collision) (owner : Symbol) : InheritedMember := .ofFlat owner.home c.incoming

/-- Whether the class `owner` loses a member that is open to everyone to one that is not. -/
def Tightens (c : Collision) (modules : ModuleGraph) (owner : Symbol) : Prop :=
  (c.before owner).enforced modules = .public ∧ (c.after owner).enforced modules = .internal

instance (c : Collision) (modules : ModuleGraph) (owner : Symbol) :
    Decidable (c.Tightens modules owner) :=
  inferInstanceAs (Decidable (_ ∧ _))

theorem narrows_iff : c.narrows = true ↔
    (c.before owner).declaredVisibility = .public ∧
      (c.after owner).declaredVisibility = .internal := by
  unfold narrows
  rw [Bool.and_eq_true, beq_iff_eq, beq_iff_eq]
  rfl

theorem severity_report :
    (c.report symbols modules sources owner).severity = if c.narrows then .warning else .info := by
  unfold report finding
  cases c.narrows <;> rfl

/-- How the severity of a report stands to what is enforced in the class `owner`. -/
structure Graded (c : Collision) (modules : ModuleGraph) (owner : Symbol) (d : Diagnostic) :
    Prop where
  kind : d.kind = .traitMethodCollision
  severity : d.severity = .warning ∨ d.severity = .info
  declared : d.severity = .warning ↔
    (c.before owner).declaredVisibility = .public ∧
      (c.after owner).declaredVisibility = .internal
  /-- The warning is idle where the new member has no module in which `internal` has force. -/
  idle : d.severity = .warning ∧ ¬ c.Tightens modules owner ↔
    (c.before owner).declaredVisibility = .public ∧
      (c.after owner).declaredVisibility = .internal ∧
      modules.scopesInternal (c.after owner).home = false
  /-- It is missing where only the old member has no such module. -/
  missing : d.severity = .info ∧ c.Tightens modules owner ↔
    (c.before owner).declaredVisibility = .internal ∧
      (c.after owner).declaredVisibility = .internal ∧
      modules.scopesInternal (c.before owner).home = false ∧
      modules.scopesInternal (c.after owner).home = true

theorem tightens_iff : c.Tightens modules owner ↔
    ((c.before owner).declaredVisibility = .public ∨
      modules.scopesInternal (c.before owner).home = false) ∧
    (c.after owner).declaredVisibility = .internal ∧
    modules.scopesInternal (c.after owner).home = true :=
  and_congr InheritedMember.enforced_eq_public_iff InheritedMember.enforced_eq_internal_iff

/-- Every report of a collision is graded by the declarations. -/
theorem graded_report (c : Collision) (symbols : SymbolTable) (modules : ModuleGraph)
    (sources : SourceMap) (owner : Symbol) :
    c.Graded modules owner (c.report symbols modules sources owner) := by
  have hwarning : (c.report symbols modules sources owner).severity = .warning ↔
      (c.before owner).declaredVisibility = .public ∧
        (c.after owner).declaredVisibility = .internal := by
    rw [← narrows_iff, severity_report]
    cases c.narrows <;> simp
  have hinfo : (c.report symbols modules sources owner).severity = .info ↔
      ¬ (c.report symbols modules sources owner).severity = .warning := by
    rw [severity_report]
    cases c.narrows <;> simp
  refine ⟨rfl, ?_, hwarning, ?_, ?_⟩
  · rw [hinfo]
    exact Decidable.em _
  · rw [hwarning, tightens_iff]
    cases modules.scopesInternal (c.after owner).home <;> simp +contextual [and_assoc]
  · rw [hinfo, hwarning, tightens_iff]
    cases (c.before owner).declaredVisibility <;>
      cases modules.scopesInternal (c.before owner).home <;>
      simp +contextual [and_comm]

end Collision

namespace Analysis

/-- Clause `index` of the class `owner` with number `id` replaces a member, as `c` says. -/
structure ReplacesInClass (units : List ParsedUnit) (id : SymbolId) (owner : Symbol) (index : Nat)
    (c : Collision) : Prop where
  declared : (collected units).symbols.get? id = some owner
  isClass : owner.kind = .class
  collides : Flattening.CollidesAt (collected units).symbols (checked units).flattening id owner
    index c

/-- The report of a collision in `owner`. -/
def reportOf (units : List ParsedUnit) (owner : Symbol) (c : Collision) : Diagnostic :=
  c.report (collected units).symbols (collected units).modules (texts units) owner

variable {units : List ParsedUnit} {id : SymbolId} {owner : Symbol} {index : Nat} {c : Collision}

theorem ReplacesInClass.reportOf_mem (h : ReplacesInClass units id owner index c) :
    reportOf units owner c ∈ found units := by
  have howns : id ∈ Flattening.owners (collected units).symbols :=
    List.mem_append_right _ (SymbolTable.mem_ofKind.2 ⟨owner, h.declared, h.isClass⟩)
  refine List.mem_of_mem_filter (p := (·.kind = .traitMethodCollision)) ?_
  rw [filter_found_collisions]
  refine List.mem_flatMap.2 ⟨id, howns, ?_⟩
  unfold Flattening.reportsOf
  rw [h.declared, Option.map_some, Option.getD_some]
  exact List.mem_map.2 ⟨(index, c), (Flattening.mem_replaced h.declared).2 h.collides, rfl⟩

/-- Every collision in a class is reported, and it is a warning by what the two members declare.
This agrees with what is enforced unless one of them ends up where `internal` has no force. -/
theorem class_collision_graded (h : ReplacesInClass units id owner index c) :
    reportOf units owner c ∈ found units ∧
      c.Graded (collected units).modules owner (reportOf units owner c) :=
  ⟨h.reportOf_mem, c.graded_report ..⟩

/-- In one module, a trait whose internal method replaces the public one of another trait. -/
def narrowedInModule : List SourceFile :=
  [⟨"a.php", "<?hh\nmodule A;\ntrait T1 \x7b function m(): void \x7b\x7d \x7d\n"
    ++ "trait T2 \x7b internal function m(): void \x7b\x7d \x7d\nclass C \x7b use T1, T2; \x7d\n"⟩]

/-- The method of `T2` replaces that of `T1`. -/
def narrowedMethod : Collision :=
  ⟨⟨"T2", ⟨112, 114⟩⟩, ⟨.method, "m"⟩,
    ⟨.public, .pinned (.declared 0), ⟨0⟩, 0, ⟨0⟩, false⟩,
    ⟨.internal, .pinned (.declared 0), ⟨1⟩, 0, ⟨1⟩, false⟩⟩

theorem class_collision_graded_narrowedMethod :
    ∃ owner, ReplacesInClass (parseProgram narrowedInModule) ⟨2⟩ owner 1 narrowedMethod ∧
      reportOf (parseProgram narrowedInModule) owner narrowedMethod ∈
        found (parseProgram narrowedInModule) ∧
      narrowedMethod.Graded (collected (parseProgram narrowedInModule)).modules owner
        (reportOf (parseProgram narrowedInModule) owner narrowedMethod) := by
  have hchecks : ((collected (parseProgram narrowedInModule)).symbols.get? ⟨2⟩).any
        (·.kind = .class) = true ∧
      (1, narrowedMethod) ∈ Flattening.replaced (collected (parseProgram narrowedInModule)).symbols
        (collected (parseProgram narrowedInModule)).modules
        (texts (parseProgram narrowedInModule)) ⟨2⟩ := by
    decide +kernel
  obtain ⟨hclass, hreplaced⟩ := hchecks
  obtain ⟨owner, howner, hclass⟩ := (Option.any_eq_true _ _).1 hclass
  have h : ReplacesInClass (parseProgram narrowedInModule) ⟨2⟩ owner 1 narrowedMethod :=
    ⟨howner, of_decide_eq_true hclass, (Flattening.mem_replaced howner).1 hreplaced⟩
  exact ⟨owner, h, class_collision_graded h⟩

/-- A class outside all modules: the internal method `m` of `B` replaces a public one, and the
internal method `n` of the module-level trait `T` another internal one. -/
def composedOutside : List SourceFile :=
  [⟨"a.php", "<?hh\ntrait A \x7b function m(): void \x7b\x7d "
      ++ "internal function n(): void \x7b\x7d \x7d\n"
      ++ "trait B \x7b internal function m(): void \x7b\x7d \x7d\n"
      ++ "class C \x7b use A; use B; use T; \x7d\n"⟩,
    ⟨"b.php", "<?hh\nmodule M;\n<<__ModuleLevelTrait>>\n"
      ++ "trait T \x7b internal function n(): void \x7b\x7d \x7d\n"⟩]

/-- The method of `B` replaces that of `A`; both are in the global module. -/
def outsideMethod : Collision :=
  ⟨⟨"B", ⟨134, 135⟩⟩, ⟨.method, "m"⟩,
    ⟨.public, .pinned .global, ⟨0⟩, 0, ⟨0⟩, false⟩,
    ⟨.internal, .pinned .global, ⟨1⟩, 0, ⟨1⟩, false⟩⟩

/-- The method of `T` replaces that of `A`, and only the former is in a module. -/
def enteringMethod : Collision :=
  ⟨⟨"T", ⟨141, 142⟩⟩, ⟨.method, "n"⟩,
    ⟨.internal, .pinned .global, ⟨0⟩, 1, ⟨0⟩, false⟩,
    ⟨.internal, .pinned (.declared 0), ⟨3⟩, 0, ⟨3⟩, false⟩⟩

/-- There is a warning of a member that stays open, and none of one that becomes internal. -/
theorem not_warning_iff_tightens :
    (¬ ∀ units id owner index c, ReplacesInClass units id owner index c →
      (reportOf units owner c).severity = .warning →
        c.Tightens (collected units).modules owner) ∧
    ¬ ∀ units id owner index c, ReplacesInClass units id owner index c →
      c.Tightens (collected units).modules owner →
        (reportOf units owner c).severity = .warning := by
  have hchecks : (((collected (parseProgram composedOutside)).symbols.get? ⟨2⟩).any fun owner =>
        owner.kind = .class ∧
        ¬ outsideMethod.Tightens (collected (parseProgram composedOutside)).modules owner ∧
        enteringMethod.Tightens (collected (parseProgram composedOutside)).modules owner) = true ∧
      ∀ p ∈ [(1, outsideMethod), (2, enteringMethod)],
        p ∈ Flattening.replaced (collected (parseProgram composedOutside)).symbols
          (collected (parseProgram composedOutside)).modules
          (texts (parseProgram composedOutside)) ⟨2⟩ := by
    decide +kernel
  obtain ⟨howner, hreplaced⟩ := hchecks
  obtain ⟨owner, howner, hkind⟩ := (Option.any_eq_true _ _).1 howner
  obtain ⟨hclass, hopen, htightens⟩ := of_decide_eq_true hkind
  have h : ∀ p ∈ [(1, outsideMethod), (2, enteringMethod)],
      ReplacesInClass (parseProgram composedOutside) ⟨2⟩ owner p.1 p.2 :=
    fun p hp => ⟨howner, hclass, (Flattening.mem_replaced howner).1 (hreplaced p hp)⟩
  refine ⟨fun hall => hopen (hall _ _ _ _ _ (h (1, outsideMethod) (by simp)) rfl), fun hall => ?_⟩
  have hwarning := hall _ _ _ _ _ (h (2, enteringMethod) (by simp)) htightens
  cases hwarning

end Analysis
end ModuleVisibility
