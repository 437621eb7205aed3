import ModuleVisibility.Proofs.Layering
import ModuleVisibility.Proofs.Renumbering

/-!
Composition at other numbers. Each step of it takes the clauses of an owner and the entries of a
table in an order that numbers have no part in, and what it compares stays equal or different. So
the tables made are the same at other numbers, and so are the reports of collisions.
-/
namespace ModuleVisibility

variable {ρ : Renumbering}

def Origin.renumber (ρ : Renumbering) : Origin → Origin
  | .pinned home => .pinned (home.renumber ρ)
  | .composer => .composer

def FlatMember.renumber (ρ : Renumbering) (m : FlatMember) : FlatMember :=
  { m with
    origin := m.origin.renumber ρ
    source := m.source.renumber ρ
    via := m.via.renumber ρ }

def InheritedMember.renumber (ρ : Renumbering) (m : InheritedMember) : InheritedMember :=
  { m with
    home := m.home.renumber ρ
    source := m.source.renumber ρ
    via := m.via.renumber ρ }

namespace Origin

theorem renumber_injective : Function.Injective (renumber ρ) := by
  intro a b h
  cases a with
  | pinned home =>
    cases b with
    | pinned home' =>
      rw [ModuleId.renumber_injective (pinned.inj h)]
    | composer => cases h
  | composer =>
    cases b with
    | pinned _ => cases h
    | composer => rfl

theorem resolve_renumber (o : Origin) (home : ModuleId) :
    (o.renumber ρ).resolve (home.renumber ρ) = (o.resolve home).renumber ρ := by
  cases o <;> rfl

theorem throughTrait_renumber (owner : Symbol) (o : Origin) :
    throughTrait (owner.renumber ρ) (o.renumber ρ) = (throughTrait owner o).renumber ρ := by
  cases o with
  | pinned home => rfl
  | composer =>
    by_cases hlevel : owner.isModuleLevelTrait = true
    · simp [renumber, throughTrait, hlevel]
    · simp [renumber, throughTrait, hlevel]

theorem throughClass_renumber (owner : Symbol) (o : Origin) :
    throughClass (owner.renumber ρ) (o.renumber ρ) = (throughClass owner o).renumber ρ :=
  congrArg pinned (resolve_renumber o owner.home)

end Origin

theorem InheritedMember.ofFlat_renumber (home : ModuleId) (m : FlatMember) :
    ofFlat (home.renumber ρ) (m.renumber ρ) = (ofFlat home m).renumber ρ := by
  simp only [ofFlat, FlatMember.renumber, renumber, Origin.resolve_renumber]

theorem Composition.isSameMember_renumber (a b : FlatMember) :
    isSameMember (a.renumber ρ) (b.renumber ρ) = isSameMember a b := by
  have hsource : ((a.renumber ρ).source == (b.renumber ρ).source) = (a.source == b.source) := by
    rw [Bool.eq_iff_iff, beq_iff_eq, beq_iff_eq]
    exact SymbolId.renumber_inj
  have horigin : ((a.renumber ρ).origin == (b.renumber ρ).origin) = (a.origin == b.origin) := by
    rw [Bool.eq_iff_iff, beq_iff_eq, beq_iff_eq]
    exact Origin.renumber_injective.eq_iff
  unfold isSameMember
  rw [hsource, horigin]
  rfl

namespace FlattenContext

variable {x x' : FlattenContext}

/-- The same context at other numbers. -/
structure Renumbered (ρ : Renumbering) (x x' : FlattenContext) : Prop where
  symbols : x.symbols.Renumbered ρ x'.symbols
  modules : x.modules.Renumbered ρ x'.modules
  sources : x.sources.Renumbered ρ x'.sources
  traits : x'.uses.traits.Perm (x.uses.traits.map (SymbolId.renumber ρ))
  uses : ∀ id, x'.uses.uses (id.renumber ρ) =
    (x.uses.uses id).map (Option.map (SymbolId.renumber ρ))
  cyclic : ∀ id, id.renumber ρ ∈ x'.cyclic ↔ id ∈ x.cyclic

/-- A table at other numbers. -/
abbrev moved (ρ : Renumbering) : MemberTable FlatMember → MemberTable FlatMember :=
  MemberTable.map (FlatMember.renumber ρ)

/-- The tables of all traits that `id` uses are the same at other numbers. -/
def SameUsed (ρ : Renumbering) (x : FlattenContext) (id : SymbolId) (done done' : TraitTables) :
    Prop :=
  ∀ target, x.uses.Leads id target →
    done'.lookup (target.renumber ρ) = (done.lookup target).map (moved ρ)

variable (h : x.Renumbered ρ x') {done done' : TraitTables} {id : SymbolId} {owner : Symbol}
  {through through' : Origin → Origin}
include h

theorem Renumbered.isUnresolved (id : SymbolId) :
    x'.isUnresolved (id.renumber ρ) = x.isUnresolved id := by
  have hcyclic : x'.cyclic.contains (id.renumber ρ) = x.cyclic.contains id := by
    rw [Bool.eq_iff_iff, List.contains_iff_mem, List.contains_iff_mem, h.cyclic]
  unfold FlattenContext.isUnresolved
  rw [hcyclic, h.symbols.get?]
  cases x.symbols.get? id <;> rfl

theorem Renumbered.composeUses (hthrough : ∀ o, through' (o.renumber ρ) = (through o).renumber ρ)
    (hdone : SameUsed ρ x id done done') :
    x'.composeUses (id.renumber ρ) (owner.renumber ρ) through' done' =
      (x.composeUses id owner through done).map (FlatMember.renumber ρ) := by
  refine composeUses_map Composition.isSameMember_renumber (fun _ _ => rfl) rfl (h.uses id) hdone
    fun target _ m => ?_
  rw [h.isUnresolved]
  simp only [Composition.bring, FlatMember.renumber, hthrough]

theorem Renumbered.collisionDiagnostics (owner : Symbol) (collisions : List Collision) :
    x'.collisionDiagnostics (owner.renumber ρ)
      (collisions.map (Collision.map (FlatMember.renumber ρ))) =
      (x.collisionDiagnostics owner collisions).map (Diagnostic.renumber ρ) := by
  have hhomes : ∀ c : Collision, (c.map (FlatMember.renumber ρ)).homes? x'.modules =
      c.homes? x.modules := by
    rintro ⟨clause, key, ⟨_, before, _, _, _, _⟩, ⟨_, after, _, _, _, _⟩⟩
    unfold Collision.homes?
    cases before with
    | composer => cases after <;> rfl
    | pinned before =>
      cases after with
      | composer => rfl
      | pinned after =>
        simp only [Collision.map, FlatMember.renumber, Origin.renumber, ModuleId.renumber_inj,
          h.modules.name]
  have hfinding : ∀ c : Collision,
      (c.map (FlatMember.renumber ρ)).finding x'.symbols x'.modules (owner.renumber ρ) =
        c.finding x.symbols x.modules owner := by
    intro c
    unfold Collision.finding
    rw [hhomes]
    simp only [Collision.map, FlatMember.renumber, h.symbols.name]
    rfl
  unfold FlattenContext.collisionDiagnostics
  rw [List.map_map, List.map_map]
  refine List.map_congr_left fun c _ => ?_
  simp only [Function.comp_apply, hfinding, Finding.renumber_report, Symbol.unit_renumber,
    h.sources.locate]
  rfl

theorem Renumbered.addOwn (composed : MemberTable FlatMember) :
    x'.addOwn (id.renumber ρ) (owner.renumber ρ) (moved ρ composed) =
      moved ρ (x.addOwn id owner composed) := by
  have horigin := Origin.throughTrait_renumber (ρ := ρ) owner .composer
  unfold FlattenContext.addOwn
  rw [Symbol.members_renumber]
  generalize owner.members.zipIdx = members
  induction members generalizing composed with
  | nil => rfl
  | cons first rest ih =>
    rw [List.foldl_cons, List.foldl_cons, ← ih, moved, MemberTable.map_insert]
    simp only [FlatMember.renumber, ← horigin, h.isUnresolved]
    rfl

theorem Renumbered.flattenTrait (hdone : SameUsed ρ x id done done') (owner : Symbol) :
    x'.flattenTrait done' (id.renumber ρ) (owner.renumber ρ) =
      (moved ρ (x.flattenTrait done id owner).1,
        (x.flattenTrait done id owner).2.map (Diagnostic.renumber ρ)) := by
  unfold FlattenContext.flattenTrait
  rw [h.composeUses (Origin.throughTrait_renumber owner) hdone]
  exact Prod.ext (h.addOwn _) (h.collisionDiagnostics owner _)

theorem Renumbered.flattenClass (hdone : SameUsed ρ x id done done') (owner : Symbol) :
    x'.flattenClass done' (id.renumber ρ) (owner.renumber ρ) =
      ((x.flattenClass done id owner).1.map (InheritedMember.renumber ρ),
        (x.flattenClass done id owner).2.map (Diagnostic.renumber ρ)) := by
  have hremove : ∀ composed : MemberTable FlatMember,
      removeOwn (owner.renumber ρ) (moved ρ composed) = moved ρ (removeOwn owner composed) := by
    intro composed
    unfold removeOwn
    rw [Symbol.members_renumber]
    generalize owner.members = members
    induction members generalizing composed with
    | nil => rfl
    | cons first rest ih =>
      rw [List.foldl_cons, List.foldl_cons, ← ih, moved, MemberTable.map_erase]
  unfold FlattenContext.flattenClass
  rw [h.composeUses (Origin.throughClass_renumber owner) hdone]
  refine Prod.ext ?_ (h.collisionDiagnostics owner _)
  simp only [Composition.map, hremove, moved, MemberTable.map_map]
  congr 1
  funext m
  exact InheritedMember.ofFlat_renumber owner.home m

end FlattenContext
end ModuleVisibility
