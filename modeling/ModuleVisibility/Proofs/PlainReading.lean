import ModuleVisibility.Proofs.PlainScan

/-!
Plain units are read as what they mean. Every reader takes the tokens of its construct off the front
and leaves those behind it, so the readings of a text follow its pieces.
-/
namespace ModuleVisibility
namespace Reading

variable {α β : Type}

/-- The reading meets no fault and leaves these tokens, and what is read is as `Q` says. -/
def Yields (r : Reading α) (rest : List Token) (Q : α → Prop) : Prop :=
  ∃ a, r = success a rest ∧ Q a

theorem Yields.map {r : Reading α} {rest : List Token} {Q : α → Prop} {R : β → Prop}
    (h : r.Yields rest Q) {f : α → β} (hf : ∀ a, Q a → R (f a)) : (r.map f).Yields rest R := by
  obtain ⟨a, rfl, ha⟩ := h
  exact ⟨f a, rfl, hf a ha⟩

/-- A block ends at its first brace, if that closes it. -/
theorem splitBlock?_append {inside : List Token}
    (h : ∀ t ∈ inside, t.isPunct '\x7b' = false ∧ t.isPunct '\x7d' = false) (close : Span)
    (rest : List Token) :
    splitBlock? 0 (inside ++ ⟨.punct '\x7d', close⟩ :: rest) = some (inside, rest) := by
  induction inside with
  | nil => rfl
  | cons t inside ih =>
    obtain ⟨ht, hinside⟩ := List.forall_mem_cons.1 h
    rw [List.cons_append, splitBlock?, if_neg (by simp [ht.2]), ht.1, if_neg (by simp), ih hinside]
    rfl

end Reading

namespace Plain

open Reading

variable {ts : List Token}

/-! Bodies. -/

/-- A body opens and closes no block. -/
theorem Spells.isPunct_of_mem_body {body : List Statement}
    (h : Spells (body.flatMap Statement.pieces) ts)
    {t : Token} (ht : t ∈ ts) : t.isPunct '\x7b' = false ∧ t.isPunct '\x7d' = false := by
  obtain ⟨p, hp, hkind⟩ := h.exists_of_mem ht
  obtain ⟨s, _, hps⟩ := List.mem_flatMap.1 hp
  have hall : s.pieces.all (fun p => p.lexeme.tokenKind? != some (.punct '\x7b')
      && p.lexeme.tokenKind? != some (.punct '\x7d')) = true := by cases s <;> rfl
  have hkinds := List.all_eq_true.1 hall p hps
  simp only [hkind, Bool.and_eq_true, bne_iff_ne, ne_eq, Option.some_inj] at hkinds
  exact ⟨beq_false_of_ne hkinds.1, beq_false_of_ne hkinds.2⟩

/-- Behind a name, the parameters and the type are passed over, and the block is the body. -/
theorem signature_block {body : List Statement} (h : Spells (block body) ts) (stop : Span)
    (rest : List Token) :
    (signature stop 0 (ts ++ rest)).Yields rest (Spells (body.flatMap Statement.pieces)) := by
  obtain ⟨front, back, rfl, hfront, hback⟩ := h.exists_append
  obtain ⟨_, _, rfl, _, _, rfl, _, _, rfl, _, _, rfl, brace, _, rfl, rfl⟩ := hfront
  obtain ⟨inside, _, rfl, hinside, close, _, rfl, rfl⟩ := hback.exists_append
  refine ⟨inside, ?_, hinside⟩
  have hsplit := splitBlock?_append (fun t ht => hinside.isPunct_of_mem_body ht) close rest
  have hblock : Reading.block ⟨.punct '\x7b', brace⟩ (inside ++ ⟨.punct '\x7d', close⟩ :: rest) =
      success inside rest := by rw [Reading.block, hsplit]
  rw [← hblock, List.append_assoc, List.append_assoc]
  rfl

/-! Members. -/

theorem method_block {name : Ident} {body : List Statement}
    (h : Spells (.word name.toWord :: block body) ts) (stop : Span) (visibility : Visibility)
    (rest : List Token) : (Reading.method stop "" visibility (ts ++ rest)).Yields rest
      fun member =>
        member.unplaced = ⟨name.name, .method, visibility, .origin, bodyMeaning body⟩ := by
  obtain ⟨span, after, rfl, hafter⟩ := h
  refine (signature_block hafter stop rest).map fun inside hinside => ?_
  rw [Member.unplaced, unplaced_scanReferences body hinside]

theorem classConstants_constant {name : Ident} (h : Spells (constant name) ts) (stop : Span)
    (visibility : Visibility) (rest : List Token) :
    (Reading.classConstants stop "" visibility (ts ++ rest)).Yields rest
      fun members => members.map Member.unplaced =
    [⟨name.name, .constant, visibility, .origin, []⟩] := by
  obtain ⟨_, _, rfl, _, _, rfl, _, _, rfl, _, _, rfl, _, _, rfl, rfl⟩ := h
  exact ⟨_, rfl, rfl⟩

theorem useClauses_names {first : Ident} {others : List Ident}
    (h : Spells (names [.sign .comma, .space] first others) ts) (stop : Span) (rest : List Token) :
    (Reading.useClauses stop "" (ts ++ rest)).Yields rest
      fun clauses => clauses.map UseClause.unplaced =
    (first :: others).map (⟨·.name, .origin⟩) := by
  induction others generalizing first ts with
  | nil =>
    obtain ⟨span, _, rfl, _, _, rfl, rfl⟩ := h
    rw [List.cons_append, List.cons_append, useClauses]
    refine ⟨[⟨Name.resolveClass "" first.name, span⟩], rfl, ?_⟩
    rw [first.resolveClass_name]
    rfl
  | cons next others ih =>
    obtain ⟨span, _, rfl, _, after, rfl, hafter⟩ := h
    rw [List.cons_append, List.cons_append, useClauses]
    refine (ih hafter).map fun clauses hclauses => ?_
    rw [List.map_cons, hclauses, first.resolveClass_name]
    rfl

/-! Classes and traits. -/

/-- The body holds what the items mean, in their order. -/
structure Holds (is : List Item) (b : ClassBody) : Prop where
  uses : b.uses.map UseClause.unplaced = is.flatMap Item.useClauses
  members : b.members.map Member.unplaced = is.flatMap Item.members

theorem Holds.append {is js : List Item} {a b : ClassBody} (ha : Holds is a) (hb : Holds js b) :
    Holds (is ++ js) (a.append b) where
  uses := by rw [ClassBody.append, List.map_append, ha.uses, hb.uses, List.flatMap_append]
  members := by rw [ClassBody.append, List.map_append, ha.members, hb.members, List.flatMap_append]

section

variable (stop : Span) (brace : Token) (rest : List Token)

/-- An item that is read adds its content to what is read behind it. -/
theorem classItems_of_bodyItem {pending : Option Visibility} {t : Token} {item : ClassBody.Item}
    (ht : t.isPunct '\x7d' = false) (h : bodyItem stop "" pending t ts = success item rest) :
    classItems stop "" brace pending (t :: ts) =
      (classItems stop "" brace item.pending rest).map item.content.append := by
  rw [classItems, if_neg (by simp [ht]), h]
  rfl

/-- A modifier is kept for the member behind it. -/
theorem classItems_modifier {visibility : Option Visibility} (h : Spells (modifier visibility) ts) :
    classItems stop "" brace none (ts ++ rest) = classItems stop "" brace visibility rest := by
  have hempty : ∀ r : Reading ClassBody, r.map ClassBody.empty.append = r := by
    rintro ⟨_ | _, _, _⟩ <;> rfl
  rcases visibility with _ | _ | _
  · cases h
    rfl
  · obtain ⟨span, _, rfl, rfl⟩ := h
    exact (classItems_of_bodyItem stop brace rest rfl rfl).trans (hempty _)
  · obtain ⟨span, _, rfl, rfl⟩ := h
    exact (classItems_of_bodyItem stop brace rest rfl rfl).trans (hempty _)

/-- What a reading of the item adds, where it leaves no modifier to the item behind it. -/
theorem exists_classItems_of_yields {i : Item} {pending : Option Visibility} {t : Token}
    (ht : t.isPunct '\x7d' = false) (h : (bodyItem stop "" pending t ts).Yields rest
      fun item => Holds [i] item.content ∧ item.pending = none) :
    ∃ content, Holds [i] content ∧ classItems stop "" brace pending (t :: ts) =
      (classItems stop "" brace none rest).map content.append := by
  obtain ⟨item, hread, hcontent, hpending⟩ := h
  exact ⟨item.content, hcontent, hpending ▸ classItems_of_bodyItem stop brace rest ht hread⟩

/-- An item adds what it means to what is read behind it. -/
theorem exists_classItems_item {i : Item} (h : Spells i.pieces ts) : ∃ content, Holds [i] content ∧
    classItems stop "" brace none (ts ++ rest) =
      (classItems stop "" brace none rest).map content.append := by
  cases i with
  | uses first others =>
    obtain ⟨span, after, rfl, hafter⟩ := h
    refine exists_classItems_of_yields stop brace rest rfl
      ((useClauses_names hafter stop rest).map fun clauses hclauses => ?_)
    exact ⟨⟨hclauses.trans (List.append_nil _).symm, rfl⟩, rfl⟩
  | method visibility name body =>
    obtain ⟨modifier, _, rfl, hmodifier, span, after, rfl, hafter⟩ := h.exists_append
    rw [List.append_assoc, classItems_modifier stop brace _ hmodifier]
    refine exists_classItems_of_yields stop brace rest rfl
      ((method_block hafter stop (visibility.getD .public) rest).map fun member hmember => ?_)
    exact ⟨⟨rfl, congrArg (fun m => [m]) hmember⟩, rfl⟩
  | constant visibility name =>
    obtain ⟨modifier, _, rfl, hmodifier, span, after, rfl, hafter⟩ := h.exists_append
    rw [List.append_assoc, classItems_modifier stop brace _ hmodifier]
    refine exists_classItems_of_yields stop brace rest rfl
      ((classConstants_constant hafter stop (visibility.getD .public) rest).map
        fun members hmembers => ?_)
    exact ⟨⟨rfl, hmembers⟩, rfl⟩
  | property visibility name =>
    obtain ⟨modifier, _, rfl, hmodifier, hstatement⟩ := h.exists_append
    obtain ⟨_, _, rfl, _, _, rfl, _, _, rfl, _, _, rfl, _, _, rfl, rfl⟩ := hstatement
    rw [List.append_assoc, classItems_modifier stop brace _ hmodifier]
    exact exists_classItems_of_yields stop brace rest rfl ⟨_, rfl, ⟨rfl, rfl⟩, rfl⟩

/-- Items are read one after another, each without a modifier before it, up to the closing brace. -/
theorem classItems_items {is : List Item} (h : Spells (is.flatMap Item.pieces) ts) (close : Span) :
    (classItems stop "" brace none (ts ++ ⟨.punct '\x7d', close⟩ :: rest)).Yields rest
      (Holds is) := by
  induction is generalizing ts with
  | nil =>
    cases h
    rw [List.nil_append, classItems]
    exact ⟨.empty, rfl, rfl, rfl⟩
  | cons i is ih =>
    rw [List.flatMap_cons] at h
    obtain ⟨front, back, rfl, hfront, hback⟩ := h.exists_append
    obtain ⟨content, hcontent, hread⟩ :=
      exists_classItems_item stop brace (back ++ ⟨.punct '\x7d', close⟩ :: rest) hfront
    rw [List.append_assoc, hread]
    exact (ih hback).map fun _ hlater => hcontent.append hlater

end

/-- The body of a class or trait is read from behind its name on. -/
theorem classBody_items {is : List Item} (h : Spells (items is) ts) (stop : Span)
      (rest : List Token) :
    (classBody stop "" (ts ++ rest)).Yields rest (Holds is) := by
  obtain ⟨_, _, rfl, ⟨brace, _, rfl, rfl⟩, hbody⟩ := h.exists_append
  obtain ⟨inside, _, rfl, hinside, close, _, rfl, rfl⟩ := hbody.exists_append
  rw [List.append_assoc, List.append_assoc]
  exact classItems_items stop _ rest hinside close

end Plain
end ModuleVisibility
