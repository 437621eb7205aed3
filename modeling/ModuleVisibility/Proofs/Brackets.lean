import Mathlib.Data.List.Infix
import ModuleVisibility.Proofs.NameUse
import ModuleVisibility.Unit.ClassBody

/-!
Brackets in the tokens of a statement. What a statement opens and closes is told by a sum: a bracket
counts one when it opens and takes one away when it closes. As long as nothing is closed that is not
open, this is what the readings of a statement count, each over its own kinds of brackets.
-/
namespace ModuleVisibility

namespace Place

/-- The place with more tokens around. -/
def within (before after : List Token) (p : Place) : Place :=
  ⟨p.before ++ before, p.token, p.after ++ after⟩

theorem placesFrom_eq (before tokens : List Token) :
    placesFrom before tokens = (places tokens).map (within before []) := by
  have hfrom : ∀ front, placesFrom (front ++ before) tokens =
      (placesFrom front tokens).map (within before []) := by
    induction tokens with
    | nil => exact fun _ => rfl
    | cons t tokens ih =>
      intro front
      rw [placesFrom, placesFrom, List.map_cons, ← ih (t :: front), within, List.append_nil]
      rfl
  exact hfrom []

theorem places_append (xs ys : List Token) :
    places (xs ++ ys) = (places xs).map (within [] ys) ++
      (places ys).map (within xs.reverse []) := by
  have hfrom : ∀ before, placesFrom before (xs ++ ys) =
      (placesFrom before xs).map (within [] ys) ++ placesFrom (xs.reverse ++ before) ys := by
    induction xs with
    | nil => exact fun _ => rfl
    | cons x xs ih =>
      intro before
      rw [List.cons_append, placesFrom, ih, placesFrom, List.map_cons, List.reverse_cons,
        List.append_assoc, within, List.append_nil]
      rfl
  rw [places, hfrom, List.append_nil, placesFrom_eq xs.reverse]
  rfl

end Place

inductive Bracket where
  | paren
  | square
  | brace
  deriving DecidableEq

namespace Bracket

def opening : Bracket → Char
  | .paren => '('
  | .square => '['
  | .brace => '\x7b'

def closing : Bracket → Char
  | .paren => ')'
  | .square => ']'
  | .brace => '\x7d'

/-- All kinds of brackets. -/
def all : List Bracket := [.paren, .square, .brace]

/-- The kinds that stand in any expression. -/
def noBrace : List Bracket := [.paren, .square]

def weight (t : Token) (b : Bracket) : Int :=
  if t.isPunct b.opening then 1 else if t.isPunct b.closing then -1 else 0

/-- How many brackets of these kinds the token opens, less those that it closes. -/
def change (kinds : List Bracket) (t : Token) : Int := kinds.foldr (fun b n => weight t b + n) 0

/-- How many brackets of these kinds the tokens leave open. -/
def depth (kinds : List Bracket) (ts : List Token) : Int :=
  ts.foldr (fun t n => change kinds t + n) 0

/-- In each kind, the tokens close what they have opened, and nothing else. -/
def Balanced (ts : List Token) : Prop :=
  ∀ b ∈ all, depth [b] ts = 0 ∧ ∀ front ∈ ts.inits, 0 ≤ depth [b] front

instance (ts : List Token) : Decidable (Balanced ts) := List.decidableBAll ..

/-- The character stands inside brackets of these kinds only. -/
def Encloses (kinds : List Bracket) (c : Char) (ts : List Token) : Prop :=
  ∀ p ∈ places ts, p.token.kind = .punct c → depth kinds p.before ≠ 0

instance (kinds : List Bracket) (c : Char) (ts : List Token) : Decidable (Encloses kinds c ts) :=
  List.decidableBAll ..

section

variable {kinds : List Bracket} {t : Token} {ts xs ys : List Token}

@[simp] theorem depth_nil : depth kinds [] = 0 := rfl

@[simp] theorem depth_cons : depth kinds (t :: ts) = change kinds t + depth kinds ts := rfl

@[simp] theorem depth_append : depth kinds (xs ++ ys) = depth kinds xs + depth kinds ys := by
  induction xs with
  | nil => exact (Int.zero_add _).symm
  | cons x xs ih => rw [List.cons_append, depth_cons, depth_cons, ih, Int.add_assoc]

@[simp] theorem depth_reverse : depth kinds ts.reverse = depth kinds ts := by
  induction ts with
  | nil => rfl
  | cons t ts ih => simp [ih, Int.add_comm]

theorem depth_nil_kinds : depth [] ts = 0 := by
  induction ts with
  | nil => rfl
  | cons t ts ih => simpa [change] using ih

theorem depth_cons_kinds (b : Bracket) : depth (b :: kinds) ts = depth [b] ts + depth kinds ts := by
  induction ts with
  | nil => rfl
  | cons t ts ih =>
    rw [depth_cons, ih, depth_cons, depth_cons]
    simp only [change, List.foldr_cons, List.foldr_nil]
    omega

/-! Tokens that are no brackets. -/

theorem mem_all (b : Bracket) : b ∈ all := by
  cases b <;> decide

/-- The token is no bracket. -/
def IsPlain (t : Token) : Prop := ∀ b : Bracket, t.isPunct b.opening = false ∧
      t.isPunct b.closing = false

theorem bracket_or_isPlain (t : Token) :
    (∃ b : Bracket, t.kind = .punct b.opening ∨ t.kind = .punct b.closing) ∨ IsPlain t := by
  by_cases h : ∃ b : Bracket, t.kind = .punct b.opening ∨ t.kind = .punct b.closing
  · exact .inl h
  · exact .inr fun b => ⟨beq_eq_false_iff_ne.2 fun hkind => h ⟨b, .inl hkind⟩,
      beq_eq_false_iff_ne.2 fun hkind => h ⟨b, .inr hkind⟩⟩

theorem isPlain_of_kind (h : ∀ c, t.kind ≠ .punct c) : IsPlain t :=
  fun _ => ⟨beq_eq_false_iff_ne.2 (h _), beq_eq_false_iff_ne.2 (h _)⟩

theorem isPlain_of_punct {c : Char} (h : t.kind = .punct c)
    (hc : ∀ b : Bracket, c ≠ b.opening ∧ c ≠ b.closing) :
    IsPlain t := by
  intro b
  simpa [Token.isPunct, h] using hc b

theorem IsPlain.change_eq (h : IsPlain t) : change kinds t = 0 := by
  induction kinds with
  | nil => rfl
  | cons b kinds ih =>
    have hweight : weight t b = 0 := by simp [weight, h b]
    rw [change, List.foldr_cons, hweight, Int.zero_add]
    exact ih

/-- A bracket is no name. -/
theorem ident?_eq_none (h : change kinds t ≠ 0) : t.ident? = none := by
  cases hident : t.ident? with
  | none => rfl
  | some name =>
    refine absurd (IsPlain.change_eq (isPlain_of_kind fun c hkind => ?_)) h
    rw [Token.ident?, hkind] at hident
    cases hident

theorem not_isPunct {c : Char} (hc : ∀ b : Bracket, c ≠ b.opening ∧ c ≠ b.closing)
    (h : change kinds t ≠ 0) :
    t.isPunct c = false :=
  beq_eq_false_iff_ne.2 fun hkind => h (isPlain_of_punct hkind hc).change_eq

theorem isPlain_comma (b : Bracket) : ',' ≠ b.opening ∧ ',' ≠ b.closing := by
  cases b <;> decide

/-! Balanced tokens. -/

theorem Balanced.depth_eq (h : Balanced ts) (kinds : List Bracket) : depth kinds ts = 0 := by
  induction kinds with
  | nil => exact depth_nil_kinds
  | cons b kinds ih => rw [depth_cons_kinds, (h b (mem_all b)).1, ih, Int.add_zero]

theorem Balanced.depth_nonneg (h : Balanced ts) (kinds : List Bracket) {front : List Token}
    (hfront : front <+: ts) : 0 ≤ depth kinds front := by
  induction kinds with
  | nil => rw [depth_nil_kinds]
  | cons b kinds ih =>
    have hfirst := (h b (mem_all b)).2 front ((List.mem_inits ..).2 hfront)
    rw [depth_cons_kinds]
    omega

theorem balanced_nil : Balanced [] := by decide

theorem IsPlain.balanced (h : IsPlain t) : Balanced [t] := by
  intro b _
  have hchange : change [b] t = 0 := h.change_eq
  refine ⟨by simp [hchange], fun front hfront => ?_⟩
  rw [List.mem_inits, List.prefix_cons_iff] at hfront
  rcases hfront with rfl | ⟨front, rfl, hfront⟩
  · exact Int.le_refl 0
  · rw [List.prefix_nil.1 hfront, depth_cons, hchange]
    exact Int.le_refl 0

theorem Balanced.append (h : Balanced xs) (h' : Balanced ys) : Balanced (xs ++ ys) := by
  intro b hb
  obtain ⟨hx, hxs⟩ := h b hb
  obtain ⟨hy, hys⟩ := h' b hb
  refine ⟨by rw [depth_append, hx, hy, Int.add_zero], fun front hfront => ?_⟩
  rw [List.inits_append] at hfront
  rcases List.mem_append.1 hfront with hfront | hfront
  · exact hxs front hfront
  · obtain ⟨behind, hbehind, rfl⟩ := List.mem_map.1 hfront
    rw [depth_append, hx, Int.zero_add]
    exact hys behind (List.mem_of_mem_tail hbehind)

theorem Balanced.cons (h : IsPlain t) (hts : Balanced ts) : Balanced (t :: ts) :=
  h.balanced.append hts

/-- What stands in brackets stands in brackets of a longer list, too. -/
theorem Encloses.append {c : Char} (hbalanced : Balanced xs) (h : Encloses kinds c xs)
    (h' : Encloses kinds c ys) :
    Encloses kinds c (xs ++ ys) := by
  intro p hp hkind
  rw [Place.places_append] at hp
  rcases List.mem_append.1 hp with hp | hp
  · obtain ⟨q, hq, rfl⟩ := List.mem_map.1 hp
    simpa [Place.within] using h q hq hkind
  · obtain ⟨q, hq, rfl⟩ := List.mem_map.1 hp
    simpa [Place.within, hbalanced.depth_eq] using h' q hq hkind

theorem encloses_of_not_mem {c : Char} (h : ∀ t ∈ ts, t.kind ≠ .punct c) : Encloses kinds c ts := by
  intro p hp hkind
  refine absurd hkind (h p.token ?_)
  rw [Place.mem_places.1 hp]
  simp

/-! What the readings of a statement count. -/

/-- The count is that of the brackets left open before the tokens, among which nothing is closed
that is not open. -/
structure Counted (kinds : List Bracket) (count : Nat) (before ts : List Token) : Prop where
  depth : (count : Int) = depth kinds before
  nonneg : ∀ front, front <+: ts → 0 ≤ Bracket.depth kinds before + Bracket.depth kinds front

variable {count : Nat} {before : List Token}

theorem Balanced.counted (h : Balanced ts) (hbefore : depth kinds before = 0) :
    Counted kinds 0 before ts := by
  refine ⟨hbefore.symm, fun front hfront => ?_⟩
  rw [hbefore, Int.zero_add]
  exact h.depth_nonneg kinds hfront

theorem Counted.step (h : Counted kinds count before (t :: ts)) {later : Nat}
    (hlater : (later : Int) = count + change kinds t) : Counted kinds later (t :: before) ts := by
  refine ⟨by rw [hlater, h.depth, depth_cons, Int.add_comm], fun front hfront => ?_⟩
  have hnonneg := h.nonneg (t :: front) (List.cons_prefix_cons.2 ⟨rfl, hfront⟩)
  rw [depth_cons] at hnonneg ⊢
  omega

/-- A bracket moves the count by one, and none is closed at zero. -/
theorem Counted.cases (h : Counted kinds count before (t :: ts)) {opens closes : Bool}
    (ht : change kinds t = if opens then 1 else if closes then -1 else 0) :
    (opens = true ∧ Counted kinds (count + 1) (t :: before) ts) ∨
      (opens = false ∧ closes = true ∧ 0 < count ∧ Counted kinds (count - 1) (t :: before) ts) ∨
        (opens = false ∧ closes = false ∧ Counted kinds count (t :: before) ts) := by
  cases opens with
  | true => exact .inl ⟨rfl, h.step (by rw [ht]; rfl)⟩
  | false =>
    cases closes with
    | true =>
      have hchange : change kinds t = -1 := ht
      have hnonneg := h.nonneg [t] (List.cons_prefix_cons.2 ⟨rfl, List.nil_prefix⟩)
      rw [depth_cons, depth_nil, hchange, ← h.depth] at hnonneg
      exact .inr (.inl ⟨rfl, rfl, by omega, h.step (by omega)⟩)
    | false => exact .inr (.inr ⟨rfl, rfl, h.step (by rw [ht]; simp)⟩)

theorem Counted.eq_zero_iff (h : Counted kinds count before ts) :
    count = 0 ↔ Bracket.depth kinds before = 0 := by
  rw [← h.depth]
  omega

theorem change_all (t : Token) : change all t =
    if Declarator.opensGroup t then 1 else if Declarator.closesGroup t then -1 else 0 := by
  rcases bracket_or_isPlain t with ⟨b, hkind | hkind⟩ | hplain
  · cases b <;> simp [change, all, weight, opening, closing, Declarator.opensGroup,
      Token.isPunct, hkind]
  · cases b <;> simp [change, all, weight, opening, closing, Declarator.opensGroup,
      Declarator.closesGroup, Token.isPunct, hkind]
  · have hparen : t.isPunct '(' = false ∧ t.isPunct ')' = false := hplain .paren
    have hsquare : t.isPunct '[' = false ∧ t.isPunct ']' = false := hplain .square
    have hbrace : t.isPunct '\x7b' = false ∧ t.isPunct '\x7d' = false := hplain .brace
    rw [hplain.change_eq]
    simp [Declarator.opensGroup, Declarator.closesGroup, hparen, hsquare, hbrace]

theorem change_noBrace (t : Token) : change noBrace t =
    if Reading.opensBracket t then 1 else if Reading.closesBracket t then -1 else 0 := by
  rcases bracket_or_isPlain t with ⟨b, hkind | hkind⟩ | hplain
  · cases b <;> simp [change, noBrace, weight, opening, closing, Reading.opensBracket,
      Reading.closesBracket, Token.isPunct, hkind]
  · cases b <;> simp [change, noBrace, weight, opening, closing, Reading.opensBracket,
      Reading.closesBracket, Token.isPunct, hkind]
  · have hparen : t.isPunct '(' = false ∧ t.isPunct ')' = false := hplain .paren
    have hsquare : t.isPunct '[' = false ∧ t.isPunct ']' = false := hplain .square
    rw [hplain.change_eq]
    simp [Reading.opensBracket, Reading.closesBracket, hparen, hsquare]

end

end Bracket
end ModuleVisibility
