import ModuleVisibility.Proofs.Guarded.Scan
import ModuleVisibility.Proofs.Nesting

/-!
Reading constructs by walking over token indexes. A walk looks at the token at its place, moves on
by adding to it, and remembers bodies and statements as ranges of indexes, which are cut out of the
tokens later. Where the readings take tokens off a list, the walks are shown to agree: they meet no
trap, find the same faults and end at the place of the tokens that the reading leaves.
-/
namespace ModuleVisibility
namespace Guarded

/-- The outcome of a walk: that of a reading, with the place of the tokens left. -/
structure Outcome (α : Type) where
  value? : Option α
  errors : List SyntaxError
  pos : Nat

abbrev Walk (α : Type) := Guarded (Outcome α)

variable {α β γ δ : Type}

namespace Walk

def success (value : α) (pos : Nat) : Walk α := .ok ⟨some value, [], pos⟩

def failure (fault : SyntaxFault) (span : Span) (pos : Nat) : Walk α :=
  .ok ⟨none, [fault.atSpan span], pos⟩

def stuck : Walk α := .error .stuck

/-- Walks with a value that a trap may keep away. -/
def given (a : Guarded α) (next : α → Walk β) : Walk β := Except.bind a next

/-- What a computation makes of the value, if there is one. -/
def use (x : Walk α) (f : α → Guarded β) : Walk β :=
  given x fun o =>
    match o.value? with
    | none => .ok ⟨none, o.errors, o.pos⟩
    | some a => given (f a) fun b => .ok ⟨some b, o.errors, o.pos⟩

def map (f : α → β) (x : Walk α) : Walk β := x.use fun a => .ok (f a)

/-- Walks on from where the walk ended, if something was read. -/
def andThen (x : Walk α) (next : α → Nat → Walk β) : Walk β :=
  given x fun o =>
    match o.value? with
    | none => .ok ⟨none, o.errors, o.pos⟩
    | some a => given (next a o.pos) fun after =>
      .ok ⟨after.value?, o.errors ++ after.errors, after.pos⟩

@[simp] theorem given_ok (a : α) (next : α → Walk β) : given (.ok a) next = next a := rfl

theorem map_id (x : Walk α) : x.map id = x := by
  rcases x with _ | ⟨_ | _, _, _⟩ <;> rfl

theorem success_andThen (a : α) (pos : Nat) (next : α → Nat → Walk β) :
    (success a pos).andThen next = next a pos := by
  rw [andThen, success, given_ok]
  dsimp only
  cases next a pos <;> rfl

end Walk

theorem reading_map_id (r : Reading α) : r.map id = r := by
  rcases r with ⟨_ | _, _, _⟩ <;> rfl

theorem reading_map_map (f : α → β) (g : β → γ) (r : Reading α) :
    (r.map f).map g = r.map (g ∘ f) := by
  rcases r with ⟨_ | _, _, _⟩ <;> rfl

/-! Agreement. -/

/-- The walk meets no trap and does what the reading does, where `R` relates what the two have
read. -/
def Agrees (tokens : List Token) (R : α → β → Prop) (x : Walk α) (r : Reading β) : Prop :=
  ∃ o, x = .ok o ∧ Option.Rel R o.value? r.value? ∧ o.errors = r.errors ∧ At tokens o.pos r.rest

namespace Agrees

variable {tokens rest : List Token} {R : α → β → Prop} {S : γ → δ → Prop}
  {x : Walk α} {r : Reading β}
  {pos : Nat}

theorem success {a : α} {b : β} (hR : R a b) (h : At tokens pos rest) :
    Agrees tokens R (.success a pos) (.success b rest) := ⟨_, rfl, .some hR, rfl, h⟩

theorem failure (fault : SyntaxFault) (span : Span) (h : At tokens pos rest) :
    Agrees tokens R (.failure fault span pos) (.failure fault span rest) := ⟨_, rfl, .none, rfl, h⟩

theorem use {f : α → Guarded γ} {g : β → δ} (h : Agrees tokens R x r)
    (hf : ∀ a b, R a b → ∃ c, f a = .ok c ∧ S c (g b)) : Agrees tokens S (x.use f) (r.map g) := by
  obtain ⟨⟨value?, errors, pos⟩, rfl, hvalue, herrors, hpos⟩ := h
  obtain ⟨value'?, errors', rest⟩ := r
  cases hvalue with
  | none => exact ⟨⟨none, errors, pos⟩, rfl, .none, herrors, hpos⟩
  | some hR =>
    obtain ⟨c, hc, hS⟩ := hf _ _ hR
    refine ⟨⟨some c, errors, pos⟩, ?_, .some hS, herrors, hpos⟩
    rw [Walk.use, Walk.given_ok]
    dsimp only
    rw [hc]
    rfl

theorem map {f : α → γ} {g : β → δ} (h : Agrees tokens R x r) (hf : ∀ a b, R a b → S (f a) (g b)) :
    Agrees tokens S (x.map f) (r.map g) := h.use fun a b hR => ⟨f a, rfl, hf a b hR⟩

theorem andThen {next : α → Nat → Walk γ} {next' : β → List Token → Reading δ}
    (h : Agrees tokens R x r)
    (hnext : ∀ a b pos, R a b → At tokens pos r.rest →
      Agrees tokens S (next a pos) (next' b r.rest)) :
    Agrees tokens S (x.andThen next) (r.andThen next') := by
  obtain ⟨⟨value?, errors, pos⟩, rfl, hvalue, rfl, hpos⟩ := h
  obtain ⟨value'?, errors', rest⟩ := r
  cases hvalue with
  | none => exact ⟨⟨none, errors', pos⟩, rfl, .none, rfl, hpos⟩
  | some hR =>
    obtain ⟨o, ho, hvalue, herrors, hafter⟩ := hnext _ _ pos hR hpos
    refine ⟨⟨o.value?, _ ++ o.errors, o.pos⟩, ?_, hvalue, congrArg _ herrors, hafter⟩
    rw [Walk.andThen, Walk.given_ok]
    dsimp only
    rw [ho]
    rfl

/-- What was read is the value of the reading. -/
theorem found (h : Agrees tokens R x r) :
    Agrees tokens (fun a b => R a b ∧ r.value? = some b) x r := by
  obtain ⟨⟨value?, errors, pos⟩, hx, hvalue, herrors, hpos⟩ := h
  obtain ⟨value'?, errors', rest⟩ := r
  refine ⟨⟨value?, errors, pos⟩, hx, ?_, herrors, hpos⟩
  cases hvalue with
  | none => exact .none
  | some hR => exact .some ⟨hR, rfl⟩

theorem ite {p : Prop} [Decidable p] {y : Walk α} {r' : Reading β} (hx : p → Agrees tokens R x r)
    (hy : ¬ p → Agrees tokens R y r') :
    Agrees tokens R (if p then x else y) (if p then r else r') := by
  split
  · exact hx ‹_›
  · exact hy ‹_›

theorem imp {S : α → β → Prop} (h : Agrees tokens R x r) (hS : ∀ a b, R a b → S a b) :
    Agrees tokens S x r := by
  have hmap := h.map (f := id) (g := id) hS
  rwa [Walk.map_id, reading_map_id] at hmap

/-- A walk that makes more of the value. -/
theorem map_left {S : γ → β → Prop} {f : α → γ} (h : Agrees tokens R x r)
    (hf : ∀ a b, R a b → S (f a) b) :
    Agrees tokens S (x.map f) r := by
  have hmap := h.map (g := id) hf
  rwa [reading_map_id] at hmap

/-- A reading that makes more of the value. -/
theorem map_right {S : α → δ → Prop} {g : β → δ} (h : Agrees tokens R x r)
    (hg : ∀ a b, R a b → S a (g b)) :
    Agrees tokens S x (r.map g) := by
  have hmap := h.map (f := id) hg
  rwa [Walk.map_id] at hmap

end Agrees

/-- The range from `lo` up to `hi` holds these tokens. -/
def Holds (tokens : List Token) (lo hi : Nat) (inside : List Token) : Prop :=
  ∃ rest, At tokens lo (inside ++ rest) ∧ hi = lo + inside.length

namespace Holds

variable {tokens inside ts : List Token} {t : Token} {lo hi : Nat}

theorem range (h : Holds tokens lo hi inside) : range tokens lo hi = .ok inside := by
  obtain ⟨rest, hrest, rfl⟩ := h
  exact hrest.range

theorem sublist (h : Holds tokens lo hi inside) : inside.Sublist tokens := by
  obtain ⟨rest, ⟨before, rfl, _⟩, _⟩ := h
  exact (List.sublist_append_left inside rest).trans (List.sublist_append_right before _)

theorem nil (h : At tokens lo ts) : Holds tokens lo lo [] := ⟨ts, h, rfl⟩

theorem cons (ht : At tokens lo (t :: ts)) (h : Holds tokens (lo + 1) hi inside) :
    Holds tokens lo hi (t :: inside) := by
  obtain ⟨rest, hrest, rfl⟩ := h
  obtain rfl := hrest.unique ht.next
  exact ⟨rest, ht, by rw [List.length_cons]; omega⟩

end Holds

/-! Names. -/

section

variable (tokens : List Token)

/-- Whether the token at a place is this one character. -/
def punctAt (c : Char) (pos : Nat) : Bool := tokens[pos]?.any (·.isPunct c)

/-- The range of the token at a place, or the empty range behind the last one. -/
def currentSpan (pos : Nat) : Span := (tokens[pos]?.map (·.span)).getD (endSpan tokens)

def expectName (role : NameRole) (pos : Nat) : Walk (String × Span) :=
  match tokens[pos]? with
  | none => .failure (.nameMissingAtEnd role) (endSpan tokens) pos
  | some t =>
    match t.ident? with
    | some name => .success (name, t.span) (pos + 1)
    | none => .failure (.nameExpected role) t.span pos

/-- The segments of a module name behind its first ones. -/
def moduleSegments (name : String) (span : Span) (pos : Nat) : Walk (String × Span) :=
  if punctAt tokens '.' pos then
    (expectName tokens .moduleSegment (pos + 1)).andThen fun (part, partSpan) next =>
      if _h : left tokens next < left tokens pos then
        moduleSegments (name ++ "." ++ part) (span.join partSpan) next
      else .stuck
  else .success (name, span) pos
termination_by left tokens pos

def moduleName (pos : Nat) : Walk (String × Span) :=
  (expectName tokens .moduleName pos).andThen fun (name, span) next =>
    moduleSegments tokens name span next

/-! Blocks and bodies. -/

/-- Looks for the brace that closes the block that the token at the place `opening` opens, where
`depth` braces are open at `pos`; the range of the tokens inside. -/
def closeBlock (opening depth pos : Nat) : Walk (Nat × Nat) :=
  match peek tokens pos with
  | none => .given (index tokens opening) fun brace => .failure .unclosedBrace brace.span pos
  | some ⟨t, _h⟩ =>
    if t.isPunct '\x7b' then closeBlock opening (depth + 1) (pos + 1)
    else if t.isPunct '\x7d' then
      .given (sub depth 1) fun depth =>
        if depth = 0 then .given (sub (pos + 1) 1) fun close =>
          .success (opening + 1, close) (pos + 1)
        else closeBlock opening depth (pos + 1)
    else closeBlock opening depth (pos + 1)
termination_by left tokens pos
decreasing_by all_goals exact left_succ_lt _h

/-- The block that the token at the place opens. -/
def block (pos : Nat) : Walk (Nat × Nat) := closeBlock tokens pos 0 pos

/-- The range of the body behind a signature in which `depth` brackets are open; a count of brackets
stops at zero. -/
def signature (depth pos : Nat) : Walk (Option (Nat × Nat)) :=
  match peek tokens pos with
  | none => .failure .declarationCutShort (endSpan tokens) pos
  | some ⟨t, _h⟩ =>
    if Reading.opensBracket t then signature (depth + 1) (pos + 1)
    else if Reading.closesBracket t then signature (depth - 1) (pos + 1)
    else if t.isPunct ';' && depth == 0 then .success none (pos + 1)
    else if t.isPunct '\x7b' && depth == 0 then (block tokens pos).map some
    else if t.isPunct '\x7d' && depth == 0 then .failure .bodyMissing t.span pos
    else signature depth (pos + 1)
termination_by left tokens pos
decreasing_by all_goals exact left_succ_lt _h

/-- The references in the tokens of a range, if there is one. -/
def referencesIn (ns : String) (body : Option (Nat × Nat)) : Guarded (List Reference) :=
  match body with
  | none => return []
  | some (lo, hi) => do
    let inside ← range tokens lo hi
    scanReferences ns inside

/-! Attributes and statements. -/

/-- The rest of an attribute list in which `depth` parentheses are open. -/
def attributes (depth : Nat) (found : Bool) (pos : Nat) : Walk Bool :=
  match peek tokens pos with
  | none => .ok ⟨some found, [SyntaxFault.unclosedAttributes.atSpan (endSpan tokens)], pos⟩
  | some ⟨t, _h⟩ =>
    if t.kind == .attrClose && depth == 0 then .success found (pos + 1)
    else if t.isPunct '(' then attributes (depth + 1) found (pos + 1)
    else if t.isPunct ')' then attributes (depth - 1) found (pos + 1)
    else attributes depth (found || t.isWord Reading.moduleLevelAttribute) (pos + 1)
termination_by left tokens pos
decreasing_by all_goals exact left_succ_lt _h

/-- Passes over a statement; a brace has been passed when it is seen to open a block. -/
def skipStatement (pos : Nat) : Walk Unit :=
  match peek tokens pos with
  | none => .success () pos
  | some ⟨t, _h⟩ =>
    if t.isPunct ';' then .success () (pos + 1)
    else if t.isPunct '\x7b' then .given (sub (pos + 1) 1) fun brace =>
      (block tokens brace).map fun _ => ()
    else skipStatement (pos + 1)
termination_by left tokens pos
decreasing_by exact left_succ_lt _h

/-- Passes over a declaration that is not looked at. -/
def skipDeclaration (pos : Nat) : Walk Unit :=
  match peek tokens pos with
  | none => .success () pos
  | some ⟨t, _h⟩ =>
    if t.isPunct ';' then .success () (pos + 1)
    else if t.isPunct '\x7b' then (block tokens pos).map fun _ => ()
    else skipDeclaration (pos + 1)
termination_by left tokens pos
decreasing_by exact left_succ_lt _h

/-- The place of the first semicolon, wherever it stands. -/
def semicolon (pos : Nat) : Walk Nat :=
  match peek tokens pos with
  | none => .failure .constantUnfinished (endSpan tokens) pos
  | some ⟨t, _h⟩ => if t.isPunct ';' then .success pos (pos + 1) else semicolon (pos + 1)
termination_by left tokens pos
decreasing_by exact left_succ_lt _h

/-- The place of the semicolon at which a member statement ends, where `depth` brackets and braces
are open: a count of brackets stops at zero, while a closing brace has one to take away. -/
def memberEnd (depth pos : Nat) : Walk Nat :=
  match peek tokens pos with
  | none => .failure .memberCutShort (endSpan tokens) pos
  | some ⟨t, _h⟩ =>
    if Reading.opensBracket t || t.isPunct '\x7b' then memberEnd (depth + 1) (pos + 1)
    else if Reading.closesBracket t then memberEnd (depth - 1) (pos + 1)
    else if t.isPunct '\x7d' && depth == 0 then .failure .memberUnfinished t.span pos
    else if t.isPunct '\x7d' then .given (sub depth 1) fun depth => memberEnd depth (pos + 1)
    else if t.isPunct ';' && depth == 0 then .success pos (pos + 1)
    else memberEnd depth (pos + 1)
termination_by left tokens pos
decreasing_by all_goals exact left_succ_lt _h

/-- The tokens of a member statement. -/
def memberStatement (pos : Nat) : Walk (List Token) :=
  (memberEnd tokens 0 pos).use fun stop => range tokens pos stop

end

/-! The walks agree. -/

section

variable {tokens ts : List Token} {t : Token} {pos : Nat}

theorem agrees_expectName (role : NameRole) (h : At tokens pos ts) :
    Agrees tokens Eq (expectName tokens role pos)
      (Reading.expectName (endSpan tokens) role ts) := by
  unfold expectName Reading.expectName
  rw [h.getElem?]
  cases ts with
  | nil => exact .failure _ _ h
  | cons t ts =>
    dsimp only [List.head?_cons]
    cases t.ident? with
    | none => exact .failure _ _ h
    | some name => exact .success rfl h.next

theorem agrees_moduleSegments (name : String) (span : Span) (h : At tokens pos ts) :
    Agrees tokens Eq (moduleSegments tokens name span pos)
      (Reading.moduleSegments (endSpan tokens) name span ts) := by
  fun_induction Reading.moduleSegments (endSpan tokens) name span ts generalizing pos with
  | case1 name span =>
    rw [moduleSegments, punctAt, h.getElem?_nil]
    exact .success rfl h
  | case2 name span dot hdot =>
    rw [moduleSegments, punctAt, h.getElem?_cons, Option.any_some, if_pos hdot, expectName,
      h.next.getElem?_nil]
    exact .failure _ _ h.next
  | case3 name span dot hdot =>
    rw [moduleSegments, punctAt, h.getElem?_cons, Option.any_some, if_neg hdot]
    exact .success rfl h
  | case4 name span dot t ts hdot part hpart ih =>
    have hbehind := h.next.next
    have hprogress : left tokens (pos + 1 + 1) < left tokens pos :=
      h.left_lt hbehind (by simp only [List.length_cons]; omega)
    rw [moduleSegments, punctAt, h.getElem?_cons, Option.any_some, if_pos hdot, expectName,
      h.next.getElem?_cons]
    dsimp only
    rw [hpart]
    dsimp only
    rw [Walk.success_andThen]
    dsimp only
    rw [dif_pos hprogress]
    exact ih hbehind
  | case5 name span dot t ts hdot hpart =>
    rw [moduleSegments, punctAt, h.getElem?_cons, Option.any_some, if_pos hdot, expectName,
      h.next.getElem?_cons]
    dsimp only
    rw [hpart]
    exact .failure _ _ h.next
  | case6 name span dot t ts hdot =>
    rw [moduleSegments, punctAt, h.getElem?_cons, Option.any_some, if_neg hdot]
    exact .success rfl h

theorem agrees_moduleName (h : At tokens pos ts) :
    Agrees tokens Eq (moduleName tokens pos) (Reading.moduleName (endSpan tokens) ts) :=
  (agrees_expectName _ h).andThen fun _ _ _ hname hbehind =>
    hname ▸ agrees_moduleSegments _ _ hbehind

/-- A block of which `depth` more braces are open than its own, as a reading. -/
def readBlock (brace : Token) (depth : Nat) (ts : List Token) : Reading (List Token) :=
  match Reading.splitBlock? depth ts with
  | some (inside, rest) => .success inside rest
  | none => .failure .unclosedBrace brace.span []

theorem readBlock_eq_map {brace : Token} {depth depth' : Nat}
    (h : Reading.splitBlock? depth (t :: ts) =
      (Reading.splitBlock? depth' ts).map fun (inside, rest) => (t :: inside, rest)) :
    readBlock brace depth (t :: ts) = (readBlock brace depth' ts).map (t :: ·) := by
  rw [readBlock, readBlock, h]
  cases Reading.splitBlock? depth' ts <;> rfl

theorem agrees_closeBlock {brace : Token} {opening : Nat} (hbrace : tokens[opening]? = some brace)
    (depth : Nat) (h : At tokens pos ts) :
    Agrees tokens (fun found inside => found.1 = opening + 1 ∧ Holds tokens pos found.2 inside)
      (closeBlock tokens opening (depth + 1) pos) (readBlock brace depth ts) := by
  induction ts generalizing pos depth with
  | nil =>
    rw [closeBlock, h.peek_nil, index_of_getElem? hbrace]
    exact .failure _ _ h
  | cons t ts ih =>
    have hmore : ∀ depth, Agrees tokens
        (fun found inside => found.1 = opening + 1 ∧ Holds tokens pos found.2 inside)
        (closeBlock tokens opening (depth + 1) (pos + 1))
        ((readBlock brace depth ts).map (t :: ·)) := fun depth =>
      (ih depth h.next).map_right fun _ _ hfound => ⟨hfound.1, hfound.2.cons h⟩
    rw [closeBlock, h.peek_cons]
    dsimp only
    by_cases hclose : t.isPunct '\x7d' = true
    · have hopen := Token.not_isPunct_of_isPunct hclose (d := '\x7b') (by decide)
      rw [if_neg hopen, if_pos hclose, sub_succ, Walk.given_ok]
      cases depth with
      | zero =>
        rw [if_pos rfl, sub_succ, readBlock, Reading.splitBlock?, if_pos hclose]
        exact .success ⟨rfl, .nil h⟩ h.next
      | succ depth =>
        rw [if_neg (Nat.succ_ne_zero depth),
          readBlock_eq_map (by rw [Reading.splitBlock?, if_pos hclose])]
        exact hmore depth
    · by_cases hopen : t.isPunct '\x7b' = true
      · have hsplit := Reading.splitBlock?.eq_def depth (t :: ts)
        dsimp only at hsplit
        rw [if_neg hclose, if_pos hopen] at hsplit
        rw [if_pos hopen, readBlock_eq_map hsplit]
        exact hmore (depth + 1)
      · have hsplit := Reading.splitBlock?.eq_def depth (t :: ts)
        dsimp only at hsplit
        rw [if_neg hclose, if_neg hopen] at hsplit
        rw [if_neg hopen, if_neg hclose, readBlock_eq_map hsplit]
        exact hmore depth

/-- The range of a block holds the tokens inside. -/
theorem agrees_block (h : At tokens pos (t :: ts)) (ht : t.isPunct '\x7b' = true) :
    Agrees tokens (fun found inside => Holds tokens found.1 found.2 inside) (block tokens pos)
      (Reading.block t ts) := by
  have hblock := agrees_closeBlock h.getElem?_cons 0 h.next
  rw [block, closeBlock, h.peek_cons]
  dsimp only
  have hread : readBlock t 0 ts = Reading.block t ts := rfl
  rw [if_pos ht, ← hread]
  exact hblock.imp fun _ _ hfound => hfound.1 ▸ hfound.2

/-- A body is a range that holds its tokens, or none for no tokens. -/
def HoldsBody (tokens : List Token) : Option (Nat × Nat) → List Token → Prop
  | none, body => body = []
  | some (lo, hi), body => Holds tokens lo hi body

theorem HoldsBody.referencesIn {found : Option (Nat × Nat)} {body : List Token}
    (h : HoldsBody tokens found body) (ns : String) :
    referencesIn tokens ns found = .ok (ModuleVisibility.scanReferences ns body) := by
  cases found with
  | none =>
    obtain rfl : body = [] := h
    rfl
  | some found =>
    have hrange : range tokens found.1 found.2 = .ok body := Holds.range h
    rw [Guarded.referencesIn, hrange, ok_bind, scanReferences_eq_ok]

theorem agrees_signature (depth : Nat) (h : At tokens pos ts) :
    Agrees tokens (HoldsBody tokens) (signature tokens depth pos)
      (Reading.signature (endSpan tokens) depth ts) := by
  induction ts generalizing pos depth with
  | nil =>
    rw [signature, h.peek_nil]
    exact .failure _ _ h
  | cons t ts ih =>
    rw [signature, h.peek_cons, Reading.signature]
    dsimp only
    refine .ite (fun _ => ih _ h.next) fun _ => .ite (fun _ => ih _ h.next) fun _ => ?_
    cases depth with
    | succ depth =>
      rw [if_pos (Nat.succ_ne_zero depth)]
      simp only [Nat.succ_ne_zero, beq_iff_eq, Bool.and_eq_true, and_false, if_false]
      exact ih _ h.next
    | zero =>
      have hnone : HoldsBody tokens none [] := rfl
      have hsome : ∀ found inside, Holds tokens found.1 found.2 inside →
          HoldsBody tokens (some found) inside := fun _ _ h => h
      rw [if_neg (not_not_intro rfl)]
      simp only [beq_self_eq_true, Bool.and_true]
      exact .ite (fun _ => .success hnone h.next) fun _ =>
        .ite (fun hbrace => (agrees_block h hbrace).map_left hsome) fun _ =>
          .ite (fun _ => .failure _ _ h) fun _ => ih 0 h.next

theorem agrees_attributes (depth : Nat) (found : Bool) (h : At tokens pos ts) :
    Agrees tokens Eq (attributes tokens depth found pos)
      (Reading.attributes (endSpan tokens) depth found ts) := by
  induction ts generalizing pos depth found with
  | nil =>
    rw [attributes, h.peek_nil]
    exact ⟨_, rfl, .some rfl, rfl, h⟩
  | cons t ts ih =>
    rw [attributes, h.peek_cons, Reading.attributes]
    exact .ite (fun _ => .success rfl h.next) fun _ => .ite (fun _ => ih _ _ h.next) fun _ =>
      .ite (fun _ => ih _ _ h.next) fun _ => ih _ _ h.next

theorem agrees_skipStatement (h : At tokens pos ts) :
    Agrees tokens Eq (skipStatement tokens pos) (Reading.skipStatement ts) := by
  induction ts generalizing pos with
  | nil =>
    rw [skipStatement, h.peek_nil]
    exact .success rfl h
  | cons t ts ih =>
    rw [skipStatement, h.peek_cons, Reading.skipStatement]
    refine .ite (fun _ => .success rfl h.next) fun _ => .ite (fun hbrace => ?_) fun _ => ih h.next
    exact (agrees_block h hbrace).map fun _ _ _ => rfl

theorem agrees_skipDeclaration (h : At tokens pos ts) :
    Agrees tokens Eq (skipDeclaration tokens pos) (Reading.skipStatement ts) := by
  induction ts generalizing pos with
  | nil =>
    rw [skipDeclaration, h.peek_nil]
    exact .success rfl h
  | cons t ts ih =>
    rw [skipDeclaration, h.peek_cons, Reading.skipStatement]
    refine .ite (fun _ => .success rfl h.next) fun _ => .ite (fun hbrace => ?_) fun _ => ih h.next
    exact (agrees_block h hbrace).map fun _ _ _ => rfl

theorem agrees_semicolon (h : At tokens pos ts) :
    Agrees tokens (Holds tokens pos) (semicolon tokens pos)
      (Reading.upToSemicolon (endSpan tokens) ts) := by
  induction ts generalizing pos with
  | nil =>
    rw [semicolon, h.peek_nil]
    exact .failure _ _ h
  | cons t ts ih =>
    rw [semicolon, h.peek_cons, Reading.upToSemicolon]
    exact .ite (fun _ => .success (.nil h) h.next) fun _ =>
      (ih h.next).map_right fun _ _ hfound => hfound.cons h

theorem agrees_memberEnd (depth : Nat) (h : At tokens pos ts) :
    Agrees tokens (Holds tokens pos) (memberEnd tokens depth pos)
      (Reading.memberStatement (endSpan tokens) depth ts) := by
  induction ts generalizing pos depth with
  | nil =>
    rw [memberEnd, h.peek_nil]
    exact .failure _ _ h
  | cons t ts ih =>
    have hmore : ∀ depth, Agrees tokens (Holds tokens pos) (memberEnd tokens depth (pos + 1))
        ((Reading.memberStatement (endSpan tokens) depth ts).map (t :: ·)) := fun depth =>
      (ih depth h.next).map_right fun _ _ hfound => hfound.cons h
    rw [memberEnd, h.peek_cons, Reading.memberStatement.eq_def]
    refine .ite (fun _ => hmore _) fun _ => .ite (fun _ => hmore _) fun _ => ?_
    by_cases hclose : t.isPunct '\x7d' = true
    · rw [hclose, Bool.true_and, if_pos rfl, if_pos rfl]
      cases depth with
      | zero => exact .failure _ _ h
      | succ depth => exact hmore depth
    · rw [Bool.eq_false_of_not_eq_true hclose, Bool.false_and, if_neg Bool.false_ne_true,
        if_neg Bool.false_ne_true, if_neg Bool.false_ne_true]
      exact .ite (fun _ => .success (.nil h) h.next) fun _ => hmore depth

/-- A member statement is cut out of the tokens as it stands there. -/
theorem agrees_memberStatement (h : At tokens pos ts) :
    Agrees tokens (fun found statement => found = statement ∧ statement.Sublist tokens)
      (memberStatement tokens pos) (Reading.memberStatement (endSpan tokens) 0 ts) := by
  have huse := (agrees_memberEnd 0 h).use (f := fun stop => range tokens pos stop) (g := id)
    (S := fun found statement => found = statement ∧ statement.Sublist tokens)
    fun stop statement hstatement => ⟨statement, hstatement.range, rfl, hstatement.sublist⟩
  rwa [reading_map_id] at huse

end

end Guarded
end ModuleVisibility
