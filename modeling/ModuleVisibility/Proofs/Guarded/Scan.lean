import ModuleVisibility.Proofs.Guarded.Basic
import ModuleVisibility.Reference.Scan

/-!
The scan for references on token indexes. It looks back from a place by subtracting from its index
and counts the brackets that are open, and it finds what the scan of the tokens around the place
finds.
-/
namespace ModuleVisibility
namespace Guarded

section

variable (tokens : List Token)

/-- The token before a place. -/
def previous : Nat → Option Token
  | 0 => none
  | i + 1 => tokens[i]?

/-- Whether the token before the place `cursor` is a name glued to the token `t` there. -/
def gluedToName (cursor : Nat) (t : Token) : Guarded Bool :=
  if 0 < cursor then do
    let place ← sub cursor 1
    let head ← index tokens place
    return head.ident?.isSome && head.span.hi == t.span.lo
  else return false

/-- Whether an open angle glued to a name is left, going back from the place `cursor` past `depth`
closed argument lists. -/
def insideTypeArguments (depth cursor : Nat) : Guarded Bool :=
  if 0 < cursor then do
    let here ← sub cursor 1
    let t ← index tokens here
    if _h : here < cursor then
      match t.kind with
      | .ident _ | .doubleColon | .punct ',' | .punct '?' => insideTypeArguments depth here
      | .punct '>' => insideTypeArguments (depth + 1) here
      | .attrClose => insideTypeArguments (depth + 2) here
      | .punct '<' =>
        let isGlued ← gluedToName tokens here t
        if !isGlued then return false
        else if depth = 0 then return true
        else
          let depth ← sub depth 1
          insideTypeArguments depth here
      | _ => return false
    else throw .stuck
  else return false
termination_by cursor

/-- Whether a colon behind a closed parameter list stands before the place. -/
def followsSignature (i : Nat) : Guarded Bool :=
  if 2 ≤ i then do
    let behind ← sub i 1
    let colon ← index tokens behind
    let before ← sub i 2
    let paren ← index tokens before
    return colon.isPunct ':' && paren.isPunct ')'
  else return false

/-- Whether the name at the place takes type arguments. -/
def takesTypeArguments (i : Nat) : Guarded Bool :=
  match tokens[i + 1]? with
  | none => return false
  | some angle => do
    let t ← index tokens i
    return angle.isPunct '<' && t.span.hi == angle.span.lo && tokens[i + 2]?.any (·.ident?.isSome)

def isTypePosition (i : Nat) : Guarded Bool := do
  let isReturned ← followsSignature tokens i
  let isGeneric ← takesTypeArguments tokens i
  let isArgument ← insideTypeArguments tokens 0 i
  return tokens[i + 1]?.any (fun n => match n.kind with | .variable _ => true | _ => false)
    || (previous tokens i).any (fun p => p.isWord "as" || p.isWord "is" || p.isWord "instanceof"
      || p.isWord "catch")
    || isReturned || isGeneric || isArgument

/-- The static member behind the double colon that follows the class at the place `i`. -/
def staticMember (owner : ClassRef) (i : Nat) : Guarded (List Reference) := do
  let start ← index tokens i
  return Reference.staticMember owner start (tokens.drop (i + 2))

/-- How far on the parenthesis is that closes the innermost of `depth` open ones. -/
def closing (depth offset : Nat) : List Token → Guarded (Option Nat)
  | [] => return none
  | t :: ts =>
    if t.isPunct '(' then closing (depth + 1) (offset + 1) ts
    else if t.isPunct ')' then do
      let depth ← sub depth 1
      if depth = 0 then return some offset else closing depth (offset + 1) ts
    else closing depth (offset + 1) ts

/-- The place of the parenthesis that closes the one at the place `opening`. -/
def matching (opening : Nat) : Guarded (Option Nat) := do
  let rest ← range tokens opening tokens.length
  let offset? ← closing 0 0 rest
  return offset?.map (opening + ·)

/-- The place behind the arguments that may start at `i`; none if they have no end. -/
def afterArguments (i : Nat) : Guarded (Option Nat) :=
  if tokens[i]?.any (·.isPunct '(') then do
    let close? ← matching tokens i
    return close?.map (· + 1)
  else return some i

/-- The member used of a new object in parentheses, from the place behind its class on. -/
def newObjectMember (owner : ClassRef) (i : Nat) : Guarded (List Reference) := do
  match ← afterArguments tokens i with
  | some cursor =>
    if tokens[cursor]?.any (·.isPunct ')') && tokens[cursor + 1]?.any (·.kind == .arrow) then
      return Reference.instanceMember owner (tokens.drop (cursor + 2))
    else return []
  | none => return []

/-- The references of a `new` at the place `i`. -/
def newReferences (ns : String) (i : Nat) : Guarded (List Reference) :=
  match tokens[i + 1]? with
  | none => return []
  | some classToken =>
    match classToken.ident?.bind (Reference.newClass? ns) with
    | none => return []
    | some owner => do
      let t ← index tokens i
      let members ←
        if (previous tokens i).any (·.isPunct '(') then newObjectMember tokens owner (i + 2)
        else pure []
      return ⟨.new owner, t.span.join classToken.span⟩ :: members

/-- The references of the name `name` at the place `i`. -/
def nameReferences (ns : String) (i : Nat) (name : String) : Guarded (List Reference) := do
  let t ← index tokens i
  if Reference.followsAccess (previous tokens i).toList then return []
  else if Text.lowerAscii name = "new" then newReferences tokens ns i
  else if tokens[i + 1]?.any (·.kind == .doubleColon) then
    match Reference.staticClass? ns name with
    | some owner => staticMember tokens owner i
    | none => return []
  else if Reference.isReserved name then return []
  else
    let target := Name.resolveFunction ns name
    if tokens[i + 1]?.any (·.isPunct '(') then return [⟨.call target.name target.fallback, t.span⟩]
    else
      let isType ← isTypePosition tokens i
      if isType then return [] else return [⟨.constant target.name target.fallback, t.span⟩]

/-- The references that the token `t` at the place `i` starts. -/
def startingAt (ns : String) (i : Nat) (t : Token) : Guarded (List Reference) :=
  match t.kind with
  | .ident name => nameReferences tokens ns i name
  | .variable name =>
    if name = "this" && tokens[i + 1]?.any (·.kind == .arrow) then
      return Reference.instanceMember .current (tokens.drop (i + 2))
    else return []
  | _ => return []

/-- The references from the place `i` on. -/
def scanFrom (ns : String) (i : Nat) : Guarded (List Reference) :=
  match peek tokens i with
  | none => return []
  | some ⟨t, _h⟩ => do
    let found ← startingAt tokens ns i t
    let later ← scanFrom ns (i + 1)
    return found ++ later
termination_by left tokens i
decreasing_by exact left_succ_lt _h

end

def scanReferences (ns : String) (tokens : List Token) : Guarded (List Reference) :=
  scanFrom tokens ns 0

/-! What the scan finds. -/

/-- Where a scan stands: `before` are the tokens before the place, nearest first, and `rest` are
those from the place on. -/
structure Around (tokens before : List Token) (i : Nat) (rest : List Token) : Prop where
  tokens_eq : before.reverse ++ rest = tokens
  place_eq : before.length = i

namespace Around

variable {tokens before rest : List Token} {t : Token} {i : Nat}

theorem stands (h : Around tokens before i rest) : At tokens i rest :=
  ⟨before.reverse, h.tokens_eq, by rw [List.length_reverse, h.place_eq]⟩

theorem back (h : Around tokens (t :: before) i rest) :
    ∃ j, i = j + 1 ∧ Around tokens before j (t :: rest) := by
  obtain ⟨htokens, hplace⟩ := h
  refine ⟨before.length, hplace.symm, ?_, rfl⟩
  rw [← htokens, List.reverse_cons, List.append_assoc, List.singleton_append]

theorem next (h : Around tokens before i (t :: rest)) :
    Around tokens (t :: before) (i + 1) rest := by
  obtain ⟨htokens, hplace⟩ := h
  refine ⟨?_, by rw [List.length_cons, hplace]⟩
  rw [← htokens, List.reverse_cons, List.append_assoc, List.singleton_append]

theorem previous (h : Around tokens before i rest) : previous tokens i = before.head? := by
  cases before with
  | nil =>
    rw [← h.place_eq]
    rfl
  | cons p before =>
    obtain ⟨j, rfl, hback⟩ := h.back
    exact hback.stands.getElem?

theorem gluedToName (h : Around tokens before i (t :: rest)) :
    gluedToName tokens i t = .ok (Reference.gluedToName before t) := by
  cases before with
  | nil =>
    rw [← h.place_eq]
    rfl
  | cons p before =>
    obtain ⟨j, rfl, hback⟩ := h.back
    rw [Guarded.gluedToName, if_pos (Nat.succ_pos j), sub_succ, ok_bind, hback.stands.index]
    rfl

theorem insideTypeArguments (depth : Nat) (h : Around tokens before i rest) :
    insideTypeArguments tokens depth i = .ok (Reference.insideTypeArguments depth before) := by
  induction before generalizing depth i rest with
  | nil =>
    rw [← h.place_eq, Guarded.insideTypeArguments]
    rfl
  | cons t before ih =>
    obtain ⟨j, rfl, hback⟩ := h.back
    rw [Guarded.insideTypeArguments, if_pos (Nat.succ_pos j), sub_succ, ok_bind,
      hback.stands.index, ok_bind, dif_pos (Nat.lt_succ_self j), hback.gluedToName,
      Reference.insideTypeArguments.eq_def]
    simp only [ih _ hback]
    cases t.kind with
    | punct c =>
      by_cases hopen : c = '<'
      · subst hopen
        cases Reference.gluedToName before t <;> cases depth <;> rfl
      by_cases hclose : c = '>'
      · subst hclose
        rfl
      by_cases hcomma : c = ','
      · subst hcomma
        rfl
      by_cases hmark : c = '?'
      · subst hmark
        rfl
      simp [*]
    | _ => rfl

theorem followsSignature (h : Around tokens before i rest) :
    followsSignature tokens i = .ok (Reference.followsSignature before) := by
  rcases before with _ | ⟨colon, _ | ⟨paren, before⟩⟩
  · rw [← h.place_eq]
    rfl
  · rw [← h.place_eq]
    rfl
  · obtain ⟨j, rfl, hback⟩ := h.back
    obtain ⟨k, rfl, hback'⟩ := hback.back
    have htwo : sub (k + 1 + 1) 2 = .ok k := sub_of_le (by omega)
    rw [Guarded.followsSignature, if_pos (by omega), sub_succ, ok_bind,
      hback.stands.index, ok_bind, htwo, ok_bind, hback'.stands.index]
    rfl

theorem takesTypeArguments (h : Around tokens before i (t :: rest)) :
    takesTypeArguments tokens i = .ok (Reference.takesTypeArguments t rest) := by
  rw [Guarded.takesTypeArguments, h.next.stands.getElem?]
  cases rest with
  | nil => rfl
  | cons angle rest =>
    rw [List.head?_cons, h.stands.index, h.next.next.stands.getElem?]
    cases rest with
    | nil => simp [Reference.takesTypeArguments]
    | cons arg rest => rfl

theorem isTypePosition (h : Around tokens before i (t :: rest)) :
    isTypePosition tokens i = .ok (Reference.isTypePosition before t rest) := by
  rw [Guarded.isTypePosition, h.followsSignature, ok_bind, h.takesTypeArguments, ok_bind,
    h.insideTypeArguments, ok_bind, h.next.stands.getElem?, h.previous]
  rfl

end Around

section

variable {tokens before rest : List Token} {t : Token} {i : Nat}

/-- The search for a closing parenthesis ends `offset` and as many tokens on as stand before it. -/
def ClosesIn (ts : List Token) (offset : Nat) (after? : Option (List Token))
      (found : Guarded (Option Nat)) :
    Prop :=
  match after? with
  | none => found = .ok none
  | some after => ∃ inside close, ts = inside ++ close :: after ∧
      found = .ok (some (offset + inside.length))

theorem ClosesIn.cons {ts : List Token} {offset : Nat} {after? : Option (List Token)}
    {found : Guarded (Option Nat)} (h : ClosesIn ts (offset + 1) after? found) (t : Token) :
    ClosesIn (t :: ts) offset after? found := by
  cases after? with
  | none => exact h
  | some after =>
    obtain ⟨inside, close, rfl, hfound⟩ := h
    refine ⟨t :: inside, close, rfl, ?_⟩
    rw [hfound, List.length_cons, Nat.add_assoc, Nat.add_comm 1]

/-- One parenthesis more is open than the search counts below it, so the count stays above zero. -/
theorem closesIn_closing (depth offset : Nat) (ts : List Token) :
    ClosesIn ts offset (Reference.closeParen? depth ts) (closing (depth + 1) offset ts) := by
  induction ts generalizing depth offset with
  | nil => exact rfl
  | cons t ts ih =>
    rw [closing, Reference.closeParen?.eq_def]
    dsimp only
    by_cases hopen : t.isPunct '(' = true
    · rw [if_pos hopen, if_pos hopen]
      exact (ih (depth + 1) (offset + 1)).cons t
    rw [if_neg hopen, if_neg hopen]
    by_cases hclose : t.isPunct ')' = true
    · rw [if_pos hclose, if_pos hclose, sub_succ, ok_bind]
      cases depth with
      | zero => exact ⟨[], t, rfl, rfl⟩
      | succ depth => exact (ih depth (offset + 1)).cons t
    · rw [if_neg hclose, if_neg hclose]
      exact (ih depth (offset + 1)).cons t

theorem At.matching (h : At tokens i (t :: rest)) (ht : t.isPunct '(' = true) :
    match Reference.closeParen? 0 rest with
    | none => matching tokens i = .ok none
    | some after => ∃ close, matching tokens i = .ok (some close) ∧
      At tokens (close + 1) after := by
  have hcloses := (closesIn_closing 0 1 rest)
  have hfirst : closing 0 0 (t :: rest) = closing 1 1 rest := by rw [closing, if_pos ht]
  rw [Guarded.matching, h.range_end, ok_bind, hfirst]
  cases hafter : Reference.closeParen? 0 rest with
  | none =>
    rw [hafter] at hcloses
    rw [hcloses]
    rfl
  | some after =>
    rw [hafter] at hcloses
    obtain ⟨inside, close, rfl, hfound⟩ := hcloses
    refine ⟨i + (1 + inside.length), ?_, ?_⟩
    · rw [hfound]
      rfl
    · have hnext := h.next.skip.next
      rwa [Nat.add_assoc i] at hnext

theorem At.afterArguments (h : At tokens i rest) :
    match Reference.afterArguments? rest with
    | none => afterArguments tokens i = .ok none
    | some after => ∃ cursor, afterArguments tokens i = .ok (some cursor) ∧
      At tokens cursor after := by
  rw [Guarded.afterArguments, h.getElem?]
  cases rest with
  | nil => exact ⟨i, rfl, h⟩
  | cons t rest =>
    rw [Reference.afterArguments?, List.head?_cons, Option.any_some]
    by_cases ht : t.isPunct '(' = true
    · have hmatching := h.matching ht
      rw [if_pos ht, if_pos ht]
      cases hafter : Reference.closeParen? 0 rest with
      | none =>
        rw [hafter] at hmatching
        rw [hmatching]
        rfl
      | some after =>
        rw [hafter] at hmatching
        obtain ⟨close, hclose, hstands⟩ := hmatching
        exact ⟨close + 1, by rw [hclose]; rfl, hstands⟩
    · rw [if_neg ht, if_neg ht]
      exact ⟨i, rfl, h⟩

theorem At.newObjectMember (h : At tokens i rest) (owner : ClassRef) :
    newObjectMember tokens owner i = .ok (Reference.newObjectMember owner rest) := by
  have hafter := h.afterArguments
  rw [Guarded.newObjectMember, Reference.newObjectMember]
  cases hrest : Reference.afterArguments? rest with
  | none =>
    rw [hrest] at hafter
    rw [hafter]
    rfl
  | some after =>
    rw [hrest] at hafter
    obtain ⟨cursor, hcursor, hstands⟩ := hafter
    have hsecond := hstands.getElem?_add 1
    rw [hcursor, ok_bind]
    dsimp only
    rw [hstands.getElem?, hsecond]
    rcases after with _ | ⟨paren, _ | ⟨arrow, after⟩⟩
    · rfl
    · simp
    · rw [hstands.next.next.drop_eq]
      exact (apply_ite Except.ok ..).symm

theorem Around.newReferences (h : Around tokens before i (t :: rest)) (ns : String) :
    newReferences tokens ns i = .ok (Reference.newReferences ns before t rest) := by
  rw [Guarded.newReferences, h.next.stands.getElem?]
  cases rest with
  | nil => rfl
  | cons classToken rest =>
    dsimp only [List.head?_cons]
    rw [Reference.newReferences]
    cases classToken.ident?.bind (Reference.newClass? ns) with
    | none => rfl
    | some owner =>
      dsimp only
      rw [h.stands.index, ok_bind, h.previous, h.next.next.stands.newObjectMember]
      cases hparen : before.head?.any (·.isPunct '(') <;> simp [Reference.headIs, hparen]

theorem Around.staticMember {colon : Token} (h : Around tokens before i (t :: colon :: rest))
    (owner : ClassRef) : staticMember tokens owner i =
      .ok (Reference.staticMember owner t rest) := by
  rw [Guarded.staticMember, h.stands.index, ok_bind, h.next.next.stands.drop_eq]
  rfl

theorem Around.nameReferences (h : Around tokens before i (t :: rest)) (ns name : String) :
    nameReferences tokens ns i name = .ok (Reference.nameReferences ns before t name rest) := by
  have haccess : Reference.followsAccess before.head?.toList = Reference.followsAccess before := by
    cases before <;> rfl
  rw [Guarded.nameReferences, h.stands.index, ok_bind, h.previous, h.next.stands.getElem?, haccess,
    h.newReferences, h.isTypePosition, Reference.nameReferences]
  refine ite_eq_ok (fun _ => rfl) fun _ => ite_eq_ok (fun _ => rfl) fun _ =>
    ite_eq_ok (fun hcolon => ?_) fun _ => ite_eq_ok (fun _ => rfl) fun _ =>
    ite_eq_ok (fun _ => rfl) fun _ => ite_eq_ok (fun _ => rfl) fun _ => rfl
  cases rest with
  | nil => cases hcolon
  | cons colon rest =>
    cases Reference.staticClass? ns name with
    | none => rfl
    | some owner => exact h.staticMember owner

theorem Around.startingAt (h : Around tokens before i (t :: rest)) (ns : String) :
    startingAt tokens ns i t = .ok (Reference.startingAt ns before t rest) := by
  rw [Guarded.startingAt, Reference.startingAt, h.next.stands.getElem?]
  cases t.kind with
  | ident name => exact h.nameReferences ns name
  | «variable» name =>
    refine ite_eq_ok (fun hthis => ?_) fun _ => rfl
    cases rest with
    | nil => simp at hthis
    | cons arrow rest =>
      rw [h.next.next.stands.drop_eq]
      rfl
  | _ => rfl

theorem Around.scanFrom (h : Around tokens before i rest) (ns : String) :
    scanFrom tokens ns i = .ok (Reference.scanFrom ns before rest) := by
  induction rest generalizing before i with
  | nil =>
    rw [Guarded.scanFrom, h.stands.peek_nil]
    rfl
  | cons t rest ih =>
    rw [Guarded.scanFrom, h.stands.peek_cons]
    dsimp only
    rw [h.startingAt, ok_bind, ih h.next]
    rfl

/-- The scan on indexes meets no trap and finds the references in the tokens. -/
theorem scanReferences_eq_ok (ns : String) (tokens : List Token) :
    scanReferences ns tokens = .ok (ModuleVisibility.scanReferences ns tokens) := by
  have hstart : Around tokens [] 0 tokens := ⟨rfl, rfl⟩
  exact hstart.scanFrom ns

end

end Guarded
end ModuleVisibility
