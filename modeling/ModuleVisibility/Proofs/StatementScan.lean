import ModuleVisibility.Proofs.Scan

/-!
Scanning statement by statement. Whatever the scan looks at around a token, it does not look past a
semicolon: forward it looks at a few tokens and for the end of a parenthesis, which a statement
closes itself, and backward along names and their separators. So the references of tokens on the two
sides of a semicolon are those that either side has alone.
-/
namespace ModuleVisibility

/-- Whether every parenthesis is closed, where `depth` are open, and no other is. -/
def parenthesized (depth : Nat) : List Token → Bool
  | [] => depth == 0
  | t :: ts =>
    if t.isPunct '(' then parenthesized (depth + 1) ts
    else if t.isPunct ')' then depth != 0 && parenthesized (depth - 1) ts
    else parenthesized depth ts

namespace Reference

variable {ts behind : List Token} {t : Token}

/-! What a semicolon hides. -/

/-- A first token is looked at, or the semicolon if there is none. -/
theorem headIs_append {test : Token → Bool} (ts : List Token) {stop : Token} (h : test stop = false)
    (more : List Token) : headIs test (ts ++ stop :: more) = headIs test ts := by
  cases ts with
  | nil => simp [headIs, h]
  | cons t ts => rfl

section Semicolon

variable (span : Span) (more : List Token)

theorem takesTypeArguments_semicolon (t : Token) (after : List Token) :
    takesTypeArguments t (after ++ ⟨.punct ';', span⟩ :: more) = takesTypeArguments t after := by
  rcases after with _ | ⟨angle, _ | ⟨arg, after⟩⟩
  · cases more <;> rfl
  · exact Bool.and_false _
  · rfl

theorem followsSignature_semicolon (before : List Token) :
    followsSignature (before ++ ⟨.punct ';', span⟩ :: more) = followsSignature before := by
  rcases before with _ | ⟨colon, _ | ⟨paren, before⟩⟩
  · cases more <;> rfl
  · exact Bool.and_false _
  · rfl

/-- The way back along type arguments ends at the semicolon, as it ends where the tokens do. -/
theorem insideTypeArguments_semicolon (depth : Nat) (before : List Token) :
    insideTypeArguments depth (before ++ ⟨.punct ';', span⟩ :: more) =
      insideTypeArguments depth before := by
  induction before generalizing depth with
  | nil => rfl
  | cons t before ih =>
    have hglued : gluedToName (before ++ ⟨.punct ';', span⟩ :: more) t = gluedToName before t :=
      headIs_append before rfl more
    simp only [List.cons_append, insideTypeArguments, ih, hglued]

theorem isTypePosition_before (before : List Token) (t : Token) (after : List Token) :
    isTypePosition (before ++ ⟨.punct ';', span⟩ :: more) t after =
      isTypePosition before t after := by
  unfold isTypePosition
  rw [headIs_append before rfl, followsSignature_semicolon, insideTypeArguments_semicolon]

theorem isTypePosition_after (before : List Token) (t : Token) (after : List Token) :
    isTypePosition before t (after ++ ⟨.punct ';', span⟩ :: more) =
      isTypePosition before t after := by
  unfold isTypePosition
  rw [headIs_append after rfl, takesTypeArguments_semicolon]

/-- A name with a semicolon behind it is no call. -/
theorem headIs_paren_semicolon (after : List Token) :
    headIs (·.isPunct '(') (after ++ ⟨.punct ';', span⟩ :: more) = headIs (·.isPunct '(') after :=
  headIs_append after rfl more

theorem instanceMember_semicolon (owner : ClassRef) (after : List Token) :
    instanceMember owner (after ++ ⟨.punct ';', span⟩ :: more) = instanceMember owner after := by
  cases after with
  | nil => rfl
  | cons t after => simp only [List.cons_append, instanceMember, headIs_paren_semicolon]

theorem staticMember_semicolon (owner : ClassRef) (start : Token) (after : List Token) :
    staticMember owner start (after ++ ⟨.punct ';', span⟩ :: more) =
      staticMember owner start after := by
  cases after with
  | nil => rfl
  | cons t after => simp only [List.cons_append, staticMember, headIs_paren_semicolon]

end Semicolon

/-! Parentheses that the statement closes. -/

theorem exists_parenthesized_tail {depth : Nat} (h : parenthesized depth (t :: ts) = true) :
    ∃ depth, parenthesized depth ts = true := by
  unfold parenthesized at h
  split at h
  · exact ⟨_, h⟩
  split at h
  · exact ⟨_, (Bool.and_eq_true_iff.1 h).2⟩
  · exact ⟨_, h⟩

/-- A parenthesis that is open before balanced tokens is closed in them. -/
theorem exists_closeParen? {outer : Nat} (inner : Nat)
    (h : parenthesized (outer + inner + 1) ts = true) :
    ∃ rest, closeParen? inner ts = some rest := by
  induction ts generalizing inner with
  | nil => cases h
  | cons t ts ih =>
    unfold parenthesized at h
    unfold closeParen?
    split at h
    · next hopen =>
      rw [if_pos hopen]
      exact ih (inner + 1) h
    · next hopen =>
      rw [if_neg hopen]
      split at h
      · next hclose =>
        rw [if_pos hclose]
        cases inner with
        | zero => exact ⟨ts, rfl⟩
        | succ inner => exact ih inner (Bool.and_eq_true_iff.1 h).2
      · next hclose =>
        rw [if_neg hclose]
        exact ih inner h

section Semicolon

variable (span : Span) (more : List Token) {depth : Nat}

/-- The arguments of a balanced statement end in it. -/
theorem afterArguments?_semicolon (h : parenthesized depth ts = true) :
    afterArguments? (ts ++ ⟨.punct ';', span⟩ :: more) =
      (afterArguments? ts).map (· ++ ⟨.punct ';', span⟩ :: more) := by
  cases ts with
  | nil => rfl
  | cons t ts =>
    simp only [List.cons_append, afterArguments?]
    split
    · next hopen =>
      rw [parenthesized, if_pos hopen] at h
      obtain ⟨rest, hrest⟩ := exists_closeParen? 0 h
      rw [closeParen?_append hrest, hrest]
      rfl
    · rfl

theorem newObjectMember_semicolon (owner : ClassRef) (h : parenthesized depth ts = true) :
    newObjectMember owner (ts ++ ⟨.punct ';', span⟩ :: more) = newObjectMember owner ts := by
  unfold newObjectMember
  rw [afterArguments?_semicolon span more h]
  rcases afterArguments? ts with _ | _ | ⟨paren, _ | ⟨arrow, rest⟩⟩
  · rfl
  · cases more <;> rfl
  · simp
  · simp [instanceMember_semicolon]

theorem newReferences_after (ns : String) (before : List Token) (t : Token)
    (h : parenthesized depth ts = true) :
    newReferences ns before t (ts ++ ⟨.punct ';', span⟩ :: more) =
      newReferences ns before t ts := by
  cases ts with
  | nil => rfl
  | cons classToken after =>
    obtain ⟨_, hafter⟩ := exists_parenthesized_tail h
    simp only [List.cons_append, newReferences, newObjectMember_semicolon span more _ hafter]

theorem nameReferences_after (ns : String) (before : List Token) (t : Token) (name : String)
    (h : parenthesized depth ts = true) :
    nameReferences ns before t name (ts ++ ⟨.punct ';', span⟩ :: more) =
      nameReferences ns before t name ts := by
  have hcolons : headIs (·.kind == .doubleColon) (ts ++ ⟨.punct ';', span⟩ :: more) =
      headIs (·.kind == .doubleColon) ts := headIs_append ts rfl more
  have hmember : headIs (·.kind == .doubleColon) ts = true → ∀ owner,
      staticMember owner t (ts ++ ⟨.punct ';', span⟩ :: more).tail =
      staticMember owner t ts.tail := by
    intro hhead owner
    cases ts with
    | nil => cases hhead
    | cons colons ts => exact staticMember_semicolon span more owner t ts
  unfold nameReferences
  rw [newReferences_after span more ns before t h, hcolons, headIs_paren_semicolon,
    isTypePosition_after]
  split
  · rfl
  split
  · rfl
  split
  · next hhead => simp only [hmember hhead]
  · rfl

/-- A token of a statement starts what it starts where the statement is the last one. -/
theorem startingAt_after (ns : String) (before : List Token) (t : Token)
    (h : parenthesized depth ts = true) :
    startingAt ns before t (ts ++ ⟨.punct ';', span⟩ :: more) = startingAt ns before t ts := by
  unfold startingAt
  split
  · exact nameReferences_after span more ns before t _ h
  · cases ts with
    | nil => simp [headIs]
    | cons arrow ts =>
      simp only [List.cons_append, List.tail_cons, instanceMember_semicolon]
      rfl
  · rfl

/-- And what it starts where the statement is the first one. -/
theorem startingAt_before (ns : String) (before : List Token) (t : Token) (after : List Token) :
    startingAt ns (before ++ ⟨.punct ';', span⟩ :: more) t after =
      startingAt ns before t after := by
  have hfollows : followsAccess (before ++ ⟨.punct ';', span⟩ :: more) = followsAccess before :=
    headIs_append before rfl more
  have hnew : newReferences ns (before ++ ⟨.punct ';', span⟩ :: more) t after =
      newReferences ns before t after := by
    unfold newReferences
    rw [headIs_paren_semicolon]
  unfold startingAt nameReferences
  simp only [hfollows, hnew, isTypePosition_before]

/-- Behind a semicolon the scan starts afresh. -/
theorem scanFrom_before (ns : String) (before ts : List Token) :
    scanFrom ns (before ++ ⟨.punct ';', span⟩ :: more) ts = scanFrom ns before ts := by
  induction ts generalizing before with
  | nil => rfl
  | cons t ts ih =>
    have hlater : scanFrom ns (t :: (before ++ ⟨.punct ';', span⟩ :: more)) ts =
        scanFrom ns (t :: before) ts := ih (t :: before)
    simp only [scanFrom, startingAt_before, hlater]

/-- A balanced statement has its own references, and leaves the scan behind its semicolon. -/
theorem scanFrom_after (ns : String) (before : List Token) (h : parenthesized depth ts = true) :
    scanFrom ns before (ts ++ ⟨.punct ';', span⟩ :: more) =
      scanFrom ns before ts ++ scanFrom ns (⟨.punct ';', span⟩ :: (ts.reverse ++ before)) more := by
  induction ts generalizing before depth with
  | nil => rfl
  | cons t ts ih =>
    obtain ⟨_, hlater⟩ := exists_parenthesized_tail h
    simp only [List.cons_append, scanFrom, startingAt_after span more ns before t hlater,
      ih (t :: before) hlater, List.append_assoc, List.reverse_cons, List.nil_append]

end Semicolon

end Reference

/-- Scanning is local to statements: the references of `a` with its parentheses closed and of `b`
are those of the tokens with a semicolon between them, wherever it stands. -/
theorem scanReferences_semicolon (ns : String) (a b : List Token) (span : Span)
    (h : parenthesized 0 a = true) :
    scanReferences ns (a ++ [⟨.punct ';', span⟩] ++ b) =
      scanReferences ns a ++ scanReferences ns b := by
  have hstart : Reference.scanFrom ns (⟨.punct ';', span⟩ :: (a.reverse ++ [])) b =
      Reference.scanFrom ns [] b := Reference.scanFrom_before span (a.reverse ++ []) ns [] b
  unfold scanReferences
  rw [List.append_assoc, List.singleton_append, Reference.scanFrom_after span b ns [] h, hstart]

/-- The arguments of a new object hold a parenthesis and an angle of their own, and its member ends
the statement; the next one starts with a parenthesized object and holds a name before an angle. -/
theorem scanReferences_semicolon_newObject :
    let a := (tokenize "$x = (new C(f(A < 1), K))->m").tokens
    let b := (tokenize "(new D)->p; $y = g(B> 1): LIMIT").tokens
    parenthesized 0 a = true ∧ scanReferences "N" (a ++ [⟨.punct ';', ⟨28, 29⟩⟩] ++ b) =
      scanReferences "N" a ++ scanReferences "N" b :=
  ⟨by decide +kernel, scanReferences_semicolon _ _ _ _ (by decide +kernel)⟩

end ModuleVisibility
