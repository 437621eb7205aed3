import ModuleVisibility.Unit.Declarator
import ModuleVisibility.Unit.Reading

/-!
The body of a class or trait: its use clauses and members. A visibility counts for the member that
follows it. A fault that cuts a statement short gives up the whole body.
-/
namespace ModuleVisibility

/-- What a class or trait holds. -/
structure ClassBody where
  uses : List UseClause
  members : List Member
  deriving DecidableEq

namespace ClassBody

def empty : ClassBody := ⟨[], []⟩

def append (a b : ClassBody) : ClassBody := ⟨a.uses ++ b.uses, a.members ++ b.members⟩

/-- One item of a body: what it adds, and the visibility that waits for a member behind it. -/
structure Item where
  content : ClassBody
  pending : Option Visibility

/-- What a token begins when it starts an item of a body. -/
inductive ItemStart where
  | nothing
  | visibility (visibility : Visibility)
  | attributes
  | uses
  | method
  | constants
  /-- A statement that holds no member. -/
  | memberless
  | properties
  deriving DecidableEq

/-- The item that a word begins: one that is no keyword of a body is part of a property's type. -/
def ItemStart.ofWord (word : String) : ItemStart :=
  if word ∈ ["public", "private", "protected"] then .visibility .public
  else if word = "internal" then .visibility .internal
  else if word ∈ ["static", "abstract", "final", "async", "readonly", "var"] then .nothing
  else if word = "use" then .uses
  else if word = "function" then .method
  else if word = "const" then .constants
  else if word ∈ ["require", "case", "attribute", "children", "category"] then .memberless
  else .properties

def ItemStart.ofToken (t : Token) : ItemStart :=
  match t.kind with
  | .punct c => if c = ';' then .nothing else .properties
  | .attrOpen => .attributes
  | .ident word => .ofWord word
  | _ => .properties

end ClassBody

namespace Reading

/-- The tokens behind the type arguments in which `depth` angles are open. -/
def afterTypeArguments : Nat → List Token → List Token
  | _, [] => []
  | depth, t :: ts =>
    let depth' :=
      if t.isPunct '<' then depth + 1
      else if t.isPunct '>' then depth - 1
      else if t.kind == .attrClose then depth - 2
      else depth
    if depth' = 0 then ts else afterTypeArguments depth' ts

theorem afterTypeArguments_length_le (depth : Nat) (ts : List Token) :
    (afterTypeArguments depth ts).length ≤ ts.length := by
  fun_induction afterTypeArguments depth ts <;> simp at *
  omega

/-- The tokens behind the type arguments that the tokens may start with. -/
def skipTypeArguments (ts : List Token) : List Token :=
  if Reference.headIs (·.isPunct '<') ts then afterTypeArguments 0 ts else ts

theorem skipTypeArguments_length_le (ts : List Token) :
    (skipTypeArguments ts).length ≤ ts.length := by
  unfold skipTypeArguments
  split
  · exact afterTypeArguments_length_le 0 ts
  · exact Nat.le_refl _

theorem length_lt_of_skipTypeArguments {ts after : List Token} {t : Token}
    (h : skipTypeArguments ts = t :: after) : after.length < ts.length := by
  have := skipTypeArguments_length_le ts
  rw [h] at this
  exact this

/-- The clauses of a `use`, up to its semicolon or past its block. -/
def useClauses (stop : Span) (ns : String) (ts : List Token) : Reading (List UseClause) :=
  match ts with
  | [] => failure (.nameMissingAtEnd .trait) stop []
  | t :: ts =>
    match t.ident? with
    | none => failure (.nameExpected .trait) t.span (t :: ts)
    | some name =>
      let clause : UseClause := ⟨Name.resolveClass ns name, t.span⟩
      match _h : skipTypeArguments ts with
      | [] => failure .useCutShort stop []
      | next :: after =>
        if next.isPunct ',' then (useClauses stop ns after).map (clause :: ·)
        else if next.isPunct ';' then success [clause] after
        else if next.isPunct '\x7b' then (block next after).map fun _ => [clause]
        else failure .useUnfinished next.span (next :: after)
termination_by ts.length
decreasing_by
  have := length_lt_of_skipTypeArguments _h
  simp only [List.length_cons]
  omega

theorem useClauses_rest_le (stop : Span) (ns : String) (ts : List Token) :
    (useClauses stop ns ts).rest.length ≤ ts.length := by
  fun_induction useClauses stop ns ts with
  | case1 => simp
  | case2 => simp
  | case3 => simp
  | case4 _ _ _ _ _ _ _ h _ ih =>
    have := length_lt_of_skipTypeArguments h
    simp only [map_rest, List.length_cons]
    omega
  | case5 _ _ _ _ _ _ _ h =>
    have := length_lt_of_skipTypeArguments h
    simp only [success_rest, List.length_cons]
    omega
  | case6 _ _ _ _ _ next after h =>
    have := length_lt_of_skipTypeArguments h
    have := block_rest_le next after
    simp only [map_rest, List.length_cons]
    omega
  | case7 _ _ _ _ _ _ h =>
    have := length_lt_of_skipTypeArguments h
    simp only [failure_rest, List.length_cons]
    omega

/-- A method behind its keyword. -/
def method (stop : Span) (ns : String) (visibility : Visibility) (ts : List Token) :
    Reading Member :=
  (expectName stop .method ts).andThen fun (name, span) ts =>
    (signature stop 0 ts).map fun body =>
      ⟨name, .method, visibility, span, scanReferences ns body⟩

theorem method_rest_le (stop : Span) (ns : String) (visibility : Visibility) (ts : List Token) :
    (method stop ns visibility ts).rest.length ≤ ts.length :=
  Nat.le_trans (andThen_rest_le _ _ fun _ => signature_rest_le ..) (expectName_rest_le ..)

/-- The constants of a statement behind its keyword; a type constant declares none. -/
def classConstants (stop : Span) (ns : String) (visibility : Visibility) (ts : List Token) :
    Reading (List Member) :=
  (memberStatement stop 0 ts).map fun statement =>
    if Reference.headIs (·.isWord "type") statement then []
    else (Declarator.constants statement).map (·.toMember ns .constant visibility)

theorem classConstants_rest_le (stop : Span) (ns : String) (visibility : Visibility)
    (ts : List Token) : (classConstants stop ns visibility ts).rest.length ≤ ts.length :=
  memberStatement_rest_le ..

/-- The properties of the statement that starts with `t`; it is a fault to declare none. -/
def properties (stop : Span) (ns : String) (visibility : Visibility) (t : Token)
    (ts : List Token) : Reading (List Member) :=
  (memberStatement stop 0 (t :: ts)).andThen fun statement rest =>
    match Declarator.properties false false statement with
    | [] => ⟨some [], [SyntaxFault.memberMissing.atSpan t.span], rest⟩
    | found => success (found.map (·.toMember ns .property visibility)) rest

theorem properties_rest (stop : Span) (ns : String) (visibility : Visibility) (t : Token)
    (ts : List Token) :
    (properties stop ns visibility t ts).rest = (memberStatement stop 0 (t :: ts)).rest := by
  unfold properties andThen
  split
  · rfl
  · dsimp only
    split <;> rfl

theorem properties_rest_le {stop : Span} {ns : String} {visibility : Visibility} {t : Token}
    {ts : List Token} (h : (properties stop ns visibility t ts).value?.isSome) :
    (properties stop ns visibility t ts).rest.length ≤ ts.length := by
  rw [properties_rest]
  match hs : (memberStatement stop 0 (t :: ts)).value? with
  | some _ => exact Nat.le_of_lt_succ (memberStatement_rest_lt hs)
  | none => simp [properties, andThen_of_none _ hs] at h

/-- The item that starts with `t`, where `pending` is the visibility read before it. -/
def bodyItem (stop : Span) (ns : String) (pending : Option Visibility) (t : Token)
    (ts : List Token) : Reading ClassBody.Item :=
  let visibility := pending.getD .public
  match ClassBody.ItemStart.ofToken t with
  | .nothing => success ⟨.empty, pending⟩ ts
  | .visibility v => success ⟨.empty, some v⟩ ts
  | .attributes => (attributes stop 0 false ts).map fun _ => ⟨.empty, pending⟩
  | .uses => (useClauses stop ns ts).map fun uses => ⟨⟨uses, []⟩, none⟩
  | .method => (method stop ns visibility ts).map fun member => ⟨⟨[], [member]⟩, none⟩
  | .constants =>
    (classConstants stop ns visibility ts).map fun members => ⟨⟨[], members⟩, none⟩
  | .memberless => (memberStatement stop 0 ts).map fun _ => ⟨.empty, none⟩
  | .properties =>
    (properties stop ns visibility t ts).map fun members => ⟨⟨[], members⟩, none⟩

theorem bodyItem_rest_le {stop : Span} {ns : String} {pending : Option Visibility} {t : Token}
    {ts : List Token} (h : (bodyItem stop ns pending t ts).value?.isSome) :
    (bodyItem stop ns pending t ts).rest.length ≤ ts.length := by
  unfold bodyItem at h ⊢
  cases hs : ClassBody.ItemStart.ofToken t <;> rw [hs] at h <;> dsimp only at h ⊢
  case nothing => exact Nat.le_refl _
  case visibility => exact Nat.le_refl _
  case attributes => exact attributes_rest_le ..
  case uses => exact useClauses_rest_le ..
  case method => exact method_rest_le ..
  case constants => exact classConstants_rest_le stop ns (pending.getD .public) ts
  case memberless => exact memberStatement_rest_le ..
  case properties => exact properties_rest_le (by simpa [map] using h)

theorem bodyItem_rest_le_succ (stop : Span) (ns : String) (pending : Option Visibility) (t : Token)
    (ts : List Token) : (bodyItem stop ns pending t ts).rest.length ≤ ts.length + 1 := by
  unfold bodyItem
  cases ClassBody.ItemStart.ofToken t <;> dsimp only
  case nothing => exact Nat.le_succ _
  case visibility => exact Nat.le_succ _
  case attributes => exact Nat.le_succ_of_le (attributes_rest_le ..)
  case uses => exact Nat.le_succ_of_le (useClauses_rest_le ..)
  case method => exact Nat.le_succ_of_le (method_rest_le ..)
  case constants =>
    exact Nat.le_succ_of_le (classConstants_rest_le stop ns (pending.getD .public) ts)
  case memberless => exact Nat.le_succ_of_le (memberStatement_rest_le ..)
  case properties =>
    rw [map_rest, properties_rest]
    exact memberStatement_rest_le ..

/-- The rest of the body that the token `brace` opens. -/
def classItems (stop : Span) (ns : String) (brace : Token) (pending : Option Visibility) :
    List Token → Reading ClassBody
  | [] => failure .unclosedBrace brace.span []
  | t :: ts =>
    if t.isPunct '\x7d' then success .empty ts
    else
      let item := bodyItem stop ns pending t ts
      match _h : item.value? with
      | none => ⟨none, item.errors, item.rest⟩
      | some found =>
        let later := classItems stop ns brace found.pending item.rest
        ⟨later.value?.map found.content.append, item.errors ++ later.errors, later.rest⟩
termination_by ts => ts.length
decreasing_by
  have := bodyItem_rest_le (by rw [_h]; rfl)
  simp only [List.length_cons]
  exact Nat.lt_succ_of_le this

theorem classItems_of_item {stop : Span} {ns : String} {brace : Token} {pending : Option Visibility}
    {t : Token} {ts : List Token} (ht : ¬ t.isPunct '\x7d' = true) :
    classItems stop ns brace pending (t :: ts) =
      (bodyItem stop ns pending t ts).andThen fun found rest =>
      (classItems stop ns brace found.pending rest).map found.content.append := by
  rw [classItems, if_neg ht]
  dsimp only
  split
  · next h => rw [andThen_of_none _ h]
  · next found h =>
    rw [andThen_of_some _ h]
    rfl

theorem classItems_rest_le (stop : Span) (ns : String) (brace : Token)
    (pending : Option Visibility) (ts : List Token) :
    (classItems stop ns brace pending ts).rest.length ≤ ts.length := by
  fun_induction classItems stop ns brace pending ts with
  | case1 => simp
  | case2 => simp
  | case3 => exact bodyItem_rest_le_succ ..
  | case4 pending t ts _ item found h later ih =>
    have : item.rest.length ≤ ts.length := bodyItem_rest_le (Option.isSome_of_eq_some h)
    exact Nat.le_trans ih (Nat.le_succ_of_le this)

/-- The body of a class or trait behind its name: everything before its brace is passed over. -/
def classBody (stop : Span) (ns : String) : List Token → Reading ClassBody
  | [] => failure .braceMissingAtEnd stop []
  | t :: ts =>
    if t.isPunct '\x7b' then classItems stop ns t none ts
    else if t.isPunct ';' || t.isPunct '\x7d' then failure .braceMissing t.span (t :: ts)
    else classBody stop ns ts

theorem classBody_rest_le (stop : Span) (ns : String) (ts : List Token) :
    (classBody stop ns ts).rest.length ≤ ts.length := by
  fun_induction classBody stop ns ts with
  | case1 => simp
  | case2 => exact Nat.le_succ_of_le (classItems_rest_le ..)
  | case3 => simp
  | case4 _ _ _ _ ih => exact Nat.le_succ_of_le ih

end Reading
end ModuleVisibility
