import ModuleVisibility.Reference.Scan
import ModuleVisibility.Unit.Fault

/-!
Reading a construct off the front of a token list. A reading says what was read, which faults were
met and which tokens are left; the tokens left are never more than there were. `stop` is the
empty range behind a unit's last token, where what is missing at the end is reported.
-/
namespace ModuleVisibility

/-- The outcome of reading; `value?` is none if the construct could not be read. -/
structure Reading (α : Type) where
  value? : Option α
  errors : List SyntaxError
  rest : List Token

namespace Reading

variable {α β : Type}

def success (value : α) (rest : List Token) : Reading α := ⟨some value, [], rest⟩

def failure (fault : SyntaxFault) (span : Span) (rest : List Token) : Reading α :=
  ⟨none, [fault.atSpan span], rest⟩

def map (f : α → β) (r : Reading α) : Reading β := ⟨r.value?.map f, r.errors, r.rest⟩

/-- Reads on from what is left, if something was read. -/
def andThen (r : Reading α) (next : α → List Token → Reading β) : Reading β :=
  match r.value? with
  | none => ⟨none, r.errors, r.rest⟩
  | some a =>
    let after := next a r.rest
    ⟨after.value?, r.errors ++ after.errors, after.rest⟩

@[simp] theorem success_rest (a : α) (ts : List Token) : (success a ts).rest = ts := rfl

@[simp] theorem failure_rest (f : SyntaxFault) (s : Span) (ts : List Token) :
    (failure f s ts : Reading α).rest = ts := rfl

@[simp] theorem map_rest (f : α → β) (r : Reading α) : (r.map f).rest = r.rest := rfl

theorem andThen_of_none {r : Reading α} (next : α → List Token → Reading β)
    (h : r.value? = none) : r.andThen next = ⟨none, r.errors, r.rest⟩ := by simp [andThen, h]

theorem andThen_of_some {r : Reading α} {a : α} (next : α → List Token → Reading β)
    (h : r.value? = some a) :
    r.andThen next = ⟨(next a r.rest).value?, r.errors ++ (next a r.rest).errors,
      (next a r.rest).rest⟩ := by simp [andThen, h]

theorem andThen_rest_le (r : Reading α) (next : α → List Token → Reading β)
    (h : ∀ a, (next a r.rest).rest.length ≤ r.rest.length) :
    (r.andThen next).rest.length ≤ r.rest.length := by
  unfold andThen
  split
  · exact Nat.le_refl _
  · exact h _

end Reading

namespace Reading

/-- A name at the front. -/
def expectName (stop : Span) (role : NameRole) : List Token → Reading (String × Span)
  | [] => failure (.nameMissingAtEnd role) stop []
  | t :: ts =>
    match t.ident? with
    | some name => success (name, t.span) ts
    | none => failure (.nameExpected role) t.span (t :: ts)

theorem expectName_rest_le (stop : Span) (role : NameRole) (ts : List Token) :
    (expectName stop role ts).rest.length ≤ ts.length := by
  unfold expectName
  split
  · simp
  · split <;> simp

/-- The segments of a module name behind its first ones. -/
def moduleSegments (stop : Span) (name : String) (span : Span) :
    List Token → Reading (String × Span)
  | [] => success (name, span) []
  | dot :: [] =>
    if dot.isPunct '.' then failure (.nameMissingAtEnd .moduleSegment) stop []
    else success (name, span) [dot]
  | dot :: t :: ts =>
    if dot.isPunct '.' then
      match t.ident? with
      | some part => moduleSegments stop (name ++ "." ++ part) (span.join t.span) ts
      | none => failure (.nameExpected .moduleSegment) t.span (t :: ts)
    else success (name, span) (dot :: t :: ts)

theorem moduleSegments_rest_le (stop : Span) (name : String) (span : Span) (ts : List Token) :
    (moduleSegments stop name span ts).rest.length ≤ ts.length := by
  fun_induction moduleSegments stop name span ts <;> simp at *
  omega

/-- A dotted module name at the front. -/
def moduleName (stop : Span) (ts : List Token) : Reading (String × Span) :=
  (expectName stop .moduleName ts).andThen fun (name, span) => moduleSegments stop name span

theorem moduleName_rest_le (stop : Span) (ts : List Token) :
    (moduleName stop ts).rest.length ≤ ts.length :=
  Nat.le_trans (andThen_rest_le _ _ fun _ => moduleSegments_rest_le ..) (expectName_rest_le ..)

/-- The tokens up to the brace that closes a block in which `depth` more are open, and the tokens
behind that brace. -/
def splitBlock? : Nat → List Token → Option (List Token × List Token)
  | _, [] => none
  | depth, t :: ts =>
    if t.isPunct '\x7d' then
      match depth with
      | 0 => some ([], ts)
      | d + 1 => (splitBlock? d ts).map fun (inside, rest) => (t :: inside, rest)
    else
      (splitBlock? (if t.isPunct '\x7b' then depth + 1 else depth) ts).map
        fun (inside, rest) => (t :: inside, rest)

theorem splitBlock?_length {depth : Nat} {ts inside rest : List Token}
    (h : splitBlock? depth ts = some (inside, rest)) : inside.length + rest.length < ts.length := by
  fun_induction splitBlock? depth ts generalizing inside rest with
  | case1 => simp at h
  | case2 t ts => simp_all
  | case3 t ts ht d ih =>
    obtain ⟨⟨i, r⟩, hi, he⟩ := Option.map_eq_some_iff.1 h
    have := ih hi
    simp only [Prod.mk.injEq] at he
    obtain ⟨rfl, rfl⟩ := he
    simp only [List.length_cons]
    omega
  | case4 d t ts ht ih =>
    obtain ⟨⟨i, r⟩, hi, he⟩ := Option.map_eq_some_iff.1 h
    have := ih hi
    simp only [Prod.mk.injEq] at he
    obtain ⟨rfl, rfl⟩ := he
    simp only [List.length_cons]
    omega

/-- The tokens inside the block that the token `brace` opens. -/
def block (brace : Token) (ts : List Token) : Reading (List Token) :=
  match splitBlock? 0 ts with
  | some (inside, rest) => success inside rest
  | none => failure .unclosedBrace brace.span []

theorem block_rest_le (brace : Token) (ts : List Token) :
    (block brace ts).rest.length ≤ ts.length := by
  unfold block
  split
  · next h => have := splitBlock?_length h; simp; omega
  · simp

/-- Whether a token opens or closes a parenthesis or square bracket. -/
def opensBracket (t : Token) : Bool := t.isPunct '(' || t.isPunct '['

/-- The counterpart of `opensBracket`. -/
def closesBracket (t : Token) : Bool := t.isPunct ')' || t.isPunct ']'

/-- The tokens of the body behind a signature in which `depth` brackets are open; a declaration
that ends in a semicolon has none. -/
def signature (stop : Span) : Nat → List Token → Reading (List Token)
  | _, [] => failure .declarationCutShort stop []
  | depth, t :: ts =>
    if opensBracket t then signature stop (depth + 1) ts
    else if closesBracket t then signature stop (depth - 1) ts
    else if depth ≠ 0 then signature stop depth ts
    else if t.isPunct ';' then success [] ts
    else if t.isPunct '\x7b' then block t ts
    else if t.isPunct '\x7d' then failure .bodyMissing t.span (t :: ts)
    else signature stop 0 ts

theorem signature_rest_le (stop : Span) (depth : Nat) (ts : List Token) :
    (signature stop depth ts).rest.length ≤ ts.length := by
  fun_induction signature stop depth ts with
  | case6 _ t ts => have := block_rest_le t ts; simp; omega
  | _ => simp <;> omega

/-- The attribute that makes a trait keep its module. -/
def moduleLevelAttribute : String := "__ModuleLevelTrait"

/-- The rest of an attribute list in which `depth` parentheses are open: whether the trait
attribute is in it, where `found` tells of the part already read. -/
def attributes (stop : Span) : Nat → Bool → List Token → Reading Bool
  | _, found, [] => ⟨some found, [SyntaxFault.unclosedAttributes.atSpan stop], []⟩
  | depth, found, t :: ts =>
    if t.kind == .attrClose && depth == 0 then success found ts
    else if t.isPunct '(' then attributes stop (depth + 1) found ts
    else if t.isPunct ')' then attributes stop (depth - 1) found ts
    else attributes stop depth (found || t.isWord moduleLevelAttribute) ts

theorem attributes_rest_le (stop : Span) (depth : Nat) (found : Bool) (ts : List Token) :
    (attributes stop depth found ts).rest.length ≤ ts.length := by
  fun_induction attributes stop depth found ts <;> simp at * <;> omega

/-- Passes over a statement, up to its semicolon or past its block. -/
def skipStatement : List Token → Reading Unit
  | [] => success () []
  | t :: ts =>
    if t.isPunct ';' then success () ts
    else if t.isPunct '\x7b' then (block t ts).map fun _ => ()
    else skipStatement ts

theorem skipStatement_rest_le (ts : List Token) : (skipStatement ts).rest.length ≤ ts.length := by
  fun_induction skipStatement ts with
  | case3 t ts => have := block_rest_le t ts; simp; omega
  | _ => simp <;> omega

/-- The tokens before the first semicolon, wherever it stands. -/
def upToSemicolon (stop : Span) : List Token → Reading (List Token)
  | [] => failure .constantUnfinished stop []
  | t :: ts => if t.isPunct ';' then success [] ts else (upToSemicolon stop ts).map (t :: ·)

theorem upToSemicolon_rest_le (stop : Span) (ts : List Token) :
    (upToSemicolon stop ts).rest.length ≤ ts.length := by
  fun_induction upToSemicolon stop ts <;> simp at *
  omega

/-- The tokens of a member statement up to the semicolon at which no bracket or brace is open,
where `depth` are open now. -/
def memberStatement (stop : Span) : Nat → List Token → Reading (List Token)
  | _, [] => failure .memberCutShort stop []
  | depth, t :: ts =>
    if opensBracket t || t.isPunct '\x7b' then (memberStatement stop (depth + 1) ts).map (t :: ·)
    else if closesBracket t then (memberStatement stop (depth - 1) ts).map (t :: ·)
    else if t.isPunct '\x7d' then
      match depth with
      | 0 => failure .memberUnfinished t.span (t :: ts)
      | d + 1 => (memberStatement stop d ts).map (t :: ·)
    else if t.isPunct ';' && depth == 0 then success [] ts
    else (memberStatement stop depth ts).map (t :: ·)

theorem memberStatement_rest_le (stop : Span) (depth : Nat) (ts : List Token) :
    (memberStatement stop depth ts).rest.length ≤ ts.length := by
  fun_induction memberStatement stop depth ts <;> simp at * <;> omega

theorem memberStatement_rest_lt {stop : Span} {depth : Nat} {ts statement : List Token}
    (h : (memberStatement stop depth ts).value? = some statement) :
    (memberStatement stop depth ts).rest.length < ts.length := by
  fun_induction memberStatement stop depth ts generalizing statement with
  | case1 => simp [failure] at h
  | case4 => simp [failure] at h
  | case6 => simp
  | case2 _ _ _ _ ih =>
    obtain ⟨_, hs, _⟩ := Option.map_eq_some_iff.1 h
    exact Nat.lt_succ_of_lt (ih hs)
  | case3 _ _ _ _ _ ih =>
    obtain ⟨_, hs, _⟩ := Option.map_eq_some_iff.1 h
    exact Nat.lt_succ_of_lt (ih hs)
  | case5 _ _ _ _ _ _ ih =>
    obtain ⟨_, hs, _⟩ := Option.map_eq_some_iff.1 h
    exact Nat.lt_succ_of_lt (ih hs)
  | case7 _ _ _ _ _ _ _ ih =>
    obtain ⟨_, hs, _⟩ := Option.map_eq_some_iff.1 h
    exact Nat.lt_succ_of_lt (ih hs)

end Reading
end ModuleVisibility
