import ModuleVisibility.Settings.Toml.Basic

/-!
The small parts of TOML: blanks, comments, line ends, strings and keys. A reader takes a part off
the front of a text and leaves the rest; where the part is not there, it has no result.
-/
namespace ModuleVisibility.Toml

/-- Takes a part off the front of a text. -/
abbrev Reader (α : Type) := List Char → Option (α × List Char)

def isGap (c : Char) : Bool := c == ' ' || c == '\t'

/-- A text behind the blanks it starts with. -/
def skipGap (cs : List Char) : List Char := cs.dropWhile isGap

/-- No control character, the tab excepted. -/
def isPlain (c : Char) : Bool := c == '\t' || (0x20 ≤ c.val && c.val != 0x7F)

/-- A text behind the newline it starts with. -/
def newline? : List Char → Option (List Char)
  | '\n' :: cs => some cs
  | '\r' :: '\n' :: cs => some cs
  | _ => none

def skipComment : List Char → List Char
  | '#' :: cs => cs.dropWhile isPlain
  | cs => cs

/-- The next line, if only blanks and a comment are left of this one. -/
def lineEnd? (cs : List Char) : Option (List Char) :=
  match skipComment (skipGap cs) with
  | [] => some []
  | rest => newline? rest

/-- A text behind blanks, newlines and comments. -/
def skipFiller (inComment : Bool) : List Char → List Char
  | [] => []
  | '\n' :: cs => skipFiller false cs
  | '\r' :: '\n' :: cs => skipFiller false cs
  | '#' :: cs => skipFiller true cs
  | c :: cs => if isGap c || (inComment && isPlain c) then skipFiller inComment cs else c :: cs

/-- A text behind blanks and newlines. -/
def skipBlankLines : List Char → List Char
  | [] => []
  | '\n' :: cs => skipBlankLines cs
  | '\r' :: '\n' :: cs => skipBlankLines cs
  | c :: cs => if isGap c then skipBlankLines cs else c :: cs

/-- The value of a digit of base sixteen. -/
def hexValue? (c : Char) : Option Nat :=
  if c.isDigit then some (c.toNat - '0'.toNat)
  else if 'a' ≤ c ∧ c ≤ 'f' then some (c.toNat - 'a'.toNat + 10)
  else if 'A' ≤ c ∧ c ≤ 'F' then some (c.toNat - 'A'.toNat + 10)
  else none

/-- The character whose number the first `count` characters give. -/
def numbered? (count : Nat) (cs : List Char) : Option (Char × List Char) := do
  let digits ← (cs.take count).mapM hexValue?
  let n := digits.foldl (fun n d => 16 * n + d) 0
  if digits.length = count ∧ n.isValidChar then return (Char.ofNat n, cs.drop count) else none

/-- The character that an escape stands for, read behind the backslash. -/
def escape? : Reader Char
  | 'b' :: cs => some ('\x08', cs)
  | 't' :: cs => some ('\t', cs)
  | 'n' :: cs => some ('\n', cs)
  | 'f' :: cs => some ('\x0c', cs)
  | 'r' :: cs => some ('\r', cs)
  | '"' :: cs => some ('"', cs)
  | '\\' :: cs => some ('\\', cs)
  | 'u' :: cs => numbered? 4 cs
  | 'U' :: cs => numbered? 8 cs
  | _ => none

theorem numbered?_length {count : Nat} {cs rest : List Char} {c : Char}
    (h : numbered? count cs = some (c, rest)) : rest.length ≤ cs.length := by
  simp only [numbered?, Option.bind_eq_bind, Option.bind_eq_some_iff] at h
  obtain ⟨_, _, h⟩ := h
  split at h
  · simp only [pure, Option.some.injEq, Prod.mk.injEq] at h
    obtain ⟨_, rfl⟩ := h
    simp
  · cases h

theorem escape?_length {cs rest : List Char} {c : Char} (h : escape? cs = some (c, rest)) :
    rest.length < cs.length := by
  unfold escape? at h
  split at h
  case h_8 => exact Nat.lt_succ_of_le (numbered?_length h)
  case h_9 => exact Nat.lt_succ_of_le (numbered?_length h)
  all_goals grind

/-- Puts a character in front of what was read. -/
def push (c : Char) : Option (List Char × List Char) → Option (List Char × List Char) :=
  Option.map fun (read, rest) => (c :: read, rest)

/-- What is left behind a backslash at the end of a line and the blank lines after it. -/
def continuation? (cs : List Char) : Option (List Char) :=
  (newline? (skipGap cs)).map skipBlankLines

theorem skipGap_length (cs : List Char) : (skipGap cs).length ≤ cs.length :=
  (List.dropWhile_sublist isGap).length_le

theorem skipBlankLines_length (cs : List Char) : (skipBlankLines cs).length ≤ cs.length := by
  fun_induction skipBlankLines cs <;> simp_all <;> omega

theorem newline?_length {cs rest : List Char} (h : newline? cs = some rest) :
    rest.length < cs.length := by
  unfold newline? at h
  split at h <;> grind

theorem continuation?_length {cs rest : List Char} (h : continuation? cs = some rest) :
    rest.length < cs.length := by
  simp only [continuation?, Option.map_eq_some_iff] at h
  obtain ⟨after, hafter, rfl⟩ := h
  have := newline?_length hafter
  have := skipBlankLines_length after
  have := skipGap_length cs
  omega

/-- The rest of a string on one line, up to the closing quote. -/
def shortString (quote : Char) (hasEscapes : Bool) (cs : List Char) :
    Option (List Char × List Char) :=
  match cs with
  | [] => none
  | c :: cs =>
    if c = quote then some ([], cs)
    else if c = '\\' ∧ hasEscapes then
      match _h : escape? cs with
      | some (x, rest) => push x (shortString quote hasEscapes rest)
      | none => none
    else if isPlain c then push c (shortString quote hasEscapes cs)
    else none
termination_by cs.length
decreasing_by
  all_goals simp_wf
  · have := escape?_length _h
    omega

/-- The rest of a string of several lines, up to three closing quotes. One or two more quotes belong
to the string. -/
def longString (quote : Char) (hasEscapes : Bool) (cs : List Char) :
    Option (List Char × List Char) :=
  match cs with
  | [] => none
  | c :: cs =>
    if c = quote then
      let more := (cs.takeWhile (· == quote)).length
      if more < 2 then push quote (longString quote hasEscapes cs)
      else if more < 5 then
        some (List.replicate (more - 2) quote, cs.dropWhile (· == quote))
      else none
    else if c = '\\' ∧ hasEscapes then
      match _h : continuation? cs with
      | some rest => longString quote hasEscapes rest
      | none =>
        match _h' : escape? cs with
        | some (x, rest) => push x (longString quote hasEscapes rest)
        | none => none
    else if isPlain c then push c (longString quote hasEscapes cs)
    else match _h : newline? (c :: cs) with
      | some rest => push '\n' (longString quote hasEscapes rest)
      | none => none
termination_by cs.length
decreasing_by
  all_goals simp_wf
  · have := continuation?_length _h
    omega
  · have := escape?_length _h'
    omega
  · have := newline?_length _h
    simp only [List.length_cons] at this
    omega

/-- A newline right behind the opening quotes belongs to no string. -/
def skipNewline (cs : List Char) : List Char := (newline? cs).getD cs

/-- A string on one line. -/
def shortText? : Reader String
  | '"' :: cs => (shortString '"' true cs).map fun (s, rest) => (String.ofList s, rest)
  | '\'' :: cs => (shortString '\'' false cs).map fun (s, rest) => (String.ofList s, rest)
  | _ => none

/-- A string. -/
def text? : Reader String
  | '"' :: '"' :: '"' :: cs =>
    (longString '"' true (skipNewline cs)).map fun (s, rest) => (String.ofList s, rest)
  | '\'' :: '\'' :: '\'' :: cs =>
    (longString '\'' false (skipNewline cs)).map fun (s, rest) => (String.ofList s, rest)
  | cs => shortText? cs

def isBareKeyChar (c : Char) : Bool := c.isAlphanum || c == '_' || c == '-'

/-- A key without dots. -/
def simpleKey? (cs : List Char) : Option (String × List Char) :=
  match cs with
  | '"' :: _ => shortText? cs
  | '\'' :: _ => shortText? cs
  | _ =>
    let key := cs.takeWhile isBareKeyChar
    if key.isEmpty then none else some (String.ofList key, cs.dropWhile isBareKeyChar)

/-- How deep keys and values are nested at most. -/
def nestingLimit : Nat := 79

/-- At most `limit` keys with dots between them, and the blanks around them. -/
def keyPath? : Nat → Reader KeyPath
  | 0, _ => none
  | limit + 1, cs => do
    let (key, rest) ← simpleKey? (skipGap cs)
    match skipGap rest with
    | '.' :: rest =>
      let (path, rest) ← keyPath? limit rest
      return (⟨key :: path.tables, path.last⟩, rest)
    | rest => return (⟨[], key⟩, rest)

end ModuleVisibility.Toml
