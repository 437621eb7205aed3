import ModuleVisibility.Settings.Toml.Text

/-!
Numbers and dates of TOML. What counts is whether a text is one: underscores stand between digits,
whole numbers fit 64 bits, and a day is one of its month.
-/
namespace ModuleVisibility.Toml

/-- Digits behind a digit, with single underscores between them. -/
def moreDigits? (isDigit : Char → Bool) : Reader (List Char)
  | [] => some ([], [])
  | ['_'] => none
  | '_' :: c :: cs => if isDigit c then push c (moreDigits? isDigit cs) else none
  | c :: cs => if isDigit c then push c (moreDigits? isDigit cs) else some ([], c :: cs)

/-- One digit or more. -/
def digits? (isDigit : Char → Bool) : Reader (List Char)
  | [] => none
  | c :: cs => if isDigit c then push c (moreDigits? isDigit cs) else none

/-- The digits of a whole number, which starts with zero only if it is zero. -/
def wholeDigits? : Reader (List Char)
  | '0' :: cs => some (['0'], cs)
  | cs => digits? Char.isDigit cs

def valueOf (base : Nat) (digits : List Char) : Nat :=
  digits.foldl (fun n c => base * n + (hexValue? c).getD 0) 0

/-- A sign and whether it is the minus. -/
def skipSign : List Char → Bool × List Char
  | '+' :: cs => (false, cs)
  | '-' :: cs => (true, cs)
  | cs => (false, cs)

/-- Whether a whole number fits 64 bits with a sign. -/
def fits64 (isNegative : Bool) (n : Nat) : Bool :=
  if isNegative then n ≤ Nat.pow 2 63 else n < Nat.pow 2 63

/-- The numbers from this one on are rounded to infinity. -/
def floatLimit : Nat := Nat.pow 2 1024 - Nat.pow 2 970

/-- Whether `digits`, with its point moved `exponent` places to the right, lies below the limit.
Beyond four hundred places the number of digits decides. -/
def isFiniteFloat (digits : List Char) (exponent : Int) : Bool :=
  let significant := digits.dropWhile (· == '0')
  let n := valueOf 10 significant
  let magnitude := (significant.length : Int) + exponent
  if n = 0 ∨ magnitude < 0 then true
  else if 400 < magnitude then false
  else if 0 ≤ exponent then n * Nat.pow 10 exponent.toNat < floatLimit
  else n < floatLimit * Nat.pow 10 (-exponent).toNat

/-- The exponent of a number, and whether there is one. -/
def exponent? : Reader (Option Int)
  | c :: cs =>
    if c = 'e' ∨ c = 'E' then do
      let (isNegative, cs) := skipSign cs
      let (digits, rest) ← digits? Char.isDigit cs
      let n : Int := valueOf 10 digits
      return (some (if isNegative then -n else n), rest)
    else some (none, c :: cs)
  | [] => some (none, [])

/-- The digits behind the point of a number, and whether there is one. -/
def fraction? : Reader (Option (List Char))
  | '.' :: cs => (digits? Char.isDigit cs).map fun (digits, rest) => (some digits, rest)
  | cs => some (none, cs)

/-- A number of base ten. A fraction or an exponent makes it a float. -/
def decimal? (cs : List Char) : Option (TomlValue × List Char) := do
  let (isNegative, cs) := skipSign cs
  let (whole, rest) ← wholeDigits? cs
  let (fraction, rest) ← fraction? rest
  let (exponent, rest) ← exponent? rest
  let isNumber :=
    if fraction.isNone && exponent.isNone then fits64 isNegative (valueOf 10 whole)
    else
      let behind := fraction.getD []
      isNegative || isFiniteFloat (whole ++ behind) (exponent.getD 0 - behind.length)
  if isNumber then return (.number, rest) else none

/-- A number of another base, behind the letters that name the base. -/
def based? (base : Nat) (isDigit : Char → Bool) (cs : List Char) :
    Option (TomlValue × List Char) := do
  let (digits, rest) ← digits? isDigit cs
  if fits64 false (valueOf base digits) then return (.number, rest) else none

/-- A number that is written as a word. -/
def wordNumber? : Reader TomlValue
  | 'i' :: 'n' :: 'f' :: cs => some (.number, cs)
  | 'n' :: 'a' :: 'n' :: cs => some (.number, cs)
  | _ => none

/-- A number. -/
def number? : Reader TomlValue
  | '0' :: 'x' :: cs => based? 16 (fun c => (hexValue? c).isSome) cs
  | '0' :: 'o' :: cs => based? 8 (fun c => '0' ≤ c && c ≤ '7') cs
  | '0' :: 'b' :: cs => based? 2 (fun c => c == '0' || c == '1') cs
  | cs => (wordNumber? (skipSign cs).2).or (decimal? cs)

/-- A number of exactly `count` digits within bounds. -/
def fixed? (count least most : Nat) (cs : List Char) : Option (Nat × List Char) :=
  let digits := cs.take count
  let n := valueOf 10 digits
  if digits.length = count ∧ digits.all Char.isDigit ∧ least ≤ n ∧ n ≤ most then
    some (n, cs.drop count)
  else none

/-- A text behind a character that it must start with. -/
def expect? (c : Char) : List Char → Option (List Char)
  | d :: cs => if d = c then some cs else none
  | [] => none

def isLeapYear (year : Nat) : Bool := year % 4 == 0 && (year % 100 != 0 || year % 400 == 0)

def daysIn (year month : Nat) : Nat :=
  if month = 2 then (if isLeapYear year then 29 else 28)
  else if month = 4 ∨ month = 6 ∨ month = 9 ∨ month = 11 then 30
  else 31

/-- What is left behind a date. -/
def skipDate? (cs : List Char) : Option (List Char) := do
  let (year, cs) ← fixed? 4 0 9999 cs
  let (month, cs) ← fixed? 2 1 12 (← expect? '-' cs)
  let (_, cs) ← fixed? 2 1 (daysIn year month) (← expect? '-' cs)
  return cs

/-- What is left behind the hour and minute of a time. -/
def skipClock? (lastHour : Nat) (cs : List Char) : Option (List Char) := do
  let (_, cs) ← fixed? 2 0 lastHour cs
  let (_, cs) ← fixed? 2 0 59 (← expect? ':' cs)
  return cs

/-- What is left behind a time, whose seconds may have a fraction. -/
def skipTime? (lastHour : Nat) (cs : List Char) : Option (List Char) := do
  let cs ← skipClock? lastHour cs
  let (_, cs) ← fixed? 2 0 60 (← expect? ':' cs)
  match cs with
  | '.' :: c :: rest => if c.isDigit then return rest.dropWhile Char.isDigit else return cs
  | _ => return cs

/-- What is left behind the distance from universal time, if one is given. -/
def skipOffset? : List Char → Option (List Char)
  | 'Z' :: cs => some cs
  | 'z' :: cs => some cs
  | '+' :: cs => skipClock? 23 cs
  | '-' :: cs => skipClock? 23 cs
  | cs => some cs

/-- Whether a text behind a date goes on with a time. -/
def startsTime : List Char → Bool
  | c :: a :: b :: ':' :: _ => (c == 'T' || c == 't' || c == ' ') && a.isDigit && b.isDigit
  | _ => false

/-- A date, a time or both. -/
def dateTime? (cs : List Char) : Option (TomlValue × List Char) :=
  match skipDate? cs with
  | some rest =>
    if startsTime rest then do
      let rest ← skipOffset? (← skipTime? 23 (rest.drop 1))
      return (.dateTime, rest)
    else some (.dateTime, rest)
  | none => (skipTime? 23 cs).map fun rest => (.dateTime, rest)

end ModuleVisibility.Toml
