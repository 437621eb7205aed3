import ModuleVisibility.Report.Json

/-!
The text of a JSON document determines the document. A value ends where its text ends, whatever
comes behind it, unless it is a number and a digit comes next; inside a document a comma or a new
line follows, so two documents of one text have the same parts in the same places.
-/
namespace ModuleVisibility
namespace JsonValue

/-! Quoted texts. -/

/-- The control character of two hexadecimal digits. -/
def control? (high low : Char) : Option Char :=
  ((List.range 0x20).find? fun n =>
    Nat.digitChar (n / 16) == high && Nat.digitChar (n % 16) == low).map Char.ofNat

theorem control?_digitChar (n : Fin 0x20) :
    control? (Nat.digitChar (n / 16)) (Nat.digitChar (n % 16)) = some (Char.ofNat n) := by
  revert n
  decide

/-- The first character of what stands in a quoted text, and what follows it. -/
def unquote? : List Char → Option (Char × List Char)
  | '\\' :: 'u' :: _ :: _ :: high :: low :: rest => (control? high low).map (·, rest)
  | '\\' :: c :: rest =>
    match c with
    | 'n' => some ('\n', rest)
    | 'r' => some ('\r', rest)
    | 't' => some ('\t', rest)
    | 'b' => some ('\x08', rest)
    | 'f' => some ('\x0c', rest)
    | c => some (c, rest)
  | c :: rest => if c = '"' then none else some (c, rest)
  | [] => none

theorem unquote?_quoteChar (c : Char) (rest : List Char) :
    unquote? (quoteChar c ++ rest) = some (c, rest) := by
  unfold quoteChar
  split
  · next h => rw [h]; rfl
  split
  · next h => rw [h]; rfl
  split
  · next h => rw [h]; rfl
  split
  · next h => rw [h]; rfl
  split
  · next h => rw [h]; rfl
  split
  · next h => rw [h]; rfl
  split
  · next h => rw [h]; rfl
  split
  · next hcontrol =>
    have hread := control?_digitChar ⟨c.toNat, hcontrol⟩
    rw [Char.ofNat_toNat] at hread
    simp only [List.cons_append, List.nil_append, unquote?, hread, Option.map_some]
  · next hquote hescape _ _ _ _ _ _ =>
    simp [unquote?, hquote, hescape]

/-- A quoted text ends at the first quote that no escape stands before. -/
theorem quoted_cancel {s t : List Char} {rest rest' : List Char}
    (h : s.flatMap quoteChar ++ '"' :: rest = t.flatMap quoteChar ++ '"' :: rest') :
    s = t ∧ rest = rest' := by
  have hend : ∀ rest, unquote? ('"' :: rest) = none := fun _ => rfl
  induction s generalizing t with
  | nil =>
    cases t with
    | nil => exact ⟨rfl, (List.cons.inj h).2⟩
    | cons c t =>
      have hread := congrArg unquote? h
      rw [List.flatMap_cons, List.append_assoc, unquote?_quoteChar] at hread
      cases (hend rest).symm.trans hread
  | cons c s ih =>
    have hread := congrArg unquote? h
    rw [List.flatMap_cons, List.append_assoc, unquote?_quoteChar] at hread
    cases t with
    | nil => cases (hend rest').symm.trans hread.symm
    | cons c' t =>
      rw [List.flatMap_cons, List.append_assoc, unquote?_quoteChar] at hread
      simp only [Option.some.injEq, Prod.mk.injEq] at hread
      obtain ⟨rfl, hrest⟩ := hread
      obtain ⟨rfl, hsame⟩ := ih hrest
      exact ⟨rfl, hsame⟩

/-! Numbers. -/

/-- What stands next does not go on with a number. -/
def EndsNumber (rest : List Char) : Prop := ∀ c ∈ rest.head?, c.isDigit = false

theorem takeWhile_digits (n : Nat) {rest : List Char} (h : EndsNumber rest) :
    ((toString n).toList ++ rest).takeWhile Char.isDigit = (toString n).toList := by
  have hdigits : ∀ c ∈ (toString n).toList, c.isDigit = true := by
    intro c hc
    exact Nat.isDigit_of_mem_toDigits (by decide) (by decide) (Nat.toList_repr ▸ hc)
  rw [List.takeWhile_append_of_pos hdigits]
  cases rest with
  | nil => simp
  | cons c rest => simp [h c rfl]

theorem number_cancel {n m : Nat} {rest rest' : List Char} (hrest : EndsNumber rest)
    (hrest' : EndsNumber rest')
    (h : (toString n).toList ++ rest = (toString m).toList ++ rest') : n = m ∧ rest = rest' := by
  have hdigits : (toString n).toList = (toString m).toList := by
    rw [← takeWhile_digits n hrest, h, takeWhile_digits m hrest']
  have hvalue : ∀ n : Nat, Nat.ofDigitChars 10 (toString n).toList 0 = n := by
    intro n
    exact (congrArg (Nat.ofDigitChars 10 · 0) Nat.toList_repr).trans Nat.ofDigitChars_ten_toDigits
  rw [hdigits] at h
  exact ⟨by rw [← hvalue n, hdigits, hvalue], List.append_cancel_left h⟩

/-! Items between brackets. -/

/-- Where a text of `a` starts, no other value stands, and the text of `a` ends at one place. -/
def Cancels {α : Type} (write : α → List Char) (a : α) : Prop :=
  ∀ b rest rest', EndsNumber rest → EndsNumber rest' →
    write a ++ rest = write b ++ rest' → a = b ∧ rest = rest'

section

variable {α : Type} {write : α → List Char} {opening closing : Char} {depth : Nat}

/-- A line of its own for some text, at a depth. -/
def lineAt (depth : Nat) (text : List Char) : List Char := (newline depth).toList ++ text

/-- The items behind the first one and the closing bracket. -/
def tailChars (depth : Nat) (write : α → List Char) (closing : Char) (items : List α) :
    List Char :=
  items.flatMap (fun a => ',' :: lineAt (depth + 1) (write a)) ++ lineAt depth [closing]

/-- The items and their brackets. -/
def encloseChars (depth : Nat) (write : α → List Char) (opening closing : Char) :
    List α → List Char
  | [] => [opening, closing]
  | a :: rest => opening :: lineAt (depth + 1) (write a) ++ tailChars depth write closing rest

theorem exists_lineAt (depth : Nat) (text : List Char) :
    ∃ line, lineAt depth text = '\n' :: line := by
  refine ⟨("".pushn ' ' (2 * depth)).toList ++ text, ?_⟩
  rw [lineAt, newline, String.toList_append]
  rfl

/-- A comma or a new line goes on with no number. -/
theorem endsNumber_tailChars (items : List α) (rest : List Char) :
    EndsNumber (tailChars depth write closing items ++ rest) := by
  intro c hc
  cases items with
  | nil =>
    obtain ⟨line, hline⟩ := exists_lineAt depth [closing]
    rw [tailChars, List.flatMap_nil, List.nil_append, hline] at hc
    cases hc
    rfl
  | cons a items =>
    cases hc
    rfl

theorem tailChars_cancel {items items' : List α} (hitems : ∀ a ∈ items, Cancels write a)
    {rest rest' : List Char} (h : tailChars depth write closing items ++ rest =
      tailChars depth write closing items' ++ rest') : items = items' ∧ rest = rest' := by
  obtain ⟨line, hline⟩ := exists_lineAt depth [closing]
  induction items generalizing items' with
  | nil =>
    cases items' with
    | nil => exact ⟨rfl, List.append_cancel_left h⟩
    | cons b items' =>
      rw [tailChars, List.flatMap_nil, List.nil_append, hline] at h
      cases (List.cons.inj h).1
  | cons a items ih =>
    cases items' with
    | nil =>
      rw [tailChars, tailChars, List.flatMap_nil, List.nil_append, hline] at h
      cases (List.cons.inj h).1
    | cons b items' =>
      have hsplit : ∀ a items rest, tailChars depth write closing (a :: items) ++ rest =
          ',' :: lineAt (depth + 1) (write a ++ (tailChars depth write closing items ++ rest)) := by
        intro a items rest
        simp [tailChars, lineAt]
      rw [hsplit, hsplit] at h
      have hwritten := List.append_cancel_left (List.cons.inj h).2
      obtain ⟨rfl, hrest⟩ := hitems a List.mem_cons_self b _ _ (endsNumber_tailChars _ _)
        (endsNumber_tailChars _ _) hwritten
      obtain ⟨rfl, hsame⟩ := ih (fun c hc => hitems c (List.mem_cons_of_mem _ hc)) hrest
      exact ⟨rfl, hsame⟩

theorem encloseChars_cancel (hclosing : closing ≠ '\n') {items items' : List α}
    (hitems : ∀ a ∈ items, Cancels write a) {rest rest' : List Char}
    (h : encloseChars depth write opening closing items ++ rest =
      encloseChars depth write opening closing items' ++ rest') : items = items' ∧
        rest = rest' := by
  have hsplit : ∀ a items rest, encloseChars depth write opening closing (a :: items) ++ rest =
      opening :: lineAt (depth + 1) (write a ++ (tailChars depth write closing items ++ rest)) := by
    intro a items rest
    simp [encloseChars, lineAt]
  -- Empty brackets close where they open, and others have a new line there.
  have hempty :
    ∀ a items rest rest', encloseChars depth write opening closing (a :: items) ++ rest ≠
      encloseChars depth write opening closing [] ++ rest' := by
    intro a items rest rest' heq
    obtain ⟨line, hline⟩ := exists_lineAt (depth + 1)
      (write a ++ (tailChars depth write closing items ++ rest))
    rw [hsplit, hline] at heq
    exact hclosing (List.cons.inj (List.cons.inj heq).2).1.symm
  cases items with
  | nil =>
    cases items' with
    | nil => exact ⟨rfl, List.append_cancel_left h⟩
    | cons b items' => exact absurd h.symm (hempty b items' _ _)
  | cons a items =>
    cases items' with
    | nil => exact absurd h (hempty a items _ _)
    | cons b items' =>
      rw [hsplit, hsplit] at h
      have hwritten := List.append_cancel_left (List.cons.inj h).2
      obtain ⟨rfl, hrest⟩ := hitems a List.mem_cons_self b _ _ (endsNumber_tailChars _ _)
        (endsNumber_tailChars _ _) hwritten
      obtain ⟨rfl, hsame⟩ :=
        tailChars_cancel (fun c hc => hitems c (List.mem_cons_of_mem _ hc)) hrest
      exact ⟨rfl, hsame⟩

theorem toList_enclose (depth : Nat) (write : α → String) (opening closing : Char)
    (items : List α) : (enclose depth opening.toString closing.toString (items.map write)).toList =
      encloseChars depth (fun a => (write a).toList) opening closing items := by
  have hlines : ∀ a items, (String.intercalate ("," ++ newline (depth + 1))
        ((a :: items).map write)).toList =
      (write a).toList ++ items.flatMap fun a => ',' :: lineAt (depth + 1) (write a).toList := by
    intro a items
    induction items generalizing a with
    | nil => simp
    | cons b items ih =>
      rw [List.map_cons, List.map_cons, String.intercalate_cons_cons, String.toList_append,
        String.toList_append, ← List.map_cons, ih, List.flatMap_cons, String.toList_append]
      simp [lineAt]
  cases items with
  | nil => simp [enclose, encloseChars, Char.toString]
  | cons a items =>
    have hopen : enclose depth opening.toString closing.toString ((a :: items).map write) =
        opening.toString ++ newline (depth + 1) ++ String.intercalate ("," ++ newline (depth + 1))
          ((a :: items).map write) ++ newline depth ++ closing.toString := rfl
    simp only [hopen, String.toList_append, hlines]
    simp [encloseChars, tailChars, lineAt, Char.toString]

end

/-! Values. -/

/-- The characters of a value that stands at a depth. -/
def charsAt (depth : Nat) (v : JsonValue) : List Char := (renderAt depth v).toList

/-- The characters of a member. -/
def memberChars (depth : Nat) (member : String × JsonValue) : List Char :=
  (quote member.1 ++ ": " ++ renderAt depth member.2).toList

theorem renderItems_eq (depth : Nat) (items : List JsonValue) :
    renderItems depth items = items.map (renderAt depth) := by
  induction items with
  | nil => rfl
  | cons v vs ih => rw [renderItems, ih, List.map_cons]

theorem renderMembers_eq (depth : Nat) (members : List (String × JsonValue)) :
    renderMembers depth members =
      members.map fun (name, v) => quote name ++ ": " ++ renderAt depth v := by
  induction members with
  | nil => rfl
  | cons m ms ih => rw [renderMembers, ih, List.map_cons]

theorem charsAt_number (depth n : Nat) : charsAt depth (number n) = (toString n).toList := by
  rw [charsAt, renderAt]

theorem toList_quote (s : String) :
    (quote s).toList = '"' :: (s.toList.flatMap quoteChar ++ ['"']) := by
  simp [quote]

theorem charsAt_text (depth : Nat) (s : String) :
    charsAt depth (text s) = '"' :: (s.toList.flatMap quoteChar ++ ['"']) := by
  rw [charsAt, renderAt, toList_quote]

theorem charsAt_list (depth : Nat) (items : List JsonValue) :
    charsAt depth (list items) = encloseChars depth (charsAt (depth + 1)) '[' ']' items := by
  rw [charsAt, renderAt, renderItems_eq]
  exact toList_enclose depth (renderAt (depth + 1)) '[' ']' items

theorem charsAt_object (depth : Nat) (members : List (String × JsonValue)) :
    charsAt depth (object members) =
      encloseChars depth (memberChars (depth + 1)) '\x7b' '\x7d' members := by
  rw [charsAt, renderAt, renderMembers_eq]
  exact toList_enclose depth _ '\x7b' '\x7d' members

/-- The ways in which a value can be made. -/
inductive Kind where
  | number
  | text
  | list
  | object
  deriving DecidableEq

def kind : JsonValue → Kind
  | number _ => .number
  | text _ => .text
  | list _ => .list
  | object _ => .object

/-- The kind of the value that starts with a character. -/
def Kind.ofStart (c : Char) : Kind :=
  if c.isDigit then .number else if c = '"' then .text else if c = '[' then .list else .object

theorem exists_start (depth : Nat) (v : JsonValue) :
    ∃ c rest, charsAt depth v = c :: rest ∧ Kind.ofStart c = v.kind := by
  cases v with
  | number n =>
    have hne : (toString n).toList ≠ [] := fun h => Nat.toDigits_ne_nil (Nat.toList_repr ▸ h)
    obtain ⟨c, rest, hchars⟩ := List.exists_cons_of_ne_nil hne
    have hdigit : c ∈ Nat.toDigits 10 n := by
      rw [← Nat.toList_repr]
      exact hchars ▸ List.mem_cons_self
    have hstart := Nat.isDigit_of_mem_toDigits (by decide) (by decide) hdigit
    exact ⟨c, rest, (charsAt_number depth n).trans hchars, if_pos hstart⟩
  | text s => exact ⟨'"', _, charsAt_text depth s, rfl⟩
  | list items =>
    rw [charsAt_list]
    cases items with
    | nil => exact ⟨'[', _, rfl, rfl⟩
    | cons v items => exact ⟨'[', _, rfl, rfl⟩
  | object members =>
    rw [charsAt_object]
    cases members with
    | nil => exact ⟨'\x7b', _, rfl, rfl⟩
    | cons m members => exact ⟨'\x7b', _, rfl, rfl⟩

section

variable {depth : Nat} {v w : JsonValue} {rest rest' : List Char}

theorem kind_eq (h : charsAt depth v ++ rest = charsAt depth w ++ rest') : v.kind = w.kind := by
  obtain ⟨c, more, hv, hkind⟩ := exists_start depth v
  obtain ⟨c', more', hw, hkind'⟩ := exists_start depth w
  rw [hv, hw] at h
  obtain rfl : c = c' := (List.cons.inj h).1
  exact hkind.symm.trans hkind'

/-! A value ends where its text does, one kind after the other. -/

theorem cancels_number (depth n : Nat) : Cancels (charsAt depth) (number n) := by
  intro w rest rest' hrest hrest' h
  have hkind := kind_eq h
  cases w with
  | number m =>
    rw [charsAt_number, charsAt_number] at h
    obtain ⟨rfl, hsame⟩ := number_cancel hrest hrest' h
    exact ⟨rfl, hsame⟩
  | text | list | object => cases hkind

theorem cancels_text (depth : Nat) (s : String) : Cancels (charsAt depth) (text s) := by
  intro w rest rest' _ _ h
  have hkind := kind_eq h
  cases w with
  | text t =>
    rw [charsAt_text, charsAt_text, List.cons_append, List.cons_append, List.append_assoc,
      List.append_assoc] at h
    obtain ⟨hchars, hsame⟩ := quoted_cancel (List.cons.inj h).2
    exact ⟨congrArg text (String.toList_inj.1 hchars), hsame⟩
  | number | list | object => cases hkind

theorem cancels_list {items : List JsonValue}
    (hitems : ∀ v ∈ items, Cancels (charsAt (depth + 1)) v) :
    Cancels (charsAt depth) (list items) := by
  intro w rest rest' _ _ h
  have hkind := kind_eq h
  cases w with
  | list items' =>
    rw [charsAt_list, charsAt_list] at h
    obtain ⟨rfl, hsame⟩ := encloseChars_cancel (by decide) hitems h
    exact ⟨rfl, hsame⟩
  | number | text | object => cases hkind

theorem cancels_member {member : String × JsonValue}
    (hvalue : Cancels (charsAt depth) member.2) : Cancels (memberChars depth) member := by
  intro other rest rest' hrest hrest' h
  have hsplit : ∀ (member : String × JsonValue) rest, memberChars depth member ++ rest =
      '"' :: (member.1.toList.flatMap quoteChar ++
        '"' :: ':' :: ' ' :: (charsAt depth member.2 ++ rest)) := by
    intro member rest
    simp [memberChars, toList_quote, charsAt]
  rw [hsplit, hsplit] at h
  obtain ⟨hname, hbehind⟩ := quoted_cancel (List.cons.inj h).2
  obtain ⟨hsame, hrests⟩ := hvalue other.2 rest rest' hrest hrest'
    (List.cons.inj (List.cons.inj hbehind).2).2
  exact ⟨Prod.ext (String.toList_inj.1 hname) hsame, hrests⟩

theorem cancels_object {members : List (String × JsonValue)}
    (hmembers : ∀ m ∈ members, Cancels (charsAt (depth + 1)) m.2) :
    Cancels (charsAt depth) (object members) := by
  intro w rest rest' _ _ h
  have hkind := kind_eq h
  cases w with
  | object members' =>
    rw [charsAt_object, charsAt_object] at h
    obtain ⟨rfl, hsame⟩ :=
      encloseChars_cancel (by decide) (fun m hm => cancels_member (hmembers m hm)) h
    exact ⟨rfl, hsame⟩
  | number | text | list => cases hkind

end

theorem cancels (depth : Nat) : ∀ v : JsonValue, Cancels (charsAt depth) v
  | number n => cancels_number depth n
  | text s => cancels_text depth s
  | list items => cancels_list fun v _ => cancels (depth + 1) v
  | object members => cancels_object fun m _ => cancels (depth + 1) m.2
termination_by v => sizeOf v
decreasing_by
  · have := List.sizeOf_lt_of_mem ‹_›
    simp only [list.sizeOf_spec]
    omega
  · have := List.sizeOf_lt_of_mem ‹_›
    obtain ⟨name, v⟩ := m
    simp only [object.sizeOf_spec, Prod.mk.sizeOf_spec] at this ⊢
    omega

/-- Documents of one text are the same. -/
theorem render_injective {v w : JsonValue} (h : v.render = w.render) : v = w := by
  have hchars : charsAt 0 v ++ [] = charsAt 0 w ++ [] := congrArg (·.toList ++ []) h
  exact (cancels 0 v w [] [] nofun nofun hchars).1

end JsonValue
end ModuleVisibility
