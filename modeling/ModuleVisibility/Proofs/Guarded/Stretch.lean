import ModuleVisibility.Proofs.Guarded.Lexer
import ModuleVisibility.Proofs.LexemeShape

/-!
What the loops of the offset lexer find. Each starts between two characters of the text and stops
between two: the bytes of a wide character are wide too, so no test of a byte succeeds within one,
and a search that an escape has put there passes over the rest of it.
-/
namespace ModuleVisibility
namespace Guarded

open Text (isWide byteSize)

/-! Bytes. -/

theorem length_encode (c : Char) : (encode c).length = c.utf8Size := by
  rw [encode, List.length_map, String.length_utf8EncodeChar]

theorem isWide_iff (c : Char) : isWide c = true ↔ 128 ≤ c.toNat := by
  rw [isWide, decide_eq_true_eq, UInt32.le_iff_toNat_le]
  exact Iff.rfl

theorem encode_of_not_isWide {c : Char} (h : isWide c = false) : encode c = [c] := by
  have hval : c.toNat < 128 := by
    have := (isWide_iff c).not.1 (by simp [h])
    omega
  have hbyte : String.utf8EncodeChar c = [UInt8.ofNat c.toNat] := if_pos (Nat.le_of_lt_succ hval)
  rw [encode, hbyte, List.map_singleton, UInt8.toNat_ofNat', Nat.mod_eq_of_lt (by omega),
    Char.ofNat_toNat]

theorem utf8Size_of_narrow {c : Char} (h : isWide c = false) : c.utf8Size = 1 := by
  rw [← length_encode, encode_of_not_isWide h, List.length_singleton]

theorem isWide_of_mem_encode {c b : Char} (h : isWide c = true) (hb : b ∈ encode c) :
    isWide b = true := by
  have hval := (isWide_iff c).1 h
  have hhigh : ∀ byte ∈ String.utf8EncodeChar c, 128 ≤ byte.toNat := by
    intro byte hbyte
    have hlong : ¬ c.val.toNat ≤ 127 := Nat.not_le.2 hval
    simp only [String.utf8EncodeChar, if_neg hlong] at hbyte
    split at hbyte
    · simp only [List.mem_cons, List.not_mem_nil, or_false] at hbyte
      rcases hbyte with rfl | rfl <;> simp <;> omega
    split at hbyte
    · simp only [List.mem_cons, List.not_mem_nil, or_false] at hbyte
      rcases hbyte with rfl | rfl | rfl <;> simp <;> omega
    · simp only [List.mem_cons, List.not_mem_nil, or_false] at hbyte
      rcases hbyte with rfl | rfl | rfl | rfl <;> simp <;> omega
  obtain ⟨byte, hbyte, rfl⟩ := List.mem_map.1 hb
  have hlow := hhigh byte hbyte
  have hvalid : byte.toNat.isValidChar := .inl (Nat.lt_trans byte.toNat_lt (by decide))
  rw [isWide_iff, Char.ofNat, dif_pos hvalid]
  exact hlow

theorem exists_encode_eq (c : Char) : ∃ b bs, encode c = b :: bs :=
  List.exists_cons_of_length_pos (by rw [length_encode]; exact c.utf8Size_pos)

@[simp] theorem bytes_nil : bytes [] = [] := rfl

@[simp] theorem bytes_cons (c : Char) (cs : List Char) :
    bytes (c :: cs) = encode c ++ bytes cs := rfl

@[simp] theorem bytes_append (as bs : List Char) : bytes (as ++ bs) = bytes as ++ bytes bs :=
  List.flatMap_append

@[simp] theorem length_bytes (cs : List Char) : (bytes cs).length = byteSize cs := by
  induction cs with
  | nil => rfl
  | cons c cs ih => rw [bytes_cons, List.length_append, length_encode, ih, Text.byteSize_cons]

/-- A text without wide characters. -/
def isNarrow (cs : List Char) : Bool := cs.all fun c => !isWide c

theorem isNarrow_cons {c : Char} {cs : List Char} (h : isNarrow (c :: cs) = true) :
    isWide c = false ∧ isNarrow cs = true := by
  rw [isNarrow, List.all_cons, Bool.and_eq_true, Bool.not_eq_true'] at h
  exact h

theorem bytes_of_narrow {cs : List Char} (h : isNarrow cs = true) : bytes cs = cs := by
  induction cs with
  | nil => rfl
  | cons c cs ih =>
    obtain ⟨hc, hcs⟩ := isNarrow_cons h
    rw [bytes_cons, encode_of_not_isWide hc, ih hcs]
    rfl

/-- An opening outside the wide characters is found in the bytes where it is found in the text. -/
theorem isPrefixOf_bytes {opening : List Char} (h : isNarrow opening = true) (cs : List Char) :
    (bytes opening).isPrefixOf (bytes cs) = opening.isPrefixOf cs := by
  rw [bytes_of_narrow h]
  induction opening generalizing cs with
  | nil => simp
  | cons o opening ih =>
    obtain ⟨ho, hopening⟩ := isNarrow_cons h
    cases cs with
    | nil => rfl
    | cons c cs =>
      cases hc : isWide c with
      | false =>
        rw [bytes_cons, encode_of_not_isWide hc, List.singleton_append, List.isPrefixOf_cons_cons,
          List.isPrefixOf_cons_cons, ih hopening]
      | true =>
        obtain ⟨b, bs, hb⟩ := exists_encode_eq c
        have hbyte : isWide b = true := isWide_of_mem_encode hc (hb ▸ List.mem_cons_self)
        have hne : (o == b) = false := beq_false_of_ne fun heq => by simp [← heq, ho] at hbyte
        have hne' : (o == c) = false := beq_false_of_ne fun heq => by simp [← heq, ho] at hc
        rw [bytes_cons, hb, List.cons_append, List.isPrefixOf_cons_cons,
          List.isPrefixOf_cons_cons, hne, hne', Bool.false_and, Bool.false_and]

/-- The test does not tell wide characters apart, so it says of a byte what it says of its
character. -/
def ByteWise (test : Char → Bool) : Prop :=
  ∀ c d, isWide c = true → isWide d = true → test c = test d

theorem ByteWise.eq_of_mem_encode {test : Char → Bool} (h : ByteWise test) {c b : Char}
    (hb : b ∈ encode c) : test b = test c := by
  cases hc : isWide c with
  | false =>
    rw [encode_of_not_isWide hc] at hb
    rw [List.mem_singleton.1 hb]
  | true => exact h b c (isWide_of_mem_encode hc hb) hc

theorem byteWise_isNameStart : ByteWise Lexeme.isNameStart := fun c d hc hd => by
  simp [Lexeme.isNameStart, hc, hd]

theorem byteWise_isNameChar : ByteWise Lexeme.isNameChar := fun c d hc hd => by
  simp [Lexeme.isNameChar, hc, hd]

theorem isWide_eq_false_of_isAlphanum {c : Char} (h : c.isAlphanum = true) : isWide c = false := by
  have hupper : c.isUpper = true → c.toNat ≤ 90 := fun h => (of_decide_eq_true h).2
  have hlower : c.isLower = true → c.toNat ≤ 122 := fun h =>
    of_decide_eq_true (Bool.and_eq_true_iff.1 h).2
  have hdigit : c.isDigit = true → c.toNat ≤ 57 := fun h =>
    of_decide_eq_true (Bool.and_eq_true_iff.1 h).2
  have hle : c.toNat ≤ 122 := by
    rcases Bool.or_eq_true_iff.1 h with halpha | h
    · rcases Bool.or_eq_true_iff.1 halpha with h | h
      · exact Nat.le_trans (hupper h) (by decide)
      · exact hlower h
    · exact Nat.le_trans (hdigit h) (by decide)
  rw [← Bool.not_eq_true, isWide_iff]
  omega

theorem byteWise_of_narrow {test : Char → Bool} (h : ∀ c, test c = true → isWide c = false) :
    ByteWise test := by
  have hwide : ∀ c, isWide c = true → test c = false := fun c hc => by
    cases htest : test c with
    | false => rfl
    | true => exact absurd hc (by simp [h c htest])
  exact fun c d hc hd => (hwide c hc).trans (hwide d hd).symm

theorem byteWise_isNumberChar : ByteWise Lexeme.isNumberChar := byteWise_of_narrow fun c h => by
  simp only [Lexeme.isNumberChar, Bool.or_eq_true, beq_iff_eq] at h
  rcases h with (halnum | rfl) | rfl
  · exact isWide_eq_false_of_isAlphanum halnum
  · rfl
  · rfl

theorem byteWise_isDigit : ByteWise Char.isDigit := byteWise_of_narrow fun c h =>
  isWide_eq_false_of_isAlphanum (by rw [Char.isAlphanum, h, Bool.or_true])

theorem byteWise_beq {a : Char} (ha : isWide a = false) : ByteWise (· == a) :=
  byteWise_of_narrow fun c h => by
  rw [beq_iff_eq.1 h, ha]

theorem narrow_of_isGap {c : Char} (h : Lexeme.isGap c = true) : isWide c = false := by
  simp only [Lexeme.isGap, Bool.or_eq_true, beq_iff_eq] at h
  rcases h with ((rfl | rfl) | rfl) | rfl <;> rfl

theorem byteWise_isGap : ByteWise Lexeme.isGap := byteWise_of_narrow fun _ h => narrow_of_isGap h

theorem byteWise_bne {a : Char} (ha : isWide a = false) : ByteWise (· != a) := fun c d hc hd =>
  congrArg (!·) (byteWise_beq ha c d hc hd)

theorem length_takeWhile_bytes {test : Char → Bool} (h : ByteWise test) (cs : List Char) :
    ((bytes cs).takeWhile test).length = byteSize (cs.takeWhile test) := by
  induction cs with
  | nil => rfl
  | cons c cs ih =>
    have hsame : ∀ b ∈ encode c, test b = test c := fun b hb => h.eq_of_mem_encode hb
    rw [bytes_cons, List.takeWhile_cons]
    cases hc : test c with
    | true =>
      rw [List.takeWhile_append_of_pos fun b hb => (hsame b hb).trans hc,
        List.length_append, length_encode, ih]
      rfl
    | false =>
      obtain ⟨b, bs, hb⟩ := exists_encode_eq c
      have hfirst : test b = false := (hsame b (hb ▸ List.mem_cons_self)).trans hc
      rw [hb, List.cons_append, List.takeWhile_cons, hfirst]
      rfl

theorem TextAt.bytes {source rest : List Char} {pos : Nat} (h : TextAt source pos rest) :
    At (bytes source) pos (bytes rest) := by
  obtain ⟨before, rfl, rfl⟩ := h
  exact ⟨Guarded.bytes before, (bytes_append ..).symm, length_bytes before⟩

/-! Names. -/

section

variable {source cs : List Char} {pos : Nat}

theorem skipWhile_of_at {test : Char → Bool} {bs : List Char} (h : At (bytes source) pos bs) :
    skipWhile test source pos = .ok (pos + (bs.takeWhile test).length) := by
  induction bs generalizing pos with
  | nil =>
    have hlength := h.length_eq
    rw [skipWhile, dif_neg (by simp [hlength])]
    rfl
  | cons b bs ih =>
    have hlength := h.length_eq
    rw [skipWhile, dif_pos (by simp [hlength]), h.index, ok_bind, List.takeWhile_cons]
    cases test b with
    | true =>
      rw [if_pos rfl, if_pos rfl, ih h.next, List.length_cons, Nat.add_assoc, Nat.add_comm 1]
    | false => rfl

theorem TextAt.skipWhile {test : Char → Bool} (htest : ByteWise test) (h : TextAt source pos cs) :
    skipWhile test source pos = .ok (pos + byteSize (cs.takeWhile test)) := by
  rw [skipWhile_of_at h.bytes, length_takeWhile_bytes htest]

theorem TextAt.startsWith {opening : List Char} (hopening : isNarrow opening = true)
    (h : TextAt source pos cs) : startsWith source pos opening = .ok (opening.isPrefixOf cs) := by
  rw [Guarded.startsWith, h.bytes.range_end, ok_bind, isPrefixOf_bytes hopening]
  rfl

theorem TextAt.startsNameAt (h : TextAt source pos cs) :
    startsNameAt source pos = Lexeme.startsName cs := by
  rw [Guarded.startsNameAt, h.bytes.getElem?]
  cases cs with
  | nil => rfl
  | cons c cs =>
    obtain ⟨b, bs, hb⟩ := exists_encode_eq c
    rw [bytes_cons, hb]
    exact byteWise_isNameStart.eq_of_mem_encode (hb ▸ List.mem_cons_self)

theorem TextAt.split (h : TextAt source pos cs) (test : Char → Bool) :
    TextAt source pos (cs.takeWhile test ++ cs.dropWhile test) := by
  rwa [List.takeWhile_append_dropWhile]

theorem TextAt.name (h : TextAt source pos cs) : name source pos =
    .ok (cs.takeWhile Lexeme.isNameChar, pos + byteSize (cs.takeWhile Lexeme.isNameChar)) := by
  rw [Guarded.name, h.skipWhile byteWise_isNameChar, ok_bind, (h.split _).textRange]
  rfl

theorem TextAt.left_eq (h : TextAt source pos cs) :
    left (Guarded.bytes source) pos = byteSize cs := by
  rw [h.bytes.left_eq, length_bytes]

theorem byteSize_split (test : Char → Bool) (cs : List Char) :
    byteSize (cs.takeWhile test) + byteSize (cs.dropWhile test) = byteSize cs := by
  rw [← Text.byteSize_append, List.takeWhile_append_dropWhile]

theorem qualifiedLength_append {as : List Char} (h : ∀ c ∈ as, Lexeme.isNameChar c = true)
    (bs : List Char) :
    Lexeme.qualifiedLength (as ++ bs) = as.length + Lexeme.qualifiedLength bs := by
  induction as with
  | nil => simp
  | cons a as ih =>
    rw [List.cons_append, Lexeme.qualifiedLength, h a List.mem_cons_self, Bool.true_or, if_pos rfl,
      ih fun c hc => h c (List.mem_cons_of_mem a hc), List.length_cons]
    omega

/-- A qualified name is its first part and what goes on behind it. -/
theorem take_qualifiedLength (cs : List Char) : cs.take (Lexeme.qualifiedLength cs) =
    cs.takeWhile Lexeme.isNameChar ++
      (cs.dropWhile Lexeme.isNameChar).take
        (Lexeme.qualifiedLength (cs.dropWhile Lexeme.isNameChar)) := by
  have hname : ∀ c ∈ cs.takeWhile Lexeme.isNameChar, Lexeme.isNameChar c = true :=
    fun c hc => List.mem_takeWhile_imp hc
  conv_lhs => rw [← List.takeWhile_append_dropWhile (p := Lexeme.isNameChar) (l := cs)]
  rw [qualifiedLength_append hname, List.take_length_add_append]

theorem TextAt.next_narrow {c : Char} (h : TextAt source pos (c :: cs)) (hc : isWide c = false) :
    TextAt source (pos + 1) cs := by
  exact utf8Size_of_narrow hc ▸ h.next

theorem isNameChar_head?_dropWhile (cs : List Char) :
    ∀ c ∈ (cs.dropWhile Lexeme.isNameChar).head?, Lexeme.isNameChar c = false := by
  intro c hc
  have hnot := List.head?_dropWhile_not Lexeme.isNameChar cs
  rwa [hc] at hnot

/-- A further name is looked for in the bytes where it stands in the text. -/
theorem TextAt.goesOn {c : Char} (h : TextAt source pos (c :: cs)) :
    (['\\'].isPrefixOf (c :: cs) && Guarded.startsNameAt source (pos + 1)) =
      (c == '\\' && Lexeme.startsName cs) := by
  by_cases hc : c = '\\'
  · subst hc
    rw [(h.next_narrow rfl).startsNameAt]
    rfl
  · rw [List.isPrefixOf_cons_cons, beq_false_of_ne (Ne.symm hc), beq_false_of_ne hc, Bool.false_and,
      Bool.false_and, Bool.false_and]

theorem TextAt.qualified (h : TextAt source pos cs)
    (hcs : ∀ c ∈ cs.head?, Lexeme.isNameChar c = false)
    (text : List Char) : qualified source text pos =
      .ok (text ++ cs.take (Lexeme.qualifiedLength cs),
        pos + byteSize (cs.take (Lexeme.qualifiedLength cs))) := by
  induction hn : cs.length using Nat.strong_induction_on generalizing cs pos text with
  | _ n ih =>
    rw [Guarded.qualified, h.startsWith rfl, ok_bind]
    cases cs with
    | nil => simp [Lexeme.qualifiedLength]
    | cons c cs =>
      rw [h.goesOn, Lexeme.qualifiedLength, hcs c rfl, Bool.false_or]
      cases hgoes : c == '\\' && Lexeme.startsName cs with
      | false => simp
      | true =>
        obtain rfl : c = '\\' := beq_iff_eq.1 (Bool.and_eq_true_iff.1 hgoes).1
        have hbehind : TextAt source (pos + 1) cs := h.next_narrow rfl
        have hpart := hbehind.split Lexeme.isNameChar
        have hprogress : left (Guarded.bytes source)
            (pos + 1 + byteSize (cs.takeWhile Lexeme.isNameChar)) <
            left (Guarded.bytes source) pos := by
          have hsplit := byteSize_split Lexeme.isNameChar cs
          have hone : ('\\').utf8Size = 1 := rfl
          rw [hpart.skip.left_eq, h.left_eq, Text.byteSize_cons]
          omega
        have hshorter : (cs.dropWhile Lexeme.isNameChar).length < n := by
          rw [← hn, List.length_cons]
          exact Nat.lt_succ_of_le (List.dropWhile_suffix _).length_le
        rw [if_pos rfl, if_pos rfl, hbehind.name, ok_bind]
        dsimp only
        rw [dif_pos hprogress, ih _ hshorter hpart.skip (isNameChar_head?_dropWhile cs) _ rfl,
          List.take_succ_cons, take_qualifiedLength cs]
        simp only [Text.byteSize_cons, Text.byteSize_append, List.append_assoc, List.cons_append,
          Nat.add_assoc]
        rfl

theorem TextAt.qualifiedName (h : TextAt source pos cs) : qualifiedName source pos =
    .ok (cs.take (Lexeme.qualifiedLength cs),
      pos + byteSize (cs.take (Lexeme.qualifiedLength cs))) := by
  rw [Guarded.qualifiedName, h.name, ok_bind]
  dsimp only
  rw [(h.split Lexeme.isNameChar).skip.qualified (isNameChar_head?_dropWhile cs),
    take_qualifiedLength cs, Text.byteSize_append, Nat.add_assoc]

/-! Strings and comments. -/

/-- What a search of a string passes over one byte at a time. -/
theorem stringEnd_append {quote : Char} {as bs : List Char} (h : At (bytes source) pos (as ++ bs))
    (has : ∀ b ∈ as, b ≠ '\\' ∧ b ≠ quote) :
    stringEnd source quote pos = stringEnd source quote (pos + as.length) := by
  induction as generalizing pos with
  | nil => rfl
  | cons a as ih =>
    have hlength := h.length_eq
    obtain ⟨hescape, hquote⟩ := has a List.mem_cons_self
    rw [List.length_append, List.length_cons] at hlength
    rw [stringEnd, dif_pos (by omega), h.index, ok_bind, if_neg hescape, if_neg hquote,
      ih h.next fun b hb => has b (List.mem_cons_of_mem a hb), List.length_cons]
    congr 1
    omega

/-- What a search that starts at `pos` finds of the end of a string, which is `n?` characters on:
without an end, the search leaves the text. -/
def StringEnds (source : List Char) (pos : Nat) (cs : List Char) (n? : Option Nat)
    (found : Guarded (Bool × Nat)) : Prop :=
  match n? with
  | some n => found = .ok (true, pos + byteSize (cs.take n))
  | none => ∃ stop, byteSize source ≤ stop ∧ found = .ok (false, stop)

theorem StringEnds.append {as : List Char} {n? : Option Nat} {found : Guarded (Bool × Nat)}
    (h : StringEnds source (pos + byteSize as) cs n? found) :
    StringEnds source pos (as ++ cs) (n?.map (· + as.length)) found := by
  cases n? with
  | none => exact h
  | some n =>
    have hfound : found = .ok (true, pos + byteSize as + byteSize (cs.take n)) := h
    rw [Option.map_some, StringEnds, hfound, Nat.add_comm n, List.take_length_add_append,
      Text.byteSize_append, Nat.add_assoc]

section

variable {quote c : Char} (hwide : isWide quote = false)
include hwide

/-- A character other than the two is passed over with all its bytes. -/
theorem TextAt.stringEnd_cons (h : TextAt source pos (c :: cs)) (hescape : c ≠ '\\')
      (hquote : c ≠ quote) :
    stringEnd source quote pos = stringEnd source quote (pos + c.utf8Size) := by
  have hother : ∀ b ∈ encode c, b ≠ '\\' ∧ b ≠ quote := fun b hb =>
    ⟨fun heq => by simpa [heq, hescape] using (byteWise_beq (a := '\\') rfl).eq_of_mem_encode hb,
      fun heq => by simpa [heq, hquote] using (byteWise_beq hwide).eq_of_mem_encode hb⟩
  rw [← length_encode]
  exact stringEnd_append h.bytes hother

/-- An escaped character is passed over with all its bytes, though the search goes on from its
second. -/
theorem TextAt.stringEnd_escaped (h : TextAt source pos ('\\' :: c :: cs)) :
    stringEnd source quote pos = stringEnd source quote (pos + 1 + c.utf8Size) := by
  obtain ⟨b, bs, hb⟩ := exists_encode_eq c
  have hescaped : TextAt source (pos + 1) (c :: cs) := h.next_narrow rfl
  have hbytes : At (Guarded.bytes source) (pos + 1) (b :: (bs ++ Guarded.bytes cs)) := by
    have := hescaped.bytes
    rwa [bytes_cons, hb] at this
  have hother : ∀ d ∈ bs, d ≠ '\\' ∧ d ≠ quote := by
    intro d hd
    cases hc : isWide c with
    | false =>
      rw [encode_of_not_isWide hc] at hb
      simp_all
    | true =>
      have hd' : isWide d = true := isWide_of_mem_encode hc (hb ▸ List.mem_cons_of_mem b hd)
      exact ⟨fun heq => absurd (heq ▸ hd') (by decide), fun heq => by simp [heq, hwide] at hd'⟩
  have hlength : c.utf8Size = bs.length + 1 := by rw [← length_encode, hb, List.length_cons]
  have hfirst : At (Guarded.bytes source) pos ('\\' :: Guarded.bytes (c :: cs)) := h.bytes
  have hinside := hfirst.length_eq
  rw [stringEnd, dif_pos (by rw [hinside, List.length_cons]; omega), hfirst.index,
    ok_bind, if_pos rfl, stringEnd_append hbytes.next hother, hlength]
  congr 1
  omega

omit hwide in
theorem TextAt.narrow_bytes (h : TextAt source pos (c :: cs)) (hc : isWide c = false) :
    At (Guarded.bytes source) pos (c :: Guarded.bytes cs) := by
  have hbytes := h.bytes
  rwa [bytes_cons, encode_of_not_isWide hc] at hbytes

theorem TextAt.stringEnds (hquote : quote ≠ '\\') (h : TextAt source pos cs) :
    StringEnds source pos cs (Lexeme.stringLength? quote cs) (stringEnd source quote pos) := by
  fun_induction Lexeme.stringLength? quote cs generalizing pos with
  | case1 =>
    have hend := h.byteSize_eq
    refine ⟨pos, Nat.le_of_eq hend, ?_⟩
    rw [Guarded.stringEnd, dif_neg (by rw [length_bytes, hend]; simp)]
    rfl
  | case2 d cs ih =>
    have hbehind : TextAt source (pos + byteSize ['\\', d]) cs := TextAt.skip h
    have hends := (ih hbehind).append
    rwa [h.stringEnd_escaped hwide, Nat.add_assoc]
  | case3 cs _ =>
    have hbyte := h.narrow_bytes hwide
    have hlength := hbyte.length_eq
    have hone := utf8Size_of_narrow hwide
    rw [List.length_cons] at hlength
    rw [stringEnd, dif_pos (by omega), hbyte.index, ok_bind, if_neg hquote, if_pos rfl, StringEnds,
      List.take_succ_cons, List.take_zero, Text.byteSize_cons, hone]
    rfl
  | case4 d cs hlast hd ih =>
    have hbehind : TextAt source (pos + byteSize [d]) cs := TextAt.skip h
    by_cases hescape : d = '\\'
    · subst hescape
      obtain rfl : cs = [] := by
        cases cs with
        | nil => rfl
        | cons e cs => exact (hlast e cs rfl rfl).elim
      have hbyte := h.narrow_bytes rfl
      have hlength := hbyte.length_eq
      rw [List.length_cons, bytes_nil, List.length_nil, length_bytes] at hlength
      rw [stringEnd, dif_pos (by rw [length_bytes]; omega), hbyte.index, ok_bind,
        if_pos rfl, stringEnd, dif_neg (by rw [length_bytes]; omega)]
      exact ⟨pos + 2, by omega, rfl⟩
    · rw [h.stringEnd_cons hwide hescape hd]
      exact (ih hbehind).append

end

theorem find?_comment (cs : List Char) : (find? ['*', '/'] cs).map (· + 2) =
    (Lexeme.commentLength? cs).map fun n => byteSize (cs.take n) := by
  induction cs with
  | nil => rfl
  | cons c cs ih =>
    have hstarts : ['*', '/'].isPrefixOf (c :: cs) = (decide (c = '*') && cs.head? == some '/') :=
      Bool.eq_iff_iff.2 (List.isPrefixOf_iff_prefix.trans Lexeme.commentEnd_prefix_iff)
    rw [find?, hstarts, Lexeme.commentLength?]
    cases hend : decide (c = '*') && cs.head? == some '/' with
    | true =>
      obtain ⟨rfl, hslash⟩ : c = '*' ∧ cs.head? = some '/' := by simpa using hend
      obtain ⟨cs, rfl⟩ : ∃ rest, cs = '/' :: rest := List.head?_eq_some_iff.1 hslash
      rfl
    | false =>
      simp only [Bool.false_eq_true, if_false, Option.map_map]
      have hsum : ((· + 2) ∘ (· + c.utf8Size) : Nat → Nat) = (c.utf8Size + ·) ∘ (· + 2) := by
        funext n
        simp only [Function.comp_apply]
        omega
      rw [hsum, ← Option.map_map, ih, Option.map_map]
      rfl

/-! Heredocs. -/

theorem find?_newline {line : List Char} (h : '\n' ∉ line) (cs : List Char) :
    find? ['\n'] (line ++ '\n' :: cs) = some (byteSize line) := by
  induction line with
  | nil => rfl
  | cons l line ih =>
    obtain ⟨hl, hline⟩ := List.ne_and_not_mem_of_not_mem_cons h
    rw [List.cons_append, find?, List.isPrefixOf_cons_cons, beq_false_of_ne hl, Bool.false_and,
      if_neg Bool.false_ne_true, ih hline, Option.map_some, Text.byteSize_cons, Nat.add_comm]

theorem find?_newline_none {cs : List Char} (h : '\n' ∉ cs) : find? ['\n'] cs = none := by
  induction cs with
  | nil => rfl
  | cons c cs ih =>
    obtain ⟨hc, hcs⟩ := List.ne_and_not_mem_of_not_mem_cons h
    rw [find?, List.isPrefixOf_cons_cons, beq_false_of_ne hc, Bool.false_and,
      if_neg Bool.false_ne_true, ih hcs, Option.map_none]

/-- Length up to and with the label that closes a heredoc, from the start of a line on. -/
def closingLength? (label cs : List Char) : Option Nat :=
  (Lexeme.closingLabel? label cs).or (Lexeme.heredocLength? label cs)

theorem heredocLength?_line {label line : List Char} (h : '\n' ∉ line) (cs : List Char) :
    Lexeme.heredocLength? label (line ++ '\n' :: cs) =
      (closingLength? label cs).map (· + (line ++ ['\n']).length) := by
  induction line with
  | nil =>
    rw [List.nil_append, Lexeme.heredocLength?, if_pos rfl, closingLength?]
    cases Lexeme.closingLabel? label cs <;> rfl
  | cons l line ih =>
    obtain ⟨hl, hline⟩ := List.ne_and_not_mem_of_not_mem_cons h
    rw [List.cons_append, Lexeme.heredocLength?, if_neg (Ne.symm hl), ih hline, Option.map_map]
    congr 1

theorem heredocLength?_last {label cs : List Char} (h : '\n' ∉ cs) :
    Lexeme.heredocLength? label cs = none := by
  induction cs with
  | nil => rfl
  | cons c cs ih =>
    obtain ⟨hc, hcs⟩ := List.ne_and_not_mem_of_not_mem_cons h
    rw [Lexeme.heredocLength?, if_neg (Ne.symm hc), ih hcs, Option.map_none]

/-- Where a search for a closing label ends: behind what it takes of the text. -/
def behind (pos : Nat) (cs : List Char) (n? : Option Nat) : Option Nat :=
  n?.map fun n => pos + byteSize (cs.take n)

theorem behind_append (pos : Nat) (as cs : List Char) (n? : Option Nat) :
    behind pos (as ++ cs) (n?.map (· + as.length)) = behind (pos + byteSize as) cs n? := by
  cases n? with
  | none => rfl
  | some n =>
    rw [Option.map_some, behind, behind, Option.map_some, Option.map_some, Nat.add_comm n,
      List.take_length_add_append, Text.byteSize_append, Nat.add_assoc]

theorem TextAt.heredocEnd {label : List Char} (h : TextAt source pos cs) :
    heredocEnd source label pos = .ok (behind pos cs (closingLength? label cs)) := by
  induction hn : cs.length using Nat.strong_induction_on generalizing cs pos with
  | _ n ih =>
    rw [Guarded.heredocEnd, h.textFrom, ok_bind]
    dsimp only
    rw [closingLength?, Lexeme.closingLabel?_eq]
    by_cases hlabel : label.isPrefixOf (Text.trimStart cs) = true
    · have hsplit := byteSize_split Text.isBlank cs
      have hindent : byteSize cs - byteSize (Text.trimStart cs) =
          byteSize (cs.takeWhile Text.isBlank) := by
        rw [Text.trimStart]
        omega
      obtain ⟨rest, hrest⟩ := List.isPrefixOf_iff_prefix.1 hlabel
      have hcs : cs = cs.takeWhile Text.isBlank ++ label ++ rest := by
        rw [List.append_assoc, hrest, Text.trimStart, List.takeWhile_append_dropWhile]
      have htake : cs.take ((cs.takeWhile Text.isBlank).length + label.length) =
          cs.takeWhile Text.isBlank ++ label := by
        rw [← List.length_append]
        exact (List.prefix_iff_eq_take.1 ⟨rest, hcs.symm⟩).symm
      rw [if_pos hlabel, if_pos hlabel, sub_of_le (by rw [Text.trimStart]; omega), ok_bind, hindent,
        Option.some_or, behind, Option.map_some, htake, Text.byteSize_append, Nat.add_assoc]
      rfl
    · rw [if_neg hlabel, if_neg hlabel, Option.none_or]
      by_cases hnewline : '\n' ∈ cs
      · obtain ⟨line, rest, rfl, hline⟩ := List.eq_append_cons_of_mem hnewline
        have hrest : TextAt source (pos + byteSize (line ++ ['\n'])) rest :=
          TextAt.skip (by rwa [List.append_assoc])
        have hnext : pos + byteSize line + 1 = pos + byteSize (line ++ ['\n']) := by
          rw [Text.byteSize_append, ← Nat.add_assoc]
          rfl
        have hprogress : left (Guarded.bytes source) (pos + byteSize (line ++ ['\n'])) <
            left (Guarded.bytes source) pos := by
          have hone : ('\n').utf8Size = 1 := rfl
          rw [hrest.left_eq, h.left_eq, Text.byteSize_append, Text.byteSize_cons]
          omega
        have hshorter : rest.length < n := by
          rw [← hn, List.length_append, List.length_cons]
          omega
        rw [find?_newline hline, heredocLength?_line hline]
        simp only [hnext]
        rw [dif_pos hprogress, ih _ hshorter hrest rfl, ← behind_append, List.append_assoc]
        rfl
      · rw [find?_newline_none hnewline, heredocLength?_last hnewline]
        rfl

theorem TextAt.heredocClosing {label : List Char} (h : TextAt source pos cs) :
    heredocClosing source label pos = .ok (behind pos cs (Lexeme.heredocLength? label cs)) := by
  rw [Guarded.heredocClosing, h.textFrom, ok_bind]
  by_cases hnewline : '\n' ∈ cs
  · obtain ⟨line, rest, rfl, hline⟩ := List.eq_append_cons_of_mem hnewline
    have hrest : TextAt source (pos + byteSize (line ++ ['\n'])) rest :=
      TextAt.skip (by rwa [List.append_assoc])
    have hnext : pos + byteSize line + 1 = pos + byteSize (line ++ ['\n']) := by
      rw [Text.byteSize_append, ← Nat.add_assoc]
      rfl
    rw [find?_newline hline, heredocLength?_line hline]
    simp only [hnext]
    rw [hrest.heredocEnd, ← behind_append, List.append_assoc]
    rfl
  · rw [find?_newline_none hnewline, heredocLength?_last hnewline]
    rfl

theorem TextAt.skipBlanks (h : TextAt source pos cs) :
    skipBlanks source pos = .ok (pos + byteSize (cs.takeWhile (· == ' '))) := by
  induction cs generalizing pos with
  | nil =>
    rw [Guarded.skipBlanks, h.startsWith rfl]
    rfl
  | cons c cs ih =>
    rw [Guarded.skipBlanks, h.startsWith rfl, ok_bind, List.isPrefixOf_cons_cons,
      List.takeWhile_cons]
    by_cases hc : c = ' '
    · subst hc
      have hnext : TextAt source (pos + 1) cs := h.next_narrow rfl
      have hprogress : left (Guarded.bytes source) (pos + 1) < left (Guarded.bytes source) pos := by
        rw [hnext.left_eq, h.left_eq, Text.byteSize_cons]
        exact Nat.lt_add_of_pos_left (Char.utf8Size_pos _)
      rw [beq_self_eq_true, Bool.true_and, List.isPrefixOf_nil_left, if_pos rfl, if_pos rfl,
        dif_pos hprogress, ih hnext, Nat.add_assoc]
      rfl
    · rw [beq_false_of_ne (Ne.symm hc), beq_false_of_ne hc]
      rfl

end

end Guarded
end ModuleVisibility
