import ModuleVisibility.Proofs.LexemeShape
import ModuleVisibility.Proofs.ReferenceText

/-!
What qualified names look like, as they are written and as they are stored. A written name may be
absolute, with one separator in front; what it means in a namespace is stored without that, so it is
canonical, and put behind a separator it means just that in every namespace. Qualifying a name does
not look at how the name is written, and so leaves the separator of an absolute name where it is.
-/
namespace ModuleVisibility

/-! Names of one or more segments. -/

namespace Lexeme

/-- A qualified name with no separator in front. -/
structure IsQualified (cs : List Char) : Prop where
  starts : startsName cs = true
  tail : NameTail cs

theorem not_startsName_separator (cs : List Char) : ¬ startsName ('\\' :: cs) = true := by
  rw [startsName]
  decide

/-- A separator joins names. -/
theorem NameTail.append {front cs : List Char} (hfront : NameTail front) (h : IsQualified cs) :
    NameTail (front ++ '\\' :: cs) := by
  induction hfront with
  | nil =>
    obtain ⟨hstarts, htail⟩ := h
    cases cs with
    | nil => cases hstarts
    | cons c cs => exact .separator hstarts htail
  | char hc _ ih => exact .char hc ih
  | separator hc _ ih => exact .separator hc ih

/-- Behind a separator stands a name. -/
theorem NameTail.behind {front cs : List Char} (h : NameTail (front ++ '\\' :: cs)) :
    IsQualified cs := by
  induction front with
  | nil =>
    cases h with
    | char hc _ => exact absurd hc (by decide)
    | separator hc htail => exact ⟨hc, htail⟩
  | cons c front ih =>
    rw [List.cons_append] at h
    generalize hrest : front ++ '\\' :: cs = rest at h
    cases h with
    | char _ htail => exact ih (hrest ▸ htail)
    | separator _ htail => exact ih (hrest ▸ htail)

theorem IsQualified.append {front cs : List Char} (hfront : IsQualified front)
    (h : IsQualified cs) :
    IsQualified (front ++ '\\' :: cs) := by
  refine ⟨?_, hfront.tail.append h⟩
  cases front with
  | nil => cases hfront.starts
  | cons c front => exact hfront.starts

/-- The name is read to its end. -/
theorem NameTail.qualifiedLength_append {cs after : List Char} (h : NameTail cs)
    (hend : continuesName after = false) :
    qualifiedLength (cs ++ after) = cs.length := by
  induction h with
  | nil =>
    cases after with
    | nil => rfl
    | cons c after => exact if_neg (Bool.eq_false_iff.1 hend)
  | char hc _ ih => simp [qualifiedLength, hc, ih]
  | @separator c cs hc _ ih =>
    have hon : (isNameChar '\\' || '\\' == '\\' && startsName (c :: cs ++ after)) = true := by
      rw [List.cons_append, startsName, hc]
      decide
    rw [List.cons_append, qualifiedLength, if_pos hon, ih]
    rfl

/-- A token of a name is absolute or not. -/
inductive IsWritten : List Char → Prop
  | plain {cs} (h : IsQualified cs) : IsWritten cs
  | absolute {cs} (h : IsQualified cs) : IsWritten ('\\' :: cs)

theorem isWritten_of_spelled {name : String} {text rest : List Char}
    (h : (TokenKind.ident name).Spelled text rest) :
    IsWritten name.toList := by
  cases h with
  | @ident c cs _ hstart htail _ =>
    rw [String.toList_ofList]
    rcases hstart with hstart | ⟨rfl, hstart⟩
    · exact .plain ⟨hstart, .char (isNameChar_of_isNameStart hstart) htail⟩
    · exact .absolute ⟨hstart, htail⟩

theorem IsWritten.isQualified {cs : List Char} (h : IsWritten cs) (hfront : cs.head? ≠ some '\\') :
    IsQualified cs := by
  cases h with
  | plain h => exact h
  | absolute _ => exact absurd rfl hfront

theorem IsWritten.dropWhile {cs : List Char} (h : IsWritten cs) :
    IsQualified (cs.dropWhile (· == Name.separator)) := by
  have hplain : ∀ {cs}, IsQualified cs → cs.dropWhile (· == Name.separator) = cs := by
    intro cs h
    cases cs with
    | nil => rfl
    | cons c cs =>
      refine List.dropWhile_cons_of_neg fun hc => ?_
      obtain rfl : c = '\\' := beq_iff_eq.1 hc
      exact not_startsName_separator cs h.starts
  cases h with
  | plain h => rwa [hplain h]
  | absolute h => rwa [List.dropWhile_cons_of_pos (by decide), hplain h]

/-! Absolute names in a text. -/

/-- An absolute name is one lexeme. -/
theorem split_absolute {cs after : List Char} (h : IsQualified cs)
    (hend : continuesName after = false) :
    split ('\\' :: cs ++ after) = ⟨.token (.ident (String.ofList ('\\' :: cs))), '\\' :: cs⟩ ::
      split after := by
  have hstarts : startsName (cs ++ after) = true := by
    cases cs with
    | nil => cases h.starts
    | cons c cs => exact h.starts
  have hnext : next '\\' (cs ++ after) =
      named '\\' (cs ++ after) (qualifiedLength (cs ++ after)) := by
    rw [next_of_not_opens (by decide) rfl, nextWord, if_neg (by simp), if_neg (by decide),
      if_pos (by simp [hstarts])]
  refine split_of_next ?_
  rw [hnext, h.tail.qualifiedLength_append hend, named, List.take_left]

/-- A word and the blank behind it are two lexemes. -/
theorem split_new (cs : List Char) : split ('n' :: 'e' :: 'w' :: ' ' :: cs) =
    ⟨.token (.ident "new"), ['n', 'e', 'w']⟩ :: ⟨.blank, [' ']⟩ :: split cs := by
  have hletters : ∀ c ∈ ['e', 'w'], isNameChar c = true := by simp [isNameChar]
  have hlength : qualifiedLength (['e', 'w'] ++ ' ' :: cs) = 2 :=
    qualifiedLength_append hletters fun c hc => Option.some.inj hc ▸ rfl
  have hword : next 'n' (['e', 'w'] ++ ' ' :: cs) = (.token (.ident "new"), 2) := by
    rw [next_of_isNameStart (by decide), hlength]
    rfl
  have hblank : split (' ' :: [] ++ cs) = ⟨.blank, [' ']⟩ :: split cs :=
    split_of_next (next_of_isGap (by decide) _)
  exact (split_of_next hword).trans (congrArg _ hblank)

end Lexeme

open Lexeme

/-! Stored names. -/

namespace Name

/-- The name has no separator in front, and no segment is empty. -/
structure Canonical (name : String) : Prop where
  front : name.toList.head? ≠ some separator
  segments : [] ∉ name.toList.splitOn separator

instance (name : String) : Decidable (Canonical name) :=
  decidable_of_iff (name.toList.head? ≠ some separator ∧ [] ∉ name.toList.splitOn separator)
    ⟨fun h => ⟨h.1, h.2⟩, fun h => ⟨h.front, h.segments⟩⟩

example : Canonical "A\\b" ∧ ¬ Canonical "A\\\\b" := by decide

theorem splitOn_cons (c : Char) (cs : List Char) : (c :: cs).splitOn separator =
    if c = separator then [] :: cs.splitOn separator
      else (cs.splitOn separator).modifyHead (c :: ·) := by
  simp [List.splitOn, List.splitOnP_cons_eq_if_modifyHead]

/-- Only the first segment of what a name goes on with can be empty, and not if a name starts
there. -/
theorem segments_of_nameTail {cs : List Char} (h : NameTail cs) : ∃ first later,
    cs.splitOn separator = first :: later ∧ [] ∉ later ∧ (startsName cs = true → first ≠ []) := by
  induction h with
  | nil => exact ⟨[], [], rfl, List.not_mem_nil, fun h => nomatch h⟩
  | @char c cs hc _ ih =>
    obtain ⟨first, later, hsplit, hlater, -⟩ := ih
    have hne : c ≠ separator := by
      rintro rfl
      exact absurd hc (by decide)
    refine ⟨c :: first, later, ?_, hlater, fun _ => List.cons_ne_nil c first⟩
    rw [splitOn_cons, if_neg hne, hsplit, List.modifyHead_cons]
  | @separator c cs hc _ ih =>
    obtain ⟨first, later, hsplit, hlater, hfirst⟩ := ih
    refine ⟨[], first :: later, ?_, ?_, fun hstarts => absurd hstarts (not_startsName_separator _)⟩
    · rw [splitOn_cons, if_pos (show '\\' = separator from rfl), hsplit]
    · rw [List.mem_cons, not_or]
      exact ⟨fun hnil => hfirst hc hnil.symm, hlater⟩

theorem canonical_of_isQualified {name : String} (h : IsQualified name.toList) :
    Canonical name := by
  obtain ⟨first, later, hsplit, hlater, hfirst⟩ := segments_of_nameTail h.tail
  refine ⟨fun hhead => ?_, ?_⟩
  · obtain ⟨rest, hrest⟩ := List.head?_eq_some_iff.1 hhead
    exact not_startsName_separator rest (hrest ▸ h.starts)
  · rw [hsplit, List.mem_cons, not_or]
    exact ⟨fun hnil => hfirst h.starts hnil.symm, hlater⟩

/-- Between two separators is an empty segment. -/
theorem nil_mem_segments (front cs : List Char) :
    [] ∈ ((front ++ '\\' :: '\\' :: cs).splitOn separator).tail := by
  induction front with
  | nil =>
    have hsplit : ∀ cs, ('\\' :: cs).splitOn separator = [] :: cs.splitOn separator := fun cs =>
      splitOn_cons _ cs
    rw [List.nil_append, hsplit, hsplit]
    exact List.mem_cons_self
  | cons c front ih =>
    rw [List.cons_append, splitOn_cons]
    split
    · exact List.mem_of_mem_tail ih
    · rwa [List.tail_modifyHead]

/-! Resolving names in a namespace. -/

/-- A namespace is global or has a name of its own. -/
def IsNamespace (ns : String) : Prop := ns = "" ∨ IsQualified ns.toList

section

variable {ns written : String}

theorem isQualified_qualify (hns : IsNamespace ns) (h : IsQualified written.toList) :
    IsQualified (qualify ns written).toList := by
  unfold qualify
  split
  · exact h
  · next hne =>
    have hqualified := (hns.resolve_left hne).append h
    simpa [separator] using hqualified

/-- An absolute name is not qualified to a canonical one. -/
theorem not_canonical_qualify {cs : List Char} (h : written.toList = '\\' :: cs) :
    ¬ Canonical (qualify ns written) := by
  rintro ⟨hfront, hsegments⟩
  unfold qualify at hfront hsegments
  split at hfront
  · rw [h] at hfront
    exact hfront rfl
  · next hne =>
    rw [if_neg hne] at hsegments
    refine hsegments (List.mem_of_mem_tail ?_)
    simpa [h, separator] using nil_mem_segments ns.toList cs

theorem explicit?_absolute {cs : List Char} (h : written.toList = '\\' :: cs) :
    explicit? ns written = some (String.ofList cs) := by
  have hsplit : Text.splitFirst? separator ('\\' :: cs) = some ([], cs) := if_pos rfl
  rw [explicit?, h, hsplit]

theorem isQualified_explicit? {name : String} (hns : IsNamespace ns) (h : IsWritten written.toList)
    (hname : explicit? ns written = some name) : IsQualified name.toList := by
  generalize hcs : written.toList = cs at h
  cases h with
  | @absolute cs h =>
    rw [explicit?_absolute hcs] at hname
    cases hname
    rwa [String.toList_ofList]
  | plain h =>
    unfold explicit? at hname
    rw [hcs] at hname
    split at hname
    · cases hname
    · next rest hsplit =>
      obtain rfl := Text.splitFirst?_eq hsplit
      exact absurd h.starts (not_startsName_separator rest)
    · next head rest _ hsplit =>
      obtain rfl := Text.splitFirst?_eq hsplit
      split at hname
      · cases hname
        refine isQualified_qualify hns ?_
        rw [String.toList_ofList]
        exact h.tail.behind
      · cases hname
        exact isQualified_qualify hns (hcs ▸ h)

/-- A name without a meaning of its own is not absolute. -/
theorem isQualified_of_explicit?_eq_none (h : IsWritten written.toList)
    (hnone : explicit? ns written = none) :
    IsQualified written.toList := by
  generalize hcs : written.toList = cs at h
  cases h with
  | plain h => exact h
  | absolute _ =>
    rw [explicit?_absolute hcs] at hnone
    cases hnone

theorem isQualified_resolveClass (hns : IsNamespace ns) (h : IsWritten written.toList) :
    IsQualified (resolveClass ns written).toList := by
  unfold resolveClass
  cases hexplicit : explicit? ns written with
  | none => exact isQualified_qualify hns (isQualified_of_explicit?_eq_none h hexplicit)
  | some name => exact isQualified_explicit? hns h hexplicit

theorem isQualified_resolveFunction (hns : IsNamespace ns) (h : IsWritten written.toList) :
    IsQualified (resolveFunction ns written).name.toList ∧
      ∀ name ∈ (resolveFunction ns written).fallback, IsQualified name.toList := by
  unfold resolveFunction
  cases hexplicit : explicit? ns written with
  | none =>
    have hwritten := isQualified_of_explicit?_eq_none h hexplicit
    refine ⟨isQualified_qualify hns hwritten, fun name hname => ?_⟩
    dsimp only at hname
    split at hname
    · cases hname
    · cases hname
      exact hwritten
  | some name => exact ⟨isQualified_explicit? hns h hexplicit, fun _ hnone => nomatch hnone⟩

theorem resolveFunction_absolute (ns : String) {cs : List Char} (h : written.toList = '\\' :: cs) :
    resolveFunction ns written = ⟨String.ofList cs, none⟩ := by
  rw [resolveFunction, explicit?_absolute h]

theorem resolveClass_absolute (ns : String) {cs : List Char} (h : written.toList = '\\' :: cs) :
    resolveClass ns written = String.ofList cs := by
  rw [resolveClass, explicit?_absolute h, Option.getD_some]

/-! Reading an absolute name. -/

/-- No word of the language is absolute. -/
theorem lowerAscii_ne_of_absolute {word : String} {cs : List Char} (h : written.toList = '\\' :: cs)
    (hword : word.toList.head? ≠ some '\\') : Text.lowerAscii written ≠ word := by
  rintro rfl
  refine hword ?_
  rw [Text.lowerAscii, String.toList_ofList, h]
  rfl

theorem isReserved_absolute {cs : List Char} (h : written.toList = '\\' :: cs) :
    Reference.isReserved written = false := by
  have hwords : ∀ word ∈ Reference.reservedWords, word.toList.head? ≠ some '\\' := by decide
  rw [Reference.isReserved, List.contains_eq_mem, decide_eq_false_iff_not]
  exact fun hmem => lowerAscii_ne_of_absolute h (hwords _ hmem) rfl

theorem newClass?_absolute (ns : String) {cs : List Char} (h : written.toList = '\\' :: cs) :
    Reference.newClass? ns written = some (.named (String.ofList cs)) := by
  have hne : ∀ word : String, word.toList.head? ≠ some '\\' → Text.lowerAscii written ≠ word :=
    fun _ => lowerAscii_ne_of_absolute h
  rw [Reference.newClass?, if_neg, if_neg, resolveClass_absolute ns h]
  · exact not_or_intro (hne "parent" (by decide)) (hne "class" (by decide))
  · exact not_or_intro (hne "self" (by decide)) (hne "static" (by decide))

end

/-- What a text refers to, read in a namespace. -/
def referenceKinds (ns text : String) : List ReferenceKind :=
  (scanReferences ns (tokenize text).tokens).map Reference.kind

/-- Read in a namespace, the absolute name means what is declared as `name`: that is called, used as
a constant, and made an object of. -/
structure Reached (ns name : String) : Prop where
  call : referenceKinds ns ("\\" ++ name ++ "()") = [.call name none]
  constant : referenceKinds ns ("\\" ++ name) = [.constant name none]
  new : referenceKinds ns ("new \\" ++ name) = [.new (.named name)]

/-- The absolute name of a qualified name means it in every namespace. -/
theorem reached_of_isQualified {name : String} (ns : String) (h : IsQualified name.toList) :
    Reached ns name := by
  obtain ⟨written, hwritten⟩ : ∃ written, written = String.ofList ('\\' :: name.toList) := ⟨_, rfl⟩
  have hlist : written.toList = '\\' :: name.toList := by
    rw [hwritten, String.toList_ofList]
  have htarget : resolveFunction ns written = ⟨name, none⟩ := by
    rw [resolveFunction_absolute ns hlist, String.ofList_toList]
  have hclass : Reference.newClass? ns written = some (.named name) := by
    rw [newClass?_absolute ns hlist, String.ofList_toList]
  have hreserved := isReserved_absolute hlist
  have hnew : Text.lowerAscii written ≠ "new" := lowerAscii_ne_of_absolute hlist (by decide)
  have hend : split [] = [] := by rw [split]
  constructor
  case call =>
    have htext : ("\\" ++ name ++ "()").toList = '\\' :: name.toList ++ ['(', ')'] := by simp
    have hparens : split ['(', ')'] =
        [⟨.token (.punct '('), ['(']⟩, ⟨.token (.punct ')'), [')']⟩] := by
      decide +kernel
    rw [referenceKinds, tokenize, TokenStream.ofText, htext, split_absolute h (by decide),
      hparens, ← hwritten]
    simp [TokenStream.ofLexemes, tokenKind?, scanReferences, Reference.scanFrom,
      Reference.startingAt, Reference.nameReferences, Reference.followsAccess, Reference.headIs,
      Token.isPunct, hnew, hreserved, htarget]
  case constant =>
    have htext : ("\\" ++ name).toList = '\\' :: name.toList ++ [] := by simp
    rw [referenceKinds, tokenize, TokenStream.ofText, htext, split_absolute h rfl, hend, ← hwritten]
    simp [TokenStream.ofLexemes, tokenKind?, scanReferences, Reference.scanFrom,
      Reference.startingAt, Reference.nameReferences, Reference.followsAccess, Reference.headIs,
      Reference.isTypePosition, Reference.followsSignature, Reference.takesTypeArguments,
      Reference.insideTypeArguments, hnew, hreserved, htarget]
  case new =>
    have htext : ("new \\" ++ name).toList =
        'n' :: 'e' :: 'w' :: ' ' :: ('\\' :: name.toList ++ []) := by simp
    have hlower : Text.lowerAscii "new" = "new" := by decide
    rw [referenceKinds, tokenize, TokenStream.ofText, htext, split_new, split_absolute h rfl,
      hend, ← hwritten]
    simp [TokenStream.ofLexemes, tokenKind?, scanReferences, Reference.scanFrom,
      Reference.startingAt, Reference.nameReferences, Reference.followsAccess, Reference.headIs,
      Reference.newReferences, Token.ident?, Token.isWord, hlower, hclass]

end Name

end ModuleVisibility
