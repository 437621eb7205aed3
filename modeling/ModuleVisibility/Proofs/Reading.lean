import Mathlib.Data.List.Infix
import ModuleVisibility.Proofs.Scan
import ModuleVisibility.Unit.Parser

/-!
Where the bodies of a unit stand among its tokens. Reading takes tokens off the front, so what it
leaves is the end of what it was given; a body is read from behind the token that opens it.
-/
namespace ModuleVisibility

/-! What is left. -/

namespace Reading

variable {α β : Type}

theorem andThen_rest_suffix {ts : List Token} {r : Reading α} {next : α → List Token → Reading β}
    (hr : r.rest <:+ ts) (hnext : ∀ a, (next a r.rest).rest <:+ r.rest) :
    (r.andThen next).rest <:+ ts := by
  unfold andThen
  split
  · exact hr
  · exact (hnext _).trans hr

theorem exists_of_andThen {r : Reading α} {next : α → List Token → Reading β} {b : β}
    (h : (r.andThen next).value? = some b) :
    ∃ a, r.value? = some a ∧ (next a r.rest).value? = some b := by
  unfold andThen at h
  split at h
  · cases h
  · next a ha => exact ⟨a, ha, h⟩

theorem expectName_rest_suffix (stop : Span) (role : NameRole) (ts : List Token) :
    (expectName stop role ts).rest <:+ ts := by
  unfold expectName
  split
  · exact List.suffix_rfl
  · split
    · exact List.suffix_cons ..
    · exact List.suffix_rfl

theorem moduleSegments_rest_suffix (stop : Span) (name : String) (span : Span) (ts : List Token) :
    (moduleSegments stop name span ts).rest <:+ ts := by
  fun_induction moduleSegments stop name span ts with
  | case4 _ _ _ _ _ _ _ _ ih => exact ih.trans ((List.suffix_cons ..).trans (List.suffix_cons ..))
  | _ => simp

theorem moduleName_rest_suffix (stop : Span) (ts : List Token) :
    (moduleName stop ts).rest <:+ ts :=
  andThen_rest_suffix (expectName_rest_suffix ..) fun _ => moduleSegments_rest_suffix ..

/-- The inside of a block, the brace that closes it and what is behind. -/
theorem splitBlock?_eq {depth : Nat} {ts inside rest : List Token}
    (h : splitBlock? depth ts = some (inside, rest)) : ∃ brace, ts = inside ++ brace :: rest := by
  fun_induction splitBlock? depth ts generalizing inside rest with
  | case1 => cases h
  | case2 t ts _ =>
    cases h
    exact ⟨t, rfl⟩
  | case3 t ts _ depth ih =>
    obtain ⟨⟨i, r⟩, hsplit, heq⟩ := Option.map_eq_some_iff.1 h
    cases heq
    obtain ⟨brace, rfl⟩ := ih hsplit
    exact ⟨brace, rfl⟩
  | case4 depth t ts _ ih =>
    obtain ⟨⟨i, r⟩, hsplit, heq⟩ := Option.map_eq_some_iff.1 h
    cases heq
    obtain ⟨brace, rfl⟩ := ih hsplit
    exact ⟨brace, rfl⟩

theorem block_rest_suffix (brace : Token) (ts : List Token) : (block brace ts).rest <:+ ts := by
  unfold block
  split
  · next inside rest h =>
    obtain ⟨close, rfl⟩ := splitBlock?_eq h
    exact (List.suffix_cons close rest).trans (List.suffix_append ..)
  · exact List.nil_suffix

theorem signature_rest_suffix (stop : Span) (depth : Nat) (ts : List Token) :
    (signature stop depth ts).rest <:+ ts := by
  fun_induction signature stop depth ts with
  | case6 => exact (block_rest_suffix ..).trans (List.suffix_cons ..)
  | _ => simp_all [List.suffix_cons_iff]

theorem attributes_rest_suffix (stop : Span) (depth : Nat) (found : Bool) (ts : List Token) :
    (attributes stop depth found ts).rest <:+ ts := by
  fun_induction attributes stop depth found ts <;> simp_all [List.suffix_cons_iff]

theorem skipStatement_rest_suffix (ts : List Token) : (skipStatement ts).rest <:+ ts := by
  fun_induction skipStatement ts with
  | case3 => exact (block_rest_suffix ..).trans (List.suffix_cons ..)
  | _ => simp_all [List.suffix_cons_iff]

theorem upToSemicolon_rest_suffix (stop : Span) (ts : List Token) :
    (upToSemicolon stop ts).rest <:+ ts := by
  fun_induction upToSemicolon stop ts <;> simp_all [List.suffix_cons_iff]

theorem memberStatement_rest_suffix (stop : Span) (depth : Nat) (ts : List Token) :
    (memberStatement stop depth ts).rest <:+ ts := by
  fun_induction memberStatement stop depth ts <;> simp_all [List.suffix_cons_iff]

theorem afterTypeArguments_suffix (depth : Nat) (ts : List Token) :
    afterTypeArguments depth ts <:+ ts := by
  fun_induction afterTypeArguments depth ts <;> simp_all [List.suffix_cons_iff]

theorem skipTypeArguments_suffix (ts : List Token) : skipTypeArguments ts <:+ ts := by
  unfold skipTypeArguments
  split
  · exact afterTypeArguments_suffix 0 ts
  · exact List.suffix_rfl

theorem useClauses_rest_suffix (stop : Span) (ns : String) (ts : List Token) :
    (useClauses stop ns ts).rest <:+ ts := by
  have hpassed : ∀ {t next : Token} {ts after : List Token}, skipTypeArguments ts = next :: after →
      after <:+ t :: ts := by
    intro t next ts after h
    have hsuffix := skipTypeArguments_suffix ts
    rw [h] at hsuffix
    exact ((List.suffix_cons ..).trans hsuffix).trans (List.suffix_cons ..)
  fun_induction useClauses stop ns ts with
  | case1 => exact List.suffix_rfl
  | case2 => exact List.suffix_rfl
  | case3 => exact List.nil_suffix
  | case4 _ _ _ _ _ _ _ h _ ih => exact ih.trans (hpassed h)
  | case5 _ _ _ _ _ _ _ h => exact hpassed h
  | case6 _ _ _ _ _ next after h => exact (block_rest_suffix next after).trans (hpassed h)
  | case7 _ _ _ _ next after h =>
    have hsuffix : next :: after <:+ _ := h ▸ skipTypeArguments_suffix _
    exact hsuffix.trans (List.suffix_cons ..)

theorem method_rest_suffix (stop : Span) (ns : String) (visibility : Visibility) (ts : List Token) :
    (method stop ns visibility ts).rest <:+ ts :=
  andThen_rest_suffix (expectName_rest_suffix ..) fun _ => signature_rest_suffix ..

end Reading

/-! The tokens of a body. -/

/-- The tokens stand in a text behind a token that opens them and is no arrow, or there are none. -/
def Opened (tokens body : List Token) : Prop :=
  body = [] ∨ ∃ opening after, opening.kind ≠ .arrow ∧ opening :: (body ++ after) <:+ tokens

theorem Opened.mono {ts tokens body : List Token} (h : Opened ts body) (hsuffix : ts <:+ tokens) :
    Opened tokens body := by
  rcases h with hnone | ⟨opening, after, hopening, hbody⟩
  · exact .inl hnone
  · exact .inr ⟨opening, after, hopening, hbody.trans hsuffix⟩

theorem Opened.of_starts {ts tokens body : List Token} (h : Opened ts body)
    (hstarts : ts <+: tokens) :
    Opened tokens body := by
  obtain ⟨more, rfl⟩ := hstarts
  rcases h with hnone | ⟨opening, after, hopening, before, rfl⟩
  · exact .inl hnone
  · exact .inr ⟨opening, after ++ more, hopening, before, by simp⟩

theorem Token.kind_ne_arrow_of_isPunct {t : Token} {c : Char} (h : t.isPunct c = true) :
    t.kind ≠ .arrow := by
  rw [beq_iff_eq.1 h]
  exact TokenKind.noConfusion

/-- The references are those of tokens that are opened in the text. -/
def ReadIn (tokens : List Token) (body : List Reference) : Prop :=
  ∃ ns ts, body = scanReferences ns ts ∧ Opened tokens ts

/-- So they are, in this namespace. -/
def ReadUnder (ns : String) (tokens : List Token) (body : List Reference) : Prop :=
  ∃ ts, body = scanReferences ns ts ∧ Opened tokens ts

section

variable {ns : String} {ts tokens : List Token}

theorem ReadUnder.mono {body : List Reference} (h : ReadUnder ns ts body)
    (hsuffix : ts <:+ tokens) :
    ReadUnder ns tokens body := by
  obtain ⟨inside, rfl, hopened⟩ := h
  exact ⟨inside, rfl, hopened.mono hsuffix⟩

theorem ReadUnder.of_starts {body : List Reference} (h : ReadUnder ns ts body)
    (hstarts : ts <+: tokens) :
    ReadUnder ns tokens body := by
  obtain ⟨inside, rfl, hopened⟩ := h
  exact ⟨inside, rfl, Opened.of_starts hopened hstarts⟩

/-- The clauses name classes with names of the text, in this namespace. -/
def NamedUnder (ns : String) (tokens : List Token) (uses : List UseClause) : Prop :=
  ∀ u ∈ uses, ∃ t ∈ tokens, ∃ written, t.ident? = some written ∧
    u.name = Name.resolveClass ns written

theorem NamedUnder.mono {uses : List UseClause} (h : NamedUnder ns ts uses)
    (hsuffix : ts <:+ tokens) :
    NamedUnder ns tokens uses := by
  intro u hu
  obtain ⟨t, ht, hname⟩ := h u hu
  exact ⟨t, hsuffix.subset ht, hname⟩

theorem namedUnder_nil : NamedUnder ns tokens [] := fun _ h => nomatch h

/-- What a class body holds is read so. -/
structure ClassBody.Under (ns : String) (tokens : List Token) (b : ClassBody) : Prop where
  uses : NamedUnder ns tokens b.uses
  members : ∀ m ∈ b.members, ReadUnder ns tokens m.body

theorem ClassBody.Under.mono {b : ClassBody} (h : b.Under ns ts) (hsuffix : ts <:+ tokens) :
    b.Under ns tokens where
  uses := h.uses.mono hsuffix
  members m hm := (h.members m hm).mono hsuffix

theorem ClassBody.Under.append {a b : ClassBody} (ha : a.Under ns tokens) (hb : b.Under ns tokens) :
    (a.append b).Under ns tokens where
  uses u hu := (List.mem_append.1 hu).elim (ha.uses u) (hb.uses u)
  members m hm := (List.mem_append.1 hm).elim (ha.members m) (hb.members m)

theorem ClassBody.under_empty : ClassBody.empty.Under ns tokens where
  uses := namedUnder_nil
  members _ hm := nomatch hm

end

namespace Declarator

theorem after_suffix_of_mem_assigned {depth : Nat} {ts : List Token} {d : Declarator}
    (h : d ∈ assigned depth ts) : d.after <:+ ts := by
  fun_induction assigned depth ts <;> simp_all [List.suffix_cons_iff]
  grind

theorem after_suffix_of_lastName? {ts : List Token} {d : Declarator} (h : lastName? ts = some d) :
    d.after <:+ ts := by
  induction ts with
  | nil => cases h
  | cons t ts ih =>
    unfold lastName? at h
    cases hlast : lastName? ts with
    | some last =>
      rw [hlast] at h
      cases h
      exact (ih hlast).trans (List.suffix_cons t ts)
    | none =>
      rw [hlast] at h
      obtain ⟨name, _, rfl⟩ := Option.map_eq_some_iff.1 h
      exact List.suffix_cons t ts

theorem after_suffix_of_mem_constants {ts : List Token} {d : Declarator} (h : d ∈ constants ts) :
    d.after <:+ ts := by
  unfold constants at h
  split at h
  · exact after_suffix_of_lastName? (Option.mem_toList.1 h)
  · exact after_suffix_of_mem_assigned h

theorem after_suffix_of_mem_properties {isAssigned afterComma : Bool} {ts : List Token}
    {d : Declarator} (h : d ∈ properties isAssigned afterComma ts) : d.after <:+ ts := by
  induction ts generalizing isAssigned afterComma with
  | nil => cases h
  | cons t ts ih =>
    have hlater : ∀ {isAssigned afterComma}, d ∈ properties isAssigned afterComma ts →
        d.after <:+ t :: ts := fun h => (ih h).trans (List.suffix_cons t ts)
    unfold properties at h
    dsimp only at h
    split at h
    · split at h
      · rcases List.mem_cons.1 h with rfl | h
        · exact List.suffix_cons t ts
        · exact hlater h
      · exact hlater h
    · exact hlater h

theorem upToComma_starts (depth : Nat) (ts : List Token) : upToComma depth ts <+: ts := by
  fun_induction upToComma depth ts <;> simp_all [List.cons_prefix_cons]

/-- An initializer is opened by its equals sign. -/
theorem opened_initializer {d : Declarator} {ts : List Token} (h : d.after <:+ ts) :
    Opened ts d.initializer := by
  unfold initializer
  split
  · exact .inl rfl
  · next equals behind hafter =>
    split
    · next hequals =>
      obtain ⟨rest, hrest⟩ := upToComma_starts 0 behind
      refine .inr ⟨equals, rest, Token.kind_ne_arrow_of_isPunct hequals, ?_⟩
      rw [hrest, ← hafter]
      exact h
    · exact .inl rfl

theorem readUnder_toMember {d : Declarator} {ts : List Token} (h : d.after <:+ ts) (ns : String)
    (kind : MemberKind) (visibility : Visibility) :
    ReadUnder ns ts (d.toMember ns kind visibility).body :=
  ⟨d.initializer, rfl, opened_initializer h⟩

end Declarator

namespace Reading

/-- A body is opened by its brace. -/
theorem opened_signature {stop : Span} {depth : Nat} {ts body : List Token}
    (h : (signature stop depth ts).value? = some body) : Opened ts body := by
  fun_induction signature stop depth ts with
  | case1 => cases h
  | case5 t ts =>
    cases h
    exact .inl rfl
  | case6 _ t ts _ _ _ _ hopen =>
    unfold block at h
    split at h
    · next inside rest hsplit =>
      cases h
      obtain ⟨close, rfl⟩ := splitBlock?_eq hsplit
      exact .inr ⟨t, close :: rest, Token.kind_ne_arrow_of_isPunct hopen, List.suffix_rfl⟩
    · cases h
  | case7 => cases h
  | case2 _ _ _ _ ih => exact (ih h).mono (List.suffix_cons ..)
  | case3 _ _ _ _ _ ih => exact (ih h).mono (List.suffix_cons ..)
  | case4 _ _ _ _ _ _ ih => exact (ih h).mono (List.suffix_cons ..)
  | case8 _ _ _ _ _ _ _ _ _ ih => exact (ih h).mono (List.suffix_cons ..)

theorem memberStatement_starts {stop : Span} {depth : Nat} {ts statement : List Token}
    (h : (memberStatement stop depth ts).value? = some statement) : statement <+: ts := by
  fun_induction memberStatement stop depth ts generalizing statement with
  | case1 => cases h
  | case4 => cases h
  | case6 =>
    cases h
    exact List.nil_prefix
  | case2 _ _ _ _ ih | case3 _ _ _ _ _ ih | case5 _ _ _ _ _ _ ih | case7 _ _ _ _ _ _ _ ih =>
    obtain ⟨rest, hrest, rfl⟩ := Option.map_eq_some_iff.1 h
    exact (List.prefix_cons_inj _).2 (ih hrest)

/-! Members. -/

theorem readUnder_method {stop : Span} {ns : String} {visibility : Visibility} {ts : List Token}
    {m : Member} (h : (method stop ns visibility ts).value? = some m) : ReadUnder ns ts m.body := by
  obtain ⟨_, _, hm⟩ := exists_of_andThen h
  obtain ⟨body, hbody, rfl⟩ := Option.map_eq_some_iff.1 hm
  exact ⟨body, rfl, (opened_signature hbody).mono (expectName_rest_suffix ..)⟩

theorem readUnder_classConstants {stop : Span} {ns : String} {visibility : Visibility}
    {ts : List Token}
    {members : List Member} (h : (classConstants stop ns visibility ts).value? = some members) :
    ∀ m ∈ members, ReadUnder ns ts m.body := by
  obtain ⟨statement, hstatement, rfl⟩ := Option.map_eq_some_iff.1 h
  intro m hm
  split at hm
  · cases hm
  · obtain ⟨d, hd, rfl⟩ := List.mem_map.1 hm
    exact ReadUnder.of_starts (Declarator.readUnder_toMember
      (Declarator.after_suffix_of_mem_constants hd) ..)
      (memberStatement_starts hstatement)

theorem readUnder_properties {stop : Span} {ns : String} {visibility : Visibility} {t : Token}
    {ts : List Token} {members : List Member}
    (h : (properties stop ns visibility t ts).value? = some members) :
    ∀ m ∈ members, ReadUnder ns (t :: ts) m.body := by
  obtain ⟨statement, hstatement, hfound⟩ := exists_of_andThen h
  intro m hm
  split at hfound
  · cases hfound
    cases hm
  · cases hfound
    obtain ⟨d, hd, rfl⟩ := List.mem_map.1 hm
    exact ReadUnder.of_starts (Declarator.readUnder_toMember
      (Declarator.after_suffix_of_mem_properties hd) ..)
      (memberStatement_starts hstatement)

theorem properties_rest_suffix (stop : Span) (ns : String) (visibility : Visibility) (t : Token)
    (ts : List Token) : (properties stop ns visibility t ts).rest <:+ t :: ts := by
  rw [properties_rest]
  exact memberStatement_rest_suffix ..

theorem bodyItem_rest_suffix (stop : Span) (ns : String) (pending : Option Visibility) (t : Token)
    (ts : List Token) : (bodyItem stop ns pending t ts).rest <:+ t :: ts := by
  have hbehind : ∀ {rest : List Token}, rest <:+ ts → rest <:+ t :: ts :=
    fun h => h.trans (List.suffix_cons t ts)
  unfold bodyItem
  cases ClassBody.ItemStart.ofToken t with
  | nothing => exact List.suffix_cons t ts
  | visibility => exact List.suffix_cons t ts
  | attributes => exact hbehind (attributes_rest_suffix ..)
  | uses => exact hbehind (useClauses_rest_suffix ..)
  | method => exact hbehind (method_rest_suffix ..)
  | constants => exact hbehind (memberStatement_rest_suffix ..)
  | memberless => exact hbehind (memberStatement_rest_suffix ..)
  | properties => exact properties_rest_suffix ..

theorem namedUnder_useClauses (stop : Span) (ns : String) (ts : List Token) :
    ∀ clauses ∈ (useClauses stop ns ts).value?, NamedUnder ns ts clauses := by
  fun_induction useClauses stop ns ts with
  | case1 | case2 | case3 | case7 =>
    intro clauses hclauses
    cases hclauses
  | case4 t ts name hname clause next after hpassed _ ih =>
    intro clauses hclauses
    obtain ⟨later, hlater, rfl⟩ := Option.map_eq_some_iff.1 hclauses
    have hsuffix : after <:+ t :: ts :=
      ((List.suffix_cons next after).trans (hpassed ▸ skipTypeArguments_suffix ts)).trans
        (List.suffix_cons t ts)
    intro u hu
    rcases List.mem_cons.1 hu with rfl | hu
    · exact ⟨t, List.mem_cons_self, name, hname, rfl⟩
    · exact (ih later hlater).mono hsuffix u hu
  | case5 t ts name hname =>
    intro clauses hclauses
    cases hclauses
    intro u hu
    rw [List.mem_singleton.1 hu]
    exact ⟨t, List.mem_cons_self, name, hname, rfl⟩
  | case6 t ts name hname =>
    intro clauses hclauses
    obtain ⟨_, _, rfl⟩ := Option.map_eq_some_iff.1 hclauses
    intro u hu
    rw [List.mem_singleton.1 hu]
    exact ⟨t, List.mem_cons_self, name, hname, rfl⟩

theorem under_bodyItem {stop : Span} {ns : String} {pending : Option Visibility} {t : Token}
    {ts : List Token} {item : ClassBody.Item}
    (h : (bodyItem stop ns pending t ts).value? = some item) : item.content.Under ns (t :: ts) := by
  unfold bodyItem at h
  cases hstart : ClassBody.ItemStart.ofToken t with
  | nothing =>
    rw [hstart] at h
    cases h
    exact ClassBody.under_empty
  | visibility =>
    rw [hstart] at h
    cases h
    exact ClassBody.under_empty
  | attributes =>
    rw [hstart] at h
    obtain ⟨_, _, rfl⟩ := Option.map_eq_some_iff.1 h
    exact ClassBody.under_empty
  | uses =>
    rw [hstart] at h
    obtain ⟨clauses, hclauses, rfl⟩ := Option.map_eq_some_iff.1 h
    exact ⟨(namedUnder_useClauses _ _ _ _ hclauses).mono (List.suffix_cons t ts),
      fun m hm => nomatch hm⟩
  | memberless =>
    rw [hstart] at h
    obtain ⟨_, _, rfl⟩ := Option.map_eq_some_iff.1 h
    exact ClassBody.under_empty
  | method =>
    rw [hstart] at h
    obtain ⟨member, hmember, rfl⟩ := Option.map_eq_some_iff.1 h
    refine ⟨namedUnder_nil, fun m hm => ?_⟩
    rw [List.mem_singleton.1 hm]
    exact (readUnder_method hmember).mono (List.suffix_cons t ts)
  | constants =>
    rw [hstart] at h
    obtain ⟨members, hmembers, rfl⟩ := Option.map_eq_some_iff.1 h
    exact ⟨namedUnder_nil, fun m hm => (readUnder_classConstants hmembers m hm).mono
      (List.suffix_cons t ts)⟩
  | properties =>
    rw [hstart] at h
    obtain ⟨members, hmembers, rfl⟩ := Option.map_eq_some_iff.1 h
    exact ⟨namedUnder_nil, readUnder_properties hmembers⟩

theorem classItems_rest_suffix (stop : Span) (ns : String) (brace : Token)
    (pending : Option Visibility) (ts : List Token) :
    (classItems stop ns brace pending ts).rest <:+ ts := by
  fun_induction classItems stop ns brace pending ts with
  | case1 => exact List.suffix_rfl
  | case2 => exact List.suffix_cons ..
  | case3 => exact bodyItem_rest_suffix ..
  | case4 _ _ _ _ _ _ _ _ ih => exact ih.trans (bodyItem_rest_suffix ..)

theorem under_classItems (stop : Span) (ns : String) (brace : Token) (pending : Option Visibility)
    (ts : List Token) :
    ∀ body ∈ (classItems stop ns brace pending ts).value?, body.Under ns ts := by
  fun_induction classItems stop ns brace pending ts with
  | case1 | case3 =>
    intro body hbody
    cases hbody
  | case2 =>
    intro body hbody
    cases hbody
    exact ClassBody.under_empty
  | case4 pending t ts _ item found hfound later ih =>
    intro body hbody
    obtain ⟨more, hmore, rfl⟩ := Option.map_eq_some_iff.1 hbody
    exact (under_bodyItem hfound).append ((ih more hmore).mono (bodyItem_rest_suffix ..))

theorem classBody_rest_suffix (stop : Span) (ns : String) (ts : List Token) :
    (classBody stop ns ts).rest <:+ ts := by
  fun_induction classBody stop ns ts with
  | case1 => exact List.suffix_rfl
  | case2 => exact (classItems_rest_suffix ..).trans (List.suffix_cons ..)
  | case3 => exact List.suffix_rfl
  | case4 _ _ _ _ ih => exact ih.trans (List.suffix_cons ..)

theorem under_classBody {stop : Span} {ns : String} {ts : List Token} {body : ClassBody}
    (h : (classBody stop ns ts).value? = some body) : body.Under ns ts := by
  fun_induction classBody stop ns ts with
  | case1 => cases h
  | case2 => exact (under_classItems _ _ _ _ _ _ h).mono (List.suffix_cons ..)
  | case3 => cases h
  | case4 _ _ _ _ ih => exact (ih h).mono (List.suffix_cons ..)

/-! Declarations. -/

theorem resume_suffix (depth : Nat) (ts : List Token) : resume depth ts <:+ ts := by
  fun_induction resume depth ts <;> simp_all [List.suffix_cons_iff]

theorem directiveEnd_rest_suffix (stop : Span) (mention : ModuleMention) (ts : List Token) :
    (directiveEnd stop mention ts).rest <:+ ts := by
  unfold directiveEnd
  split
  · exact List.suffix_rfl
  · split
    · exact List.suffix_cons ..
    · exact List.suffix_rfl

theorem moduleDirective_rest_suffix (stop : Span) (ts : List Token) :
    (moduleDirective stop ts).rest <:+ ts :=
  andThen_rest_suffix (moduleName_rest_suffix stop ts) fun _ => directiveEnd_rest_suffix ..

theorem definitionBlock_rest_suffix (stop : Span) (mention : ModuleMention) (ts : List Token) :
    (definitionBlock stop mention ts).rest <:+ ts := by
  unfold definitionBlock
  split
  · exact List.suffix_rfl
  · split
    · exact (block_rest_suffix ..).trans (List.suffix_cons ..)
    · exact List.suffix_rfl

theorem moduleDefinition_rest_suffix (stop : Span) (ts : List Token) :
    (moduleDefinition stop ts).rest <:+ ts :=
  andThen_rest_suffix (moduleName_rest_suffix stop ts) fun _ => definitionBlock_rest_suffix ..

theorem namespaceName_suffix (ts : List Token) : (namespaceName ts).2 <:+ ts := by
  unfold namespaceName
  split
  · exact List.suffix_rfl
  · split
    · exact List.suffix_cons ..
    · exact List.suffix_rfl

theorem namespaceHead_rest_suffix (stop : Span) (ts : List Token) :
    (namespaceHead stop ts).rest <:+ ts := by
  have hname := namespaceName_suffix ts
  unfold namespaceHead
  dsimp only
  split
  · exact List.nil_suffix
  · next t after hrest =>
    rw [hrest] at hname
    have hafter : after <:+ ts := (List.suffix_cons t after).trans hname
    split
    · exact hafter
    · split
      · exact hafter
      · exact hafter

/-- The bodies of the declaration are those of tokens that are opened in the text. -/
def DeclaredIn (tokens : List Token) (d : Declaration) : Prop :=
  ∀ body ∈ d.content.bodies, ReadIn tokens body

/-- So it is with the declaration in this namespace, and its use clauses name classes in it. -/
structure DeclaredUnder (ns : String) (tokens : List Token) (d : Declaration) : Prop where
  uses : NamedUnder ns tokens d.content.uses
  bodies : ∀ body ∈ d.content.bodies, ReadUnder ns tokens body

theorem DeclaredUnder.mono {ns : String} {ts tokens : List Token} {d : Declaration}
    (h : DeclaredUnder ns ts d)
    (hsuffix : ts <:+ tokens) : DeclaredUnder ns tokens d where
  uses := h.uses.mono hsuffix
  bodies body hbody := (h.bodies body hbody).mono hsuffix

theorem DeclaredUnder.declaredIn {ns : String} {tokens : List Token} {d : Declaration}
    (h : DeclaredUnder ns tokens d) : DeclaredIn tokens d := fun body hbody =>
      ⟨ns, h.bodies body hbody⟩

theorem function_rest_suffix (stop : Span) (c : UnitContext) (ts : List Token) :
    (function stop c ts).rest <:+ ts :=
  andThen_rest_suffix (expectName_rest_suffix ..) fun _ => signature_rest_suffix ..

theorem declaredUnder_function {stop : Span} {c : UnitContext} {ts : List Token} {d : Declaration}
    (h : (function stop c ts).value? = some d) : DeclaredUnder c.ns ts d := by
  obtain ⟨_, _, hd⟩ := exists_of_andThen h
  obtain ⟨body, hbody, rfl⟩ := Option.map_eq_some_iff.1 hd
  refine ⟨namedUnder_nil, fun refs hrefs => ?_⟩
  rw [List.mem_singleton.1 hrefs]
  exact ⟨body, rfl, (opened_signature hbody).mono (expectName_rest_suffix ..)⟩

theorem classLike_rest_suffix (stop : Span) (c : UnitContext) (role : NameRole)
    (content : ClassBody → DeclarationContent) (ts : List Token) :
    (classLike stop c role content ts).rest <:+ ts :=
  andThen_rest_suffix (expectName_rest_suffix ..) fun _ => classBody_rest_suffix ..

theorem declaredUnder_classLike {stop : Span} {c : UnitContext} {role : NameRole}
    {content : ClassBody → DeclarationContent} {ts : List Token} {d : Declaration}
    (hcontent : ∀ b, (content b).uses = b.uses ∧ (content b).bodies = b.members.map Member.body)
    (h : (classLike stop c role content ts).value? = some d) : DeclaredUnder c.ns ts d := by
  obtain ⟨_, _, hd⟩ := exists_of_andThen h
  obtain ⟨body, hbody, rfl⟩ := Option.map_eq_some_iff.1 hd
  have hunder := (under_classBody hbody).mono (expectName_rest_suffix ..)
  obtain ⟨huses, hbodies⟩ := hcontent body
  refine ⟨huses ▸ hunder.uses, fun refs hrefs => ?_⟩
  obtain ⟨m, hm, rfl⟩ := List.mem_map.1 (hbodies ▸ hrefs)
  exact hunder.members m hm

theorem declaredUnder_constants {stop : Span} {c : UnitContext} {ts : List Token}
    {ds : List Declaration} (h : (constants stop c ts).value? = some ds) :
    ∀ d ∈ ds, DeclaredUnder c.ns ts d := by
  obtain ⟨statement, _, rfl⟩ := Option.map_eq_some_iff.1 h
  intro d hd
  obtain ⟨_, _, rfl⟩ := List.mem_map.1 hd
  exact ⟨namedUnder_nil, fun body hbody => nomatch hbody⟩

end Reading

namespace UnitStep

/-- What a step leaves is the end of the text, and what it declares is read in the text, in this
namespace. -/
structure ReadsIn (ns : String) (tokens : List Token) (step : UnitStep) : Prop where
  rest : step.rest <:+ tokens
  declared : ∀ d ∈ step.declarations, Reading.DeclaredUnder ns tokens d

variable {ns : String}

theorem ReadsIn.mono {ts tokens : List Token} {step : UnitStep} (h : step.ReadsIn ns ts)
    (hsuffix : ts <:+ tokens) : step.ReadsIn ns tokens where
  rest := h.rest.trans hsuffix
  declared d hd := (h.declared d hd).mono hsuffix

theorem readsIn_of_rest {tokens : List Token} {step : UnitStep} (hrest : step.rest <:+ tokens)
    (hnone : step.declarations = []) : step.ReadsIn ns tokens where
  rest := hrest
  declared d hd := by
    rw [hnone] at hd
    cases hd

theorem readsIn_ofReading {α : Type} {c : UnitContext} {r : Reading α} {use : α → UnitStep}
    {tokens : List Token} (hrest : r.rest <:+ tokens)
    (huse : ∀ a, r.value? = some a → ∀ d ∈ (use a).declarations,
      Reading.DeclaredUnder ns tokens d) :
    (ofReading c r use).ReadsIn ns tokens := by
  unfold ofReading
  split
  · exact readsIn_of_rest ((Reading.resume_suffix 0 r.rest).trans hrest) rfl
  · next a ha => exact ⟨hrest, huse a ha⟩

theorem readsIn_unexpected (c : UnitContext) (fault : SyntaxFault) (span : Span) (ts : List Token) :
    (unexpected c fault span ts).ReadsIn ns ts :=
  readsIn_of_rest (Reading.resume_suffix 0 ts) rfl

theorem readsIn_ite {p : Prop} [Decidable p] {tokens : List Token} {a b : UnitStep}
    (ha : a.ReadsIn ns tokens) (hb : b.ReadsIn ns tokens) :
    (if p then a else b).ReadsIn ns tokens := by
  split
  · exact ha
  · exact hb

theorem readsIn_ofWord (stop : Span) (c : UnitContext) (t : Token) (word : String)
    (ts : List Token) : (ofWord stop c t word ts).ReadsIn c.ns ts := by
  have hpass : ∀ c' : UnitContext, (pass c' ts).ReadsIn c.ns ts := fun _ =>
    readsIn_of_rest List.suffix_rfl rfl
  have hnone : ∀ {α : Type} {r : Reading α} {use : α → UnitStep}, r.rest <:+ ts →
      (∀ a, (use a).declarations = []) → (ofReading c r use).ReadsIn c.ns ts := by
    intro α r use hrest huse
    refine readsIn_ofReading hrest fun a _ d hd => ?_
    rw [huse] at hd
    cases hd
  have hone : ∀ {r : Reading Declaration}, r.rest <:+ ts →
      (∀ d, r.value? = some d → Reading.DeclaredUnder c.ns ts d) →
        (ofReading c r fun d => declare c.settled [d]).ReadsIn c.ns ts := by
    intro r hrest hvalue
    refine readsIn_ofReading hrest fun d hd other hother => ?_
    rw [List.mem_singleton.1 hother]
    exact hvalue d hd
  have hjoin : ∀ mention, (join c t.span mention).declarations = [] := by
    intro mention
    unfold join
    split <;> rfl
  refine readsIn_ite (hpass _) (readsIn_ite (hpass _) (readsIn_ite (hpass _) ?_))
  refine readsIn_ite (hnone (Reading.moduleDirective_rest_suffix ..) hjoin) ?_
  refine readsIn_ite (hnone ((Reading.moduleDefinition_rest_suffix ..).trans (List.tail_suffix ts))
    fun _ => rfl) ?_
  refine readsIn_ite (hnone (Reading.namespaceHead_rest_suffix ..) fun _ => rfl) ?_
  refine readsIn_ite (hnone (Reading.skipStatement_rest_suffix ts) fun _ => rfl) ?_
  refine readsIn_ite (hone (Reading.function_rest_suffix ..) fun _ =>
    Reading.declaredUnder_function) ?_
  refine readsIn_ite (hone (Reading.classLike_rest_suffix ..)
    fun _ => Reading.declaredUnder_classLike fun _ => ⟨rfl, rfl⟩) ?_
  refine readsIn_ite (hone (Reading.classLike_rest_suffix ..)
    fun _ => Reading.declaredUnder_classLike fun _ => ⟨rfl, rfl⟩) ?_
  exact readsIn_ite (readsIn_ofReading (Reading.upToSemicolon_rest_suffix ..)
    fun _ => Reading.declaredUnder_constants) (readsIn_unexpected ..)

theorem readsIn_ofTokens (stop : Span) (c : UnitContext) (t : Token) (ts : List Token) :
    (ofTokens stop c t ts).ReadsIn c.ns ts := by
  unfold ofTokens
  split
  · exact readsIn_ofWord ..
  · refine readsIn_ofReading (Reading.attributes_rest_suffix ..) fun _ _ d hd => ?_
    cases hd
  · exact readsIn_of_rest List.suffix_rfl rfl
  · split
    · exact readsIn_of_rest List.suffix_rfl rfl
    · exact readsIn_unexpected ..
  · exact readsIn_unexpected ..

end UnitStep

theorem declaredIn_readUnit {stop : Span} {c : UnitContext} {ts : List Token} {d : Declaration}
    (h : d ∈ (readUnit stop c ts).unit.declarations) : Reading.DeclaredIn ts d := by
  suffices hunder : ∃ ns, Reading.DeclaredUnder ns ts d from hunder.elim fun _ hunder =>
    hunder.declaredIn
  fun_induction readUnit stop c ts with
  | case1 => cases h
  | case2 c t ts step later ih =>
    have hstep : step.ReadsIn c.ns (t :: ts) :=
      (UnitStep.readsIn_ofTokens stop c t ts).mono (List.suffix_cons t ts)
    rcases List.mem_append.1 h with hhere | hlater
    · exact ⟨c.ns, hstep.declared d hhere⟩
    · obtain ⟨ns, hunder⟩ := ih hlater
      exact ⟨ns, hunder.mono hstep.rest⟩

/-! The places of tokens. -/

namespace TokenStream

theorem le_lo_of_mem {start : Nat} {ls : List Lexeme} {t : Token}
    (h : t ∈ (ofLexemes start ls).tokens) : start ≤ t.span.lo := by
  induction ls generalizing start with
  | nil => cases h
  | cons l ls ih =>
    rcases List.mem_append.1 h with hhere | hlater
    · obtain ⟨kind, _, rfl⟩ := Option.map_eq_some_iff.1 (Option.mem_toList.1 hhere)
      exact Nat.le_refl start
    · exact Nat.le_trans (Nat.le_add_right ..) (ih hlater)

theorem pairwise_tokens {ls : List Lexeme}
    (hls : ∀ l ∈ ls, 0 < Text.byteSize l.text) (start : Nat) :
    (ofLexemes start ls).tokens.Pairwise fun a b => a.span.lo < b.span.lo := by
  induction ls generalizing start with
  | nil => exact List.Pairwise.nil
  | cons l ls ih =>
    have hlater := ih (fun l hl => hls l (List.mem_cons_of_mem _ hl)) (l.spanAt start).hi
    refine List.pairwise_append.2 ⟨?_, hlater, fun a ha b hb => ?_⟩
    · cases l.tokenKind? <;> simp
    · obtain ⟨kind, _, rfl⟩ := Option.map_eq_some_iff.1 (Option.mem_toList.1 ha)
      have hle := le_lo_of_mem hb
      have hsize := hls l List.mem_cons_self
      simp only [Lexeme.spanAt] at hle ⊢
      omega

end TokenStream

theorem Lexeme.byteSize_pos_of_mem_split {cs : List Char} {l : Lexeme} (h : l ∈ split cs) :
    0 < Text.byteSize l.text := by
  fun_induction split cs with
  | case1 => cases h
  | case2 c cs kind n hnext ih =>
    rcases List.mem_cons.1 h with rfl | hlater
    · exact Nat.add_pos_left c.utf8Size_pos _
    · exact ih hlater

/-- The references of a parsed unit that start at one place all go through the running class, or
none does. -/
theorem isCurrent_eq_of_parseUnit {file : SourceFile} {d d' : Declaration}
    (hd : d ∈ (parseUnit file).unit.declarations) (hd' : d' ∈ (parseUnit file).unit.declarations)
    {body body' : List Reference} (hbody : body ∈ d.content.bodies)
    (hbody' : body' ∈ d'.content.bodies)
    {r r' : Reference} (hr : r ∈ body) (hr' : r' ∈ body') (hplace : r.span.lo = r'.span.lo) :
    r.kind.isCurrent = r'.kind.isCurrent := by
  have hpairs : (TokenStream.ofText file.chars).tokens.Pairwise fun a b => a.span.lo < b.span.lo :=
    TokenStream.pairwise_tokens (fun _ => Lexeme.byteSize_pos_of_mem_split) 0
  have hstands : ∀ {d : Declaration} {body : List Reference} {r : Reference},
      d ∈ (parseUnit file).unit.declarations → body ∈ d.content.bodies → r ∈ body →
        r.Stands (TokenStream.ofText file.chars).tokens := by
    intro d body r hd hbody hr
    obtain ⟨ns, ts, rfl, hopened⟩ := declaredIn_readUnit hd body hbody
    rcases hopened with rfl | ⟨opening, after, hopening, front, hfront⟩
    · cases hr
    · have htokens : (TokenStream.ofText file.chars).tokens =
        (front ++ [opening]) ++ (ts ++ after) := by
        rw [← hfront]
        simp
      refine Reference.stands_of_mem_scanReferences hpairs htokens ?_ hr
      simpa using hopening
  exact (hstands hd hbody hr).isCurrent_eq hpairs (hstands hd' hbody' hr') hplace

end ModuleVisibility
