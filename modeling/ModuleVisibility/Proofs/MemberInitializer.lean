import ModuleVisibility.Proofs.ConstantStatement
import ModuleVisibility.Proofs.TokenReading

/-!
What is read of the initializers of constants and properties. Each declared name has a member whose
body holds the references of its initializer, but of the initializer only what stands before its
first comma outside parentheses and square brackets: a comma between braces ends it, though it ends
no other reading of the statement. And a property behind a type with an equals sign is not read at
all where it is the first one.
-/
namespace ModuleVisibility

open ModuleVisibility.Bracket

/-- Places at one span are one place, where each token has its own. -/
theorem Place.eq_of_span {ts : List Token} (hspans : (ts.map (·.span)).Nodup) {p q : Place}
      (hp : p ∈ places ts)
    (hq : q ∈ places ts) (h : p.token.span = q.token.span) : p = q := by
  have hnot : ∀ {p q : Place} {between}, p ∈ places ts → p.Follows q between →
      p.token.span ≠ q.token.span := by
    intro p q between hp hfollows heq
    rw [mem_places.1 hp, hfollows.after] at hspans
    simp [heq, List.nodup_append] at hspans
  rcases eq_or_follows hp hq with heq | ⟨_, hfollows⟩ | ⟨_, hfollows⟩
  · exact heq
  · exact absurd h (hnot hp hfollows)
  · exact absurd h.symm (hnot hq hfollows)

theorem Place.span_of_declarator? {p : Place} {d : Declarator} (h : p.declarator? = some d) :
    d.span = p.token.span := by
  obtain ⟨found, hfound, rfl⟩ := Option.map_eq_some_iff.1 h
  unfold assigned? at hfound
  split at hfound
  · obtain ⟨name, -, rfl⟩ := Option.map_eq_some_iff.1 hfound
    rfl
  · cases hfound

theorem Place.span_of_property? {p : Place} {d : Declarator} (h : p.property? = some d) :
    d.span = p.token.span := by
  unfold property? at h
  split at h
  · split at h
    · cases h
      rfl
    · cases h
  · cases h

/-- The member is read, and none else at its span. -/
def Records (members : List Member) (m : Member) : Prop :=
  m ∈ members ∧ ∀ other ∈ members, other.span = m.span → other = m

theorem map_token_placesFrom (before ts : List Token) :
    (Place.placesFrom before ts).map Place.token = ts := by
  induction ts generalizing before with
  | nil => rfl
  | cons t ts ih => rw [Place.placesFrom, List.map_cons, ih]

/-- Nothing is cut off where each comma stands in parentheses or square brackets. -/
theorem beforeCut_eq_self_iff {ts : List Token} : beforeCut ts = ts ↔ Encloses noBrace ',' ts := by
  have hwhole : beforeCut ts = ts ↔ (places ts).takeWhile (!·.isCut) = places ts := by
    constructor
    · intro h
      refine (List.takeWhile_prefix _).eq_of_length ?_
      have hlength := congrArg List.length (h.trans (map_token_placesFrom [] ts).symm)
      rwa [beforeCut, List.length_map, List.length_map] at hlength
    · intro h
      rw [beforeCut, h]
      exact map_token_placesFrom [] ts
  rw [hwhole, List.takeWhile_eq_self_iff]
  simp [Encloses, Place.isCut, Token.isPunct, ← imp_iff_not_or]

section

variable {ts : List Token} {found? : Place → Option Declarator} {p : Place}
  {d : Declarator} {ns : String}
  {kind : MemberKind} {visibility : Visibility}

/-- What is read at a place is what is read at its span. -/
theorem records_of_place (hspans : (ts.map (·.span)).Nodup)
    (hfound : ∀ {p d}, found? p = some d → d.span = p.token.span) (hp : p ∈ places ts)
    (hd : found? p = some d) :
    Records (((places ts).filterMap found?).map (·.toMember ns kind visibility))
      (d.toMember ns kind visibility) := by
  refine ⟨List.mem_map_of_mem (List.mem_filterMap.2 ⟨p, hp, hd⟩), fun other hother hspan => ?_⟩
  obtain ⟨e, he, rfl⟩ := List.mem_map.1 hother
  obtain ⟨q, hq, he⟩ := List.mem_filterMap.1 he
  have hplace : q = p :=
    Place.eq_of_span hspans hq hp ((hfound he).symm.trans (hspan.trans (hfound hd)))
  subst hplace
  rw [Option.some.inj (hd.symm.trans he)]

end

namespace Assignments

variable {s : Assignments} {spell : String → TokenKind} {a : Assignment} {before rest : List Token}

/-- The name with what stands behind it. -/
def declarator (a : Assignment) (rest : List Token) : Declarator :=
  ⟨a.name, a.span, ⟨.punct '=', a.equals⟩ :: (a.initializer ++ rest)⟩

/-- The member that the assignment should declare, less what is behind a cut. -/
def member (ns : String) (kind : MemberKind) (visibility : Visibility) (a : Assignment) : Member :=
  ⟨a.name, kind, visibility, a.span, scanReferences ns (beforeCut a.initializer)⟩

theorem Stands.toMember (h : s.Stands spell a before rest) (ns : String) (kind : MemberKind)
    (visibility : Visibility) : (declarator a rest).toMember ns kind visibility =
      member ns kind visibility a := by
  have hcounted : Counted noBrace 0 [] a.initializer := a.balanced.counted depth_nil
  have hinitializer : (declarator a rest).initializer = beforeCut a.initializer :=
    Declarator.upToComma_eq hcounted (by rw [a.balanced.depth_eq, depth_nil]; rfl) h.rest
  rw [Declarator.toMember, hinitializer]
  rfl

theorem Stands.declarator? (h : s.Stands .ident a before rest) :
    Place.declarator? ⟨before, ⟨.ident a.name, a.span⟩,
      ⟨.punct '=', a.equals⟩ :: (a.initializer ++ rest)⟩ =
      some (declarator a rest) := by
  simp [Place.declarator?, Place.assigned?, h.depth, Reference.headIs, Token.isPunct,
    Token.ident?, declarator]

theorem property?_eq (h : Reference.headIs (·.isPunct ',') before = true ∨
      before.any (·.isPunct '=') = false) :
    Place.property? ⟨before, ⟨.variable a.name, a.span⟩,
      ⟨.punct '=', a.equals⟩ :: (a.initializer ++ rest)⟩ =
      some (declarator a rest) := by
  have hproperty : Place.isProperty ⟨before, ⟨.variable a.name, a.span⟩,
      ⟨.punct '=', a.equals⟩ :: (a.initializer ++ rest)⟩ = true := by
    have hbehind :
        (!before.any (·.isPunct '=') || Reference.headIs (·.isPunct ',') before) = true := by
      rw [Bool.or_eq_true, Bool.not_eq_true']
      exact h.symm
    exact Bool.and_eq_true_iff.2 ⟨rfl, hbehind⟩
  simp [Place.property?, hproperty, declarator]

/-- The type hides the name behind it: it has an equals sign, and no comma at its end. -/
def hidesFirst (s : Assignments) : Bool :=
  s.type.any (·.isPunct '=') && !Reference.headIs (·.isPunct ',') s.type.reverse

theorem map_span_tokens (s : Assignments) (spell spell' : String → TokenKind) :
    (s.tokens spell).map (·.span) = (s.tokens spell').map (·.span) := by
  simp [tokens, laterTokens, Assignment.tokens, List.map_flatMap]

end Assignments

section

variable (s : Assignments) (hspans : ((s.tokens .ident).map (·.span)).Nodup) (ns : String)
  (visibility : Visibility)
  {a : Assignment}

include hspans

theorem records_constants (ha : a ∈ s.all) :
    Records ((Declarator.constants (s.tokens .ident)).map (·.toMember ns .constant visibility))
      (Assignments.member ns .constant visibility a) := by
  have hident : ∀ name c, TokenKind.ident name ≠ .punct c := fun _ _ h => nomatch h
  obtain ⟨before, rest, hstands⟩ : ∃ before rest, s.Stands .ident a before rest := by
    rcases List.mem_cons.1 ha with rfl | ha
    · exact ⟨_, _, s.stands_first⟩
    · obtain ⟨before, rest, hstands, -⟩ := Assignments.exists_stands hident ha
      exact ⟨before, rest, hstands⟩
  rw [Declarator.constants_tokens, ← hstands.toMember ns .constant visibility]
  exact records_of_place hspans Place.span_of_declarator? hstands.mem hstands.declarator?

theorem records_properties (ha : a ∈ s.others.map (·.2) ∨ a = s.first ∧ s.hidesFirst = false) :
    Records ((Declarator.properties false false (s.tokens .variable)).map
      (·.toMember ns .property visibility))
      (Assignments.member ns .property visibility a) := by
  have hproperties : Declarator.properties false false (s.tokens .variable) =
      (places (s.tokens .variable)).filterMap Place.property? := Declarator.properties_eq [] _
  have hkind : ∀ name c, TokenKind.variable name ≠ .punct c := fun _ _ h => nomatch h
  obtain ⟨before, rest, hstands, hread⟩ : ∃ before rest, s.Stands .variable a before rest ∧
      (Reference.headIs (·.isPunct ',') before = true ∨ before.any (·.isPunct '=') = false) := by
    rcases ha with ha | ⟨rfl, hshown⟩
    · obtain ⟨before, rest, hstands, hcomma⟩ := Assignments.exists_stands hkind ha
      exact ⟨before, rest, hstands, .inl hcomma⟩
    · refine ⟨_, _, s.stands_first, ?_⟩
      rw [Assignments.hidesFirst, Bool.and_eq_false_iff, Bool.not_eq_false'] at hshown
      rw [List.any_reverse]
      exact hshown.symm
  rw [hproperties, ← hstands.toMember ns .property visibility]
  refine records_of_place ?_ Place.span_of_property? hstands.mem (Assignments.property?_eq hread)
  rwa [s.map_span_tokens .variable .ident]

/-- A first name that is hidden is not read. -/
theorem not_read_of_hidesFirst (hhides : s.hidesFirst = true) {m : Member}
    (hm : m ∈ (Declarator.properties false false (s.tokens .variable)).map
      (·.toMember ns .property visibility)) :
    m.span ≠ s.first.span := by
  have hproperties : Declarator.properties false false (s.tokens .variable) =
      (places (s.tokens .variable)).filterMap Place.property? := Declarator.properties_eq [] _
  rw [hproperties] at hm
  obtain ⟨d, hd, rfl⟩ := List.mem_map.1 hm
  obtain ⟨p, hp, hfound⟩ := List.mem_filterMap.1 hd
  intro hspan
  have hplace :=
    Place.eq_of_span (by rwa [s.map_span_tokens .variable .ident]) hp s.stands_first.mem
    ((Place.span_of_property? hfound).symm.trans hspan)
  obtain ⟨hequals, hcomma⟩ := Bool.and_eq_true_iff.1 hhides
  rw [Bool.not_eq_true'] at hcomma
  rw [hplace] at hfound
  simp [Place.property?, Place.isProperty, hequals, hcomma] at hfound

end

/-- The statement of properties is an item of its own. -/
theorem Reading.exists_classItems_properties (s : Assignments) (stop semicolon : Span)
    (rest : List Token)
    (ns : String) (brace : Token) (pending : Option Visibility)
    (hstart : ∀ t ∈ (s.tokens .variable).head?, ClassBody.ItemStart.ofToken t = .properties) :
    let members := (Declarator.properties false false (s.tokens .variable)).map
      (·.toMember ns .property (pending.getD .public))
    ∃ errors, (members ≠ [] → errors = []) ∧
      classItems stop ns brace pending (s.tokens .variable ++ ⟨.punct ';', semicolon⟩ :: rest) =
        classItemsBehind stop ns brace members errors rest := by
  intro members
  have hkind : ∀ name c, TokenKind.variable name ≠ .punct c := fun _ _ h => nomatch h
  have hbalanced := s.balanced_tokens hkind
  have hstatement := s.memberStatement_tokens hkind stop semicolon rest
  obtain ⟨t, ts, htokens⟩ : ∃ t ts, s.tokens .variable = t :: ts :=
    List.exists_cons_of_ne_nil (by simp [Assignments.tokens, Assignment.tokens])
  have hstart := hstart t (by rw [htokens]; rfl)
  have hopen : ¬ t.isPunct '\x7d' = true := by
    intro hclose
    have hnonneg : 0 ≤ depth [.brace] [t] := hbalanced.depth_nonneg _ ⟨ts, htokens.symm⟩
    rw [Token.isPunct, beq_iff_eq] at hclose
    simp [change, weight, Token.isPunct, hclose, opening, closing] at hnonneg
  have hmembers : members = (Declarator.properties false false (t :: ts)).map
      (·.toMember ns .property (pending.getD .public)) := by rw [← htokens]
  rw [htokens, List.cons_append] at hstatement ⊢
  rw [classItems_of_item hopen, bodyItem, hstart]
  dsimp only
  rw [properties, hstatement, hmembers]
  cases hfound : Declarator.properties false false (t :: ts) with
  | nil =>
    refine ⟨[SyntaxFault.memberMissing.atSpan t.span], fun h => absurd rfl h, ?_⟩
    simp only [andThen, success, map, hfound]
    rfl
  | cons d ds =>
    refine ⟨[], fun _ => rfl, ?_⟩
    simp only [andThen, success, map, hfound]
    rfl

/-- Each assignment of a class declares a member whose body holds the references of its initializer,
up to a cut, and this is the whole initializer exactly if each comma in it stands in parentheses or
square brackets. Only a property that a type hides is not read. -/
theorem bodies_read (s : Assignments) (hspans : ((s.tokens .ident).map (·.span)).Nodup)
      (keyword semicolon : Span)
    (stop : Span) (ns : String) (brace : Token) (pending : Option Visibility) (rest : List Token) :
    let member (kind : MemberKind) := Assignments.member ns kind (pending.getD .public)
    (Reference.headIs (·.isWord "type") (s.tokens .ident) = false → ∃ members,
      Reading.classItems stop ns brace pending
          (⟨.ident "const", keyword⟩ :: (s.tokens .ident ++ ⟨.punct ';', semicolon⟩ :: rest)) =
        Reading.classItemsBehind stop ns brace members [] rest ∧
      ∀ a ∈ s.all, Records members (member .constant a)) ∧
    ((∀ t ∈ (s.tokens .variable).head?, ClassBody.ItemStart.ofToken t = .properties) →
      ∃ members errors,
      Reading.classItems stop ns brace pending
      (s.tokens .variable ++ ⟨.punct ';', semicolon⟩ :: rest) =
        Reading.classItemsBehind stop ns brace members errors rest ∧ (members ≠ [] → errors = []) ∧
      (∀ a ∈ s.others.map (·.2), Records members (member .property a)) ∧
      if s.hidesFirst then ∀ m ∈ members, m.span ≠ s.first.span
      else Records members (member .property s.first)) ∧
    ∀ a ∈ s.all, beforeCut a.initializer = a.initializer ↔ Encloses noBrace ',' a.initializer := by
  intro member
  refine ⟨fun hword => ?_, fun hstart => ?_, fun a _ => beforeCut_eq_self_iff⟩
  · exact ⟨_, Reading.classItems_constants s stop semicolon rest ns brace pending keyword hword,
      fun a ha => records_constants s hspans ns _ ha⟩
  · obtain ⟨errors, herrors, hread⟩ :=
      Reading.exists_classItems_properties s stop semicolon rest ns brace pending hstart
    refine ⟨_, errors, hread, herrors, fun a ha => records_properties s hspans ns _ (.inl ha), ?_⟩
    split
    · next hhides => exact fun m => not_read_of_hidesFirst s hspans ns _ hhides
    · next hhides => exact records_properties s hspans ns _ (.inr ⟨rfl, Bool.eq_false_iff.2 hhides⟩)

/-- Arguments of a call stand in parentheses, so all of them are read. -/
theorem bodies_read_call :
    let call : List Token := [⟨.ident "f", ⟨9, 10⟩⟩, ⟨.punct '(', ⟨10, 11⟩⟩, ⟨.ident "K", ⟨11, 12⟩⟩,
      ⟨.punct ',', ⟨12, 13⟩⟩, ⟨.ident "L", ⟨14, 15⟩⟩, ⟨.punct ')', ⟨15, 16⟩⟩]
    let s : Assignments :=
      ⟨[⟨.ident "int", ⟨0, 3⟩⟩], ⟨"a", ⟨4, 6⟩, ⟨7, 8⟩, call, by decide, by decide, by decide⟩,
      [(⟨16, 17⟩, ⟨"b", ⟨18, 20⟩, ⟨21, 22⟩,
        [⟨.literal, ⟨23, 24⟩⟩], by decide, by decide, by decide⟩)],
      by decide, by decide⟩
    let close : List Token := [⟨.punct '\x7d', ⟨25, 26⟩⟩]
    ((s.tokens .ident).map (·.span)).Nodup ∧
      (∀ t ∈ (s.tokens .variable).head?, ClassBody.ItemStart.ofToken t = .properties) ∧
      ∃ members, Reading.classItems ⟨26, 26⟩ "" ⟨.punct '\x7b', ⟨0, 0⟩⟩ none
          (s.tokens .variable ++ ⟨.punct ';', ⟨24, 25⟩⟩ :: close) =
        Reading.classItemsBehind ⟨26, 26⟩ "" ⟨.punct '\x7b', ⟨0, 0⟩⟩ members [] close ∧
        Records members ⟨"a", .property, .public, ⟨4, 6⟩, [⟨.call "f" none, ⟨9, 10⟩⟩,
          ⟨.constant "K" none, ⟨11, 12⟩⟩, ⟨.constant "L" none, ⟨14, 15⟩⟩]⟩ := by
  intro call s close
  have hspans : ((s.tokens .ident).map (·.span)).Nodup := by decide
  have hstart : ∀ t ∈ (s.tokens .variable).head?, ClassBody.ItemStart.ofToken t =
      .properties := by decide
  obtain ⟨members, errors, hread, herrors, -, hfirst⟩ :=
    (bodies_read s hspans ⟨0, 0⟩ ⟨24, 25⟩ ⟨26, 26⟩ ""
    ⟨.punct '\x7b', ⟨0, 0⟩⟩ none close).2.1 hstart
  have hshown : s.hidesFirst = false := by decide
  rw [hshown] at hfirst
  refine ⟨hspans, hstart, members, ?_, hfirst⟩
  rwa [herrors (List.ne_nil_of_mem hfirst.1)] at hread

/-- Behind a comma between braces nothing of an initializer is read. -/
theorem not_read_behind_comma :
    let file : SourceFile :=
      ⟨"a.php", "<?hh\nclass C \x7b\n  private $p = () ==> \x7b echo f(), g(); \x7d;\n\x7d\n"⟩
    ∃ (s : Assignments) (front : List Token) (semicolon brace : Token),
      (tokenize file.text).tokens = front ++ s.tokens .variable ++ [semicolon, brace] ∧
      s.all.map (·.name) = ["p"] ∧
      s.all.map (fun a => scanReferences "" a.initializer) =
        [[⟨.call "f" none, ⟨44, 45⟩⟩, ⟨.call "g" none, ⟨49, 50⟩⟩]] ∧
      (parseUnit file).unit.declarations.flatMap (·.content.members) =
        [⟨"p", .property, .public, ⟨25, 27⟩, [⟨.call "f" none, ⟨44, 45⟩⟩]⟩] := by
  let lambda : List Token :=
    [⟨.punct '(', ⟨30, 31⟩⟩, ⟨.punct ')', ⟨31, 32⟩⟩, ⟨.punct '=', ⟨33, 34⟩⟩,
    ⟨.punct '=', ⟨34, 35⟩⟩, ⟨.punct '>', ⟨35, 36⟩⟩, ⟨.punct '\x7b', ⟨37, 38⟩⟩,
    ⟨.ident "echo", ⟨39, 43⟩⟩,
    ⟨.ident "f", ⟨44, 45⟩⟩, ⟨.punct '(', ⟨45, 46⟩⟩, ⟨.punct ')', ⟨46, 47⟩⟩, ⟨.punct ',', ⟨47, 48⟩⟩,
    ⟨.ident "g", ⟨49, 50⟩⟩, ⟨.punct '(', ⟨50, 51⟩⟩, ⟨.punct ')', ⟨51, 52⟩⟩, ⟨.punct ';', ⟨52, 53⟩⟩,
    ⟨.punct '\x7d', ⟨54, 55⟩⟩]
  refine ⟨⟨[], ⟨"p", ⟨25, 27⟩, ⟨28, 29⟩, lambda, by decide, by decide, by decide⟩,
    [], by decide, by decide⟩,
    [⟨.ident "class", ⟨5, 10⟩⟩, ⟨.ident "C", ⟨11, 12⟩⟩, ⟨.punct '\x7b', ⟨13, 14⟩⟩,
      ⟨.ident "private", ⟨17, 24⟩⟩],
    ⟨.punct ';', ⟨55, 56⟩⟩, ⟨.punct '\x7d', ⟨57, 58⟩⟩, ?_, rfl, ?_, ?_⟩
  · decide +kernel
  · decide +kernel
  · decide +kernel

end ModuleVisibility
