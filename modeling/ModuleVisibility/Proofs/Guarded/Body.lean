import ModuleVisibility.Proofs.Guarded.Walk

/-!
The body of a class or trait on token indexes. The initializer of a name is found again by the
name's byte range, and the tokens before a property are cut off the front of its statement, so the
tokens of a unit must not share their byte ranges.
-/
namespace ModuleVisibility
namespace Guarded

/-! Declared names and their initializers. -/

/-- The end of an initializer in the tokens `rest`, where `depth` brackets are open at `i`. -/
def initializerEnd (rest : List Token) (depth i : Nat) : Nat :=
  match peek rest i with
  | none => rest.length
  | some ⟨t, _h⟩ =>
    if t.isPunct '(' || t.isPunct '[' then initializerEnd rest (depth + 1) (i + 1)
    else if t.isPunct ')' || t.isPunct ']' then initializerEnd rest (depth - 1) (i + 1)
    else if t.isPunct ',' && depth == 0 then i
    else initializerEnd rest depth (i + 1)
termination_by left rest i
decreasing_by all_goals exact left_succ_lt _h

/-- The references in the initializer of the name at a byte range. -/
def scanInitializer (statement : List Token) (name : Span) (ns : String) :
    Guarded (List Reference) :=
  match statement.findIdx? (·.span == name) with
  | none => return []
  | some start => do
    let rest ← range statement (start + 1) statement.length
    if Reference.headIs (·.isPunct '=') rest then
      let inside ← range rest 1 (initializerEnd rest 0 1)
      scanReferences ns inside
    else return []

/-- The members that the names of a statement declare. -/
def members (statement : List Token) (ns : String) (kind : MemberKind) (visibility : Visibility)
    (names : List (String × Span)) : Guarded (List Member) :=
  names.mapM fun (name, span) => do
    let body ← scanInitializer statement span ns
    return ⟨name, kind, visibility, span, body⟩

/-- The constants that a statement declares; no place is looked at that must be there. -/
def constantNames (statement : List Token) : List (String × Span) :=
  (Declarator.constants statement).map fun d => (d.name, d.span)

/-- Whether the token before the place is a comma. -/
def previousIsComma (statement : List Token) (i : Nat) : Guarded Bool :=
  if 0 < i then do
    let place ← sub i 1
    let t ← index statement place
    return t.isPunct ','
  else return false

/-- The properties that a statement declares from the place `i` on. -/
def propertyNames (statement : List Token) (i : Nat) : Guarded (List (String × Span)) :=
  match peek statement i with
  | none => return []
  | some ⟨t, _h⟩ => do
    let before ← range statement 0 i
    let isBehindComma ← previousIsComma statement i
    let later ← propertyNames statement (i + 1)
    match t.kind with
    | .variable name =>
      if statement[i + 1]?.all (fun n => n.isPunct '=' || n.isPunct ',')
          && (!before.any (·.isPunct '=') || isBehindComma) then
        return (name, t.span) :: later
      else return later
    | _ => return later
termination_by left statement i
decreasing_by exact left_succ_lt _h

section

variable (tokens : List Token)

/-! Items. -/

/-- The place behind the type arguments in which `depth` angles are open; their count stops at
zero. -/
def afterTypeArguments (depth pos : Nat) : Nat :=
  match peek tokens pos with
  | none => pos
  | some ⟨t, _h⟩ =>
    let depth' :=
      if t.isPunct '<' then depth + 1
      else if t.isPunct '>' then depth - 1
      else if t.kind == .attrClose then depth - 2
      else depth
    if depth' = 0 then pos + 1 else afterTypeArguments depth' (pos + 1)
termination_by left tokens pos
decreasing_by exact left_succ_lt _h

/-- The place behind the type arguments that may start at a place. -/
def skipTypeArguments (pos : Nat) : Nat :=
  if punctAt tokens '<' pos then afterTypeArguments tokens 0 pos else pos

/-- The clauses of a `use`. -/
def useClauses (ns : String) (pos : Nat) : Walk (List UseClause) :=
  (expectName tokens .trait pos).andThen fun (name, span) behind =>
    let clause : UseClause := ⟨Name.resolveClass ns name, span⟩
    let next := skipTypeArguments tokens behind
    match tokens[next]? with
    | none => .failure .useCutShort (endSpan tokens) next
    | some t =>
      if t.isPunct ',' then
        if _h : left tokens (next + 1) < left tokens pos then
          (useClauses ns (next + 1)).map (clause :: ·)
        else .stuck
      else if t.isPunct ';' then .success [clause] (next + 1)
      else if t.isPunct '\x7b' then (block tokens next).map fun _ => [clause]
      else .failure .useUnfinished t.span next
termination_by left tokens pos

/-- A method behind its keyword. -/
def method (ns : String) (visibility : Visibility) (pos : Nat) : Walk Member :=
  (expectName tokens .method pos).andThen fun (name, span) next =>
    (signature tokens 0 next).use fun body => do
      let references ← referencesIn tokens ns body
      return ⟨name, .method, visibility, span, references⟩

/-- The constants of a statement behind its keyword. -/
def classConstants (ns : String) (visibility : Visibility) (pos : Nat) : Walk (List Member) :=
  (memberStatement tokens pos).use fun statement =>
    if Reference.headIs (·.isWord "type") statement then return []
    else members statement ns .constant visibility (constantNames statement)

/-- The properties of a statement; a statement without any is a fault at its first token. -/
def properties (ns : String) (visibility : Visibility) (pos : Nat) : Walk (List Member) :=
  (memberStatement tokens pos).andThen fun statement next =>
    .given (propertyNames statement 0) fun names =>
      if names = [] then
        let place := (statement.head?.map (·.span)).getD (currentSpan tokens next)
        .ok ⟨some [], [SyntaxFault.memberMissing.atSpan place], next⟩
      else .given (members statement ns .property visibility names) fun found => .success found next

/-- The item that starts with the token `t` at the place `pos`. -/
def bodyItem (ns : String) (pending : Option Visibility) (t : Token) (pos : Nat) :
    Walk ClassBody.Item :=
  let visibility := pending.getD .public
  match ClassBody.ItemStart.ofToken t with
  | .nothing => .success ⟨.empty, pending⟩ (pos + 1)
  | .visibility v => .success ⟨.empty, some v⟩ (pos + 1)
  | .attributes => (attributes tokens 0 false (pos + 1)).map fun _ => ⟨.empty, pending⟩
  | .uses => (useClauses tokens ns (pos + 1)).map fun uses => ⟨⟨uses, []⟩, none⟩
  | .method => (method tokens ns visibility (pos + 1)).map fun member => ⟨⟨[], [member]⟩, none⟩
  | .constants => (classConstants tokens ns visibility (pos + 1)).map fun found =>
    ⟨⟨[], found⟩, none⟩
  | .memberless => (memberEnd tokens 0 pos).map fun _ => ⟨.empty, none⟩
  | .properties => (properties tokens ns visibility pos).map fun found => ⟨⟨[], found⟩, none⟩

/-- The rest of the body that the token `brace` opens. -/
def classItems (ns : String) (brace : Token) (pending : Option Visibility) (pos : Nat) :
    Walk ClassBody :=
  match tokens[pos]? with
  | none => .failure .unclosedBrace brace.span pos
  | some t =>
    if t.isPunct '\x7d' then .success .empty (pos + 1)
    else
      (bodyItem tokens ns pending t pos).andThen fun item next =>
        if _h : left tokens next < left tokens pos then
          (classItems ns brace item.pending next).map item.content.append
        else .stuck
termination_by left tokens pos

/-- The body of a class or trait behind its name. -/
def classBody (ns : String) (pos : Nat) : Walk ClassBody :=
  match peek tokens pos with
  | none => .failure .braceMissingAtEnd (endSpan tokens) pos
  | some ⟨t, _h⟩ =>
    if t.isPunct '\x7b' then classItems tokens ns t none (pos + 1)
    else if t.isPunct ';' || t.isPunct '\x7d' then .failure .braceMissing t.span pos
    else classBody ns (pos + 1)
termination_by left tokens pos
decreasing_by exact left_succ_lt _h

end

/-! Initializers are found again. -/

/-- The name stands in the tokens, with the tokens behind it that it is said to have. -/
def StandsIn (d : Declarator) (ts : List Token) : Prop := ∃ t, t :: d.after <:+ ts ∧ t.span = d.span

theorem StandsIn.cons {d : Declarator} {ts : List Token} (h : StandsIn d ts) (t : Token) :
    StandsIn d (t :: ts) := by
  obtain ⟨name, hname, hspan⟩ := h
  exact ⟨name, hname.trans (List.suffix_cons t ts), hspan⟩

theorem standsIn_of_mem_assigned {depth : Nat} {ts : List Token} {d : Declarator}
    (h : d ∈ Declarator.assigned depth ts) : StandsIn d ts := by
  fun_induction Declarator.assigned depth ts with
  | case1 => cases h
  | case4 depth t ts _ _ name _ _ ih =>
    rcases List.mem_cons.1 h with rfl | h
    · exact ⟨t, List.suffix_rfl, rfl⟩
    · exact (ih h).cons t
  | _ => exact (‹_ → StandsIn d _› h).cons _

theorem standsIn_of_lastName? {ts : List Token} {d : Declarator}
    (h : Declarator.lastName? ts = some d) :
    StandsIn d ts := by
  induction ts with
  | nil => cases h
  | cons t ts ih =>
    rw [Declarator.lastName?] at h
    cases hlast : Declarator.lastName? ts with
    | some last =>
      rw [hlast] at h
      cases h
      exact (ih hlast).cons t
    | none =>
      rw [hlast] at h
      obtain ⟨name, _, rfl⟩ := Option.map_eq_some_iff.1 h
      exact ⟨t, List.suffix_rfl, rfl⟩

theorem standsIn_of_mem_constants {ts : List Token} {d : Declarator}
    (h : d ∈ Declarator.constants ts) :
    StandsIn d ts := by
  unfold Declarator.constants at h
  split at h
  · exact standsIn_of_lastName? (Option.mem_toList.1 h)
  · exact standsIn_of_mem_assigned h

theorem standsIn_of_mem_properties {isAssigned afterComma : Bool} {ts : List Token} {d : Declarator}
    (h : d ∈ Declarator.properties isAssigned afterComma ts) : StandsIn d ts := by
  induction ts generalizing isAssigned afterComma with
  | nil => cases h
  | cons t ts ih =>
    rw [Declarator.properties] at h
    split at h
    · split at h
      · rcases List.mem_cons.1 h with rfl | h
        · exact ⟨t, List.suffix_rfl, rfl⟩
        · exact (ih h).cons t
      · exact (ih h).cons t
    · exact (ih h).cons t

/-- The tokens start at different bytes, as those of a text do. -/
def Apart (tokens : List Token) : Prop := tokens.Pairwise fun a b => a.span.lo < b.span.lo

section

variable {statement before ts : List Token} {t : Token} {i : Nat}

theorem initializerEnd_eq (depth : Nat) (h : At statement i ts) :
    initializerEnd statement depth i = i + (Declarator.upToComma depth ts).length := by
  induction ts generalizing i depth with
  | nil =>
    rw [initializerEnd, h.peek_nil]
    exact h.length_eq
  | cons t ts ih =>
    have hmore : ∀ depth, initializerEnd statement depth (i + 1) =
        i + (t :: Declarator.upToComma depth ts).length := fun depth => by
      rw [ih depth h.next, List.length_cons]
      omega
    rw [initializerEnd, h.peek_cons, Declarator.upToComma]
    dsimp only
    rw [hmore, hmore, hmore, apply_ite List.length, apply_ite List.length, apply_ite List.length]
    split_ifs <;> rfl

/-- The first token with the byte range of a name is the name. -/
theorem findIdx?_span (h : Apart (before ++ t :: ts)) :
    (before ++ t :: ts).findIdx? (·.span == t.span) = some before.length := by
  have hbefore : before.findIdx? (·.span == t.span) = none := by
    refine List.findIdx?_eq_none_iff.2 fun b hb => beq_false_of_ne fun hspan => ?_
    have hlt := (List.pairwise_append.1 h).2.2 b hb t List.mem_cons_self
    rw [hspan] at hlt
    exact Nat.lt_irrefl _ hlt
  rw [List.findIdx?_append, hbefore, Option.none_or, List.findIdx?_cons,
    beq_self_eq_true, if_pos rfl, Option.map_some, Nat.zero_add]

theorem scanInitializer_eq_ok {d : Declarator} (happart : Apart statement)
    (h : StandsIn d statement)
    (ns : String) :
    scanInitializer statement d.span ns =
      .ok (ModuleVisibility.scanReferences ns d.initializer) := by
  obtain ⟨t, ⟨before, rfl⟩, hspan⟩ := h
  have hname : At (before ++ t :: d.after) before.length (t :: d.after) := ⟨before, rfl, rfl⟩
  rw [scanInitializer, ← hspan, findIdx?_span happart]
  dsimp only
  rw [hname.next.range_end, ok_bind, Declarator.initializer]
  cases d.after with
  | nil => rfl
  | cons equals rest =>
    have hequals : At (equals :: rest) 0 (equals :: rest) := .zero _
    have hinside : range (equals :: rest) 1 (initializerEnd (equals :: rest) 0 1) =
        .ok (Declarator.upToComma 0 rest) := by
      obtain ⟨behind, hbehind⟩ := Declarator.upToComma_starts 0 rest
      have hstands : At (equals :: rest) 1 (Declarator.upToComma 0 rest ++ behind) := by
        rw [hbehind]
        exact hequals.next
      rw [initializerEnd_eq 0 hequals.next]
      exact hstands.range
    rw [hinside, ok_bind, scanReferences_eq_ok, apply_ite (ModuleVisibility.scanReferences ns)]
    exact ite_eq_ok (fun _ => rfl) fun _ => rfl

theorem members_eq_ok (happart : Apart statement) {ds : List Declarator}
    (h : ∀ d ∈ ds, StandsIn d statement)
    (ns : String) (kind : MemberKind) (visibility : Visibility) :
    members statement ns kind visibility (ds.map fun d => (d.name, d.span)) =
      .ok (ds.map (·.toMember ns kind visibility)) := by
  rw [members, List.mapM_map]
  refine mapM_eq_ok fun d hd => ?_
  rw [Function.comp_apply]
  dsimp only
  rw [scanInitializer_eq_ok happart (h d hd)]
  rfl

theorem Around.previousIsComma (h : Around statement before i ts) :
    previousIsComma statement i = .ok (Reference.headIs (·.isPunct ',') before) := by
  cases before with
  | nil =>
    rw [← h.place_eq]
    rfl
  | cons p before =>
    obtain ⟨j, rfl, hback⟩ := h.back
    rw [Guarded.previousIsComma, if_pos (Nat.succ_pos j), sub_succ, ok_bind, hback.stands.index]
    rfl

theorem Around.propertyNames (h : Around statement before i ts) :
    propertyNames statement i =
      .ok ((Declarator.properties (before.any (·.isPunct '='))
        (Reference.headIs (·.isPunct ',') before)
        ts).map fun d => (d.name, d.span)) := by
  induction ts generalizing before i with
  | nil =>
    rw [Guarded.propertyNames, h.stands.peek_nil]
    rfl
  | cons t ts ih =>
    have hbefore : range statement 0 i = .ok before.reverse := by
      have hfront : At statement 0 (before.reverse ++ t :: ts) := ⟨[], h.tokens_eq, rfl⟩
      rw [← h.place_eq, ← List.length_reverse, ← Nat.zero_add before.reverse.length]
      exact hfront.range
    have hlast : (ts.head?.all fun n => n.isPunct '=' || n.isPunct ',') =
        (ts.isEmpty || Reference.headIs (fun n => n.isPunct '=' || n.isPunct ',') ts) := by
      cases ts <;> rfl
    have hassigned : (t :: before).any (·.isPunct '=') =
        (before.any (·.isPunct '=') || t.isPunct '=') := by
      rw [List.any_cons, Bool.or_comm]
    rw [Guarded.propertyNames, h.stands.peek_cons]
    dsimp only
    rw [hbefore, ok_bind, h.previousIsComma, ok_bind, ih h.next, ok_bind,
      h.next.stands.getElem?, hlast, List.any_reverse, hassigned, Declarator.properties]
    cases t.kind with
    | «variable» name =>
      dsimp only
      rw [apply_ite (List.map _)]
      exact ite_eq_ok (fun _ => rfl) fun _ => rfl
    | _ => rfl

end

/-! The walks agree. -/

section

variable {tokens ts : List Token} {t : Token} {pos : Nat}

theorem At.afterTypeArguments (depth : Nat) (h : At tokens pos ts) :
    At tokens (afterTypeArguments tokens depth pos) (Reading.afterTypeArguments depth ts) := by
  induction ts generalizing pos depth with
  | nil =>
    rw [Guarded.afterTypeArguments, h.peek_nil]
    exact h
  | cons t ts ih =>
    rw [Guarded.afterTypeArguments, h.peek_cons, Reading.afterTypeArguments]
    dsimp only
    generalize (if t.isPunct '<' then depth + 1 else _ : Nat) = opened
    by_cases hclosed : opened = 0
    · rw [if_pos hclosed, if_pos hclosed]
      exact h.next
    · rw [if_neg hclosed, if_neg hclosed]
      exact ih opened h.next

theorem At.skipTypeArguments (h : At tokens pos ts) :
    At tokens (skipTypeArguments tokens pos) (Reading.skipTypeArguments ts) := by
  have hangle : punctAt tokens '<' pos = Reference.headIs (·.isPunct '<') ts := by
    rw [punctAt, h.getElem?]
    rfl
  rw [Guarded.skipTypeArguments, Reading.skipTypeArguments, hangle]
  split
  · exact h.afterTypeArguments 0
  · exact h

/-- One clause of a `use`, read up to the place where the token behind it is looked at. -/
theorem useClauses_of_ident? {name : String} (ns : String) (h : At tokens pos (t :: ts))
    (hname : t.ident? = some name) {after : List Token}
    (hafter : At tokens (skipTypeArguments tokens (pos + 1)) after) :
    useClauses tokens ns pos =
      let clause : UseClause := ⟨Name.resolveClass ns name, t.span⟩
      let next := skipTypeArguments tokens (pos + 1)
      match after.head? with
      | none => .failure .useCutShort (endSpan tokens) next
      | some t =>
        if t.isPunct ',' then
          if _h : left tokens (next + 1) < left tokens pos then
            (useClauses tokens ns (next + 1)).map (clause :: ·)
          else .stuck
        else if t.isPunct ';' then .success [clause] (next + 1)
        else if t.isPunct '\x7b' then (block tokens next).map fun _ => [clause]
        else .failure .useUnfinished t.span next := by
  rw [useClauses, expectName, h.getElem?_cons]
  dsimp only
  rw [hname]
  dsimp only
  rw [Walk.success_andThen]
  dsimp only
  rw [hafter.getElem?]

theorem agrees_useClauses (ns : String) (h : At tokens pos ts) :
    Agrees tokens Eq (useClauses tokens ns pos) (Reading.useClauses (endSpan tokens) ns ts) := by
  fun_induction Reading.useClauses (endSpan tokens) ns ts generalizing pos with
  | case1 =>
    rw [useClauses, expectName, h.getElem?_nil]
    exact .failure _ _ h
  | case2 t ts hname =>
    rw [useClauses, expectName, h.getElem?_cons]
    dsimp only
    rw [hname]
    exact .failure _ _ h
  | case3 t ts name hname hend =>
    have hafter : At tokens _ [] := hend ▸ h.next.skipTypeArguments
    rw [useClauses_of_ident? ns h hname hafter]
    exact .failure _ _ hafter
  | case4 t ts name hname clause next after hafter_eq hcomma =>
    rename_i ih
    have hafter : At tokens _ (next :: after) := hafter_eq ▸ h.next.skipTypeArguments
    have hprogress := h.left_lt hafter.next
      (Nat.lt_succ_of_lt (Reading.length_lt_of_skipTypeArguments hafter_eq))
    rw [useClauses_of_ident? ns h hname hafter]
    dsimp only [List.head?_cons]
    rw [if_pos hcomma, dif_pos hprogress]
    exact (ih hafter.next).map fun _ _ huses => congrArg _ huses
  | case5 t ts name hname clause next after hafter_eq hcomma =>
    rename_i hsemicolon
    have hafter : At tokens _ (next :: after) := hafter_eq ▸ h.next.skipTypeArguments
    rw [useClauses_of_ident? ns h hname hafter]
    dsimp only [List.head?_cons]
    rw [if_neg hcomma, if_pos hsemicolon]
    exact .success rfl hafter.next
  | case6 t ts name hname clause next after hafter_eq hcomma hsemicolon =>
    rename_i hbrace
    have hafter : At tokens _ (next :: after) := hafter_eq ▸ h.next.skipTypeArguments
    rw [useClauses_of_ident? ns h hname hafter]
    dsimp only [List.head?_cons]
    rw [if_neg hcomma, if_neg hsemicolon, if_pos hbrace]
    exact (agrees_block hafter hbrace).map fun _ _ _ => rfl
  | case7 t ts name hname next after hafter_eq hcomma hsemicolon hbrace =>
    have hafter : At tokens _ (next :: after) := hafter_eq ▸ h.next.skipTypeArguments
    rw [useClauses_of_ident? ns h hname hafter]
    dsimp only [List.head?_cons]
    rw [if_neg hcomma, if_neg hsemicolon, if_neg hbrace]
    exact .failure _ _ hafter

theorem agrees_method (ns : String) (visibility : Visibility) (h : At tokens pos ts) :
    Agrees tokens Eq (method tokens ns visibility pos)
      (Reading.method (endSpan tokens) ns visibility ts) := by
  refine (agrees_expectName .method h).andThen fun name name' next hname hnext => ?_
  subst hname
  refine (agrees_signature 0 hnext).use fun found body hbody => ⟨_, ?_, rfl⟩
  rw [hbody.referencesIn]
  rfl

theorem agrees_classConstants (happart : Apart tokens) (ns : String) (visibility : Visibility)
    (h : At tokens pos ts) :
    Agrees tokens Eq (classConstants tokens ns visibility pos)
      (Reading.classConstants (endSpan tokens) ns visibility ts) := by
  refine (agrees_memberStatement h).use fun found statement hfound => ⟨_, ?_, rfl⟩
  obtain ⟨rfl, hsub⟩ := hfound
  exact ite_eq_ok (fun _ => rfl) fun _ =>
    members_eq_ok (happart.sublist hsub) (fun _ hd => standsIn_of_mem_constants hd) ns
      .constant visibility

/-- The statement that starts with a token which is no semicolon is not empty. -/
theorem memberStatement_head? {stop : Span} {statement : List Token} (ht : ¬ t.isPunct ';' = true)
    (h : (Reading.memberStatement stop 0 (t :: ts)).value? = some statement) :
    statement.head? = some t := by
  have hmore : ∀ depth, ((Reading.memberStatement stop depth ts).map (t :: ·)).value? =
    some statement →
      statement.head? = some t := fun depth hmap => by
    obtain ⟨behind, _, rfl⟩ := Option.map_eq_some_iff.1 hmap
    rfl
  rw [Reading.memberStatement, Bool.eq_false_of_not_eq_true ht, Bool.false_and,
    if_neg Bool.false_ne_true] at h
  split at h
  · exact hmore _ h
  · split at h
    · exact hmore _ h
    · split at h
      · cases h
      · exact hmore _ h

theorem agrees_properties (happart : Apart tokens) (ns : String) (visibility : Visibility)
    (h : At tokens pos (t :: ts)) (ht : ¬ t.isPunct ';' = true) :
    Agrees tokens Eq (properties tokens ns visibility pos)
      (Reading.properties (endSpan tokens) ns visibility t ts) := by
  refine (agrees_memberStatement h).found.andThen fun found statement next hfound hnext => ?_
  obtain ⟨⟨rfl, hsub⟩, hvalue⟩ := hfound
  have hstart : Around found [] 0 found := ⟨rfl, rfl⟩
  have hnames : propertyNames found 0 =
      .ok ((Declarator.properties false false found).map fun d => (d.name, d.span)) :=
      hstart.propertyNames
  rw [hnames, Walk.given_ok, memberStatement_head? ht hvalue,
    members_eq_ok (happart.sublist hsub) fun _ hd => standsIn_of_mem_properties hd]
  cases Declarator.properties false false found with
  | nil => exact ⟨_, rfl, .some rfl, rfl, hnext⟩
  | cons d ds =>
    rw [List.map_cons, if_neg (List.cons_ne_nil _ _)]
    exact .success rfl hnext

/-- A statement that starts with a word goes on behind it. -/
theorem memberStatement_of_ident? {stop : Span} {name : String} (ht : t.ident? = some name) :
    Reading.memberStatement stop 0 (t :: ts) =
      (Reading.memberStatement stop 0 ts).map (t :: ·) := by
  have hnot := Token.not_isPunct_of_ident? ht
  rw [Reading.memberStatement.eq_def]
  simp only [Reading.opensBracket, Reading.closesBracket, hnot, Bool.or_self,
    Bool.false_and, if_false, Bool.false_eq_true]

theorem exists_ident?_of_memberless (h : ClassBody.ItemStart.ofToken t = .memberless) :
    ∃ word, t.ident? = some word := by
  rw [ClassBody.ItemStart.ofToken] at h
  cases hkind : t.kind with
  | ident word => exact ⟨word, by rw [Token.ident?, hkind]⟩
  | punct c =>
    rw [hkind] at h
    dsimp only at h
    by_cases hc : c = ';'
    · rw [if_pos hc] at h
      cases h
    · rw [if_neg hc] at h
      cases h
  | _ =>
    rw [hkind] at h
    cases h

theorem not_semicolon_of_properties (h : ClassBody.ItemStart.ofToken t = .properties) :
    ¬ t.isPunct ';' = true := by
  intro hsemicolon
  rw [Token.isPunct, beq_iff_eq] at hsemicolon
  rw [ClassBody.ItemStart.ofToken, hsemicolon] at h
  cases h

theorem agrees_bodyItem (happart : Apart tokens) (ns : String) (pending : Option Visibility)
    (h : At tokens pos (t :: ts)) :
    Agrees tokens Eq (bodyItem tokens ns pending t pos)
      (Reading.bodyItem (endSpan tokens) ns pending t ts) := by
  unfold bodyItem Reading.bodyItem
  cases hstart : ClassBody.ItemStart.ofToken t with
  | nothing => exact .success rfl h.next
  | visibility v => exact .success rfl h.next
  | attributes => exact (agrees_attributes 0 false h.next).map fun _ _ _ => rfl
  | uses => exact (agrees_useClauses ns h.next).map fun _ _ huses => by rw [huses]
  | method => exact (agrees_method ns _ h.next).map fun _ _ hmember => by rw [hmember]
  | constants =>
    exact (agrees_classConstants happart ns _ h.next).map fun _ _ hfound => by rw [hfound]
  | memberless =>
    obtain ⟨word, hword⟩ := exists_ident?_of_memberless hstart
    have hend := agrees_memberEnd 0 h
    rw [memberStatement_of_ident? hword] at hend
    have hitem := hend.map (f := fun _ => (⟨.empty, none⟩ : ClassBody.Item))
      (g := fun _ => (⟨.empty, none⟩ : ClassBody.Item)) (S := Eq) fun _ _ _ => rfl
    rwa [reading_map_map] at hitem
  | properties =>
    exact (agrees_properties happart ns _ h (not_semicolon_of_properties hstart)).map
      fun _ _ hfound => by
      rw [hfound]

theorem agrees_classItems (happart : Apart tokens) (ns : String) (brace : Token)
    (pending : Option Visibility)
    (h : At tokens pos ts) :
    Agrees tokens Eq (classItems tokens ns brace pending pos)
      (Reading.classItems (endSpan tokens) ns brace pending ts) := by
  induction hn : ts.length using Nat.strongRecOn generalizing ts pos pending with
  | ind n ih =>
    cases ts with
    | nil =>
      rw [classItems, h.getElem?_nil, Reading.classItems]
      exact .failure _ _ h
    | cons t ts =>
      rw [classItems, h.getElem?_cons]
      dsimp only
      by_cases hclose : t.isPunct '\x7d' = true
      · rw [if_pos hclose, Reading.classItems, if_pos hclose]
        exact .success rfl h.next
      · rw [if_neg hclose, Reading.classItems_of_item hclose]
        refine (agrees_bodyItem happart ns pending h).found.andThen
          fun found item next hfound hnext => ?_
        obtain ⟨rfl, hvalue⟩ := hfound
        have hle := Reading.bodyItem_rest_le (Option.isSome_of_eq_some hvalue)
        rw [dif_pos (h.left_lt hnext (Nat.lt_succ_of_le hle))]
        refine (ih _ ?_ found.pending hnext rfl).map fun _ _ hbody => congrArg _ hbody
        rw [← hn]
        exact Nat.lt_succ_of_le hle

theorem agrees_classBody (happart : Apart tokens) (ns : String) (h : At tokens pos ts) :
    Agrees tokens Eq (classBody tokens ns pos) (Reading.classBody (endSpan tokens) ns ts) := by
  induction ts generalizing pos with
  | nil =>
    rw [classBody, h.peek_nil]
    exact .failure _ _ h
  | cons t ts ih =>
    rw [classBody, h.peek_cons, Reading.classBody]
    exact .ite (fun _ => agrees_classItems happart ns t none h.next) fun _ =>
      .ite (fun _ => .failure _ _ h) fun _ => ih h.next

end

end Guarded
end ModuleVisibility
