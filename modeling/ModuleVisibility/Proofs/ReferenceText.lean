import ModuleVisibility.Access.Check
import ModuleVisibility.Proofs.TokenText

/-!
What the text of a reference ends with. A reference runs from one token to another at or behind it,
and the last segment of the name that it is recorded by, if it is unresolved, is that of the last
token: resolving a name in a namespace changes only what stands before that segment.
-/
namespace ModuleVisibility

namespace Text

theorem splitFirst?_eq {sep : Char} {cs before after : List Char}
    (h : splitFirst? sep cs = some (before, after)) : cs = before ++ sep :: after := by
  induction cs generalizing before with
  | nil => cases h
  | cons c cs ih =>
    unfold splitFirst? at h
    split at h
    · next hc =>
      cases h
      rw [hc]
      rfl
    · obtain ⟨⟨front, rest⟩, hsplit, heq⟩ := Option.map_eq_some_iff.1 h
      cases heq
      rw [ih hsplit]
      rfl

end Text

namespace Name

/-- What stands before the first separator, read backwards: a backslash or two colons. -/
def untilSeparator : List Char → List Char
  | [] => []
  | '\\' :: _ => []
  | ':' :: ':' :: _ => []
  | c :: cs => c :: untilSeparator cs

/-- The last of the segments into which backslashes and double colons divide a name. -/
def lastSegment (cs : List Char) : List Char := (untilSeparator cs.reverse).reverse

example : lastSegment ['A', '\\', 'B', ':', ':', 'm'] = ['m'] := by decide

theorem untilSeparator_cons (c : Char) (cs : List Char) :
    untilSeparator (c :: cs) = [] ∨ untilSeparator (c :: cs) = c :: untilSeparator cs := by
  rw [untilSeparator.eq_def (c :: cs)]
  split
  · exact .inl rfl
  · exact .inl rfl
  · exact .inl rfl
  · next heq =>
    cases heq
    exact .inr rfl

/-- Nothing behind a separator counts, read backwards. -/
theorem untilSeparator_append {rest : List Char} (h : untilSeparator rest = []) (cs : List Char) :
    untilSeparator (cs ++ rest) <+: cs := by
  induction cs with
  | nil => rw [List.nil_append, h]
  | cons c cs ih =>
    rw [List.cons_append]
    rcases untilSeparator_cons c (cs ++ rest) with hstop | hon
    · rw [hstop]
      exact List.nil_prefix
    · rw [hon]
      exact (List.prefix_cons_inj c).2 ih

theorem lastSegment_suffix (cs : List Char) : lastSegment cs <:+ cs := by
  have hprefix : untilSeparator (cs.reverse ++ []) <+: cs.reverse :=
    untilSeparator_append rfl cs.reverse
  rw [List.append_nil] at hprefix
  simpa [lastSegment] using List.reverse_suffix.2 hprefix

/-- The last segment lies behind any separator. -/
theorem lastSegment_append {front : List Char} (h : untilSeparator front.reverse = [])
    (cs : List Char) : lastSegment (front ++ cs) <:+ cs := by
  have hprefix := untilSeparator_append h cs.reverse
  rw [← List.reverse_append] at hprefix
  simpa [lastSegment] using List.reverse_suffix.2 hprefix

theorem lastSegment_qualify (ns name : String) :
    lastSegment (qualify ns name).toList <:+ name.toList := by
  unfold qualify
  split
  · exact lastSegment_suffix _
  · have hstop : untilSeparator (ns.toList ++ ['\\']).reverse = [] := by
      rw [List.reverse_concat, untilSeparator]
    have hsuffix := lastSegment_append hstop name.toList
    simpa [separator] using hsuffix

theorem lastSegment_explicit? {ns written name : String} (h : explicit? ns written = some name) :
    lastSegment name.toList <:+ written.toList := by
  unfold explicit? at h
  split at h
  · cases h
  · next rest hsplit =>
    cases h
    rw [String.toList_ofList, Text.splitFirst?_eq hsplit]
    exact (lastSegment_suffix rest).trans (List.suffix_cons _ rest)
  · next head rest _ hsplit =>
    have hwritten := Text.splitFirst?_eq hsplit
    split at h
    · cases h
      refine (lastSegment_qualify ns _).trans ?_
      rw [String.toList_ofList, hwritten]
      exact (List.suffix_cons _ rest).trans (List.suffix_append head _)
    · cases h
      exact lastSegment_qualify ns written

theorem lastSegment_resolveClass (ns written : String) :
    lastSegment (resolveClass ns written).toList <:+ written.toList := by
  unfold resolveClass
  cases hexplicit : explicit? ns written with
  | none => exact lastSegment_qualify ns written
  | some name => exact lastSegment_explicit? hexplicit

theorem lastSegment_resolveFunction (ns written : String) :
    lastSegment (resolveFunction ns written).name.toList <:+ written.toList := by
  unfold resolveFunction
  cases hexplicit : explicit? ns written with
  | none => exact lastSegment_qualify ns written
  | some name => exact lastSegment_explicit? hexplicit

end Name

/-- The name by which the reference is recorded if it is unresolved ends as the text does; a member
is recorded behind two colons. -/
def ReferenceKind.EndsIn (text : List Char) : ReferenceKind → Prop
  | .call name _ => Name.lastSegment name.toList <:+ text
  | .constant name _ => Name.lastSegment name.toList <:+ text
  | .new (.named name) => Name.lastSegment name.toList <:+ text
  | .new .current => True
  | .member _ name _ _ => name.toList <:+ text

theorem ReferenceKind.EndsIn.mono {text text' : List Char} {kind : ReferenceKind}
    (h : kind.EndsIn text) (hsuffix : text <:+ text') : kind.EndsIn text' := by
  cases kind with
  | call name fallback => exact List.IsSuffix.trans h hsuffix
  | constant name fallback => exact List.IsSuffix.trans h hsuffix
  | new owner =>
    cases owner with
    | named name => exact List.IsSuffix.trans h hsuffix
    | current => trivial
  | member owner name kind isStatic => exact List.IsSuffix.trans h hsuffix

namespace CheckedProgram

variable {p : CheckedProgram} {e : Execution} {name : String} {text : List Char}

theorem lastSegment_memberName (owner member : String) :
    Name.lastSegment (memberName owner member).toList <:+ member.toList := by
  have hstop : Name.untilSeparator (owner.toList ++ [':', ':']).reverse = [] := by
    rw [List.reverse_append]
    rfl
  have hsuffix := Name.lastSegment_append hstop member.toList
  simpa [memberName] using hsuffix

theorem eq_of_unresolved_mem_useMember {id : SymbolId} {owner : Symbol} {isCurrent : Bool}
    {key : MemberKey} (h : .unresolved name ∈ p.useMember e id owner isCurrent key) :
    name = memberName owner.name key.name := by
  unfold useMember at h
  split at h
  · split at h
    · cases h
    · cases List.mem_singleton.1 h
  · split at h
    · cases h
    · cases List.mem_singleton.1 h
      rfl

theorem not_unresolved_mem_useSymbol (target : Symbol) :
    .unresolved name ∉ p.useSymbol e target := by
  unfold useSymbol
  split <;> simp

/-- A member is recorded under its name on some owner. -/
theorem exists_owner_of_unresolved {through : ClassRef} {key : MemberKey} {isStatic : Bool}
    (h : .unresolved name ∈ p.useMemberOf e through key isStatic) :
    ∃ owner, name = memberName owner key.name := by
  unfold useMemberOf at h
  cases through with
  | current =>
    dsimp only at h
    split at h
    · cases h
    · exact ⟨_, eq_of_unresolved_mem_useMember h⟩
  | named owner =>
    dsimp only at h
    split at h
    · cases List.mem_singleton.1 h
      exact ⟨owner, rfl⟩
    · rcases List.mem_append.1 h with hsymbol | hmember
      · split at hsymbol
        · exact (not_unresolved_mem_useSymbol _ hsymbol).elim
        · cases hsymbol
      · exact ⟨_, eq_of_unresolved_mem_useMember hmember⟩

/-- The name that an unresolved reference is recorded by ends as the reference does. -/
theorem lastSegment_of_unresolved {kind : ReferenceKind} (h : .unresolved name ∈ p.outcomes e kind)
    (htext : kind.EndsIn text) : Name.lastSegment name.toList <:+ text := by
  unfold outcomes at h
  split at h
  · split at h
    · exact (not_unresolved_mem_useSymbol _ h).elim
    · cases List.mem_singleton.1 h
      exact htext
  · split at h
    · exact (not_unresolved_mem_useSymbol _ h).elim
    · split at h
      · cases h
      · cases List.mem_singleton.1 h
        exact htext
  · cases h
  · split at h
    · exact (not_unresolved_mem_useSymbol _ h).elim
    · cases List.mem_singleton.1 h
      exact htext
  · obtain ⟨owner, rfl⟩ := exists_owner_of_unresolved h
    exact (lastSegment_memberName owner _).trans htext

end CheckedProgram

namespace Reference

variable {ns : String} {before after : List Token} {t : Token} {r : Reference}

/-- The reference runs from one token to another at or behind it, whose name its own ends with. -/
structure Runs (first last : Token) (r : Reference) : Prop where
  lo : r.span.lo = first.span.lo
  hi : r.span.hi = last.span.hi
  le : first.span.lo ≤ last.span.lo
  name : ∃ name, last.kind.name? = some name ∧ r.kind.EndsIn name.toList

theorem name?_of_ident? {name : String} (h : t.ident? = some name) : t.kind.name? = some name := by
  unfold Token.ident? at h
  split at h
  · next hkind =>
    cases h
    rw [hkind]
    rfl
  · cases h

theorem runs_of_mem_instanceMember {owner : ClassRef} (h : r ∈ instanceMember owner after) :
    ∃ last ∈ after, r.Runs last last := by
  obtain ⟨last, rest, name, _, rfl, hname, rfl⟩ := exists_of_mem_instanceMember h
  exact ⟨last, List.mem_cons_self, rfl, rfl, Nat.le_refl _, name, name?_of_ident? hname,
    List.suffix_rfl⟩

theorem runs_of_mem_staticMember {owner : ClassRef} (hle : ∀ u ∈ after, t.span.lo ≤ u.span.lo)
    (h : r ∈ staticMember owner t after) : ∃ last ∈ after, r.Runs t last := by
  obtain ⟨last, rest, name, _, rfl, hkind, rfl⟩ := exists_of_mem_staticMember h
  have hname : last.kind.name? = some name := by
    rcases hkind with hkind | hkind <;> rw [hkind] <;> rfl
  exact ⟨last, List.mem_cons_self, rfl, rfl, hle last List.mem_cons_self, name, hname,
    List.suffix_rfl⟩

theorem runs_of_mem_newObjectMember {owner : ClassRef} (h : r ∈ newObjectMember owner after) :
    ∃ last ∈ after, r.Runs last last := by
  obtain ⟨paren, arrow, rest, harguments, -, -, hmember⟩ := exists_of_mem_newObjectMember h
  obtain ⟨last, hlast, hruns⟩ := runs_of_mem_instanceMember hmember
  have hbehind : last ∈ paren :: arrow :: rest := by simp [hlast]
  exact ⟨last, (afterArguments?_suffix harguments).subset hbehind, hruns⟩

theorem endsIn_newClass? {name : String} {owner : ClassRef} (h : newClass? ns name = some owner) :
    (ReferenceKind.new owner).EndsIn name.toList := by
  rw [eq_of_newClass? h]
  unfold classOf
  split
  · trivial
  · exact Name.lastSegment_resolveClass ns name

/-- No token ends behind one that follows it. -/
def Apart (ts : List Token) : Prop :=
  ts.Pairwise (fun a b => a.span.hi ≤ b.span.lo) ∧ ∀ t ∈ ts, t.span.lo ≤ t.span.hi

theorem Apart.suffix {ts ts' : List Token} (h : Apart ts) (hsuffix : ts' <:+ ts) : Apart ts' :=
  ⟨h.1.sublist hsuffix.sublist, fun t ht => h.2 t (hsuffix.subset ht)⟩

theorem Apart.lo_le (h : Apart (t :: after)) {u : Token} (hu : u ∈ after) :
    t.span.lo ≤ u.span.lo :=
  Nat.le_trans (h.2 t List.mem_cons_self) ((List.pairwise_cons.1 h.1).1 u hu)

theorem runs_of_mem_newReferences (hts : Apart (t :: after))
      (h : r ∈ newReferences ns before t after) :
    ∃ first ∈ t :: after, ∃ last ∈ t :: after, r.Runs first last := by
  obtain ⟨operand, rest, word, owner, rfl, hword, hclass, rfl | ⟨_, _, -, -, hmember⟩⟩ :=
    exists_of_mem_newReferences h
  · have hbehind : t.span.hi ≤ operand.span.lo :=
      (List.pairwise_cons.1 hts.1).1 operand List.mem_cons_self
    have hwidth : operand.span.lo ≤ operand.span.hi := hts.2 operand (by simp)
    have hle : t.span.lo ≤ operand.span.lo := hts.lo_le List.mem_cons_self
    exact ⟨t, List.mem_cons_self, operand, by simp, Nat.min_eq_left hle,
      Nat.max_eq_right (Nat.le_trans hbehind hwidth), hle, word, name?_of_ident? hword,
      endsIn_newClass? hclass⟩
  · obtain ⟨last, hlast, hruns⟩ := runs_of_mem_newObjectMember hmember
    exact ⟨last, by simp [hlast], last, by simp [hlast], hruns⟩

theorem runs_of_mem_startingAt (hts : Apart (t :: after)) (h : r ∈ startingAt ns before t after) :
    ∃ first ∈ t :: after, ∃ last ∈ t :: after, r.Runs first last := by
  have hself : ∀ {name}, t.kind = .ident name → r.span = t.span → r.kind.EndsIn name.toList →
      ∃ first ∈ t :: after, ∃ last ∈ t :: after, r.Runs first last := by
    intro name hkind hspan hends
    refine ⟨t, List.mem_cons_self, t, List.mem_cons_self, ?_⟩
    exact ⟨congrArg Span.lo hspan, congrArg Span.hi hspan, Nat.le_refl _,
      name, by rw [hkind]; rfl, hends⟩
  cases starts_of_mem_startingAt h with
  | new _ _ _ hmember => exact runs_of_mem_newReferences hts hmember
  | static _ _ _ hafter _ _ hmember =>
    subst hafter
    obtain ⟨last, hlast, hruns⟩ := runs_of_mem_staticMember
      (fun u hu => hts.lo_le (List.mem_cons_of_mem _ hu)) hmember
    exact ⟨t, List.mem_cons_self, last, by simp [hlast], hruns⟩
  | @call name hkind _ _ _ _ hr =>
    subst hr
    exact hself hkind rfl (Name.lastSegment_resolveFunction ns name)
  | @constant name hkind _ _ _ _ _ hr =>
    subst hr
    exact hself hkind rfl (Name.lastSegment_resolveFunction ns name)
  | this _ hafter _ hmember =>
    subst hafter
    obtain ⟨last, hlast, hruns⟩ := runs_of_mem_instanceMember hmember
    exact ⟨last, by simp [hlast], last, by simp [hlast], hruns⟩

/-- Every reference of a body runs from a token of the body to another. -/
theorem runs_of_mem_scanReferences {ts : List Token} (hts : Apart ts)
    (h : r ∈ scanReferences ns ts) :
    ∃ first ∈ ts, ∃ last ∈ ts, r.Runs first last := by
  obtain ⟨passed, t, after, rfl, hr⟩ := exists_of_mem_scanFrom h
  have hsuffix : t :: after <:+ passed ++ t :: after := List.suffix_append passed _
  obtain ⟨first, hfirst, last, hlast, hruns⟩ := runs_of_mem_startingAt (hts.suffix hsuffix) hr
  exact ⟨first, hsuffix.subset hfirst, last, hsuffix.subset hlast, hruns⟩

end Reference
end ModuleVisibility
