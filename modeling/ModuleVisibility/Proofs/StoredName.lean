import ModuleVisibility.Proofs.QualifiedName
import ModuleVisibility.Proofs.Recovery
import ModuleVisibility.Proofs.TokenSpelling
import ModuleVisibility.Proofs.Wording

/-!
The names that a unit records. References and use clauses record what a written name means in the
namespace at hand, and a namespace is recorded without a separator in front; so all of these names
are canonical. The name of a declaration is only qualified, so it is canonical just where it is not
written as an absolute name, and only then a reference can mean the declaration.
-/
namespace ModuleVisibility

open Lexeme (IsQualified IsWritten isWritten_of_spelled)
open Name

/-! The names of references. -/

/-- The names of the symbols that are meant; that of a member is looked up in its class. -/
def ReferenceKind.symbolNames : ReferenceKind → List String
  | .call name fallback | .constant name fallback => name :: fallback.toList
  | .new owner | .member owner .. => owner.names

namespace Reference

/-- What a written name can mean in a namespace. -/
inductive Means (ns written : String) : String → Prop
  | owner : Means ns written (resolveClass ns written)
  | name : Means ns written (resolveFunction ns written).name
  | fallback {name} (h : (resolveFunction ns written).fallback = some name) : Means ns written name

theorem Means.isQualified {ns written name : String} (h : Means ns written name)
    (hns : IsNamespace ns)
    (hwritten : IsWritten written.toList) : IsQualified name.toList := by
  cases h with
  | owner => exact isQualified_resolveClass hns hwritten
  | name => exact (isQualified_resolveFunction hns hwritten).1
  | fallback h => exact (isQualified_resolveFunction hns hwritten).2 name h

section

variable {ns : String} {before after : List Token} {t : Token} {r : Reference}
  {owner : ClassRef} {word : String}

theorem names_classOf : ∀ name ∈ (classOf ns word).names, Means ns word name := by
  unfold classOf
  split
  · exact fun _ hname => absurd hname List.not_mem_nil
  · exact fun _ hname => List.mem_singleton.1 hname ▸ .owner

theorem symbolNames_instanceMember {ts : List Token} (h : r ∈ instanceMember owner ts) :
    r.kind.symbolNames = owner.names := by
  obtain ⟨_, _, _, _, -, -, rfl⟩ := exists_of_mem_instanceMember h
  rfl

theorem symbolNames_staticMember {ts : List Token} (h : r ∈ staticMember owner t ts) :
    r.kind.symbolNames = owner.names := by
  obtain ⟨_, _, _, _, -, -, rfl⟩ := exists_of_mem_staticMember h
  rfl

theorem symbolNames_newObjectMember {ts : List Token} (h : r ∈ newObjectMember owner ts) :
    r.kind.symbolNames = owner.names := by
  obtain ⟨_, _, _, -, -, -, hmember⟩ := exists_of_mem_newObjectMember h
  exact symbolNames_instanceMember hmember

/-- Every name of the reference is what a name among these tokens means. -/
def NamesMeant (ns : String) (ts : List Token) (r : Reference) : Prop :=
  ∀ name ∈ r.kind.symbolNames, ∃ t ∈ ts, ∃ written, t.ident? = some written ∧ Means ns written name

theorem NamesMeant.mono {ts ts' : List Token} (h : NamesMeant ns ts r) (hsub : ts ⊆ ts') :
    NamesMeant ns ts' r := by
  intro name hname
  obtain ⟨t, ht, hmeant⟩ := h name hname
  exact ⟨t, hsub ht, hmeant⟩

theorem namesMeant_of_owner {ts : List Token} (ht : t ∈ ts) (hword : t.ident? = some word)
    (h : r.kind.symbolNames = (classOf ns word).names) : NamesMeant ns ts r := by
  intro name hname
  rw [h] at hname
  exact ⟨t, ht, word, hword, names_classOf name hname⟩

theorem namesMeant_newReferences (h : r ∈ newReferences ns before t after) :
    NamesMeant ns after r := by
  obtain ⟨operand, rest, word, owner, rfl, hword, hclass, hr⟩ := exists_of_mem_newReferences h
  refine namesMeant_of_owner List.mem_cons_self hword ?_
  rw [← eq_of_newClass? hclass]
  rcases hr with rfl | ⟨_, _, -, -, hmember⟩
  · rfl
  · exact symbolNames_newObjectMember hmember

theorem namesMeant_startingAt (h : r ∈ startingAt ns before t after) :
    NamesMeant ns (t :: after) r := by
  have hident : ∀ {word}, t.kind = .ident word → t.ident? = some word :=
    fun hkind => by rw [Token.ident?, hkind]
  have htarget : ∀ {word}, t.kind = .ident word →
      r.kind.symbolNames = (resolveFunction ns word).name ::
      (resolveFunction ns word).fallback.toList →
        NamesMeant ns (t :: after) r := by
    intro word hkind hnames name hname
    rw [hnames] at hname
    refine ⟨t, List.mem_cons_self, word, hident hkind, ?_⟩
    rcases List.mem_cons.1 hname with rfl | hfallback
    · exact .name
    · exact .fallback (Option.mem_toList.1 hfallback)
  cases starts_of_mem_startingAt h with
  | new _ _ _ hmember =>
    exact (namesMeant_newReferences hmember).mono (List.subset_cons_self t after)
  | static hkind _ _ _ _ hclass hmember =>
    refine namesMeant_of_owner List.mem_cons_self (hident hkind) ?_
    rw [← eq_of_staticClass? hclass, symbolNames_staticMember hmember]
  | call hkind _ _ _ _ hr =>
    subst hr
    exact htarget hkind rfl
  | constant hkind _ _ _ _ _ hr =>
    subst hr
    exact htarget hkind rfl
  | this _ _ _ hmember =>
    intro name hname
    rw [symbolNames_instanceMember hmember] at hname
    cases hname

end

theorem namesMeant_scanReferences {ns : String} {ts : List Token} {r : Reference}
    (h : r ∈ scanReferences ns ts) :
    NamesMeant ns ts r := by
  obtain ⟨passed, t, after, rfl, hstarts⟩ := exists_of_mem_scanFrom h
  exact (namesMeant_startingAt hstarts).mono (List.subset_append_right passed _)

end Reference

/-! The namespaces of a unit. -/

/-- The names among the tokens are written as names are. -/
def WritesNames (ts : List Token) : Prop :=
  ∀ t ∈ ts, ∀ word, t.ident? = some word → IsWritten word.toList

theorem WritesNames.suffix {ts ts' : List Token} (h : WritesNames ts) (hsuffix : ts' <:+ ts) :
    WritesNames ts' :=
  fun t ht => h t (hsuffix.subset ht)

theorem WritesNames.of_opened {ts tokens : List Token} (h : WritesNames tokens)
    (hopened : Opened tokens ts) :
    WritesNames ts := by
  rcases hopened with rfl | ⟨opening, after, -, hsuffix⟩
  · exact fun _ ht => nomatch ht
  · exact fun t ht => h t (hsuffix.subset (by simp [ht]))

theorem Token.kind_of_ident? {t : Token} {word : String} (h : t.ident? = some word) :
    t.kind = .ident word := by
  unfold ident? at h
  split at h
  · next name hkind =>
    cases h
    exact hkind
  · cases h

theorem writesNames_tokenize (source : String) : WritesNames (tokenize source).tokens := by
  intro t ht word hword
  obtain ⟨before, text, rest, -, -, -, hspelled⟩ := (faithful_tokenize source).tokens t ht
  rw [Token.kind_of_ident? hword] at hspelled
  exact isWritten_of_spelled hspelled

/-- The namespaces at hand and around are namespaces. -/
def UnitContext.Scoped (c : UnitContext) : Prop := ∀ ns ∈ c.ns :: c.outer, IsNamespace ns

namespace UnitStep

variable {c : UnitContext} {t : Token} {ts : List Token}

theorem isNamespace_namespaceName (h : WritesNames ts) :
    IsNamespace (Reading.namespaceName ts).1 := by
  unfold Reading.namespaceName
  split
  · exact .inl rfl
  · next t ts =>
    split
    · next word hword =>
      have hwritten := h t List.mem_cons_self word hword
      refine .inr ?_
      dsimp only
      rw [String.toList_ofList]
      exact hwritten.dropWhile
    · exact .inl rfl

theorem isNamespace_namespaceHead {stop : Span} {name : String} {isBlock : Bool}
    (h : WritesNames ts)
    (hvalue : (Reading.namespaceHead stop ts).value? = some (name, isBlock)) :
    IsNamespace name := by
  have hname := isNamespace_namespaceName h
  unfold Reading.namespaceHead at hvalue
  dsimp only at hvalue
  split at hvalue
  · cases hvalue
  · split at hvalue
    · cases hvalue
      exact hname
    · split at hvalue
      · cases hvalue
        exact hname
      · cases hvalue

theorem scoped_ite {p : Prop} [Decidable p] {a b : UnitStep} (ha : a.context.Scoped)
    (hb : b.context.Scoped) :
    (if p then a else b).context.Scoped := by
  split
  · exact ha
  · exact hb

theorem scoped_ofReading {α : Type} {r : Reading α} {use : α → UnitStep} (hc : c.Scoped)
    (huse : ∀ a, r.value? = some a → (use a).context.Scoped) :
    (ofReading c r use).context.Scoped := by
  unfold ofReading
  split
  · exact hc
  · next a ha => exact huse a ha

variable (stop : Span)

theorem scoped_ofWord (hc : c.Scoped) (h : WritesNames ts) (word : String) :
    (ofWord stop c t word ts).context.Scoped := by
  refine scoped_ite hc
    (scoped_ite hc (scoped_ite hc (scoped_ite (scoped_ofReading hc fun _ _ => ?_) ?_)))
  · unfold join
    split <;> exact hc
  refine scoped_ite (scoped_ofReading hc fun _ _ => hc)
    (scoped_ite (scoped_ofReading hc fun head hhead => ?_) ?_)
  · obtain ⟨name, isBlock⟩ := head
    have hname := isNamespace_namespaceHead h hhead
    cases isBlock with
    | true => exact List.forall_mem_cons.2 ⟨hname, hc⟩
    | false => exact List.forall_mem_cons.2 ⟨hname, (List.forall_mem_cons.1 hc).2⟩
  refine scoped_ite (scoped_ofReading hc fun _ _ => hc)
    (scoped_ite (scoped_ofReading hc fun _ _ => hc) ?_)
  refine scoped_ite (scoped_ofReading hc fun _ _ => hc)
    (scoped_ite (scoped_ofReading hc fun _ _ => hc) ?_)
  exact scoped_ite (scoped_ofReading hc fun _ _ => hc) hc

theorem scoped_ofTokens (hc : c.Scoped) (h : WritesNames ts) :
    (ofTokens stop c t ts).context.Scoped := by
  unfold ofTokens
  split
  · exact scoped_ofWord stop hc h _
  · exact scoped_ofReading hc fun _ _ => hc
  · exact hc
  · split
    · next ns outer houter =>
      intro name hname
      exact hc name (List.mem_cons_of_mem _ (houter ▸ hname))
    · exact hc
  · exact hc

end UnitStep

/-- A declaration is named and read in one namespace, that of the context of its step. -/
theorem exists_namespace_of_readUnit {stop : Span} {c : UnitContext} {ts : List Token}
    {d : Declaration}
    (hc : c.Scoped) (hts : WritesNames ts) (h : d ∈ (readUnit stop c ts).unit.declarations) :
    ∃ ns, IsNamespace ns ∧ Reading.DeclaredUnder ns ts d ∧
      ∃ t ∈ ts, t.span = d.span ∧ ∃ word, t.ident? = some word ∧ d.name = qualify ns word := by
  fun_induction readUnit stop c ts with
  | case1 => cases h
  | case2 c t ts step later ih =>
    have hstep : step.ReadsIn c.ns (t :: ts) :=
      (UnitStep.readsIn_ofTokens stop c t ts).mono (List.suffix_cons t ts)
    rcases List.mem_append.1 h with hhere | hlater
    · obtain ⟨taken, htaken⟩ := hstep.rest
      obtain ⟨front, name, back, rfl, hname⟩ :=
        UnitStep.takesNames_ofTokens stop c taken htaken.symm d hhere
      refine ⟨c.ns, hc c.ns List.mem_cons_self, hstep.declared d hhere, name, ?_,
        hname.span, hname.ident⟩
      rw [← htaken]
      simp
    · have hbehind : WritesNames ts := hts.suffix (List.suffix_cons t ts)
      obtain ⟨ns, hns, hunder, name, hmem, hnamed⟩ :=
        ih (UnitStep.scoped_ofTokens stop hc hbehind) (hts.suffix hstep.rest) hlater
      exact ⟨ns, hns, hunder.mono hstep.rest, name, hstep.rest.subset hmem, hnamed⟩

theorem isQualified_symbolName {ns : String} {ts : List Token} {r : Reference}
    (hns : IsNamespace ns)
    (hts : WritesNames ts) (h : r ∈ scanReferences ns ts) :
    ∀ name ∈ r.kind.symbolNames, IsQualified name.toList := by
  intro name hname
  obtain ⟨t, ht, word, hword, hmeans⟩ := Reference.namesMeant_scanReferences h name hname
  exact hmeans.isQualified hns (hts t ht word hword)

/-- No reference means anything else. -/
theorem isQualified_of_reached {ns name : String} (hns : IsNamespace ns) (h : Reached ns name) :
    IsQualified name.toList := by
  have hkind : ReferenceKind.constant name none ∈ referenceKinds ns ("\\" ++ name) := by
    rw [h.constant]
    exact List.mem_cons_self
  obtain ⟨r, hr, hconstant⟩ := List.mem_map.1 hkind
  refine isQualified_symbolName hns (writesNames_tokenize _) hr name ?_
  rw [hconstant]
  exact List.mem_cons_self

theorem canonical_of_isNamespace {ns : String} (h : IsNamespace ns) : ns = "" ∨ Canonical ns :=
  h.imp_right canonical_of_isQualified

/-- All names that a unit records are canonical but for declarations that are written with an
absolute name; any other declaration is what its absolute name means in every namespace, and these
are not. -/
theorem canonical_parseUnit (file : SourceFile) : ∀ d ∈ (parseUnit file).unit.declarations,
    (∀ u ∈ d.content.uses, Canonical u.name) ∧
    (∀ body ∈ d.content.bodies, ∀ r ∈ body, ∀ name ∈ r.kind.symbolNames, Canonical name) ∧
    ∃ ns written, (ns = "" ∨ Canonical ns) ∧
        ⟨.ident written, d.span⟩ ∈ (tokenize file.text).tokens ∧
      d.name = qualify ns written ∧ (Canonical d.name ↔ written.toList.head? ≠ some separator) ∧
        ((∀ outer, Reached outer d.name) ↔ written.toList.head? ≠ some separator) := by
  intro d hd
  have hwrites := writesNames_tokenize file.text
  have hstart : UnitContext.start.Scoped := fun ns hns => .inl (List.mem_singleton.1 hns)
  obtain ⟨ns, hns, hunder, t, ht, hspan, written, hword, hname⟩ :=
    exists_namespace_of_readUnit hstart hwrites hd
  refine ⟨fun u hu => ?_, fun body hbody r hr name hmem => ?_, ns, written,
    canonical_of_isNamespace hns, ?_, hname, ?_⟩
  · obtain ⟨t, ht, written, hword, hclass⟩ := hunder.uses u hu
    rw [hclass]
    exact canonical_of_isQualified (isQualified_resolveClass hns (hwrites t ht written hword))
  · obtain ⟨ts, rfl, hopened⟩ := hunder.bodies body hbody
    exact canonical_of_isQualified
      (isQualified_symbolName hns (hwrites.of_opened hopened) hr name hmem)
  · obtain ⟨kind, span⟩ := t
    obtain rfl : span = d.span := hspan
    obtain rfl : kind = .ident written := Token.kind_of_ident? hword
    exact ht
  have hwritten := hwrites t ht written hword
  have hqualified : written.toList.head? ≠ some separator →
      IsQualified d.name.toList := fun hfront =>
    hname ▸ isQualified_qualify hns (hwritten.isQualified hfront)
  have hfront : Canonical d.name → written.toList.head? ≠ some separator := by
    intro hcanonical habsolute
    obtain ⟨cs, hcs⟩ := List.head?_eq_some_iff.1 habsolute
    exact not_canonical_qualify hcs (hname ▸ hcanonical)
  refine ⟨⟨hfront, fun h => canonical_of_isQualified (hqualified h)⟩, fun hreached => ?_,
    fun h outer => ?_⟩
  · exact hfront (canonical_of_isQualified (isQualified_of_reached (.inl rfl) (hreached "")))
  · exact reached_of_isQualified outer (hqualified h)

/-- A function of a namespace is what its absolute name means, and calls functions by canonical
names. -/
theorem canonical_parseUnit_calls :
    let file : SourceFile :=
  ⟨"a.php", "<?hh\nnamespace N;\nfunction f(): void \x7b g(); \\h(); \x7d\n"⟩
    let calls : List Reference := [⟨.call "N\\g" (some "g"), ⟨39, 40⟩⟩, ⟨.call "h" none, ⟨44, 46⟩⟩]
    (⟨"N\\f", .public, ⟨27, 28⟩, .function calls⟩ : Declaration) ∈ (parseUnit
      file).unit.declarations ∧
      (∀ r ∈ calls, ∀ name ∈ r.kind.symbolNames, Canonical name) ∧
      ∀ outer, Reached outer "N\\f" := by
  intro file calls
  have hd : (⟨"N\\f", .public, ⟨27, 28⟩, .function calls⟩ : Declaration) ∈ (parseUnit
      file).unit.declarations := by
    decide +kernel
  obtain ⟨-, hnames, ns, written, -, -, -, hcanonical, hreached⟩ := canonical_parseUnit file _ hd
  have hname : Canonical "N\\f" := by decide
  exact ⟨hd, hnames calls (List.mem_singleton.2 rfl), hreached.2 (hcanonical.1 hname)⟩

/-- A function can be declared with an absolute name, and is stored under it. -/
theorem not_canonical_absolute :
    let file : SourceFile := ⟨"a.php", "<?hh\nfunction \\f(): void \x7b\x7d\n"⟩
    (parseUnit file).errors = [] ∧
      (parseUnit file).unit.declarations.map Declaration.name = ["\\f"] ∧
      ¬ Canonical "\\f" :=
  ⟨by decide +kernel, by decide +kernel, by decide⟩

end ModuleVisibility
