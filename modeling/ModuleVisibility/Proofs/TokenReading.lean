import ModuleVisibility.Proofs.HiddenText
import ModuleVisibility.Proofs.NameUse
import ModuleVisibility.Proofs.ReferenceText

/-!
Which tokens a reference reads. It reads neighbours: a name alone, a class with two colons and a
member, `new` and the class behind it; or one member behind an arrow, and then the object before the
arrow is where it starts. No two references read one token, since a token that one has read is
passed over by what stands before it. But behind `new` only this spelling counts there, while `NEW`
starts a reference, too, so its class is read again.
-/
namespace ModuleVisibility

/-- Some byte belongs to both ranges. -/
def Span.Meets (a b : Span) : Prop := ∃ offset, a.contains offset = true ∧ b.contains offset = true

theorem Span.meets_iff {a b : Span} : a.Meets b ↔ a.lo < a.hi ∧ b.lo < b.hi ∧ a.lo < b.hi ∧
      b.lo < a.hi := by
  simp only [Meets, contains, Bool.and_eq_true, decide_eq_true_eq]
  constructor
  · rintro ⟨offset, ha, hb⟩
    omega
  · rintro ⟨ha, hb, hab, hba⟩
    exact ⟨max a.lo b.lo, by omega⟩

instance (a b : Span) : Decidable (a.Meets b) := decidable_of_iff _ Span.meets_iff.symm

namespace Token

/-- Whether the token is `new` in small letters or capitals. -/
def isNew (t : Token) : Bool := t.ident?.any (Text.lowerAscii · == "new")

/-- Whether it is, but is not spelled `new`. -/
def isOtherNew (t : Token) : Bool := t.isNew && !t.isWord "new"

end Token

namespace Place

/-! The order of places. -/

/-- The place `q` is behind `p`, with these tokens between them. -/
structure Follows (p q : Place) (between : List Token) : Prop where
  after : p.after = between ++ q.token :: q.after
  before : q.before = between.reverse ++ p.token :: p.before

variable {tokens between : List Token} {p q : Place}

theorem Follows.length_lt (h : p.Follows q between) : p.before.length < q.before.length := by
  simp only [h.before, List.length_append, List.length_cons]
  omega

theorem pairwise_placesFrom (before tokens : List Token) :
    (placesFrom before tokens).Pairwise fun p q => ∃ between, p.Follows q between := by
  induction tokens generalizing before with
  | nil => exact .nil
  | cons t tokens ih =>
    refine List.pairwise_cons.2 ⟨fun q hq => ?_, ih (t :: before)⟩
    obtain ⟨passed, hbefore, htokens⟩ := mem_placesFrom.1 hq
    exact ⟨passed, htokens, hbefore⟩

theorem eq_or_follows (hp : p ∈ places tokens) (hq : q ∈ places tokens) :
    p = q ∨ (∃ between, p.Follows q between) ∨ ∃ between, q.Follows p between := by
  have hpairs := List.pairwise_iff_getElem.1 (pairwise_placesFrom [] tokens)
  obtain ⟨i, hi, rfl⟩ := List.getElem_of_mem hp
  obtain ⟨j, hj, rfl⟩ := List.getElem_of_mem hq
  rcases Nat.lt_trichotomy i j with hlt | rfl | hlt
  · exact .inr (.inl (hpairs i j hi hj hlt))
  · exact .inl rfl
  · exact .inr (.inr (hpairs j i hj hi hlt))

theorem eq_of_length (hp : p ∈ places tokens) (hq : q ∈ places tokens)
    (h : p.before.length = q.before.length) : p = q := by
  rcases eq_or_follows hp hq with heq | ⟨_, hfollows⟩ | ⟨_, hfollows⟩
  · exact heq
  · exact absurd h (Nat.ne_of_lt hfollows.length_lt)
  · exact absurd h (Nat.ne_of_gt hfollows.length_lt)

/-! What is read. -/

/-- What is read behind the place, where a reference starts and reads its token. -/
inductive Takes (p : Place) : List Token → Prop
  | name : Takes p []
  | new {owner after} (hword : p.token.isNew = true) (hafter : p.after = owner :: after)
    (howner : owner.ident?.isSome) : Takes p [owner]
  | static {colons member after} (hcolons : colons.kind = .doubleColon)
    (hafter : p.after = colons :: member :: after) : Takes p [colons, member]

/-- The object that starts at the place ends with `last`, between these tokens: it is `$this`, or a
new object in parentheses. -/
inductive Opens (p : Place) (last : Token) (before rest : List Token) : Prop
  | this (hthis : p.token.kind = .variable "this") (hplace : p = ⟨before, last, rest⟩) :
    Opens p last before rest
  | new {paren owner outer behind} (hbefore : p.before = paren :: outer)
    (hopen : paren.isPunct '(' = true)
    (hword : p.token.ident?.isSome) (hafter : p.after = owner :: behind)
    (howner : owner.ident?.isSome)
    (hbehind : Reference.afterArguments? behind = some (last :: rest))
      (hclose : last.isPunct ')' = true) :
    Opens p last before rest

/-- The reference that starts at `s` reads the token at `p` and those of `more` behind it. -/
inductive Reads (s : Place) (r : Reference) : Place → List Token → Prop
  | start {more} (hident : s.token.ident?.isSome) (hfree : Reference.followsAccess s.before = false)
    (htakes : s.Takes more) (hspan : r.span = ⟨s.token.span.lo, (more.getLastD s.token).span.hi⟩) :
    Reads s r s more
  | member {p arrow last before} (hident : p.token.ident?.isSome)
    (hbefore : p.before = arrow :: last :: before)
    (harrow : arrow.kind = .arrow) (hopens : s.Opens last before (arrow :: p.token :: p.after))
    (hspan : r.span = p.token.span) : Reads s r p []

section

variable {s s' : Place} {r r' : Reference} {more more' before rest : List Token} {last : Token}

theorem Reads.ident (h : s.Reads r p more) : p.token.ident?.isSome := by
  cases h with
  | start hident => exact hident
  | member hident => exact hident

theorem not_arrow_of_ident {t : Token} (h : t.ident?.isSome) :
    t.kind ≠ .arrow ∧ t.kind ≠ .doubleColon := by
  unfold Token.ident? at h
  constructor <;>
  · intro hkind
    rw [hkind] at h
    cases h

/-- An object has one place at which it starts. -/
theorem Opens.unique (hs : s ∈ places tokens) (hs' : s' ∈ places tokens)
    (h : s.Opens last before rest)
    (h' : s'.Opens last before rest) : s = s' := by
  have hnot : ∀ {p : Place}, p.token.kind = .variable "this" → p = ⟨before, last, rest⟩ →
      last.isPunct ')' = true → False := by
    rintro p hthis rfl hclose
    rw [Token.isPunct, hthis] at hclose
    cases hclose
  cases h with
  | this hthis hplace =>
    cases h' with
    | this _ hplace' => rw [hplace, hplace']
    | new _ _ _ _ _ _ hclose => exact (hnot hthis hplace hclose).elim
  | new hbefore hopen hword hafter howner hbehind hclose =>
    cases h' with
    | this hthis' hplace' => exact (hnot hthis' hplace' hclose).elim
    | new hbefore' hopen' hword' hafter' howner' hbehind' _ =>
      have htokens := (mem_places.1 hs).symm.trans (mem_places.1 hs')
      simp only [hbefore, hbefore', hafter, hafter', List.reverse_cons, List.append_assoc,
        List.singleton_append] at htokens
      refine eq_of_length hs hs' ?_
      have hle := Reference.object_length_le htokens hopen' hword howner hword' howner'
        hbehind hbehind' hclose
      have hge := Reference.object_length_le htokens.symm hopen hword' howner' hword howner
        hbehind' hbehind hclose
      simp only [List.length_reverse] at hle hge
      rw [hbefore, hbefore', List.length_cons, List.length_cons, Nat.le_antisymm hge hle]

/-- References that read one token as their first start at one place. -/
theorem Reads.start_unique (hs : s ∈ places tokens) (hs' : s' ∈ places tokens)
    (h : s.Reads r p more)
    (h' : s'.Reads r' p more') : s = s' := by
  have hnot : ∀ {p : Place} {arrow : Token} {before}, Reference.followsAccess p.before = false →
      p.before = arrow :: before → arrow.kind = .arrow → False := by
    intro p arrow before hfree hbefore harrow
    rw [hbefore, Reference.followsAccess, Reference.headIs, List.head?_cons, Option.any_some,
      harrow] at hfree
    cases hfree
  cases h with
  | start _ hfree =>
    cases h' with
    | start => rfl
    | member _ hbefore harrow => exact (hnot hfree hbefore harrow).elim
  | member _ hbefore harrow hopens =>
    cases h' with
    | start _ hfree => exact (hnot hfree hbefore harrow).elim
    | member _ hbefore' _ hopens' =>
      cases hbefore.symm.trans hbefore'
      exact hopens.unique hs hs' hopens'

/-! Tokens that are read twice. -/

theorem Reads.lo (h : s.Reads r p more) : r.span.lo = p.token.span.lo := by
  cases h with
  | start _ _ _ hspan => rw [hspan]
  | member _ _ _ _ hspan => rw [hspan]

theorem Takes.isPrefix (h : p.Takes more) : more <+: p.after := by
  cases h with
  | name => exact List.nil_prefix
  | new _ hafter => exact ⟨_, hafter.symm⟩
  | static _ hafter => exact ⟨_, hafter.symm⟩

theorem Reads.isPrefix (h : s.Reads r p more) : more <+: p.after := by
  cases h with
  | start _ _ htakes => exact htakes.isPrefix
  | member => exact List.nil_prefix

theorem Reads.hi (h : s.Reads r p more) : r.span.hi = (more.getLastD p.token).span.hi := by
  cases h with
  | start _ _ _ hspan => rw [hspan]
  | member _ _ _ _ hspan => rw [hspan]; rfl

/-- What has been read for one reference is passed over by the next, but for a class behind a `new`
in other letters. -/
theorem Reads.rereads (h : s.Reads r p more) (h' : s'.Reads r' q more')
    (hfollows : p.Follows q between)
    (hmore : more.getLastD p.token ∉ p.token :: between) :
    s = p ∧ s' = q ∧ between = [] ∧ more = [q.token] ∧ p.token.isOtherNew = true := by
  cases h with
  | member => simp at hmore
  | start hident hfree htakes =>
    cases htakes with
    | name => simp at hmore
    | new hword hafter howner =>
      cases between with
      | cons u between =>
        have hu := hfollows.after.symm.trans hafter
        simp only [List.cons_append, List.cons.injEq] at hu
        simp [hu.1] at hmore
      | nil =>
        obtain ⟨hq, -⟩ := List.cons_eq_cons.1 (hfollows.after.symm.trans hafter)
        subst hq
        cases h' with
        | start _ hfree' =>
          refine ⟨rfl, rfl, rfl, rfl, ?_⟩
          rw [hfollows.before] at hfree'
          simp only [Reference.followsAccess, Reference.headIs, List.reverse_nil, List.nil_append,
            List.head?_cons, Option.any_some, Bool.or_eq_false_iff] at hfree'
          simp [Token.isOtherNew, hword, hfree'.1.2]
        | member _ hbefore harrow =>
          obtain ⟨rfl, -⟩ := List.cons_eq_cons.1 (hbefore.symm.trans hfollows.before)
          exact absurd harrow (not_arrow_of_ident hident).1
    | static hcolons hafter =>
      rcases between with _ | ⟨u, _ | ⟨v, between⟩⟩
      · obtain ⟨hq, -⟩ := List.cons_eq_cons.1 (hfollows.after.symm.trans hafter)
        exact absurd (hq ▸ hcolons) (not_arrow_of_ident h'.ident).2
      · obtain ⟨rfl, -⟩ := List.cons_eq_cons.1 (hfollows.after.symm.trans hafter)
        have hbefore := hfollows.before
        cases h' with
        | start _ hfree' =>
          rw [hbefore, Reference.followsAccess] at hfree'
          simp [Reference.headIs, hcolons] at hfree'
        | member _ hbefore' harrow =>
          obtain ⟨rfl, -⟩ := List.cons_eq_cons.1 (hbefore'.symm.trans hbefore)
          cases harrow.symm.trans hcolons
      · have hu := hfollows.after.symm.trans hafter
        simp only [List.cons_append, List.cons.injEq] at hu
        simp [hu.2.1] at hmore

/-- What stands between places ends before the second one starts. -/
theorem Follows.hi_le (hapart : Reference.Apart tokens) (hp : p ∈ places tokens)
    (h : p.Follows q between) {u : Token}
    (hu : u ∈ p.token :: between) : u.span.hi ≤ q.token.span.lo := by
  have htokens := mem_places.1 hp
  rw [h.after] at htokens
  rw [htokens] at hapart
  have hpairs := (List.pairwise_append.1 hapart.1).2.1
  rw [← List.cons_append] at hpairs
  exact (List.pairwise_append.1 hpairs).2.2 u hu q.token List.mem_cons_self

theorem Reads.not_meets (hapart : Reference.Apart tokens) (hp : p ∈ places tokens)
    (h : s.Reads r p more)
    (h' : s'.Reads r' q more') (hfollows : p.Follows q between)
    (hmore : more.getLastD p.token ∈ p.token :: between) :
    ¬ r.span.Meets r'.span := by
  rw [Span.meets_iff, h.hi, h'.lo]
  have hle := hfollows.hi_le hapart hp hmore
  omega

end

end Place

namespace Reference

variable {tokens : List Token} {s : Place} {ns : String} {r : Reference}

/-! What the scan reads. -/

/-- The member of a new object is read where the object ends. -/
theorem exists_reads_of_mem_newObjectMember {paren owner : Token} {outer behind : List Token}
    {made : ClassRef}
    (hs : s ∈ places tokens) (hbefore : s.before = paren :: outer)
    (hopen : paren.isPunct '(' = true)
    (hword : s.token.ident?.isSome) (hafter : s.after = owner :: behind)
    (howner : owner.ident?.isSome)
    (h : r ∈ newObjectMember made behind) : ∃ p ∈ places tokens, s.Reads r p [] := by
  obtain ⟨close, arrow, rest, hbehind, hclose, harrow, hmember⟩ := exists_of_mem_newObjectMember h
  obtain ⟨t, after, _, _, rfl, ht, rfl⟩ := exists_of_mem_instanceMember hmember
  obtain ⟨arguments, harguments⟩ := afterArguments?_suffix hbehind
  refine ⟨⟨arrow :: close :: (arguments.reverse ++ owner :: s.token :: s.before), t, after⟩, ?_, ?_⟩
  · rw [Place.mem_places, Place.mem_places.1 hs, hafter, ← harguments]
    simp
  · exact .member (Option.isSome_of_eq_some ht) rfl harrow
      (.new hbefore hopen hword hafter howner hbehind hclose) rfl

theorem exists_reads_of_mem_newReferences {name : String} (hapart : Apart tokens)
    (hs : s ∈ places tokens)
    (hident : s.token.ident? = some name) (hnew : Text.lowerAscii name = "new")
    (hfree : followsAccess s.before = false) (h : r ∈ newReferences ns s.before s.token s.after) :
    ∃ p ∈ places tokens, ∃ more, s.Reads r p more := by
  have hsome := Option.isSome_of_eq_some hident
  have hword : s.token.isNew = true := by simp [Token.isNew, hident, hnew]
  obtain ⟨owner, behind, written, made, hafter, howner, -,
      rfl | ⟨paren, outer, hbefore, hopen, hmember⟩⟩ :=
    exists_of_mem_newReferences h
  all_goals replace howner := Option.isSome_of_eq_some howner
  · refine ⟨s, hs, [owner], .start hsome hfree (.new hword hafter howner) ?_⟩
    have htokens := Place.mem_places.1 hs
    rw [hafter] at htokens
    have hapart := hapart.suffix (htokens ▸ List.suffix_append ..)
    have hlo := hapart.lo_le (u := owner) (by simp)
    have hhi := (List.pairwise_cons.1 hapart.1).1 owner (by simp)
    have hle := hapart.2 owner (by simp)
    simp only [Span.join, List.getLastD_cons, List.getLastD_nil, Span.mk.injEq]
    omega
  · obtain ⟨p, hp, hreads⟩ :=
      exists_reads_of_mem_newObjectMember hs hbefore hopen hsome hafter howner hmember
    exact ⟨p, hp, [], hreads⟩

theorem exists_reads_of_mem_startingAt (hapart : Apart tokens) (hs : s ∈ places tokens)
    (h : r ∈ startingAt ns s.before s.token s.after) :
    ∃ p ∈ places tokens, ∃ more, s.Reads r p more := by
  have hident : ∀ {name}, s.token.kind = .ident name → s.token.ident? = some name :=
    fun hkind => by rw [Token.ident?, hkind]
  cases starts_of_mem_startingAt h with
  | new hkind hfree hnew hmember =>
    exact exists_reads_of_mem_newReferences hapart hs (hident hkind) hnew hfree hmember
  | @static _ _ colons _ hkind hfree _ hafter hcolons _ hmember =>
    obtain ⟨member, after, _, _, rfl, -, rfl⟩ := exists_of_mem_staticMember hmember
    exact ⟨s, hs, [colons, member], .start (Option.isSome_of_eq_some (hident hkind)) hfree
      (.static hcolons hafter) rfl⟩
  | call hkind hfree _ _ _ hr =>
    subst hr
    exact ⟨s, hs, [], .start (Option.isSome_of_eq_some (hident hkind)) hfree .name rfl⟩
  | constant hkind hfree _ _ _ _ hr =>
    subst hr
    exact ⟨s, hs, [], .start (Option.isSome_of_eq_some (hident hkind)) hfree .name rfl⟩
  | @this arrow _ hkind hafter harrow hmember =>
    obtain ⟨t, after, _, _, rfl, ht, rfl⟩ := exists_of_mem_instanceMember hmember
    refine ⟨⟨arrow :: s.token :: s.before, t, after⟩, ?_, [], ?_⟩
    · rw [Place.mem_places, Place.mem_places.1 hs, hafter]
      simp
    · exact .member (Option.isSome_of_eq_some ht) rfl harrow (.this hkind (by rw [← hafter])) rfl

/-! The ranges of references. -/

/-- The first one reads a `new` in other letters and the class behind it, and the second starts at
that class. -/
def SharesClass (tokens : List Token) (r r' : Reference) : Prop :=
  ∃ word owner, [word, owner] <:+: tokens ∧ word.isOtherNew = true ∧
    r.span = word.span.join owner.span ∧
    r'.span.lo = owner.span.lo

/-- Tokens one behind another, each of some width. -/
structure Ordered (tokens : List Token) : Prop where
  apart : tokens.Pairwise fun a b => a.span.hi ≤ b.span.lo
  width : ∀ t ∈ tokens, t.span.lo < t.span.hi

theorem Ordered.toApart (h : Ordered tokens) : Apart tokens :=
  ⟨h.apart, fun t ht => Nat.le_of_lt (h.width t ht)⟩

theorem Ordered.join (h : Ordered tokens) {word owner : Token}
    (hadjacent : [word, owner] <:+: tokens) :
    word.span.join owner.span = ⟨word.span.lo, owner.span.hi⟩ ∧ word.span.lo < owner.span.lo ∧
      owner.span.lo < owner.span.hi := by
  have hpair := (List.pairwise_cons.1 (h.apart.sublist hadjacent.sublist)).1 owner (by simp)
  have hword := h.width word (hadjacent.subset (by simp))
  have howner := h.width owner (hadjacent.subset (by simp))
  simp only [Span.join, Span.mk.injEq]
  omega

variable {r' : Reference} {s' p q : Place} {more more' between : List Token}

/-- The second one starts inside the first. -/
theorem SharesClass.lo_lt {r' : Reference} (h : Ordered tokens)
    (hshares : SharesClass tokens r r') :
    r.span.lo < r'.span.lo ∧ r'.span.lo < r.span.hi := by
  obtain ⟨word, owner, hadjacent, -, hspan, hlo⟩ := hshares
  obtain ⟨hjoin, hword, howner⟩ := h.join hadjacent
  rw [hspan, hlo, hjoin]
  exact ⟨hword, howner⟩

/-- No reference is empty. -/
theorem lo_lt_hi_of_reads (h : Ordered tokens) (hp : p ∈ places tokens)
    (hreads : s.Reads r p more) :
    r.span.lo < r.span.hi := by
  have hbehind : p.token :: p.after <:+ tokens := ⟨p.before.reverse, (Place.mem_places.1 hp).symm⟩
  have hlast : more.getLastD p.token ∈ p.token :: p.after :=
    List.cons_subset_cons p.token hreads.isPrefix.subset (List.getLastD_mem_cons ..)
  have hwidth := h.width _ (hbehind.subset hlast)
  have hle : p.token.span.lo ≤ (more.getLastD p.token).span.lo := by
    rcases List.mem_cons.1 hlast with heq | hafter
    · rw [heq]
    · exact (h.toApart.suffix hbehind).lo_le hafter
  rw [hreads.lo, hreads.hi]
  omega

/-- Of references that read different tokens first, one that starts before the other meets it
exactly if they share a class. -/
theorem meets_iff_sharesClass (h : Ordered tokens) (hp : p ∈ places tokens)
    (hq : q ∈ places tokens) (hne : p ≠ q)
    (hreads : s.Reads r p more) (hreads' : s'.Reads r' q more') (hfollows : s.Follows s' between) :
    r.span.Meets r'.span ↔ SharesClass tokens r r' := by
  constructor
  · intro hmeets
    rcases Place.eq_or_follows hp hq with heq | ⟨passed, hpq⟩ | ⟨passed, hqp⟩
    · exact absurd heq hne
    · by_cases hmore : more.getLastD p.token ∈ p.token :: passed
      · exact absurd hmeets (hreads.not_meets h.toApart hp hreads' hpq hmore)
      · obtain ⟨rfl, rfl, rfl, rfl, hword⟩ := hreads.rereads hreads' hpq hmore
        have hadjacent : [s.token, s'.token] <:+: tokens :=
          ⟨s.before.reverse, s'.after, by rw [Place.mem_places.1 hp, hpq.after]; simp⟩
        refine ⟨s.token, s'.token, hadjacent, hword, ?_, hreads'.lo⟩
        rw [(h.join hadjacent).1]
        exact congrArg₂ Span.mk hreads.lo hreads.hi
    · by_cases hmore : more'.getLastD q.token ∈ q.token :: passed
      · rw [Span.meets_iff] at hmeets
        refine absurd (Span.meets_iff.2 ?_) (hreads'.not_meets h.toApart hq hreads hqp hmore)
        omega
      · obtain ⟨rfl, rfl, -⟩ := hreads'.rereads hreads hqp hmore
        exact absurd hfollows.length_lt (Nat.lt_asymm hqp.length_lt)
  · intro hshares
    have hlo := hshares.lo_lt h
    have hwidth := lo_lt_hi_of_reads h hq hreads'
    rw [Span.meets_iff]
    omega

theorem length_instanceMember_le (owner : ClassRef) (ts : List Token) :
    (instanceMember owner ts).length ≤ 1 := by
  unfold instanceMember
  split
  · exact Nat.zero_le 1
  · split <;> simp

theorem length_staticMember_le (owner : ClassRef) (start : Token) (ts : List Token) :
    (staticMember owner start ts).length ≤ 1 := by
  unfold staticMember
  split
  · exact Nat.zero_le 1
  · split
    · exact Nat.le_refl 1
    · split <;> simp
    · exact Nat.zero_le 1

theorem length_newObjectMember_le (owner : ClassRef) (ts : List Token) :
    (newObjectMember owner ts).length ≤ 1 := by
  unfold newObjectMember
  split
  · split
    · exact length_instanceMember_le owner _
    · exact Nat.zero_le 1
  · exact Nat.zero_le 1

/-- A token starts one reference at most, but for `new`. -/
theorem length_startingAt_le (s : Place) : (startingAt ns s.before s.token s.after).length ≤ 1 ∨
    startingAt ns s.before s.token s.after = newReferences ns s.before s.token s.after := by
  unfold startingAt
  split
  · unfold nameReferences
    split
    · exact .inl (Nat.zero_le 1)
    · split
      · exact .inr rfl
      · refine .inl ?_
        split
        · split
          · exact length_staticMember_le ..
          · exact Nat.zero_le 1
        · split
          · exact Nat.zero_le 1
          · dsimp only
            split
            · exact Nat.le_refl 1
            · split <;> simp
  · refine .inl ?_
    split
    · exact length_instanceMember_le ..
    · exact Nat.zero_le 1
  · exact .inl (Nat.zero_le 1)

/-- What one token starts stands one behind another. -/
theorem pairwise_startingAt (h : Ordered tokens) (hs : s ∈ places tokens) :
    (startingAt ns s.before s.token s.after).Pairwise fun r r' => r.span.hi ≤ r'.span.lo := by
  have hshort : ∀ {rs : List Reference}, rs.length ≤ 1 → rs.Pairwise fun r r' =>
      r.span.hi ≤ r'.span.lo := by
    intro rs hrs
    rw [List.pairwise_iff_getElem]
    intro i j hi hj hij
    omega
  rcases length_startingAt_le s with hle | heq
  · exact hshort hle
  rw [heq]
  unfold newReferences
  split
  · exact .nil
  · next owner behind hafter =>
    split
    · exact .nil
    · refine List.pairwise_cons.2 ⟨fun r' hr' => ?_, ?_⟩
      · split at hr'
        · obtain ⟨last, hlast, hruns⟩ := runs_of_mem_newObjectMember hr'
          have hadjacent : [s.token, owner] <:+: tokens :=
            ⟨s.before.reverse, behind, by rw [Place.mem_places.1 hs, hafter]; simp⟩
          have hbehind : owner :: behind <:+ tokens :=
            ⟨s.before.reverse ++ [s.token], by rw [Place.mem_places.1 hs, hafter]; simp⟩
          rw [(h.join hadjacent).1, hruns.lo]
          exact (List.pairwise_cons.1 (h.toApart.suffix hbehind).1).1 last hlast
        · cases hr'
      · split
        · exact hshort (length_newObjectMember_le ..)
        · exact .nil

/-- The references of a body meet exactly where they share a class. -/
theorem pairwise_scanReferences (h : Ordered tokens) (ns : String) :
    (scanReferences ns tokens).Pairwise fun r r' =>
    (r.span.Meets r'.span ↔ SharesClass tokens r r') := by
  rw [scanReferences, scanFrom_eq_flatMap, List.pairwise_flatMap]
  refine ⟨fun s hs => ?_, (Place.pairwise_placesFrom [] tokens).imp_of_mem ?_⟩
  · refine (pairwise_startingAt h hs).imp fun hle =>
      iff_of_false (fun hmeets => ?_) fun hshares => ?_
    · exact Nat.lt_irrefl _ ((Span.meets_iff.1 hmeets).2.2.2.trans_le hle)
    · exact Nat.lt_irrefl _ ((hshares.lo_lt h).2.trans_le hle)
  rintro s s' hs hs' ⟨between, hfollows⟩ r hr r' hr'
  obtain ⟨p, hp, more, hreads⟩ := exists_reads_of_mem_startingAt h.toApart hs hr
  obtain ⟨q, hq, more', hreads'⟩ := exists_reads_of_mem_startingAt h.toApart hs' hr'
  refine meets_iff_sharesClass h hp hq ?_ hreads hreads' hfollows
  rintro rfl
  obtain rfl := hreads.start_unique hs hs' hreads'
  exact Nat.lt_irrefl _ hfollows.length_lt

end Reference

end ModuleVisibility
