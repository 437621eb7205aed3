import ModuleVisibility.Reference.Scan

/-!
Where the scan takes a name for a type argument. It goes back from the name and counts angles. What
it looks for is said here of the tokens before the name as a whole: an angle glued to a name, with
balanced angles behind it, and among these only what type arguments consist of. Nothing asks that
the angle is ever closed.
-/
namespace ModuleVisibility
namespace Reference

/-- How many angles the token opens. -/
def anglesOpened (t : Token) : Nat :=
  match t.kind with
  | .punct '<' => 1
  | _ => 0

/-- How many angles the token closes; two that touch are one token. -/
def anglesClosed (t : Token) : Nat :=
  match t.kind with
  | .punct '>' => 1
  | .attrClose => 2
  | _ => 0

def opened : List Token → Nat
  | [] => 0
  | t :: ts => anglesOpened t + opened ts

def closed : List Token → Nat
  | [] => 0
  | t :: ts => anglesClosed t + closed ts

/-- The last of the tokens before is a name, and it ends where `t` starts. -/
def Glued (before : List Token) (t : Token) : Prop :=
  ∃ head rest name, before = head :: rest ∧ head.kind = .ident name ∧ head.span.hi = t.span.lo

/-- What type arguments consist of: names, separators, what closes angles, and angles glued to
names. -/
inductive FitsArguments (before : List Token) (t : Token) : Prop
  | name {name} (h : t.kind = .ident name)
  | separator (h : t.kind ∈ [.doubleColon, .punct ',', .punct '?', .punct '>', .attrClose])
  | angle (h : t.kind = .punct '<') (hglued : Glued before t)

/-- Before the place, where `depth` angles are closed behind it, an angle glued to a name is
open. -/
def OpensBefore (depth : Nat) (before : List Token) : Prop :=
  ∃ inside angle outside, before = inside ++ angle :: outside ∧ angle.kind = .punct '<' ∧
    Glued outside angle ∧
    (∀ nearer t further, inside = nearer ++ t :: further →
      FitsArguments (further ++ angle :: outside) t) ∧
    opened inside = closed inside + depth ∧
    ∀ nearer, nearer <+: inside → opened nearer ≤ closed nearer + depth

variable {before : List Token} {t : Token} {depth : Nat}

theorem gluedToName_iff : gluedToName before t = true ↔ Glued before t := by
  rcases before with _ | ⟨⟨kind, span⟩, before⟩
  · simp [gluedToName, headIs, Glued]
  · cases kind <;> simp [gluedToName, headIs, Glued, Token.ident?]

theorem not_opensBefore_nil : ¬ OpensBefore depth [] := by
  rintro ⟨inside, angle, outside, htokens, _⟩
  simp at htokens

/-- The angle is the last token, or the last token is one that type arguments consist of and the
angle is open before it, with the count of what is closed behind. -/
theorem opensBefore_cons : OpensBefore depth (t :: before) ↔
    (t.kind = .punct '<' ∧ Glued before t ∧ depth = 0) ∨
      FitsArguments before t ∧ anglesOpened t ≤ anglesClosed t + depth ∧
        OpensBefore (depth + anglesClosed t - anglesOpened t) before := by
  constructor
  · rintro ⟨inside, angle, outside, htokens, hangle, hglued, hfits, hbalanced, hnearer⟩
    cases inside with
    | nil =>
      obtain ⟨rfl, rfl⟩ := List.cons_eq_cons.1 htokens
      refine .inl ⟨hangle, hglued, ?_⟩
      simpa [opened, closed, eq_comm] using hbalanced
    | cons u inside =>
      obtain ⟨rfl, rfl⟩ := List.cons_eq_cons.1 htokens
      have hfirst : anglesOpened t ≤ anglesClosed t + depth := by
        simpa [opened, closed] using hnearer [t] (by simp)
      refine .inr ⟨hfits [] t inside rfl, hfirst, inside, angle, outside, rfl, hangle, hglued,
        fun nearer u further h =>
        hfits (t :: nearer) u further (by rw [h]; rfl), ?_, fun nearer h => ?_⟩
      · simp only [opened, closed] at hbalanced ⊢
        omega
      · have hle := hnearer (t :: nearer) (List.cons_prefix_cons.2 ⟨rfl, h⟩)
        simp only [opened, closed] at hle ⊢
        omega
  · rintro (⟨hangle, hglued, rfl⟩ | ⟨hfirst, hle, inside, angle, outside, rfl,
      hangle, hglued, hfits, hbalanced, hnearer⟩)
    · exact ⟨[], t, before, rfl, hangle, hglued, by simp, rfl, by simp [opened, closed]⟩
    · refine ⟨t :: inside, angle, outside, rfl, hangle, hglued, fun nearer u further h => ?_, ?_,
        fun nearer h => ?_⟩
      · cases nearer with
        | nil =>
          obtain ⟨rfl, rfl⟩ := List.cons_eq_cons.1 h
          exact hfirst
        | cons v nearer => exact hfits nearer u further (List.cons_eq_cons.1 h).2
      · simp only [opened, closed] at hbalanced ⊢
        omega
      · cases nearer with
        | nil => simp [opened, closed]
        | cons u nearer =>
          obtain ⟨rfl, hprefix⟩ := List.cons_prefix_cons.1 h
          have hlater := hnearer nearer hprefix
          simp only [opened, closed] at hlater ⊢
          omega

/-- Past a token that opens no angle the way goes on. -/
theorem opensBefore_cons_of_fits (hfits : FitsArguments before t) (hopened : anglesOpened t = 0) :
    OpensBefore depth (t :: before) ↔ OpensBefore (depth + anglesClosed t) before := by
  have hne : t.kind ≠ .punct '<' := by
    intro hangle
    rw [anglesOpened, hangle] at hopened
    cases hopened
  rw [opensBefore_cons, hopened, Nat.sub_zero]
  exact ⟨fun h => (h.resolve_left fun h => hne h.1).2.2, fun h => .inr ⟨hfits, Nat.zero_le _, h⟩⟩

/-- Past a glued angle it goes on only if that angle is closed behind. -/
theorem opensBefore_cons_of_angle (hangle : t.kind = .punct '<') (hglued : Glued before t) :
    OpensBefore depth (t :: before) ↔ depth = 0 ∨ 1 ≤ depth ∧ OpensBefore (depth - 1) before := by
  have hopened : anglesOpened t = 1 := by simp [anglesOpened, hangle]
  have hclosed : anglesClosed t = 0 := by simp [anglesClosed, hangle]
  rw [opensBefore_cons, hopened, hclosed, Nat.zero_add, Nat.add_zero]
  exact or_congr (by simp [hangle, hglued]) (by simp [FitsArguments.angle hangle hglued])

/-- Anything else stops it. -/
theorem not_opensBefore_cons (h : ¬ FitsArguments before t) :
    ¬ OpensBefore depth (t :: before) := by
  rw [opensBefore_cons]
  rintro (⟨hangle, hglued, _⟩ | ⟨hfits, _⟩)
  · exact h (.angle hangle hglued)
  · exact h hfits

/-- The way back finds just that. -/
theorem insideTypeArguments_iff : insideTypeArguments depth before = true ↔
      OpensBefore depth before := by
  induction before generalizing depth with
  | nil => simp [insideTypeArguments, not_opensBefore_nil]
  | cons t before ih =>
    have hpass : FitsArguments before t → anglesOpened t = 0 → ∀ {n}, depth + anglesClosed t = n →
        (insideTypeArguments n before = true ↔ OpensBefore depth (t :: before)) := by
      rintro hfits hopened n rfl
      rw [opensBefore_cons_of_fits hfits hopened, ih]
    have hseparator : t.kind ∈ [.doubleColon, .punct ',', .punct '?', .punct '>', .attrClose] →
        ∀ {n}, depth + anglesClosed t = n →
          (insideTypeArguments n before = true ↔ OpensBefore depth (t :: before)) := by
      intro hmem
      refine hpass (.separator hmem) ?_
      simp only [List.mem_cons, List.not_mem_nil, or_false] at hmem
      rcases hmem with h | h | h | h | h <;> simp [anglesOpened, h]
    unfold insideTypeArguments
    split
    · next hkind =>
        exact hpass (.name hkind) (by simp [anglesOpened, hkind]) (by simp [anglesClosed, hkind])
    iterate 5
      · next hkind => exact hseparator (by simp [hkind]) (by simp [anglesClosed, hkind])
    · next hkind =>
      split
      · next hglued =>
        rw [opensBefore_cons_of_angle hkind (gluedToName_iff.1 hglued)]
        cases depth with
        | zero => simp
        | succ depth => simp [ih]
      · next hglued =>
        have hfits : ¬ FitsArguments before t := by
          rintro (h | h | ⟨_, h⟩)
          · cases hkind.symm.trans h
          · simp [hkind] at h
          · exact hglued (gluedToName_iff.2 h)
        simp [not_opensBefore_cons hfits]
    · next hname hcolons hcomma hquestion hclose hpair hangle =>
      have hfits : ¬ FitsArguments before t := by
        rintro (h | h | ⟨h, _⟩)
        · exact hname _ h
        · simp_all
        · exact hangle h
      simp [not_opensBefore_cons hfits]

end Reference
end ModuleVisibility
