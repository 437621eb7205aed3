import ModuleVisibility.Proofs.Grading
import ModuleVisibility.Settings.Decode

/-!
Warnings about diagnostic settings are true. There is one for each entry that asks for nothing when
it stands alone, and for no other one (`forall₂_warnings`); so what is warned about can be left out
and the policy stays the same (`ofSettings_withoutIdle`), and it depends on nothing that was asked
for before (`configure_eq_ofSettings`).

A map of severities has no order: a run goes through it in one that nobody chooses, and the last
entry that grades a kind counts. What settings make is therefore a policy that they *may* yield
(`Policy.MayYield`), and leaving out what is warned about changes none of these. There is one only
exactly if no kind is given two severities (`mayYield_one_iff`); a kind that is graded under its
code and under its name shows it.
-/
namespace ModuleVisibility

namespace Policy

/-- Under both policies the same kinds are listed, equally severe. -/
structure Same (p q : Policy) : Prop where
  enabled : ∀ k, p.isEnabled k = q.isEnabled k
  severity : ∀ k, p.severityOverride? k = q.severityOverride? k

theorem Same.refl (p : Policy) : p.Same p := ⟨fun _ => rfl, fun _ => rfl⟩

theorem Same.symm {p q : Policy} (h : p.Same q) : q.Same p :=
  ⟨fun k => (h.enabled k).symm, fun k => (h.severity k).symm⟩

theorem Same.trans {p q r : Policy} (h : p.Same q) (h' : q.Same r) : p.Same r :=
  ⟨fun k => (h.enabled k).trans (h'.enabled k), fun k => (h.severity k).trans (h'.severity k)⟩

/-- The severity that an entry gives to the kind that it names. -/
def graded? (entry : String × Severity) : Option (DiagnosticKind × Severity) :=
  (configurable? entry.1).map (·, entry.2)

theorem foldl_disable (p : Policy) (ids : List String) :
    ids.foldl disable p = { p with disabled := p.disabled ++ ids.filterMap configurable? } := by
  induction ids generalizing p with
  | nil => simp
  | cons id ids ih =>
    rw [List.foldl_cons, ih, disable]
    cases h : configurable? id with
    | none => simp [List.filterMap_cons_none h]
    | some k => simp [List.filterMap_cons_some h]

theorem foldl_override (p : Policy) (entries : List (String × Severity)) :
    entries.foldl override p =
    { p with overrides := (entries.filterMap graded?).reverse ++ p.overrides } := by
  induction entries generalizing p with
  | nil => rfl
  | cons entry entries ih =>
    have hoverride : p.override entry =
        { p with overrides := (graded? entry).toList ++ p.overrides } := rfl
    rw [List.foldl_cons, ih, hoverride]
    cases h : graded? entry with
    | none => simp [List.filterMap_cons_none h]
    | some graded => simp [List.filterMap_cons_some h]

/-- Nothing is left of what was asked for before. -/
theorem configure_eq_ofSettings (p : Policy) (s : DiagnosticSettings) :
    p.configure s = ofSettings s := by
  rw [configure, foldl_disable, foldl_override]
  simp only [clear, List.nil_append, List.append_nil]
  rfl

end Policy

/-- One entry of diagnostic settings. -/
inductive SettingsEntry where
  | disables (id : String)
  | regrades (id : String) (severity : Severity)
  deriving DecidableEq

namespace SettingsEntry

def id : SettingsEntry → String
  | disables id => id
  | regrades id _ => id

/-- The settings with this entry and no other one. -/
def alone : SettingsEntry → DiagnosticSettings
  | disables id => ⟨[id], []⟩
  | regrades id severity => ⟨[], [(id, severity)]⟩

/-- The entry asks for nothing when it stands alone. -/
def Idle (e : SettingsEntry) : Prop := (Policy.default.configure e.alone).Same .default

theorem ofSettings_disables (id : String) :
    Policy.ofSettings (disables id).alone = ⟨(Policy.configurable? id).toList, []⟩ := by
  cases h : Policy.configurable? id <;> simp [alone, Policy.ofSettings, h]

theorem ofSettings_regrades (id : String) (severity : Severity) :
    Policy.ofSettings (regrades id severity).alone =
      ⟨[], ((Policy.configurable? id).map (·, severity)).toList⟩ := by
  cases h : Policy.configurable? id <;> simp [alone, Policy.ofSettings, h]

/-- Whatever names a configurable kind can be seen in the policy. -/
theorem idle_iff {e : SettingsEntry} : e.Idle ↔ Policy.configurable? e.id = none := by
  unfold Idle
  rw [Policy.configure_eq_ofSettings]
  cases e with
  | disables id =>
    rw [ofSettings_disables, SettingsEntry.id]
    cases Policy.configurable? id with
    | none => exact iff_of_true (.refl _) rfl
    | some k =>
      refine iff_of_false (fun hsame => ?_) (Option.some_ne_none k)
      have hlisted := hsame.enabled k
      simp [Policy.isEnabled, Policy.default] at hlisted
  | regrades id severity =>
    rw [ofSettings_regrades, SettingsEntry.id]
    cases Policy.configurable? id with
    | none => exact iff_of_true (.refl _) rfl
    | some k =>
      refine iff_of_false (fun hsame => ?_) (Option.some_ne_none k)
      have hgraded := hsame.severity k
      simp [Policy.severityOverride?, Policy.default] at hgraded

instance (e : SettingsEntry) : Decidable e.Idle := decidable_of_iff _ idle_iff.symm

/-- The warning for an entry, if there is one. -/
def warning? : SettingsEntry → Option SettingsWarning
  | disables id => DiagnosticSettings.idWarning? .disablesUnknown .disablesError id
  | regrades id _ => DiagnosticSettings.idWarning? .regradesUnknown .regradesError id

/-- The warning is about the entry, and what it says of the identifier is so. -/
inductive Tells : SettingsEntry → SettingsWarning → Prop
  | disablesUnknown {id : String} (h : ∀ k : DiagnosticKind, ¬ k.IsNamed id) :
    Tells (disables id) (.disablesUnknown id)
  | disablesError {id : String} (k : DiagnosticKind) (h : k.IsNamed id)
    (herror : k.entry.severity = .error) :
    Tells (disables id) (.disablesError id)
  | regradesUnknown {id : String} {severity : Severity} (h : ∀ k : DiagnosticKind, ¬ k.IsNamed id) :
    Tells (regrades id severity) (.regradesUnknown id)
  | regradesError {id : String} {severity : Severity} (k : DiagnosticKind) (h : k.IsNamed id)
    (herror : k.entry.severity = .error) : Tells (regrades id severity) (.regradesError id)

/-- An identifier is that of a configurable kind, of no kind at all or of an error. -/
theorem idWarning?_cases (onUnknown onError : String → SettingsWarning) (id : String) :
    ((Policy.configurable? id).isSome ∧ DiagnosticSettings.idWarning? onUnknown onError id = none) ∨
      (Policy.configurable? id = none ∧
        ((∀ k : DiagnosticKind, ¬ k.IsNamed id) ∧
            DiagnosticSettings.idWarning? onUnknown onError id = some (onUnknown id) ∨
          (∃ k : DiagnosticKind, k.IsNamed id ∧ k.entry.severity = .error) ∧
            DiagnosticSettings.idWarning? onUnknown onError id = some (onError id))) := by
  unfold Policy.configurable? DiagnosticSettings.idWarning?
  cases hid : DiagnosticKind.ofId? id with
  | none =>
    refine .inr ⟨rfl, .inl ⟨fun k hk => ?_, rfl⟩⟩
    rw [DiagnosticKind.ofId?_eq_some_iff.2 hk] at hid
    cases hid
  | some k =>
    by_cases hk : k.isConfigurable = true
    · exact .inl ⟨by simp [hk], if_pos hk⟩
    · have herror : k.entry.severity = .error := by simpa [DiagnosticKind.isConfigurable] using hk
      exact .inr ⟨by simp [hk],
        .inr ⟨⟨k, DiagnosticKind.ofId?_eq_some_iff.1 hid, herror⟩, if_neg hk⟩⟩

theorem warning?_of_idle {e : SettingsEntry} (h : e.Idle) :
    ∃ w, e.warning? = some w ∧ e.Tells w := by
  rw [idle_iff] at h
  cases e with
  | disables id =>
    rcases idWarning?_cases .disablesUnknown .disablesError id with
      ⟨hsome, -⟩ | ⟨-, ⟨hnamed, hw⟩ | ⟨⟨k, hk, he⟩, hw⟩⟩
    · rw [SettingsEntry.id] at h
      simp [h] at hsome
    · exact ⟨_, hw, .disablesUnknown hnamed⟩
    · exact ⟨_, hw, .disablesError k hk he⟩
  | regrades id severity =>
    rcases idWarning?_cases .regradesUnknown .regradesError id with
      ⟨hsome, -⟩ | ⟨-, ⟨hnamed, hw⟩ | ⟨⟨k, hk, he⟩, hw⟩⟩
    · rw [SettingsEntry.id] at h
      simp [h] at hsome
    · exact ⟨_, hw, .regradesUnknown hnamed⟩
    · exact ⟨_, hw, .regradesError k hk he⟩

theorem warning?_of_not_idle {e : SettingsEntry} (h : ¬ e.Idle) : e.warning? = none := by
  rw [idle_iff] at h
  cases e with
  | disables id =>
    exact ((idWarning?_cases .disablesUnknown .disablesError id).resolve_right
      fun hnone => h hnone.1).2
  | regrades id severity =>
    exact ((idWarning?_cases .regradesUnknown .regradesError id).resolve_right
      fun hnone => h hnone.1).2

end SettingsEntry

namespace DiagnosticSettings

variable {s : DiagnosticSettings}

/-- The entries: those that disable in the order of the list, and then those that grade in the order
of their identifiers. -/
def entries (s : DiagnosticSettings) : List SettingsEntry :=
  s.disabled.map .disables ++ s.byId.map fun (id, severity) => .regrades id severity

/-- The settings without the entries that ask for nothing. -/
def withoutIdle (s : DiagnosticSettings) : DiagnosticSettings where
  disabled := s.disabled.filter fun id => ¬ (SettingsEntry.disables id).Idle
  severity := s.severity.filter fun entry => ¬ (SettingsEntry.regrades entry.1 entry.2).Idle

theorem warnings_eq (s : DiagnosticSettings) :
    s.warnings = s.entries.filterMap SettingsEntry.warning? := by
  rw [entries, List.filterMap_append, List.filterMap_map, List.filterMap_map]
  rfl

/-- Each entry that asks for nothing has its warning, in the order of the entries. -/
theorem forall₂_warnings (s : DiagnosticSettings) :
    List.Forall₂ SettingsEntry.Tells (s.entries.filter fun e => e.Idle) s.warnings := by
  rw [warnings_eq]
  induction s.entries with
  | nil => exact .nil
  | cons e rest ih =>
    by_cases hidle : e.Idle
    · obtain ⟨w, hw, htells⟩ := SettingsEntry.warning?_of_idle hidle
      rw [List.filter_cons, if_pos (decide_eq_true hidle), List.filterMap_cons_some hw]
      exact .cons htells ih
    · rw [List.filter_cons_of_neg (by simpa using hidle),
        List.filterMap_cons_none (SettingsEntry.warning?_of_not_idle hidle)]
      exact ih

end DiagnosticSettings

namespace Policy

/-- What is left out named no configurable kind. -/
theorem ofSettings_withoutIdle (s : DiagnosticSettings) :
    ofSettings s.withoutIdle = ofSettings s := by
  have hdisables : ∀ id, (if ¬ (SettingsEntry.disables id).Idle then configurable? id else none) =
      configurable? id := by
    intro id
    split
    · rfl
    · next hidle => exact (SettingsEntry.idle_iff.1 (not_not.1 hidle)).symm
  have hregrades : ∀ entry : String × Severity,
      (if ¬ (SettingsEntry.regrades entry.1 entry.2).Idle then graded? entry else none) =
      graded? entry := by
    intro entry
    split
    · rfl
    · next hidle =>
      have hnone : configurable? entry.1 = none := SettingsEntry.idle_iff.1 (not_not.1 hidle)
      rw [graded?, hnone]
      rfl
  have hids : s.withoutIdle.disabled.filterMap configurable? =
      s.disabled.filterMap configurable? := by
    simp only [DiagnosticSettings.withoutIdle, List.filterMap_filter, decide_eq_true_eq, hdisables]
  have hgraded : s.withoutIdle.severity.filterMap graded? = s.severity.filterMap graded? := by
    simp only [DiagnosticSettings.withoutIdle, List.filterMap_filter, decide_eq_true_eq, hregrades]
  calc ofSettings s.withoutIdle
      = ⟨s.withoutIdle.disabled.filterMap configurable?,
        (s.withoutIdle.severity.filterMap graded?).reverse⟩ := rfl
    _ = ⟨s.disabled.filterMap configurable?,
        (s.severity.filterMap graded?).reverse⟩ := by rw [hids, hgraded]
    _ = ofSettings s := rfl

end Policy

namespace DiagnosticSettings

variable {s t u : DiagnosticSettings}

/-- The same identifiers to disable and the same map of severities, which may be gone through in
another order. -/
structure Equiv (s t : DiagnosticSettings) : Prop where
  disabled : s.disabled = t.disabled
  severity : s.severity.Perm t.severity

namespace Equiv

theorem withoutIdle (h : s.Equiv t) : s.withoutIdle.Equiv t.withoutIdle where
  disabled := congrArg (List.filter _) h.disabled
  severity := h.severity.filter _

theorem regrades_iff (h : s.Equiv t) {k : DiagnosticKind} {severity : Severity} :
    s.Regrades k severity ↔ t.Regrades k severity := by
  simp only [Regrades, h.severity.mem_iff]

end Equiv

/-- Entries that ask for nothing fit in behind the others, in whatever order those are. -/
theorem exists_equiv_of_withoutIdle (h : t.Equiv s.withoutIdle) :
    ∃ u : DiagnosticSettings, u.Equiv s ∧ u.withoutIdle = t := by
  let asks : String × Severity → Bool := fun entry =>
    ¬ (SettingsEntry.regrades entry.1 entry.2).Idle
  have hperm : (t.severity ++ s.severity.filter fun entry => !asks entry).Perm s.severity :=
    (h.severity.append_right _).trans (List.filter_append_perm asks s.severity)
  have hkept : t.severity.filter asks = t.severity := by
    apply List.filter_eq_self.2
    intro entry hentry
    exact (List.mem_filter.1 (h.severity.mem_iff.1 hentry)).2
  have hleft : (s.severity.filter fun entry => !asks entry).filter asks = [] := by
    simp [List.filter_filter]
  refine ⟨⟨s.disabled, t.severity ++ s.severity.filter fun entry => !asks entry⟩, ⟨rfl, hperm⟩, ?_⟩
  have hseverity : (t.severity ++ s.severity.filter fun entry => !asks entry).filter asks =
      t.severity := by
    rw [List.filter_append, hkept, hleft, List.append_nil]
  exact congr (congrArg mk h.disabled.symm) hseverity

theorem perm_byId (s : DiagnosticSettings) : s.byId.Perm s.severity :=
  List.mergeSort_perm s.severity idLe

theorem pairwise_byId (s : DiagnosticSettings) : s.byId.Pairwise fun a b => a.1 ≤ b.1 := by
  have htrans : ∀ a b c, idLe a b = true → idLe b c = true → idLe a c = true := by
    intro a b c hab hbc
    exact decide_eq_true (String.le_trans (of_decide_eq_true hab) (of_decide_eq_true hbc))
  have htotal : ∀ a b, (idLe a b || idLe b a) = true := by
    intro a b
    simpa [idLe] using String.le_total a.1 b.1
  exact (List.pairwise_mergeSort htrans htotal s.severity).imp of_decide_eq_true

/-- The order of the map does not show in the identifiers once they are sorted. -/
theorem Equiv.ids_byId (h : s.Equiv t) : s.byId.map Prod.fst = t.byId.map Prod.fst := by
  have hperm : (s.byId.map Prod.fst).Perm (t.byId.map Prod.fst) :=
    ((s.perm_byId.trans h.severity).trans t.perm_byId.symm).map Prod.fst
  exact hperm.eq_of_pairwise (fun a b _ _ hab hba => String.le_antisymm hab hba)
    (List.pairwise_map.2 s.pairwise_byId) (List.pairwise_map.2 t.pairwise_byId)

theorem Equiv.warnings (h : s.Equiv t) : s.warnings = t.warnings := by
  have hids : ∀ u : DiagnosticSettings,
      (u.byId.filterMap fun (id, _) => idWarning? .regradesUnknown .regradesError id) =
        (u.byId.map Prod.fst).filterMap (idWarning? .regradesUnknown .regradesError) := by
    intro u
    rw [List.filterMap_map]
    rfl
  rw [DiagnosticSettings.warnings, DiagnosticSettings.warnings, h.disabled, hids, hids, h.ids_byId]

/-- No kind is given two severities. -/
def GradesOnce (s : DiagnosticSettings) : Prop :=
  ∀ k severity other, s.Regrades k severity → s.Regrades k other → severity = other

end DiagnosticSettings

namespace Policy

variable {s t : DiagnosticSettings} {p q q' : Policy}

/-- In some order of their severities, the settings make this policy out of an earlier one. -/
def MayYield (p : Policy) (s : DiagnosticSettings) (q : Policy) : Prop :=
  ∃ t : DiagnosticSettings, t.Equiv s ∧ (p.configure t).Same q

theorem mayYield_configure (p : Policy) (h : t.Equiv s) : p.MayYield s (p.configure t) :=
  ⟨t, h, .refl _⟩

theorem configure_withoutIdle (p : Policy) (s : DiagnosticSettings) :
    p.configure s.withoutIdle = p.configure s := by
  rw [configure_eq_ofSettings, configure_eq_ofSettings, ofSettings_withoutIdle]

/-- Leaving out what asks for nothing makes no policy possible that was not, and none impossible. -/
theorem mayYield_withoutIdle_iff : p.MayYield s.withoutIdle q ↔ p.MayYield s q := by
  constructor
  · rintro ⟨t, ht, hsame⟩
    obtain ⟨u, hu, rfl⟩ := DiagnosticSettings.exists_equiv_of_withoutIdle ht
    rw [configure_withoutIdle] at hsame
    exact ⟨u, hu, hsame⟩
  · rintro ⟨t, ht, hsame⟩
    rw [← configure_withoutIdle] at hsame
    exact ⟨t.withoutIdle, ht.withoutIdle, hsame⟩

/-- What was asked for before bears on no outcome. -/
theorem mayYield_congr_left (p p' : Policy) : p.MayYield s q ↔ p'.MayYield s q := by
  simp only [MayYield, configure_eq_ofSettings]

/-- The order of the severities matters only where a kind is given two. -/
theorem same_of_equiv (h : s.Equiv t) (honce : s.GradesOnce) :
    (ofSettings s).Same (ofSettings t) where
  enabled k := by
    have hdisabled : (ofSettings s).disabled = (ofSettings t).disabled :=
      congrArg (List.filterMap configurable?) h.disabled
    rw [isEnabled, isEnabled, hdisabled]
  severity k := by
    cases hs : (ofSettings s).severityOverride? k with
    | none =>
      cases ht : (ofSettings t).severityOverride? k with
      | none => rfl
      | some other =>
        have hregrades := h.regrades_iff.2 (regrades_of_severityOverride? ht)
        exact absurd hregrades (not_regrades_of_severityOverride? hs)
    | some severity =>
      have hregrades := regrades_of_severityOverride? hs
      cases ht : (ofSettings t).severityOverride? k with
      | none => exact absurd (h.regrades_iff.1 hregrades) (not_regrades_of_severityOverride? ht)
      | some other =>
        have hother := h.regrades_iff.2 (regrades_of_severityOverride? ht)
        rw [honce k severity other hregrades hother]

/-- An entry that grades a kind can be gone through last, and then it counts. -/
theorem exists_mayYield_of_regrades {k : DiagnosticKind} {severity : Severity}
    (h : s.Regrades k severity) :
    ∃ q, p.MayYield s q ∧ q.severityOverride? k = some severity := by
  obtain ⟨herror, id, hid, hnamed⟩ := h
  let rest := s.severity.erase (id, severity)
  have hequiv : (⟨s.disabled, rest ++ [(id, severity)]⟩ : DiagnosticSettings).Equiv s :=
    ⟨rfl, (List.perm_append_singleton _ rest).trans (List.perm_cons_erase hid).symm⟩
  refine ⟨_, mayYield_configure p hequiv, ?_⟩
  have hconfigurable : configurable? id = some k := configurable?_eq_some_iff.2 ⟨hnamed, herror⟩
  rw [configure_eq_ofSettings, severityOverride?, ofSettings]
  simp [hconfigurable]

/-- There is one policy that the settings may yield, exactly if they give no kind two severities. -/
theorem mayYield_one_iff :
    (∀ q q', p.MayYield s q → p.MayYield s q' → q.Same q') ↔ s.GradesOnce := by
  constructor
  · intro hone k severity other hseverity hother
    obtain ⟨q, hq, hgrades⟩ := exists_mayYield_of_regrades (p := p) hseverity
    obtain ⟨q', hq', hgrades'⟩ := exists_mayYield_of_regrades (p := p) hother
    have hsame := (hone q q' hq hq').severity k
    rw [hgrades, hgrades'] at hsame
    exact Option.some.inj hsame
  · rintro honce q q' ⟨t, ht, hq⟩ ⟨t', ht', hq'⟩
    rw [configure_eq_ofSettings] at hq hq'
    have honly : ∀ {u : DiagnosticSettings}, u.Equiv s → (ofSettings u).Same (ofSettings s) :=
      fun hu => same_of_equiv hu fun k severity other h h' =>
        honce k severity other (hu.regrades_iff.1 h) (hu.regrades_iff.1 h')
    exact (hq.symm.trans (honly ht)).trans ((honly ht').symm.trans hq')

/-- A kind graded under its code and under its name has the severity of the entry gone through
last. -/
theorem not_same_of_two_spellings :
    ¬ (default.configure ⟨[], [("T004", .warning), ("trait-method-collision", .hint)]⟩).Same
      (default.configure ⟨[], [("trait-method-collision", .hint), ("T004", .warning)]⟩) := by
  intro hsame
  have hgraded := hsame.severity .traitMethodCollision
  revert hgraded
  decide

end Policy

namespace DiagnosticSettings

/-- What warnings say about settings, and what the policy makes of them. -/
structure WarnsTruly (s : DiagnosticSettings) : Prop where
  /-- The entries that are warned about are those that ask for nothing, each with a warning of its
  own. -/
  warnings : List.Forall₂ SettingsEntry.Tells (s.entries.filter fun e => e.Idle) s.warnings
  /-- Those that grade are warned about in the order of their identifiers. -/
  order : s.byId.Perm s.severity ∧ s.byId.Pairwise fun a b => a.1 ≤ b.1
  /-- In whatever order a run goes through the map, the warnings are these. -/
  anyOrder : ∀ t : DiagnosticSettings, t.Equiv s → t.warnings = s.warnings
  /-- The policies that the settings may yield are those that they may yield without the entries
  warned about. The two maps need not be gone through in the same order. -/
  yields : ∀ p q : Policy, p.MayYield s q ↔ p.MayYield s.withoutIdle q
  /-- Erasing entries leaves the order of the others: gone through in it, they make one policy. -/
  erased : ∀ p : Policy, p.configure s = p.configure s.withoutIdle
  /-- What was asked for before makes no difference. -/
  fresh : ∀ (earlier : List DiagnosticSettings) (p q : Policy),
    (earlier.foldl Policy.configure p).MayYield s q ↔ Policy.default.MayYield s q

/-- An error by its code, no kind at all, and a configurable kind by both its name and its code. -/
example : warnings ⟨["V001", "no-such-check", "trait-method-collision"], [("T004", .warning)]⟩ =
    [.disablesError "V001", .disablesUnknown "no-such-check"] := by
  rw [warnings, byId, List.mergeSort_singleton]
  decide

end DiagnosticSettings
end ModuleVisibility
