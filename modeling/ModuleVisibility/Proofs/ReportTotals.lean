import Mathlib.Algebra.BigOperators.Group.Finset.Basic
import Mathlib.Algebra.GroupWithZero.Nat
import Mathlib.Algebra.Order.BigOperators.Group.Multiset
import Mathlib.Data.Finset.Card
import ModuleVisibility.Command.Check
import ModuleVisibility.Proofs.JsonText
import ModuleVisibility.Proofs.Lookup

/-!
The totals of a check. What is shown are the diagnostics that are severe enough. The document counts
them while it goes through them, the lines and the excerpts count them below the last one, and the
outcome counts them once more; all come to the same numbers, and the exit code goes by these.
-/
namespace ModuleVisibility

/-- Where every element has one of some keys, the elements of each key add up to all. -/
theorem sum_countP_key {α κ : Type} [DecidableEq κ] {key : α → κ} {keys : List κ}
    (hnodup : keys.Nodup) (hkeys : ∀ k, k ∈ keys) (l : List α) :
    (keys.map fun k => l.countP (key · == k)).sum = l.length := by
  have hcount : ∀ k, l.countP (key · == k) = Multiset.count k (l.map key : Multiset κ) := by
    intro k
    rw [Multiset.coe_count, List.count, List.countP_map]
    rfl
  simp only [hcount]
  rw [← List.sum_toFinset _ hnodup, Multiset.sum_count_eq_card, Multiset.coe_card, List.length_map]
  intro k _
  exact List.mem_toFinset.2 (hkeys k)

theorem Severity.mem_all (s : Severity) : s ∈ all := by
  cases s <;> decide

theorem Category.mem_all (c : Category) : c ∈ all := by
  cases c <;> decide

/-! The numbers of a document. One diagnostic more adds one to one number of each kind. -/

namespace SeverityCounts

/-- The number of a severity. -/
def get (c : SeverityCounts) : Severity → Nat
  | .error => c.error
  | .warning => c.warning
  | .info => c.info
  | .hint => c.hint

theorem document_eq (c : SeverityCounts) :
    c.document = .object (Severity.all.map fun s => (s.text, .number (c.get s))) := rfl

theorem get_add (c : SeverityCounts) (s s' : Severity) :
    (c.add s).get s' = c.get s' + if s == s' then 1 else 0 := by
  cases s <;> cases s' <;> rfl

end SeverityCounts

namespace CategoryCounts

/-- The number of a category. -/
def get (c : CategoryCounts) : Category → Nat
  | .lexical => c.lexical
  | .structural => c.structural
  | .composition => c.composition
  | .visibility => c.visibility

theorem document_eq (c : CategoryCounts) :
    c.document = .object (Category.all.map fun k => (k.text, .number (c.get k))) := rfl

theorem get_add (c : CategoryCounts) (k k' : Category) :
    (c.add k).get k' = c.get k' + if k == k' then 1 else 0 := by
  cases k <;> cases k' <;> rfl

end CategoryCounts

namespace Tally

variable (t : Tally) (ds : List Diagnostic)

theorem bySeverity_foldl (s : Severity) :
    (ds.foldl add t).bySeverity.get s = t.bySeverity.get s + Diagnostic.countAt ds s := by
  induction ds generalizing t with
  | nil => rfl
  | cons d ds ih =>
    rw [List.foldl_cons, ih, add, SeverityCounts.get_add, Diagnostic.countAt, Diagnostic.countAt,
      List.countP_cons]
    omega

theorem byCategory_foldl (c : Category) : (ds.foldl add t).byCategory.get c =
    t.byCategory.get c + ds.countP (·.kind.entry.category == c) := by
  induction ds generalizing t with
  | nil => rfl
  | cons d ds ih =>
    rw [List.foldl_cons, ih, add, CategoryCounts.get_add, List.countP_cons]
    omega

/-- Each file is met once. -/
theorem files_foldl (h : t.files.Nodup) : (ds.foldl add t).files.Nodup ∧
    ∀ file, file ∈ (ds.foldl add t).files ↔
      file ∈ t.files ∨ file ∈ ds.map (·.location.file) := by
  induction ds generalizing t with
  | nil => exact ⟨h, fun file => by simp⟩
  | cons d ds ih =>
    have hadded : (t.add d).files.Nodup ∧
        ∀ file, file ∈ (t.add d).files ↔ file ∈ t.files ∨ file = d.location.file := by
      unfold add
      dsimp only
      split
      · next hknown =>
        refine ⟨h, fun file => (or_iff_left_of_imp ?_).symm⟩
        rintro rfl
        exact hknown
      · next hnew => exact ⟨List.nodup_cons.2 ⟨hnew, h⟩, fun file => List.mem_cons.trans or_comm⟩
    obtain ⟨hnodup, hmem⟩ := ih (t.add d) hadded.1
    refine ⟨hnodup, fun file => ?_⟩
    rw [List.foldl_cons, hmem, hadded.2, or_assoc, List.map_cons, List.mem_cons]

theorem length_files_foldl :
    (ds.foldl add zero).files.length = (ds.map (·.location.file)).toFinset.card := by
  obtain ⟨hnodup, hmem⟩ := files_foldl zero ds List.nodup_nil
  rw [← List.toFinset_card_of_nodup hnodup]
  congr 1
  ext file
  rw [List.mem_toFinset, List.mem_toFinset, hmem]
  exact or_iff_right List.not_mem_nil

end Tally

namespace JsonValue

/-- What stands at the end of some member names. -/
def at? (v : JsonValue) : List String → Option JsonValue
  | [] => some v
  | name :: names => (v.member? name).bind fun w => w.at? names

/-- The numbers among the members, added up. -/
def memberSum : JsonValue → Nat
  | object members => (members.map fun | (_, number n) => n | _ => 0).sum
  | _ => 0

theorem at?_concat (v : JsonValue) (names : List String) (name : String) :
    v.at? (names ++ [name]) = (v.at? names).bind (·.member? name) := by
  induction names generalizing v with
  | nil =>
    rw [List.nil_append, at?, at?, Option.bind_some]
    exact Option.bind_fun_some _
  | cons first names ih =>
    rw [List.cons_append, at?, at?, Option.bind_assoc]
    simp only [ih]

/-- In an object made for some keys, the texts of which are different, each key has its own
number. -/
theorem member?_counts {κ : Type} {text : κ → String} {keys : List κ} (count : κ → Nat)
    (hnodup : (keys.map text).Nodup) {k : κ} (hk : k ∈ keys) :
    (object (keys.map fun k => (text k, number (count k)))).member? (text k) =
      some (number (count k)) := by
  have hfst : (keys.map fun k => (text k, number (count k))).map Prod.fst = keys.map text := by
    rw [List.map_map]
    rfl
  rw [member?, lookup_eq_some_iff_mem (by rwa [hfst])]
  exact List.mem_map_of_mem hk

theorem memberSum_counts {κ : Type} (text : κ → String) (keys : List κ) (count : κ → Nat) :
    (object (keys.map fun k => (text k, number (count k)))).memberSum = (keys.map count).sum := by
  rw [memberSum, List.map_map]
  rfl

end JsonValue

/-- A document says of diagnostics what they are and how many there are in all, of each severity, of
each category and in how many files. -/
structure JsonValue.Counts (document : JsonValue) (ds : List Diagnostic) : Prop where
  diagnostics : document.at? ["diagnostics"] = some (.list (ds.map Diagnostic.document))
  /-- Each of them is told by its code, severity, message and place. -/
  told : ∀ d ∈ ds, d.document.at? ["rule_id"] = some (.text d.kind.code) ∧
    d.document.at? ["severity"] = some (.text d.severity.text) ∧
    d.document.at? ["message"] = some (.text d.message) ∧
    d.document.at? ["location"] = some d.location.document
  total : document.at? ["summary", "total_diagnostics"] = some (.number ds.length)
  severity : ∀ s : Severity, document.at? ["summary", "by_severity", s.text] =
    some (.number (Diagnostic.countAt ds s))
  category : ∀ c : Category, document.at? ["summary", "by_category", c.text] =
    some (.number (ds.countP (·.kind.entry.category == c)))
  severities : ∃ counts, document.at? ["summary", "by_severity"] = some counts ∧
    counts.memberSum = ds.length
  categories : ∃ counts, document.at? ["summary", "by_category"] = some counts ∧
    counts.memberSum = ds.length
  files : document.at? ["summary", "files_with_issues"] =
    some (.number (ds.map (·.location.file)).toFinset.card)

namespace Report

theorem at?_bySeverity (r : Report) : r.document.at? ["summary", "by_severity"] =
    some (.object (Severity.all.map fun s =>
      (s.text, .number (Diagnostic.countAt r.diagnostics s)))) := by
  have hcounts : ∀ s, (r.diagnostics.foldl Tally.add .zero).bySeverity.get s =
      Diagnostic.countAt r.diagnostics s := by
    intro s
    rw [Tally.bySeverity_foldl]
    cases s <;> exact Nat.zero_add _
  have hdocument : r.document.at? ["summary", "by_severity"] =
      some (r.diagnostics.foldl Tally.add .zero).bySeverity.document := rfl
  simp only [hdocument, SeverityCounts.document_eq, hcounts]

theorem at?_byCategory (r : Report) : r.document.at? ["summary", "by_category"] =
    some (.object (Category.all.map fun c =>
      (c.text, .number (r.diagnostics.countP (·.kind.entry.category == c))))) := by
  have hcounts : ∀ c, (r.diagnostics.foldl Tally.add .zero).byCategory.get c =
      r.diagnostics.countP (·.kind.entry.category == c) := by
    intro c
    rw [Tally.byCategory_foldl]
    cases c <;> exact Nat.zero_add _
  have hdocument : r.document.at? ["summary", "by_category"] =
      some (r.diagnostics.foldl Tally.add .zero).byCategory.document := rfl
  simp only [hdocument, CategoryCounts.document_eq, hcounts]

theorem counts_document (r : Report) : r.document.Counts r.diagnostics where
  diagnostics := rfl
  told _ _ := ⟨rfl, rfl, rfl, rfl⟩
  total := rfl
  severity s := by
    have hpath := r.document.at?_concat ["summary", "by_severity"] s.text
    rw [at?_bySeverity, Option.bind_some] at hpath
    exact hpath.trans (JsonValue.member?_counts _ (by decide) s.mem_all)
  category c := by
    have hpath := r.document.at?_concat ["summary", "by_category"] c.text
    rw [at?_byCategory, Option.bind_some] at hpath
    exact hpath.trans (JsonValue.member?_counts _ (by decide) c.mem_all)
  severities := by
    refine ⟨_, r.at?_bySeverity, ?_⟩
    rw [JsonValue.memberSum_counts]
    exact sum_countP_key (by decide) Severity.mem_all r.diagnostics
  categories := by
    refine ⟨_, r.at?_byCategory, ?_⟩
    rw [JsonValue.memberSum_counts]
    exact sum_countP_key (by decide) Category.mem_all r.diagnostics
  files := by
    rw [← Tally.length_files_foldl]
    rfl

theorem count_eq (r : Report) (s : Severity) : r.count s = Diagnostic.countAt r.diagnostics s :=
  List.countP_eq_length_filter.symm

theorem compactTotals_eq (r : Report) (h : r.diagnostics ≠ []) : r.compactTotals =
    ["", "Found " ++ toString (Diagnostic.countAt r.diagnostics .error) ++ " error(s) and "
      ++ toString (Diagnostic.countAt r.diagnostics .warning) ++ " warning(s)"] := by
  rw [compactTotals, if_neg (by simpa using h), count_eq, count_eq]

theorem prettyTotals_eq (r : Report) (mode : ColorMode) (h : r.diagnostics ≠ []) :
    r.prettyTotals mode =
      ["", "Found " ++ (Style.ofEmphasis .bold).paint mode (toString r.diagnostics.length)
        ++ (if r.diagnostics.length = 1 then " problem (" else " problems (")
        ++ (Style.ofColor .red).paint mode
          (counted (Diagnostic.countAt r.diagnostics .error) "error") ++ ", "
        ++ (Style.ofColor .yellow).paint mode
          (counted (Diagnostic.countAt r.diagnostics .warning) "warning") ++ ")"] := by
  have hcount : ∀ s, (r.diagnostics.filter (·.severity == s)).length =
      Diagnostic.countAt r.diagnostics s := fun _ => List.countP_eq_length_filter.symm
  rw [prettyTotals, if_neg (by simpa using h)]
  simp only [hcount]

end Report

theorem CheckOutcome.isFailure_iff (o : CheckOutcome) (failOnWarnings : Bool) :
    o.isFailure failOnWarnings = true ↔
      0 < o.errors ∨ (failOnWarnings = true ∧ 0 < o.warnings) := by
  simp [isFailure]

/-! The lines of a text. -/

/-- The text has these lines, each of them ended. -/
def HasLines (text : String) (lines : List String) : Prop :=
  text.toList = lines.flatMap fun line => line.toList ++ ['\n']

theorem hasLines_unlines (lines : List String) : HasLines (unlines lines) lines := by
  unfold HasLines unlines
  rw [String.toList_join, List.flatMap_map]
  simp only [String.toList_append]
  rfl

/-- The diagnostics that are severe enough, in order. -/
def Analysis.atLeast (a : Analysis) (minimum : Severity) : List Diagnostic :=
  a.diagnostics.filter fun d => minimum.level ≤ d.severity.level

theorem Diagnostic.countAt_pos_iff {ds : List Diagnostic} {severity : Severity} :
    0 < countAt ds severity ↔ ∃ d ∈ ds, d.severity = severity := by
  simp [countAt, List.countP_pos_iff]

namespace CheckRequest

variable {r : CheckRequest} {s : Surroundings} {format : ReportFormat} {minimum : Severity}
  {files : List SourceFile}

/-- The same check with its report in another format. -/
def inFormat (r : CheckRequest) (format : String) : CheckRequest := { r with format := format }

/-- The least severity that is shown: every severity is, unless the request names one. -/
def minimum? (r : CheckRequest) : Option Severity :=
  match r.severity with
  | none => some .hint
  | some text => Severity.ofText? text

/-- The settings that a check goes by. -/
def settings (r : CheckRequest) (s : Surroundings) : Settings :=
  (Settings.loadOrDefault s.files (r.settingsStart s.files)).1

/-- What is found in files under these settings. -/
def analysis (r : CheckRequest) (s : Surroundings) (files : List SourceFile) : Analysis :=
  Analysis.ofFiles (.ofSettings (r.settings s).diagnostics) files

/-- The report of a check on files. -/
def report (r : CheckRequest) (s : Surroundings) (minimum : Severity) (files : List SourceFile) :
    Report :=
  Report.ofFiles (r.settings s) minimum s.files.currentPath r.path files

theorem diagnostics_report (r : CheckRequest) (s : Surroundings) (minimum : Severity)
    (files : List SourceFile) :
    (r.report s minimum files).diagnostics = (r.analysis s files).atLeast minimum := rfl

theorem presentation_eq (hminimum : r.minimum? = some minimum)
    (hformat : ReportFormat.ofText? r.format = some format) :
    r.presentation = .ok (format, minimum) := by
  unfold minimum? at hminimum
  unfold presentation
  rw [hformat]
  cases hseverity : r.severity with
  | none =>
    rw [hseverity] at hminimum
    cases hminimum
    rfl
  | some text =>
    rw [hseverity] at hminimum
    simp only at hminimum
    simp [hminimum, bind, Except.bind, pure, Except.pure]

theorem examine_eq (r : CheckRequest) (s : Surroundings) (format : ReportFormat)
    (minimum : Severity) (hfiles : files ≠ []) :
    r.examine s format minimum (r.settings s) files =
      ((r.report s minimum files).shown (r.mode s.colors) format,
        (r.report s minimum files).outcome) := by
  unfold examine
  rw [if_neg (by simp [hfiles])]
  rfl

/-- A check of files answers with what it shows and with the code that goes with its outcome. -/
theorem run_eq (hminimum : r.minimum? = some minimum)
    (hformat : ReportFormat.ofText? r.format = some format)
    (hsources : r.sources s.files (r.settings s) = .ok files) (hfiles : files ≠ []) :
    (r.run s).output = (r.report s minimum files).shown (r.mode s.colors) format ∧
      (r.run s).code = (r.report s minimum files).outcome.code r.failOnWarnings := by
  have hexamine := r.examine_eq s format minimum hfiles
  unfold settings at hsources hexamine
  unfold run
  rw [presentation_eq hminimum hformat]
  simp only [hsources, respond, hexamine]
  exact ⟨trivial, trivial⟩

/-- What a check on files shows in each of its formats, and how it ends. -/
structure ShowsTotals (r : CheckRequest) (s : Surroundings) (minimum : Severity)
    (files : List SourceFile) (shown : List Diagnostic) : Prop where
  /-- The document counts what is shown, and no other document has its text. -/
  json : ∃ document : JsonValue, ((r.inFormat "json").run s).output = document.render ++ "\n" ∧
    document.Counts shown ∧ ∀ other : JsonValue, other.render = document.render → other = document
  text : shown ≠ [] → HasLines ((r.inFormat "text").run s).output
    (shown.flatMap (·.compactLines (r.mode s.colors)) ++
      ["", "Found " ++ toString (Diagnostic.countAt shown .error) ++ " error(s) and "
        ++ toString (Diagnostic.countAt shown .warning) ++ " warning(s)"])
  pretty : shown ≠ [] → HasLines ((r.inFormat "pretty").run s).output
    (shown.flatMap (·.prettyLines (r.analysis s files).sources (r.mode s.colors)) ++
      ["", "Found " ++ (Style.ofEmphasis .bold).paint (r.mode s.colors) (toString shown.length)
        ++ (if shown.length = 1 then " problem (" else " problems (")
        ++ (Style.ofColor .red).paint (r.mode s.colors)
          (counted (Diagnostic.countAt shown .error) "error") ++ ", "
        ++ (Style.ofColor .yellow).paint (r.mode s.colors)
          (counted (Diagnostic.countAt shown .warning) "warning") ++ ")"])
  /-- Each of these diagnostics has a line from its place to its message. -/
  listed : ∀ d ∈ shown, ∃ rest, d.compactLines (r.mode s.colors) =
    (d.location.file ++ ":" ++ toString d.location.start.line ++ ":"
      ++ toString d.location.start.column ++ ": " ++ d.severity.heading (r.mode s.colors) ++ " ["
      ++ (Style.ofEmphasis .dimmed).paint (r.mode s.colors) d.kind.code ++ "]: " ++ d.message)
      :: rest
  /-- Where nothing is shown, the lines are none, and the excerpts give way to one line without
  totals. -/
  silent : shown = [] → HasLines ((r.inFormat "text").run s).output [] ∧
    HasLines ((r.inFormat "pretty").run s).output
      [(Style.bold .green).paint (r.mode s.colors) "✓" ++ " No problems found in "
        ++ toString files.length ++ " file(s)"]
  /-- The outcome has the same numbers, in every format. -/
  outcome : ∀ format kind, ReportFormat.ofText? format = some kind →
    (r.inFormat format).examine s kind minimum (r.settings s) files =
      (((r.inFormat format).run s).output, ⟨files.length, Diagnostic.countAt shown .error,
        Diagnostic.countAt shown .warning⟩)
  totals : ∀ format kind, ReportFormat.ofText? format = some kind →
    ((r.inFormat format).run s).code =
      if 0 < Diagnostic.countAt shown .error ∨
          (r.failOnWarnings = true ∧ 0 < Diagnostic.countAt shown .warning) then 1
      else 0
  fails : ∀ format kind, ReportFormat.ofText? format = some kind →
    (((r.inFormat format).run s).code = 1 ↔ (∃ d ∈ shown, d.severity = .error) ∨
      (r.failOnWarnings = true ∧ ∃ d ∈ shown, d.severity = .warning))

/-- The outcome of a report counts the errors and warnings that it shows. -/
theorem outcome_report (r : CheckRequest) (s : Surroundings) (minimum : Severity)
    (files : List SourceFile) : (r.report s minimum files).outcome =
      ⟨files.length, Diagnostic.countAt ((r.analysis s files).atLeast minimum) .error,
        Diagnostic.countAt ((r.analysis s files).atLeast minimum) .warning⟩ := by
  rw [Report.outcome, Report.count_eq, Report.count_eq, diagnostics_report]
  rfl

/-- A check fails for an error that it shows, and for a warning if it is asked to. -/
theorem code_report (r : CheckRequest) (s : Surroundings) (minimum : Severity)
    (files : List SourceFile) (failOnWarnings : Bool) :
    (r.report s minimum files).outcome.code failOnWarnings =
      if 0 < Diagnostic.countAt ((r.analysis s files).atLeast minimum) .error ∨
          (failOnWarnings = true ∧
            0 < Diagnostic.countAt ((r.analysis s files).atLeast minimum) .warning) then 1
      else 0 := by
  rw [outcome_report, CheckOutcome.code]
  simp only [CheckOutcome.isFailure_iff]

theorem showsTotals_run (hminimum : r.minimum? = some minimum)
    (hsources : r.sources s.files (r.settings s) = .ok files) (hfiles : files ≠ []) :
    r.ShowsTotals s minimum files ((r.analysis s files).atLeast minimum) := by
  have hrun : ∀ format kind, ReportFormat.ofText? format = some kind →
      ((r.inFormat format).run s).output =
          (r.report s minimum files).shown (r.mode s.colors) kind ∧
        ((r.inFormat format).run s).code =
          (r.report s minimum files).outcome.code r.failOnWarnings :=
    fun format kind hformat => run_eq (r := r.inFormat format) hminimum hformat hsources hfiles
  have hcode : ∀ format kind, ReportFormat.ofText? format = some kind →
      ((r.inFormat format).run s).code =
        if 0 < Diagnostic.countAt ((r.analysis s files).atLeast minimum) .error ∨
            (r.failOnWarnings = true ∧
              0 < Diagnostic.countAt ((r.analysis s files).atLeast minimum) .warning) then 1
        else 0 :=
    fun format kind hformat => (hrun format kind hformat).2.trans (code_report ..)
  constructor
  case json =>
    exact ⟨_, (hrun _ .json rfl).1, Report.counts_document _,
      fun _ hsame => JsonValue.render_injective hsame⟩
  case text =>
    intro hsome
    have htotals := (r.report s minimum files).compactTotals_eq hsome
    rw [(hrun _ .text rfl).1, Report.shown, Report.compact, htotals]
    exact hasLines_unlines _
  case pretty =>
    intro hsome
    have hnonempty : ¬ (r.report s minimum files).diagnostics.isEmpty = true :=
      fun hempty => hsome (List.isEmpty_iff.1 hempty)
    have htotals := (r.report s minimum files).prettyTotals_eq (r.mode s.colors) hsome
    rw [(hrun _ .pretty rfl).1, Report.shown, if_neg hnonempty, Report.pretty, htotals]
    exact hasLines_unlines _
  case listed =>
    intro d _
    exact ⟨_, rfl⟩
  case silent =>
    intro hnone
    have hempty : (r.report s minimum files).diagnostics = [] := hnone
    rw [(hrun _ .text rfl).1, (hrun _ .pretty rfl).1, Report.shown, Report.shown, Report.compact,
      Report.compactTotals, hempty]
    refine ⟨rfl, ?_⟩
    simp [HasLines, report, Report.ofFiles, Report.ofAnalysis]
  case outcome =>
    intro format kind hformat
    rw [(hrun format kind hformat).1, ← outcome_report]
    exact (r.inFormat format).examine_eq s kind minimum hfiles
  case totals => exact hcode
  case fails =>
    intro format kind hformat
    rw [hcode format kind hformat, ← Diagnostic.countAt_pos_iff, ← Diagnostic.countAt_pos_iff]
    split
    · next hfails => exact iff_of_true rfl hfails
    · next hpasses => exact iff_of_false Nat.zero_ne_one hpasses

/-- Units of which one has a member that is replaced and becomes internal by it, and one an access
from outside. -/
def troubledText : String :=
  "//// a.php\nmodule M;\ninternal function f(): void \x7b\x7d\n"
    ++ "trait A \x7b function m(): void \x7b\x7d \x7d\n"
    ++ "trait B \x7b internal function m(): void \x7b\x7d \x7d\nclass C \x7b use A, B; \x7d\n"
    ++ "//// b.php\nfunction g(): void \x7b f(); \x7d\n"

def troubled : Surroundings where
  files := ⟨.directory [("all.php", .file (some troubledText))], []⟩
  colors := ⟨none, none, none, false⟩

/-- A check of one file for warnings and errors. -/
def strict : CheckRequest := ⟨"all.php", "text", true, some "warning", false⟩

theorem showsTotals_troubled :
    strict.minimum? = some .warning ∧
      strict.sources troubled.files (strict.settings troubled) =
        .ok [⟨"all.php", troubledText⟩] ∧
      [(⟨"all.php", troubledText⟩ : SourceFile)] ≠ [] ∧
      strict.ShowsTotals troubled .warning [⟨"all.php", troubledText⟩]
        ((strict.analysis troubled [⟨"all.php", troubledText⟩]).atLeast .warning) := by
  have hminimum : strict.minimum? = some .warning := by decide
  have hsources : strict.sources troubled.files (strict.settings troubled) =
      .ok [⟨"all.php", troubledText⟩] := by decide +kernel
  have hfiles : [(⟨"all.php", troubledText⟩ : SourceFile)] ≠ [] := List.cons_ne_nil _ _
  exact ⟨hminimum, hsources, hfiles, showsTotals_run hminimum hsources hfiles⟩

end CheckRequest
end ModuleVisibility
