import ModuleVisibility.Proofs.Place
import ModuleVisibility.Proofs.ReadPlaces
import ModuleVisibility.Proofs.ReferenceText

/-!
Locations are true. Whatever an analysis of files reports or lists is at a range of the text of one
of its units, between characters, with the lines and columns of the ends of that range; and a
reference is reported and listed in the unit in which its body stands, whoever inherits the body.
-/
namespace ModuleVisibility

/-- The location is that of the text `inside` behind `before` in a unit's file. -/
structure Location.Shows (l : Location) (f : SourceFile) (before inside : List Char) : Prop where
  file : l.file = f.path
  covers : Text.Covers f.chars l.span before inside
  start : l.start = Text.endPosition before
  stop : l.stop = Text.endPosition (before ++ inside)

theorem SourceMap.locate_shows {m : SourceMap} {unit : Nat} {f : SourceFile}
    (hf : m.get? unit = some f)
    {span : Span} (h : Text.IsRange f.chars span) :
    (m.locate unit span).unit = unit ∧
      ∃ before inside, (m.locate unit span).Shows f before inside := by
  obtain ⟨before, inside, hcovers⟩ := h.exists_covers
  obtain ⟨hstart, hstop⟩ := hcovers.position
  unfold locate
  rw [hf]
  exact ⟨rfl, before, inside, rfl, hcovers, hstart, hstop⟩

/-- What a body refers to stands in the text of the unit that declares the body. -/
theorem covers_of_mem_bodies {f : SourceFile} {d : Declaration}
    (hd : d ∈ (parseUnit f).unit.declarations) {body : List Reference}
      (hbody : body ∈ d.content.bodies)
    {r : Reference} (hr : r ∈ body) :
    ∃ before inside, Text.Covers f.chars r.span before inside ∧ r.kind.EndsIn inside := by
  have hstands : ∀ t ∈ (TokenStream.ofText f.chars).tokens, t.Stands f.chars :=
    fun _ => Token.stands_of_mem_ofText
  obtain ⟨ns, ts, rfl, hopened⟩ := declaredIn_readUnit hd body hbody
  have hts : ts <:+: (TokenStream.ofText f.chars).tokens := by
    rcases hopened with rfl | ⟨opening, after, _, front, hfront⟩
    · exact List.nil_infix
    · exact ⟨front ++ [opening], after, by simpa using hfront⟩
  have hapart : Reference.Apart ts :=
    ⟨(TokenStream.pairwise_apart 0 _).sublist hts.sublist,
      fun t ht => (hstands t (hts.subset ht)).isRange.le⟩
  obtain ⟨first, hfirst, last, hlast, hruns⟩ := Reference.runs_of_mem_scanReferences hapart hr
  have hfirstRange := (hstands first (hts.subset hfirst)).isRange
  obtain ⟨before, inside, hcovers, hname⟩ := hstands last (hts.subset hlast)
  have hrange : Text.IsRange f.chars r.span := by
    refine ⟨hruns.lo ▸ hfirstRange.lo, hruns.hi ▸ hcovers.isRange.hi, ?_⟩
    rw [hruns.lo, hruns.hi]
    exact Nat.le_trans hruns.le hcovers.isRange.le
  obtain ⟨before', inside', hcovers', hsuffix⟩ :=
    hrange.covers_of_suffix hcovers (hruns.lo ▸ hruns.le) hruns.hi
  obtain ⟨name, hlastName, hends⟩ := hruns.name
  exact ⟨before', inside', hcovers', hends.mono ((hname name hlastName).trans hsuffix)⟩

/-- Every place of a unit is a range of its text. -/
theorem ParsedUnit.HasPlace.isRange {f : SourceFile} {span : Span}
    (h : (parseUnit f).HasPlace span) :
    Text.IsRange f.chars span := by
  obtain ⟨herrors, hdeclarations⟩ := placed_parseUnit f
  cases h with
  | fault he => exact herrors _ he
  | declaration hd => exact (hdeclarations _ hd).span
  | clause hd hc => exact (hdeclarations _ hd).uses _ hc
  | reference hd hbody hr =>
    obtain ⟨before, inside, hcovers, _⟩ := covers_of_mem_bodies hd hbody hr
    exact hcovers.isRange

namespace Analysis

variable {policy : Policy} {files : List SourceFile}

theorem sources_ofFiles (policy : Policy) (files : List SourceFile) :
    (ofFiles policy files).sources.files = files.flatMap SourceFile.units := by
  rw [ofFiles, sources_ofUnits, texts, parseProgram, List.map_map]
  exact List.map_id _

theorem getElem?_parseProgram (policy : Policy) {unit : Nat} {u : ParsedUnit}
    (h : (parseProgram files)[unit]? = some u) :
    ∃ f, (ofFiles policy files).sources.get? unit = some f ∧ u = parseUnit f := by
  rw [parseProgram, List.getElem?_map] at h
  obtain ⟨f, hf, rfl⟩ := Option.map_eq_some_iff.1 h
  refine ⟨f, ?_, rfl⟩
  rw [SourceMap.get?, sources_ofFiles]
  exact hf

/-- Nothing but the severity of a finding changes before it is listed. -/
theorem exists_found_of_mem_diagnostics {units : List ParsedUnit} {d : Diagnostic}
    (h : d ∈ (ofUnits policy units).diagnostics) :
    ∃ original ∈ found units, d.location = original.location ∧ d.kind = original.kind := by
  have hgraded := (perm_diagnostics policy units).mem_iff.1 h
  obtain ⟨original, horiginal, rfl⟩ := List.mem_map.1 hgraded
  exact ⟨original, (List.mem_filter.1 horiginal).1, Policy.location_regrade ..,
    Policy.kind_regrade ..⟩

/-- The body that runs is declared in the unit that is recorded for it, and its references stand in
the text of that unit. -/
def StandsInUnit (a : Analysis) (e : Execution) : Prop :=
  ∃ f, a.sources.get? e.unit = some f ∧
    (∃ d ∈ (parseUnit f).unit.declarations, e.body ∈ d.content.bodies) ∧
    ∀ r ∈ e.body, ∃ before inside, Text.Covers f.chars r.span before inside ∧ r.kind.EndsIn inside

theorem standsInUnit_of_runs {e : Execution} (he : (ofFiles policy files).Runs e) :
    (ofFiles policy files).StandsInUnit e := by
  obtain ⟨id, s, hs, hunit, hbody⟩ := he.exists_body
  obtain ⟨u, hu, d, hd, _, hcontent⟩ := exists_declaration hs
  obtain ⟨f, hf, rfl⟩ := getElem?_parseProgram policy hu
  rw [hcontent] at hbody
  exact ⟨f, hunit ▸ hf, ⟨d, hd, hbody⟩, fun _ hr => covers_of_mem_bodies hd hbody hr⟩

/-- What is reported and listed for files points to the text that it is about. A reference that is
denied or unresolved is recorded where the body that runs stands; the body of a member that a class
inherits stands in the unit of the trait that declares the member. -/
structure PointsTrue (files : List SourceFile) (a : Analysis) : Prop where
  sources : a.sources.files = files.flatMap SourceFile.units
  diagnostics : ∀ d ∈ a.diagnostics, ∃ f before inside,
    a.sources.get? d.location.unit = some f ∧ d.location.Shows f before inside
  denials : ∀ d ∈ a.diagnostics, d.kind = .internalAccessViolation →
    ∃ e, a.Runs e ∧ ∃ r ∈ e.body, d.location = a.sources.locate e.unit r.span
  unresolved : ∀ u ∈ a.unresolved, ∃ e, a.Runs e ∧
    (∃ r ∈ e.body, u.unit = e.unit ∧ u.span = r.span) ∧
    ∃ f before inside, a.sources.get? u.unit = some f ∧ Text.Covers f.chars u.span before inside ∧
      Name.lastSegment u.name.toList <:+ inside
  runs : ∀ e, a.Runs e → a.StandsInUnit e
  inherited : ∀ {id s key r source m}, a.symbols.get? id = some s → s.kind = .class →
    a.flattening.Inherits id key r → a.symbols.get? r.source = some source →
      source.members[r.index]? = some m → a.Runs ⟨source.unit, r.home, some id, m.body⟩ ∧
        ∃ f, a.sources.get? source.unit = some f ∧ ∃ d ∈ (parseUnit f).unit.declarations,
          d.name = source.name ∧ m ∈ d.content.members

/-- Locations are true, for any files and under any policy. -/
theorem pointsTrue_ofFiles (policy : Policy) (files : List SourceFile) :
    PointsTrue files (ofFiles policy files) := by
  have hruns : ∀ {e : Execution}, e ∈ (checked (parseProgram files)).executions →
      (ofFiles policy files).Runs e := (mem_executions_iff (pinned_ofUnits policy _)).1
  refine ⟨sources_ofFiles policy files, fun d hd => ?_, fun d hd hkind => ?_, fun u hu => ?_,
    fun e he => standsInUnit_of_runs he, fun {id s key r source m} hs hclass hr hsource hm => ?_⟩
  · obtain ⟨original, horiginal, hlocation, _⟩ := exists_found_of_mem_diagnostics hd
    obtain ⟨finding, unit, u, span, hu, hplace, rfl⟩ := reportedIn_of_mem_found horiginal
    obtain ⟨f, hf, rfl⟩ := getElem?_parseProgram policy hu
    obtain ⟨hunit, before, inside, hshows⟩ := SourceMap.locate_shows hf hplace.isRange
    rw [hlocation]
    exact ⟨f, before, inside, hunit.symm ▸ hf, hshows⟩
  · obtain ⟨original, horiginal, hlocation, hsame⟩ := exists_found_of_mem_diagnostics hd
    have hviolation :
        original ∈ (checked (parseProgram files)).violations (texts (parseProgram files)) := by
      rw [← filter_found]
      exact List.mem_filter.2 ⟨horiginal, decide_eq_true (hsame.symm.trans hkind)⟩
    obtain ⟨e, he, r, hr, what, name, home, _, rfl⟩ :=
      CheckedProgram.mem_reports.1 (mem_of_mem_distinctBy hviolation)
    exact ⟨e, hruns he, r, hr, hlocation⟩
  · rw [ofFiles, unresolved_ofUnits] at hu
    obtain ⟨e, he, r, hr, hunresolved, hunit, hspan⟩ := CheckedProgram.mem_unresolved_iff.1 hu
    obtain ⟨f, hf, _, hstands⟩ := standsInUnit_of_runs (hruns he)
    obtain ⟨before, inside, hcovers, hends⟩ := hstands r hr
    refine ⟨e, hruns he, ⟨r, hr, hunit, hspan⟩, f, before, inside, hunit ▸ hf, hspan ▸ hcovers, ?_⟩
    exact CheckedProgram.lastSegment_of_unresolved hunresolved hends
  · obtain ⟨u, hu, d, hd, hname, hcontent⟩ := exists_declaration hsource
    obtain ⟨f, hf, rfl⟩ := getElem?_parseProgram policy hu
    refine ⟨.inherited hs hclass hr hsource hm, f, hf, d, hd, hname.symm, ?_⟩
    rw [← hcontent]
    exact List.mem_of_getElem? hm

end Analysis
end ModuleVisibility
