import ModuleVisibility.Proofs.Coverage

/-!
Where findings are reported. Every finding is about something that a unit's text shows: a fault of
the text, a declaration, a use clause or a reference in a body; and it is located there.
-/
namespace ModuleVisibility

/-- The places of a unit at which something can be reported. -/
inductive ParsedUnit.HasPlace (u : ParsedUnit) : Span → Prop
  | fault {e : SyntaxError} (he : e ∈ u.errors) : HasPlace u e.span
  | declaration {d : Declaration} (hd : d ∈ u.unit.declarations) : HasPlace u d.span
  | clause {d : Declaration} {c : UseClause} (hd : d ∈ u.unit.declarations)
    (hc : c ∈ d.content.uses) : HasPlace u c.span
  | reference {d : Declaration} {body : List Reference} {r : Reference}
    (hd : d ∈ u.unit.declarations) (hbody : body ∈ d.content.bodies) (hr : r ∈ body) :
    HasPlace u r.span

/-- The diagnostic reports a finding at a place of one of the units. -/
def Diagnostic.ReportedIn (units : List ParsedUnit) (d : Diagnostic) : Prop :=
  ∃ (f : Finding) (unit : Nat) (u : ParsedUnit) (span : Span), units[unit]? = some u ∧
    u.HasPlace span ∧ d = f.report ((Analysis.texts units).locate unit span)

namespace FlattenContext

variable {x : FlattenContext} {owner : Symbol}

theorem clause_of_mem_addTable {through : Origin → Origin} {clause : UseClause} {target : SymbolId}
    {isUnresolved : Bool} {table : MemberTable FlatMember} {c : Composition} {collision : Collision}
    (h : collision ∈ (c.addTable owner through clause target isUnresolved table).collisions) :
    collision ∈ c.collisions ∨ collision.clause = clause := by
  refine List.foldlRecOn
    (motive := fun later : Composition => collision ∈ later.collisions →
      collision ∈ c.collisions ∨ collision.clause = clause)
    _ _ .inl (fun later hlater ⟨key, m⟩ _ hmem => ?_) h
  dsimp only [Composition.add] at hmem
  split at hmem
  · exact hlater hmem
  · split at hmem
    · exact hlater hmem
    · split at hmem
      · exact hlater hmem
      · rcases List.mem_append.1 hmem with hold | hnew
        · exact hlater hold
        · rw [List.mem_singleton.1 hnew]
          exact .inr rfl

/-- A collision is met in one of the owner's clauses. -/
theorem clause_of_mem_composeUses {id : SymbolId} {through : Origin → Origin} {done : TraitTables}
    {collision : Collision} (h : collision ∈ (x.composeUses id owner through done).collisions) :
    collision.clause ∈ owner.uses := by
  refine List.foldlRecOn
    (motive := fun c : Composition => collision ∈ c.collisions → collision.clause ∈ owner.uses)
    _ _ (by simp [Composition.empty]) (fun c hc ⟨clause, target⟩ huse hmem => ?_) h
  dsimp only [composeClause] at hmem
  split at hmem
  · exact hc hmem
  · split at hmem
    · exact hc hmem
    · rcases clause_of_mem_addTable hmem with hold | hhere
      · exact hc hold
      · rw [hhere]
        exact (List.of_mem_zip huse).1

end FlattenContext

theorem CycleReport.clauseSpan_mem (head : Symbol) (next : String) :
    clauseSpan head next = head.span ∨ ∃ c ∈ head.uses, clauseSpan head next = c.span := by
  unfold clauseSpan
  split
  · next clause hclause => exact .inr ⟨clause, List.mem_of_find?_eq_some hclause, rfl⟩
  · exact .inl rfl

/-- A declaration is reported where it stands, whether as a duplicate or for the name of a
module. -/
theorem Collection.exists_of_mem_reports {g : ModuleGraph} {sources : SourceMap}
    {before ds : List (Nat × Declaration)} {d : Diagnostic} (h : d ∈ reports g sources before ds) :
    ∃ p ∈ ds, ∃ f : Finding, d = f.report (sources.locate p.1 p.2.span) := by
  induction ds generalizing before with
  | nil => cases h
  | cons p rest ih =>
    rcases List.mem_append.1 h with hhere | hlater
    · refine ⟨p, List.mem_cons_self, ?_⟩
      unfold report? conflict? at hhere
      split at hhere
      · exact ⟨_, List.mem_singleton.1 hhere⟩
      · split at hhere
        · exact ⟨_, List.mem_singleton.1 hhere⟩
        · cases hhere
    · obtain ⟨q, hq, hd⟩ := ih hlater
      exact ⟨q, List.mem_cons_of_mem p hq, hd⟩

namespace Analysis

variable {units : List ParsedUnit} {d : Diagnostic}

theorem reportedIn_symbol {s : Symbol} (hs : s ∈ (collected units).symbols.symbols) (f : Finding) :
    (f.report ((texts units).locate s.unit s.span)).ReportedIn units := by
  obtain ⟨u, hu, d, hd, _, hspan, _⟩ := exists_declaration_of_mem hs
  exact ⟨f, s.unit, u, s.span, hu, hspan ▸ .declaration hd, rfl⟩

theorem reportedIn_clause {s : Symbol} (hs : s ∈ (collected units).symbols.symbols) {c : UseClause}
    (hc : c ∈ s.uses) (f : Finding) :
    (f.report ((texts units).locate s.unit c.span)).ReportedIn units := by
  obtain ⟨u, hu, d, hd, _, _, hcontent⟩ := exists_declaration_of_mem hs
  refine ⟨f, s.unit, u, c.span, hu, .clause hd ?_, rfl⟩
  rw [← hcontent]
  exact hc

theorem reportedIn_syntax (h : d ∈ syntaxDiagnostics (texts units) units) : d.ReportedIn units := by
  obtain ⟨⟨u, index⟩, hu, h⟩ := List.mem_flatMap.1 h
  obtain ⟨e, he, rfl⟩ := List.mem_map.1 h
  exact ⟨.malformed e.message, index, u, e.span,
    List.mk_mem_zipIdx_iff_getElem?.1 hu, .fault he, rfl⟩

theorem reportedIn_collected (h : d ∈ (collected units).diagnostics) : d.ReportedIn units := by
  rw [collected, (Collection.declares_ofUnits _ _).diagnostics] at h
  obtain ⟨p, hp, f, rfl⟩ := Collection.exists_of_mem_reports h
  obtain ⟨v, hv, hd⟩ := exists_getElem?_of_mem_numbered hp
  rw [List.getElem?_map] at hv
  obtain ⟨u, hu, rfl⟩ := Option.map_eq_some_iff.1 hv
  exact ⟨f, p.1, u, p.2.span, hu, .declaration hd, rfl⟩

theorem reportedIn_flattening (h : d ∈ (checked units).flattening.diagnostics) :
    d.ReportedIn units := by
  have hcollision : ∀ {owner : Symbol} {collisions : List Collision} {x : FlattenContext},
      owner ∈ (collected units).symbols.symbols → (∀ c ∈ collisions, c.clause ∈ owner.uses) →
        x.sources = texts units → d ∈ x.collisionDiagnostics owner collisions →
          d.ReportedIn units := by
    intro owner collisions x howner hclauses hsources hd
    obtain ⟨c, hc, rfl⟩ := List.mem_map.1 hd
    rw [hsources]
    exact reportedIn_clause howner (hclauses c hc) _
  simp only [checked, Flattening.ofProgram, List.mem_append] at h
  rcases h with ((huse | hcycle) | htrait) | hclass
  · obtain ⟨owner, howner, h⟩ := List.mem_flatMap.1 huse
    obtain ⟨clause, hclause, h⟩ := List.mem_filterMap.1 h
    obtain ⟨f, _, rfl⟩ := Option.map_eq_some_iff.1 h
    exact reportedIn_clause howner hclause f
  · obtain ⟨cycle, _, hreport⟩ := List.mem_filterMap.1 hcycle
    unfold CycleReport.ofRotated? at hreport
    split at hreport
    · cases hreport
    · next first others _ =>
      obtain ⟨head, hhead, rfl⟩ := Option.map_eq_some_iff.1 hreport
      have hmem : head ∈ (collected units).symbols.symbols := SymbolTable.mem_symbols_of_get? hhead
      rcases CycleReport.clauseSpan_mem head
        ((collected units).symbols.name (others.headD first)) with hspan | ⟨c, hc, hspan⟩
      · dsimp only
        rw [hspan]
        exact reportedIn_symbol hmem _
      · dsimp only
        rw [hspan]
        exact reportedIn_clause hmem hc _
  · obtain ⟨done, id, owner, howner, hd⟩ := FlattenContext.exists_of_mem_flattenTraits htrait
    exact hcollision (SymbolTable.mem_symbols_of_get? howner)
      (fun c hc => FlattenContext.clause_of_mem_composeUses hc) rfl hd
  · obtain ⟨id, owner, howner, hd⟩ := FlattenContext.exists_of_mem_flattenAll hclass
    exact hcollision (SymbolTable.mem_symbols_of_get? howner)
      (fun c hc => FlattenContext.clause_of_mem_composeUses hc) rfl hd

/-- What runs is a body that a declaration of the unit has. -/
theorem exists_declaration_of_mem_executions {e : Execution} (he : e ∈ (checked units).executions) :
    ∃ u, units[e.unit]? = some u ∧ ∃ d ∈ u.unit.declarations, e.body ∈ d.content.bodies := by
  have hruns : (ofUnits .default units).Runs e := (mem_executions_iff (pinned_ofUnits _ _)).1 he
  obtain ⟨id, s, hs, hunit, hbody⟩ := hruns.exists_body
  obtain ⟨u, hu, d, hd, _, hcontent⟩ := exists_declaration hs
  exact ⟨u, hunit ▸ hu, d, hd, hcontent ▸ hbody⟩

theorem reportedIn_violations (h : d ∈ (checked units).violations (texts units)) :
    d.ReportedIn units := by
  obtain ⟨e, he, r, hr, what, name, home, _, rfl⟩ :=
    CheckedProgram.mem_reports.1 (mem_of_mem_distinctBy h)
  obtain ⟨u, hu, d, hd, hbody⟩ := exists_declaration_of_mem_executions he
  exact ⟨_, e.unit, u, r.span, hu, .reference hd hbody hr, rfl⟩

/-- Whatever is found is reported at a place of a unit. -/
theorem reportedIn_of_mem_found (h : d ∈ found units) : d.ReportedIn units := by
  simp only [found, List.mem_append] at h
  rcases h with ((hfault | hcollected) | hflattening) | hviolation
  · exact reportedIn_syntax hfault
  · exact reportedIn_collected hcollected
  · exact reportedIn_flattening hflattening
  · exact reportedIn_violations hviolation

end Analysis
end ModuleVisibility
