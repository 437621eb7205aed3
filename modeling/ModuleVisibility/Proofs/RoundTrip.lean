import ModuleVisibility.Proofs.PlainReading

/-!
The text of a plain unit is read without a fault, and the unit read is what the text means.
-/
namespace ModuleVisibility

/-- The reading with a declaration in front. -/
def UnitReading.cons (d : Declaration) (r : UnitReading) : UnitReading :=
  ⟨⟨r.unit.directive, r.unit.definitions, d :: r.unit.declarations⟩, r.errors⟩

theorem readUnit_of_pass {stop : Span} {c c' : UnitContext} {t : Token} {ts rest : List Token}
    (h : UnitStep.ofTokens stop c t ts = .pass c' rest) :
    readUnit stop c (t :: ts) = readUnit stop c' rest := by
  rw [readUnit, h]
  rfl

theorem readUnit_of_declares {stop : Span} {c : UnitContext} {t : Token} {ts rest : List Token}
    {d : Declaration} (h : UnitStep.ofTokens stop c t ts = ⟨c.settled, [], [d], [], rest⟩) :
    readUnit stop c (t :: ts) = (readUnit stop c.settled rest).cons d := by
  rw [readUnit, h]
  rfl

namespace Plain

open Reading

variable {ts : List Token}

/-- Outside of namespaces, where a directive was read or none, and behind these modifiers. -/
def behind (directive : Option ModuleMention) (visibility : Option Visibility)
    (isModuleLevel : Bool) :
    UnitContext := ⟨"", [], visibility, isModuleLevel, directive⟩

/-- There a declaration has the name that is written. -/
theorem unplaced_declaration (directive : Option ModuleMention) (visibility : Option Visibility)
    (isModuleLevel : Bool) (name : String) (span : Span) (content : DeclarationContent) :
    ((behind directive visibility isModuleLevel).declaration name span content).unplaced =
      ⟨name, visibility.getD .public, .origin, content.unplaced⟩ := rfl

section

variable (stop : Span) (directive : Option ModuleMention) (rest : List Token)

/-! Declarations behind their modifiers. -/

section

variable {name : Ident} (visibility : Option Visibility) (isModuleLevel : Bool)

theorem function_block {body : List Statement} (h : Spells (.word name.toWord :: block body) ts) :
    (Reading.function stop (behind directive visibility isModuleLevel) (ts ++ rest)).Yields rest
      fun d => d.unplaced =
        ⟨name.name, visibility.getD .public, .origin, .function (bodyMeaning body)⟩ := by
  obtain ⟨span, after, rfl, hafter⟩ := h
  refine (signature_block hafter stop rest).map fun inside hinside => ?_
  rw [unplaced_declaration, DeclarationContent.unplaced, ← unplaced_scanReferences body hinside]
  rfl

theorem classLike_items {is : List Item} (h : Spells (.word name.toWord :: items is) ts)
      (role : NameRole)
    (content : ClassBody → DeclarationContent) {meaning : DeclarationContent}
    (hcontent : ∀ b, Holds is b → (content b).unplaced = meaning) :
    (classLike stop (behind directive visibility isModuleLevel) role content (ts ++ rest)).Yields
      rest
      fun d => d.unplaced = ⟨name.name, visibility.getD .public, .origin, meaning⟩ := by
  obtain ⟨span, after, rfl, hafter⟩ := h
  refine (classBody_items hafter stop rest).map fun b hb => ?_
  rw [unplaced_declaration, hcontent b hb]

theorem constants_constant (h : Spells (constant name) ts) :
    (Reading.constants stop (behind directive visibility isModuleLevel) (ts ++ rest)).Yields rest
      fun ds => ∃ d, ds = [d] ∧
        d.unplaced = ⟨name.name, visibility.getD .public, .origin, .constant⟩ := by
  obtain ⟨_, _, rfl, _, _, rfl, _, _, rfl, _, _, rfl, _, _, rfl, rfl⟩ := h
  exact ⟨_, rfl, _, rfl, unplaced_declaration ..⟩

end

/-! Declarations. -/

/-- Whether the content is that of a trait which keeps its module. -/
def Content.isModuleLevel : Content → Bool
  | trait isModuleLevel _ => isModuleLevel
  | _ => false

theorem readUnit_attributes {content : Content} (h : Spells content.attributes ts) :
    readUnit stop (behind directive none false) (ts ++ rest) =
      readUnit stop (behind directive none content.isModuleLevel) rest := by
  rcases content with _ | _ | ⟨_ | _, _⟩ | _
  case trait.true =>
    obtain ⟨_, _, rfl, _, _, rfl, _, _, rfl, rfl⟩ := h
    exact readUnit_of_pass rfl
  all_goals
    cases h
    rfl

theorem readUnit_modifier {visibility : Option Visibility} (h : Spells (modifier visibility) ts)
    (isModuleLevel : Bool) :
    readUnit stop (behind directive none isModuleLevel) (ts ++ rest) =
      readUnit stop (behind directive visibility isModuleLevel) rest := by
  rcases visibility with _ | _ | _
  · cases h
    rfl
  · obtain ⟨_, _, rfl, rfl⟩ := h
    exact readUnit_of_pass rfl
  · obtain ⟨_, _, rfl, rfl⟩ := h
    exact readUnit_of_pass rfl

/-- A declaration is found, and no modifier of it is left to what stands behind it. -/
theorem exists_readUnit_content {name : Ident} {content : Content}
    (h : Spells (content.pieces name) ts)
    (visibility : Option Visibility) : ∃ d : ModuleVisibility.Declaration,
      d.unplaced = ⟨name.name, visibility.getD .public, .origin, content.meaning⟩ ∧
      readUnit stop (behind directive visibility content.isModuleLevel) (ts ++ rest) =
        (readUnit stop (behind directive none false) rest).cons d := by
  cases content with
  | function body =>
    obtain ⟨_, after, rfl, hafter⟩ := h
    obtain ⟨d, hread, hd⟩ := function_block stop directive rest visibility false hafter
    refine ⟨d, hd, readUnit_of_declares ?_⟩
    exact congrArg (UnitStep.ofReading _ · fun d => .declare _ [d]) hread
  | «class» is =>
    obtain ⟨_, after, rfl, hafter⟩ := h
    obtain ⟨d, hread, hd⟩ := classLike_items stop directive rest visibility false hafter .class
      (fun b => .class b.uses b.members)
      fun b hb => congrArg₂ DeclarationContent.class hb.uses hb.members
    refine ⟨d, hd, readUnit_of_declares ?_⟩
    exact congrArg (UnitStep.ofReading _ · fun d => .declare _ [d]) hread
  | trait isModuleLevel is =>
    obtain ⟨_, after, rfl, hafter⟩ := h
    obtain ⟨d, hread, hd⟩ :=
      classLike_items stop directive rest visibility isModuleLevel hafter .trait
      (fun b => .trait isModuleLevel b.uses b.members)
      fun b hb => congrArg₂ (DeclarationContent.trait isModuleLevel) hb.uses hb.members
    refine ⟨d, hd, readUnit_of_declares ?_⟩
    exact congrArg (UnitStep.ofReading _ · fun d => .declare _ [d]) hread
  | constant =>
    obtain ⟨_, after, rfl, hafter⟩ := h
    obtain ⟨_, hread, d, rfl, hd⟩ := constants_constant stop directive rest visibility false hafter
    refine ⟨d, hd, readUnit_of_declares ?_⟩
    exact congrArg (UnitStep.ofReading _ · (.declare _)) hread

/-- What a reading found: no fault, this directive, and what the declarations mean. -/
structure Finds (ds : List Declaration) (r : UnitReading) : Prop where
  directive : r.unit.directive = directive
  definitions : r.unit.definitions = []
  declarations : r.unit.declarations.map (·.unplaced) = ds.map Declaration.meaning
  errors : r.errors = []

variable {directive}

theorem Finds.cons {ds : List Declaration} {r : UnitReading} (h : Finds directive ds r)
    {d : Declaration} {found : ModuleVisibility.Declaration} (hfound : found.unplaced = d.meaning) :
    Finds directive (d :: ds) (r.cons found) :=
  ⟨h.directive, h.definitions, congrArg₂ List.cons hfound h.declarations, h.errors⟩

theorem readUnit_declarations {ds : List Declaration}
    (h : Spells (ds.flatMap Declaration.pieces) ts) :
    Finds directive ds (readUnit stop (behind directive none false) ts) := by
  induction ds generalizing ts with
  | nil =>
    cases h
    rw [readUnit]
    exact ⟨rfl, rfl, rfl, rfl⟩
  | cons d ds ih =>
    rw [List.flatMap_cons] at h
    obtain ⟨_, later, rfl, hdeclaration, hlater⟩ := h.exists_append
    obtain ⟨attributes, _, rfl, hattributes, hbehind⟩ := hdeclaration.exists_append
    obtain ⟨modifiers, content, rfl, hmodifiers, hcontent⟩ := hbehind.exists_append
    obtain ⟨found, hfound, hread⟩ :=
      exists_readUnit_content stop directive later hcontent d.visibility
    rw [List.append_assoc, List.append_assoc, readUnit_attributes stop directive _ hattributes,
      readUnit_modifier stop directive _ hmodifiers, hread]
    exact (ih hlater).cons hfound

end

/-! Directives. -/

/-- A dotted name is read up to its semicolon. -/
theorem moduleSegments_names {first : Ident} {others : List Ident}
    (h : Spells (names [.sign .dot] first others) ts) (stop : Span) (rest : List Token) :
    ∃ span after, ts = ⟨.ident first.name, span⟩ :: after ∧ ∀ name place, ∃ semicolon,
      (moduleSegments stop name place (after ++ rest)).Yields (⟨.punct ';', semicolon⟩ :: rest)
        fun found => found.1 = others.foldl (fun name part => name ++ "." ++ part.name) name := by
  induction others generalizing first ts with
  | nil =>
    obtain ⟨span, _, rfl, semicolon, _, rfl, rfl⟩ := h
    refine ⟨span, _, rfl, fun name place => ⟨semicolon, (name, place), ?_, rfl⟩⟩
    cases rest <;> rfl
  | cons next others ih =>
    obtain ⟨span, _, rfl, _, after, rfl, hafter⟩ := h
    obtain ⟨nextSpan, later, rfl, hread⟩ := ih hafter
    exact ⟨span, _, rfl, fun name place => hread (name ++ "." ++ next.name) (place.join nextSpan)⟩

/-- A directive is read without a fault, and the unit joins the module that it names. -/
theorem readUnit_directive {n : ModuleName} (h : Spells n.pieces ts) (stop : Span)
    (rest : List Token) :
    ∃ mention : ModuleMention, mention.unplaced = ⟨n.name, .origin⟩ ∧
      readUnit stop .start (ts ++ rest) =
        readUnit stop (behind (some mention) none false) rest := by
  obtain ⟨keyword, _, rfl, hname⟩ := h
  obtain ⟨span, after, rfl, hread⟩ := moduleSegments_names hname stop rest
  obtain ⟨semicolon, ⟨name, place⟩, hsegments, hfound⟩ := hread n.first.name span
  have hmoduleName : moduleName stop (⟨.ident n.first.name, span⟩ :: (after ++ rest)) =
      success (name, place) (⟨.punct ';', semicolon⟩ :: rest) := hsegments
  have hdirective : moduleDirective stop (⟨.ident n.first.name, span⟩ :: (after ++ rest)) =
      success ⟨name, place⟩ rest := by
    rw [moduleDirective, hmoduleName]
    rfl
  refine ⟨⟨name, place⟩, congrArg (ModuleMention.mk · .origin) hfound, readUnit_of_pass ?_⟩
  exact congrArg (UnitStep.ofReading .start · (UnitStep.join .start keyword)) hdirective

/-! Units. -/

/-- Whatever stands between them, the tokens of a unit are read as what the unit means. -/
theorem Unit.finds_of_spells {u : Unit} (h : Spells u.pieces ts) :
    ∃ mention, mention.map ModuleMention.unplaced = u.directive.map (⟨·.name, .origin⟩) ∧
      Finds mention u.declarations (unitOfTokens ts) := by
  obtain ⟨directive, declarations, rfl, hdirective, hdeclarations⟩ := Spells.exists_append h
  rw [unitOfTokens]
  generalize endSpan _ = stop
  cases hu : u.directive with
  | none =>
    rw [hu] at hdirective
    cases hdirective
    exact ⟨none, rfl, readUnit_declarations stop hdeclarations⟩
  | some n =>
    rw [hu, Option.toList_some, List.flatMap_singleton] at hdirective
    obtain ⟨mention, hmention, hread⟩ := readUnit_directive hdirective stop declarations
    rw [hread]
    exact ⟨some mention, congrArg some hmention, readUnit_declarations stop hdeclarations⟩

/-- The text of a plain unit is read back, without a fault and up to places: each declaration with
its name and visibility, its uses and members, and each body with the references of its statements,
all in the order of the text. -/
theorem Unit.parseUnit_text (path : String) (u : Unit) :
    (parseUnit ⟨path, u.text⟩).errors = [] ∧
      (parseUnit ⟨path, u.text⟩).unit.unplaced = u.meaning := by
  obtain ⟨hspells, herrors⟩ := u.spells_ofText
  obtain ⟨mention, hmention, hfinds⟩ := u.finds_of_spells hspells
  constructor
  · simp only [parseUnit, SourceFile.chars, herrors, hfinds.errors, List.append_nil,
      List.mergeSort_nil]
  · simp only [parseUnit, SourceFile.chars, CompilationUnit.unplaced, Unit.meaning,
      hfinds.directive, hmention, hfinds.definitions, List.map_nil, ← hfinds.declarations]

end Plain
end ModuleVisibility
