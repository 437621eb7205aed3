import Mathlib.Data.List.Basic
import ModuleVisibility.Proofs.Coverage

/-!
What can be read off a report of a denied reference. Messages put names between backticks, so where
no name has one a message says what is denied, and reports of one place and message are the same.
-/
namespace ModuleVisibility

/-- The text has no mark such as messages put around names. -/
def Plain (text : String) : Prop := '\x60' ∉ text.toList

instance (text : String) : Decidable (Plain text) := inferInstanceAs (Decidable (¬ _))

/-! The names that a unit mentions. -/

def ClassRef.names : ClassRef → List String
  | .named name => [name]
  | .current => []

def ReferenceKind.names : ReferenceKind → List String
  | .call name fallback => name :: fallback.toList
  | .constant name fallback => name :: fallback.toList
  | .new owner => owner.names
  | .member owner name _ _ => name :: owner.names

/-- The names in a body. -/
def namesIn (body : List Reference) : List String := body.flatMap (·.kind.names)

def DeclarationContent.names (content : DeclarationContent) : List String :=
  content.uses.map UseClause.name
    ++ content.members.flatMap (fun m => m.name :: namesIn m.body) ++ namesIn content.body

def CompilationUnit.names (u : CompilationUnit) : List String :=
  u.mentions ++ u.declarations.flatMap fun d => d.name :: d.content.names

/-- What a declaration mentions, its unit mentions. -/
theorem DeclarationContent.names_subset {u : CompilationUnit} {d : Declaration}
    (h : d ∈ u.declarations) : d.name ∈ u.names ∧ d.content.names ⊆ u.names := by
  have hmem : ∀ name ∈ d.name :: d.content.names, name ∈ u.names := fun name hname =>
    List.mem_append_right _ (List.mem_flatMap.2 ⟨d, h, hname⟩)
  exact ⟨hmem _ List.mem_cons_self, fun name hname => hmem _ (List.mem_cons_of_mem _ hname)⟩

/-! Messages. -/

theorem plain_append {a b : String} : Plain (a ++ b) ↔ Plain a ∧ Plain b := by
  simp [Plain, String.toList_append, not_or]

theorem plain_symbolKind (kind : SymbolKind) : Plain kind.text := by
  cases kind <;> decide

theorem plain_memberKind (kind : MemberKind) : Plain kind.text := by
  cases kind <;> decide

/-- Texts are the same before and behind the first mark. -/
theorem split_eq_of_not_mem {mark : Char} {before before' after after' : List Char}
    (h : mark ∉ before) (h' : mark ∉ before')
    (heq : before ++ mark :: after = before' ++ mark :: after') :
    before = before' ∧ after = after' := by
  induction before generalizing before' with
  | nil =>
    cases before' with
    | nil => exact ⟨rfl, (List.cons.inj heq).2⟩
    | cons c rest =>
      have hfirst : mark = c := (List.cons.inj heq).1
      exact absurd (hfirst ▸ List.mem_cons_self) h'
  | cons c rest ih =>
    cases before' with
    | nil =>
      have hfirst : c = mark := (List.cons.inj heq).1
      exact absurd (hfirst ▸ List.mem_cons_self) h
    | cons c' rest' =>
      obtain ⟨hfirst, hrest⟩ := List.cons.inj heq
      obtain ⟨hbefore, hafter⟩ := ih (fun hmem => h (List.mem_cons_of_mem _ hmem))
        (fun hmem => h' (List.mem_cons_of_mem _ hmem)) hrest
      exact ⟨by rw [hfirst, hbefore], hafter⟩

theorem Finding.chars_internalAccess (what name home accessor : String) :
    (internalAccess what name home accessor).message.toList =
      (what.toList ++ [' ']) ++ '\x60' :: (name.toList ++ '\x60' ::
        (" is internal to module ".toList ++ '\x60' :: (home.toList ++ '\x60' ::
          (" and cannot be accessed from module \x60".toList ++
            (accessor.toList ++ ['\x60']))))) := by
  have hopen : (" \x60" : String).toList = [' ', '\x60'] := by decide
  have hmiddle : ("\x60 is internal to module \x60" : String).toList =
      '\x60' :: (" is internal to module ".toList ++ ['\x60']) := by decide
  have hlast : ("\x60 and cannot be accessed from module \x60" : String).toList =
      '\x60' :: " and cannot be accessed from module \x60".toList := by decide
  have hclose : ("\x60" : String).toList = ['\x60'] := by decide
  unfold message
  rw [String.toList_append, String.toList_append, String.toList_append, String.toList_append,
    String.toList_append, String.toList_append, String.toList_append, hopen, hmiddle, hlast, hclose]
  simp only [List.append_assoc, List.cons_append, List.nil_append]

/-- The message names what is denied and the module it belongs to. -/
theorem Finding.eq_of_message_eq {what what' name name' home home' accessor accessor' : String}
    (hwhat : Plain what) (hwhat' : Plain what') (hname : Plain name) (hname' : Plain name')
    (hhome : Plain home) (hhome' : Plain home')
    (h : (internalAccess what name home accessor).message =
      (internalAccess what' name' home' accessor').message) :
    name = name' ∧ home = home' := by
  have hchars := congrArg String.toList h
  rw [chars_internalAccess, chars_internalAccess] at hchars
  have hbefore : ∀ {what : String}, Plain what → '\x60' ∉ what.toList ++ [' '] := by
    intro what hplain hmem
    rcases List.mem_append.1 hmem with hhere | hblank
    · exact hplain hhere
    · exact absurd hblank (by decide)
  obtain ⟨_, hafter⟩ := split_eq_of_not_mem (hbefore hwhat) (hbefore hwhat') hchars
  obtain ⟨hnames, hafter⟩ := split_eq_of_not_mem hname hname' hafter
  have hhomes := List.cons.inj (List.append_cancel_left hafter)
  obtain ⟨hhomes, _⟩ := split_eq_of_not_mem hhome hhome' hhomes.2
  exact ⟨String.toList_inj.1 hnames, String.toList_inj.1 hhomes⟩

namespace Analysis

variable {a : Analysis} {d d' : Diagnostic} {e : Execution} {r : Reference} {t : Target}

/-- No name of a program has a backtick. -/
structure PlainNames (a : Analysis) : Prop where
  symbols : ∀ id s, a.symbols.get? id = some s →
    Plain s.name ∧ ∀ name ∈ s.content.names, Plain name
  modules : ∀ home, Plain (a.modules.name home)

theorem mem_names_of_mem_bodies {content : DeclarationContent} {body : List Reference}
    (hbody : body ∈ content.bodies) {name : String} (h : name ∈ namesIn body) :
    name ∈ content.names := by
  have hmember : ∀ m ∈ content.members, m.body = body → name ∈ content.names := by
    rintro m hm rfl
    exact List.mem_append_left _ (List.mem_append_right _
      (List.mem_flatMap.2 ⟨m, hm, List.mem_cons_of_mem _ h⟩))
  cases content with
  | function own =>
    rw [List.mem_singleton.1 hbody] at h
    exact List.mem_append_right _ h
  | «class» uses members =>
    obtain ⟨m, hm, hsame⟩ := List.mem_map.1 hbody
    exact hmember m hm hsame
  | trait isModuleLevel uses members =>
    obtain ⟨m, hm, hsame⟩ := List.mem_map.1 hbody
    exact hmember m hm hsame
  | constant => cases hbody

theorem Runs.plain_names (hplain : a.PlainNames) (h : a.Runs e) {name : String}
    (hname : name ∈ namesIn e.body) : Plain name := by
  obtain ⟨id, s, hs, _, hbody⟩ := h.exists_body
  exact (hplain.symbols id s hs).2 name (mem_names_of_mem_bodies hbody hname)

theorem Resolves.plain (hplain : a.PlainNames) {current : Option SymbolId} {kind : ReferenceKind}
    (h : a.Resolves current kind t) (hnames : ∀ name ∈ kind.names, Plain name) :
    Plain t.what ∧ Plain t.name := by
  have hsymbol : ∀ {id s}, a.symbols.get? id = some s → Plain s.name := fun hs =>
    (hplain.symbols _ _ hs).1
  have hmember : ∀ {owner member : String}, Plain owner → Plain member →
      Plain (CheckedProgram.memberName owner member) := by
    intro owner member howner hmember
    exact plain_append.2 ⟨plain_append.2 ⟨howner, by decide⟩, hmember⟩
  cases h with
  | call h => exact ⟨plain_symbolKind _, hsymbol h.get?⟩
  | constant h => exact ⟨plain_symbolKind _, hsymbol h.get?⟩
  | new h => exact ⟨plain_symbolKind _, hsymbol h.1⟩
  | owner h => exact ⟨plain_symbolKind _, hsymbol h.get?⟩
  | memberOf h _ =>
    exact ⟨plain_memberKind _, hmember (hsymbol h.get?) (hnames _ List.mem_cons_self)⟩
  | memberOfCurrent _ h _ =>
    exact ⟨plain_memberKind _, hmember (hsymbol h) (hnames _ List.mem_cons_self)⟩

/-- Denials of one place and message are reported in the same words. -/
theorem IsDenial.eq_of_key_eq (hplain : a.PlainNames) (h : a.IsDenial d) (h' : a.IsDenial d')
    (hkey : CheckedProgram.violationKey d = CheckedProgram.violationKey d') : d = d' := by
  obtain ⟨e, r, t, he, hr, hresolves, _, rfl⟩ := h
  obtain ⟨e', r', t', he', hr', hresolves', _, rfl⟩ := h'
  obtain ⟨hwhat, hname⟩ := hresolves.plain hplain fun name hname =>
    he.plain_names hplain (List.mem_flatMap.2 ⟨r, hr, hname⟩)
  obtain ⟨hwhat', hname'⟩ := hresolves'.plain hplain fun name hname =>
    he'.plain_names hplain (List.mem_flatMap.2 ⟨r', hr', hname⟩)
  simp only [CheckedProgram.violationKey, denial, Finding.report, SourceMap.unit_locate,
    SourceMap.span_locate, Prod.mk.injEq] at hkey
  obtain ⟨hunits, hspans, hmessage⟩ := hkey
  obtain ⟨hnames, hhomes⟩ := Finding.eq_of_message_eq hwhat hwhat' hname hname'
    (hplain.modules _) (hplain.modules _) hmessage
  have hsuggestion : ∀ what what' accessor accessor', (Finding.internalAccess what t.name
      (a.modules.name t.home) accessor).suggestion = (Finding.internalAccess what' t'.name
        (a.modules.name t'.home) accessor').suggestion := by
    intro what what' accessor accessor'
    unfold Finding.suggestion
    rw [hnames, hhomes]
  unfold denial Finding.report
  rw [hunits, hspans, hmessage, hsuggestion]
  rfl

/-- The names in the tables of a program are those of its units. -/
theorem plainNames_ofUnits (policy : Policy) {units : List ParsedUnit}
    (hplain : ∀ u ∈ units, ∀ name ∈ u.unit.names, Plain name) :
    (ofUnits policy units).PlainNames := by
  have hdeclares := Collection.declares_ofUnits (texts units) (units.map (·.unit))
  refine ⟨fun id s hs => ?_, fun home => ?_⟩
  · obtain ⟨u, hu, d, hd, hname, hcontent⟩ := exists_declaration hs
    have hunit := hplain u (List.mem_of_getElem? hu)
    obtain ⟨hdeclared, hmentions⟩ := DeclarationContent.names_subset hd
    rw [hname, hcontent]
    exact ⟨hunit _ hdeclared, fun name hmem => hunit _ (hmentions hmem)⟩
  · have hmodules : ∀ name ∈ (collected units).modules.names, Plain name := by
      intro name hname
      rw [collected, hdeclares.names, ModuleGraph.mem_names_ofUnits] at hname
      obtain ⟨_, hmentions, hname⟩ := hname
      obtain ⟨u, hu, rfl⟩ := List.mem_map.1 hmentions
      exact hplain u hu name (List.mem_append_left _ hname)
    have hgraph : (ofUnits policy units).modules = (collected units).modules := rfl
    rw [hgraph]
    cases home with
    | global =>
      rw [ModuleGraph.name_global]
      exact (by decide : Plain ModuleId.globalName)
    | declared index =>
      rw [ModuleGraph.name_declared]
      cases hm : (collected units).modules.modules[index]? with
      | none => exact (by decide : Plain "")
      | some m => exact hmodules _ (List.mem_map_of_mem (List.mem_of_getElem? hm))

end Analysis
end ModuleVisibility
