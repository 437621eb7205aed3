import ModuleVisibility.Access.Execution
import ModuleVisibility.Program.Distinct

/-!
Checking the references of a program. A reference in a run is denied if what it names is internal
to another module than the one the body runs in; it is unresolved if it names nothing. Both are
listed once, however many runs bring them about.
-/
namespace ModuleVisibility

/-- A reference whose target the program does not declare. -/
structure UnresolvedReference where
  name : String
  unit : Nat
  span : Span
  deriving DecidableEq

/-- What can come of a reference in a run. -/
inductive Outcome where
  /-- `what` of that name belongs to `home`, where the run has no access. -/
  | denied (what name : String) (home : ModuleId)
  | unresolved (name : String)
  deriving DecidableEq

/-- An outcome with the run and the reference it comes of. -/
structure Occurrence where
  execution : Execution
  span : Span
  outcome : Outcome

namespace CheckedProgram

/-- The symbol of a kind under a name, or under the fallback if nothing of the kind has the name. -/
def lookupOrGlobal? (p : CheckedProgram) (kind : SymbolKind) (name : String)
    (fallback : Option String) : Option (SymbolId × Symbol) :=
  (p.symbols.lookupKind? kind name).or (fallback.bind (p.symbols.lookupKind? kind))

/-- The use of a symbol. -/
def useSymbol (p : CheckedProgram) (e : Execution) (target : Symbol) : List Outcome :=
  if target.isAccessible p.modules e.accessor then []
  else [.denied target.kind.text target.name target.home]

/-- How a member is written. -/
def memberName (owner member : String) : String := owner ++ "::" ++ member

/-- The use of a member on an owner, reached by name or as the current class. -/
def useMember (p : CheckedProgram) (e : Execution) (id : SymbolId) (owner : Symbol)
    (isCurrent : Bool) (key : MemberKey) : List Outcome :=
  match p.flattening.resolveMember? p.symbols id key with
  | some m =>
    if m.isAccessible p.modules e.accessor then []
    else [.denied key.kind.text (memberName owner.name key.name) m.home]
  | none =>
    -- A trait may rely on members that its composer provides.
    if isCurrent && owner.kind == .trait then []
    else [.unresolved (memberName owner.name key.name)]

/-- The use of a member through a class reference. -/
def useMemberOf (p : CheckedProgram) (e : Execution) (through : ClassRef) (key : MemberKey)
    (isStatic : Bool) : List Outcome :=
  match through with
  | .current =>
    match e.current.bind fun id => (p.symbols.get? id).map (id, ·) with
    | none => []
    | some (id, owner) => p.useMember e id owner true key
  | .named name =>
    match (p.symbols.lookup? name).filter fun (_, s) => s.kind == .class || s.kind == .trait with
    | none => [.unresolved (memberName name key.name)]
    | some (id, owner) =>
      (if isStatic then p.useSymbol e owner else []) ++ p.useMember e id owner false key

/-- What comes of a reference in a run. -/
def outcomes (p : CheckedProgram) (e : Execution) : ReferenceKind → List Outcome
  | .call name fallback =>
    match p.lookupOrGlobal? .function name fallback with
    | some (_, target) => p.useSymbol e target
    | none => [.unresolved name]
  | .constant name fallback =>
    match p.lookupOrGlobal? .constant name fallback with
    | some (_, target) => p.useSymbol e target
    | none => if (p.symbols.find? name).isSome then [] else [.unresolved name]
  | .new .current => []
  | .new (.named name) =>
    match p.symbols.lookupKind? .class name with
    | some (_, target) => p.useSymbol e target
    | none => [.unresolved name]
  | .member through name kind isStatic => p.useMemberOf e through ⟨kind, name⟩ isStatic

/-- Everything that comes of the references of a program, in order. -/
def occurrences (p : CheckedProgram) : List Occurrence :=
  p.executions.flatMap fun e =>
    e.body.flatMap fun r => (p.outcomes e r.kind).map fun o => ⟨e, r.span, o⟩

/-- The report of a denied reference. -/
def violation? (p : CheckedProgram) (sources : SourceMap) (o : Occurrence) : Option Diagnostic :=
  match o.outcome with
  | .denied what name home =>
    some ((Finding.internalAccess what name (p.modules.name home)
      (p.modules.name o.execution.accessor)).report (sources.locate o.execution.unit o.span))
  | .unresolved _ => none

/-- What the reports of one denial share. -/
def violationKey (d : Diagnostic) : Nat × Span × String :=
  (d.location.unit, d.location.span, d.message)

/-- The reports of denied references, each once. -/
def violations (p : CheckedProgram) (sources : SourceMap) : List Diagnostic :=
  distinctBy violationKey (p.occurrences.filterMap (p.violation? sources))

/-- The unresolved references, each once. -/
def unresolved (p : CheckedProgram) : List UnresolvedReference :=
  distinctBy id (p.occurrences.filterMap fun o =>
    match o.outcome with
    | .unresolved name => some ⟨name, o.execution.unit, o.span⟩
    | .denied .. => none)

end CheckedProgram
end ModuleVisibility
