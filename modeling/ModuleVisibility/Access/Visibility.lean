import ModuleVisibility.Program.Symbol

/-!
When a declaration may be used. What counts is its effective visibility: a declaration is public
where `internal` has no force, and when an error that was reported has degraded it.
-/
namespace ModuleVisibility

/-- Whether code in `accessor` may use what has this visibility and belongs to `home`. -/
def Visibility.permits (v : Visibility) (accessor home : ModuleId) : Bool :=
  match v with
  | .public => true
  | .internal => accessor == home

/-- The visibility that is enforced. -/
def ModuleGraph.effective (g : ModuleGraph) (v : Visibility) (home : ModuleId)
    (isDegraded : Bool) : Visibility :=
  if isDegraded || !g.scopesInternal home then .public else v

/-- Whether code in `accessor` may use a symbol. -/
def Symbol.isAccessible (s : Symbol) (g : ModuleGraph) (accessor : ModuleId) : Bool :=
  (g.effective s.visibility s.home s.isUnresolved).permits accessor s.home

end ModuleVisibility
