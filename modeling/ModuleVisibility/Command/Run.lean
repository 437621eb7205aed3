import ModuleVisibility.Command.Check
import ModuleVisibility.Command.Explain
import ModuleVisibility.Command.Init

/-!
Running a command line.
-/
namespace ModuleVisibility
namespace Invocation

/-- How the program is called. -/
def usage : String := unlines
  ["Module-scoped visibility checker for Hack", "", "Usage: modscope [OPTIONS] <COMMAND>", "",
    "Commands:", "  check <PATH>  Check a directory or file for module visibility violations",
    "  init          Create a modscope.toml configuration file",
    "  explain <ID>  Explain a diagnostic by code or name", "", "Options:",
    "  --log-level <LEVEL>  trace, debug, info, warn or error", "  --log-json",
    "  -h, --help", "  -V, --version"]

def run (s : Surroundings) : Invocation → Response
  | check request => request.run s
  | explain id => DiagnosticKind.explain id s
  | init force => Settings.start force s
  | help => .success usage
  | version => .success ("modscope " ++ programVersion ++ "\n")

end Invocation

/-- Runs the program with arguments. -/
def runArguments (s : Surroundings) (arguments : List String) : Response :=
  match Invocation.ofArguments arguments with
  | .ok invocation => invocation.run s
  | .error fault => ⟨2, "", "error: " ++ fault.message ++ "\n\n" ++ Invocation.usage, none⟩

end ModuleVisibility
