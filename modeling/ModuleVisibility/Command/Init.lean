import ModuleVisibility.Command.Response
import ModuleVisibility.Report.Compact
import ModuleVisibility.Settings.Load

/-!
Writing a settings file to start from.
-/
namespace ModuleVisibility
namespace Settings

/-- A settings file that spells out the defaults. -/
def starterText : String := unlines
  ["# modscope configuration file", "",
    "# File extensions analyzed by `modscope check`",
    "extensions = [\"php\", \"hack\", \"hck\"]", "",
    "# Directory names skipped during discovery",
    "exclude = [\"vendor\"]", "",
    "[analysis]",
    "# Flatten traits and classes on all cores",
    "parallel = true", "",
    "[diagnostics]",
    "# Disable non-error diagnostics by code or name",
    "# disabled = [\"trait-method-collision\"]", "",
    "# Override the severity of non-error diagnostics",
    "# [diagnostics.severity]",
    "# trait-method-collision = \"warning\""]

/-- Writes a settings file into the current directory, over another one only if forced. -/
def start (force : Bool) (s : Surroundings) : Response :=
  let path := PathText.join s.files.currentPath fileName
  let created : Response :=
    ⟨0, (Style.bold .green).paint s.colors.mode "✓" ++ " Created "
        ++ (Style.ofColor .cyan).paint s.colors.mode path ++ " configuration file\n", "",
      some (s.files.current ++ [fileName], starterText)⟩
  match s.files.resolve? path with
  | none => created
  | some node =>
    if !force then
      .failure ("Config file '" ++ fileName ++ "' already exists. Use --force to overwrite.")
    else if node.isFile then created
    else .failure ReadFault.isDirectory.message

end Settings
end ModuleVisibility
