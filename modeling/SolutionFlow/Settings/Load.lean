import SolutionFlow.Settings.Decode
import SolutionFlow.Settings.Document
import SolutionFlow.Settings.Variables

/-!
Where settings come from: the main file, the local file over it, and the variables over both.
-/

namespace SolutionFlow.Settings

/-- The entries of a file; a missing file has none. -/
def fileEntries : Option String → Except SettingError (List (String × Setting))
  | none => .ok []
  | some text => (Document.read text).mapError fun reason => ⟨.unreadable reason, []⟩

/-- Lays files over each other, the later ones on top. The failure of a later file hides that of an
earlier one. -/
def overlayFiles : List (Option String) → Except SettingError (List (String × Setting))
  | [] => .ok []
  | file :: upper =>
    match overlayFiles upper, fileEntries file with
    | .error e, _ => .error e
    | .ok _, .error e => .error e
    | .ok above, .ok entries => .ok (Setting.layerEntries entries above)

/-- The settings of an application from its files, of which later ones win, and its variables. -/
def load (application : String) (files : List (Option String))
    (vars : List (String × String)) : Except SettingError Settings := do
  let entries ← overlayFiles files
  ofEntries (Setting.layerEntries entries (Variables.entries application vars))

end SolutionFlow.Settings
