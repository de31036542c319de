import Lox.Settings.Document

/-!
# Loading settings

The defaults of the settings, and how a file changes them.
-/

namespace Lox.Settings

def inHome (home : Text) (name : String) : Text := home ++ text ("/" ++ name)

def defaults (home : Option Text) : Settings :=
  { prompt := text "> "
    historyFile := (home.map fun h => inHome h ".tree_lox_history").getD []
    color := false
    trace := false
    maxCallDepth := 10000
    cpuProfile := []
    verbose := false }

/-- The settings file that is read when none is named. -/
def defaultPath? (home : Option Text) : Option Text := home.map fun h => inHome h ".treeloxrc.yaml"

/-- The settings that the contents of a file give over others. A file without a document gives
none. -/
def ofContents (s : Settings) (path contents : Text) : Except SettingsError Settings :=
  let outcome := do
    match ← Yaml.Node.ofText contents with
    | none => return (s, [])
    | some root => s.applyDocument root
  match outcome with
  | .error m => .error (.malformed path m)
  | .ok (s, []) => if s.maxCallDepth ≤ 0 then .error (.depthNotPositive path) else .ok s
  | .ok (_, ps) => .error (.problems path ps)

/-- The settings when the file at a path was read, with the outcome. Only a file that was named has to
exist. -/
def ofFile (s : Settings) (named : Bool) (path : Text) : Except FileError Text →
    Except SettingsError Settings
  | .ok contents => s.ofContents path contents
  | .error .missing => if named then .error (.unreadable path .missing) else .ok s
  | .error e => .error (.unreadable path e)

/-- Loads the settings over the defaults, from a named file or else from the one in the home
directory. The empty name names no file. -/
def load {m : Type → Type} [Monad m] (contentsOf : Text → m (Except FileError Text))
    (home : Option Text) (name : Text) : m (Except SettingsError Settings) := do
  let s := defaults home
  match name, defaultPath? home with
  | [], none => return .ok s
  | [], some path => return s.ofFile false path (← contentsOf path)
  | _, _ => return s.ofFile true name (← contentsOf name)

end Lox.Settings
