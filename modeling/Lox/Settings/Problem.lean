import Lox.File
import Lox.Settings.Field
import Lox.Text.Quoted

/-!
# Problems with settings

A part of a document that makes no setting is a problem. All problems of a document are reported
together.
-/

namespace Lox.Settings

/-- A part of a document that makes no setting. -/
inductive Problem where
  /-- A value of another kind; a collection has no content to show. -/
  | mismatch (line : Nat) (tag : Text) (content : Option Text) (expected : Kind)
  | unknownField (line : Nat) (key : Text)
  | repeatedField (line : Nat) (key : Text)
  | duplicateKey (line : Nat) (key : Text) (firstLine : Nat)
  deriving DecidableEq, Repr

/-- A text as messages show it: a long one is cut. -/
def Problem.excerpt (t : Text) : Text :=
  if 10 < t.length then t.take 7 ++ text "..." else t

def Problem.message : Problem → Text
  | .mismatch line tag content expected =>
    let shown := match content with
      | none => []
      | some t => text " `" ++ excerpt t ++ text "`"
    text "line " ++ .ofNat line ++ text ": cannot unmarshal " ++ tag ++ shown ++ text " into " ++
      text expected.name
  | .unknownField line key =>
    text "line " ++ .ofNat line ++ text ": field " ++ key ++
      text (" not found in type " ++ Kind.whole.name)
  | .repeatedField line key =>
    text "line " ++ .ofNat line ++ text ": field " ++ key ++
      text (" already set in type " ++ Kind.whole.name)
  | .duplicateKey line key firstLine =>
    text "line " ++ .ofNat line ++ text ": mapping key " ++ key.quoted ++
      text " already defined at line " ++ .ofNat firstLine

end Lox.Settings

namespace Lox

/-- Why there are no settings. -/
inductive SettingsError where
  | unreadable (path : Text) (e : FileError)
  | malformed (path : Text) (m : Yaml.Malformed)
  | problems (path : Text) (ps : List Settings.Problem)
  | depthNotPositive (path : Text)
  deriving DecidableEq, Repr

def SettingsError.message : SettingsError → Text
  | .unreadable path .isDirectory =>
    text "config: parse " ++ path ++ text ": yaml: input error: " ++ FileError.isDirectory.message path
  | .unreadable path e => e.message path
  | .malformed path m => text "config: parse " ++ path ++ text ": yaml: " ++ m.message
  | .problems path ps =>
    text "config: parse " ++ path ++ text ": yaml: unmarshal errors:" ++
      ps.flatMap fun p => text "\n  " ++ p.message
  | .depthNotPositive path =>
    text "config: " ++ path ++ text ": max_call_depth must be positive"

end Lox
