import Lox.Text

/-!
# Log records

What a session records about its work: sources read and bound, calls made and ended, runtime errors.
-/

namespace Lox

/-- A record of the log. -/
inductive LogRecord where
  | parsed (statements : Nat) (ok : Bool)
  | resolved (bindings : Nat) (ok : Bool)
  | call (function : Text) (line depth : Nat)
  | returned (function : Text)
  | runtimeError (line frames : Nat)
  deriving DecidableEq, Repr

namespace LogRecord

def message : LogRecord → String
  | .parsed _ _ => "parsed"
  | .resolved _ _ => "resolved"
  | .call _ _ _ => "call"
  | .returned _ => "return"
  | .runtimeError _ _ => "runtime error"

def ofBool (b : Bool) : Text := if b then text "true" else text "false"

def details : LogRecord → List (String × Text)
  | .parsed statements ok => [("statements", .ofNat statements), ("ok", ofBool ok)]
  | .resolved bindings ok => [("bindings", .ofNat bindings), ("ok", ofBool ok)]
  | .call function line depth =>
    [("function", function), ("line", .ofNat line), ("depth", .ofNat depth)]
  | .returned function => [("function", function)]
  | .runtimeError line frames => [("line", .ofNat line), ("frames", .ofNat frames)]

def detailText (r : LogRecord) : Text :=
  r.details.flatMap fun (name, value) => 32 :: text name ++ 61 :: value

def toText (r : LogRecord) : Text := text r.message ++ r.detailText

/-- A record as a line of a log with levels; a message of more than one word is quoted. -/
def toLine (r : LogRecord) : Text :=
  let quote := if r.message.contains ' ' then "\"" else ""
  text ("level=DEBUG msg=" ++ quote ++ r.message ++ quote) ++ r.detailText

end LogRecord

end Lox
