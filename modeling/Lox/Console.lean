import Lox.Diagnostic
import Lox.RuntimeError

/-!
# Consoles

A console words diagnostics for a reader and remembers whether it has seen static or runtime errors
since it was last reset.
-/

namespace Lox

/-- A place where diagnostics are written. -/
structure Console where
  /-- Diagnostics are bold and red. -/
  color : Bool
  /-- A runtime error is followed by the calls that were active. -/
  showTrace : Bool
  hadError : Bool := false
  hadRuntimeError : Bool := false
  deriving DecidableEq, Repr

namespace Console

def paint (c : Console) (line : Text) : Text :=
  if c.color then text "\x1b[31;1m" ++ line ++ text "\x1b[0;22m" else line

/-- A number at the right end of five columns. -/
def column (n : Nat) : Text :=
  let digits := Text.ofNat n
  List.replicate (5 - digits.length) 32 ++ digits

/-- The lines of a trace, numbered from the innermost call. -/
def traceLines (trace : List TraceEntry) : List Text :=
  trace.mapIdx fun i e =>
    column i ++ text ": [line " ++ Text.ofInt e.line ++ text "] in " ++ e.function

def written (lines : List Text) : Text := lines.flatMap (· ++ [Text.newline])

def report (c : Console) (d : Diagnostic) : Console × Text :=
  ({ c with hadError := true }, written [c.paint d.toText])

def reportAll (c : Console) : List Diagnostic → Console × Text
  | [] => (c, [])
  | d :: rest =>
    let (c, first) := c.report d
    let (c, others) := c.reportAll rest
    (c, first ++ others)

def reportRuntime (c : Console) (r : RuntimeReport) : Console × Text :=
  let trace := if c.showTrace then traceLines r.trace else []
  ({ c with hadRuntimeError := true }, written (c.paint r.toText :: trace))

def reset (c : Console) : Console := { c with hadError := false, hadRuntimeError := false }

end Console

end Lox
