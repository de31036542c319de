import Lox.Token.Chunk

/-!
# Scanning

The tokens and lexical errors of a source, in order. The line of a token or an error is the line
where its chunk ends.
-/

namespace Lox

/-- What a chunk gives: a token, or an error with its line. Blanks and comments give nothing. -/
inductive Finding where
  | token (t : Token)
  | error (line : Nat) (e : LexicalError)
  deriving DecidableEq, Repr

/-- What the chunk gives when it ends on a line. -/
def Chunk.finding? (c : Chunk) (line : Nat) : Option Finding :=
  match c.label with
  | .lexeme kind => some (.token ⟨kind, c.bytes, c.literal?, line⟩)
  | .flaw e => some (.error line e)
  | _ => none

/-- The findings of chunks, the first of which starts on a line. -/
def findings (line : Nat) : List Chunk → List Finding
  | [] => []
  | c :: rest =>
    let line := line + c.breaks
    match c.finding? line with
    | some f => f :: findings line rest
    | none => findings line rest

/-- The line on which chunks end, the first of which starts on a line. -/
def lineAtEnd (line : Nat) : List Chunk → Nat
  | [] => line
  | c :: rest => lineAtEnd (line + c.breaks) rest

/-- A scanned source. -/
structure Scan where
  findings : List Finding
  endLine : Nat
  deriving Repr

namespace Scan

/-- Scans a source, which starts on line 1. -/
def ofSource (source : Text) : Scan :=
  let chunks := Chunk.ofSource source
  { findings := Lox.findings 1 chunks
    endLine := lineAtEnd 1 chunks }

/-- The tokens, without the one for the end. -/
def tokens (s : Scan) : List Token :=
  s.findings.filterMap fun
    | .token t => some t
    | .error _ _ => none

/-- The token for the end of the source. -/
def endToken (s : Scan) : Token := { kind := .endOfFile, lexeme := [], line := s.endLine }

/-- The lexical errors, in order. -/
def errors (s : Scan) : List StaticError :=
  s.findings.filterMap fun
    | .token _ => none
    | .error line e => some (.ofLexical line e)

/-- The lexical errors, each with the number of tokens before it. -/
def errorsWithPosition (position : Nat) : List Finding → List (Nat × StaticError)
  | [] => []
  | .token _ :: rest => errorsWithPosition (position + 1) rest
  | .error line e :: rest => (position, .ofLexical line e) :: errorsWithPosition position rest

end Scan

end Lox
