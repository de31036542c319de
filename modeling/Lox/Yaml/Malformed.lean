import Lox.Yaml.Source

/-!
# Malformed documents

How a document breaks the rules of its form, with the line that a message names.
-/

namespace Lox.Yaml

/-- How a document breaks the rules of its form. -/
inductive Malformation where
  | encoding (e : EncodingError)
  -- Tokens
  | noToken
  | tooDeep
  | misplacedEntry
  | misplacedKey
  | misplacedValue
  | missingColon
  | unexpectedMarker
  | unexpectedEnd
  | unknownEscape
  | badHexEscape
  | badCharacterCode
  | tabInPlain
  | tabInBlock
  | zeroIndentation
  | textAfterHeader
  | badName
  | noDirectiveName
  | badDirectiveName
  | unknownDirective
  | noVersion
  | longVersion
  | badVersion
  | noWhitespace
  | noWhitespaceOrBreak
  | noHandleMark
  | noTagUri
  | noTagEnd
  | badUriEscape
  | badUriLead
  | badUriTail
  -- Nodes
  | noDocumentStart
  | noContent
  | noEntry
  | noKey
  | openSequence
  | openMapping
  | undefinedHandle
  | duplicateVersion
  | incompatibleVersion
  | duplicateHandle
  | unknownAnchor (name : Text)
  -- Values
  | undecodable (found : Text) (content : Text) (wanted : Text)
  | badBase64
  | badMerge
  | containsItself (name : Text)
  deriving DecidableEq, Repr

def Malformation.message : Malformation → Text
  | .encoding e => text e.message
  | .noToken => text "found character that cannot start any token"
  | .tooDeep => text "exceeded max depth of 10000"
  | .misplacedEntry => text "block sequence entries are not allowed in this context"
  | .misplacedKey => text "mapping keys are not allowed in this context"
  | .misplacedValue => text "mapping values are not allowed in this context"
  | .missingColon => text "could not find expected ':'"
  | .unexpectedMarker => text "found unexpected document indicator"
  | .unexpectedEnd => text "found unexpected end of stream"
  | .unknownEscape => text "found unknown escape character"
  | .badHexEscape => text "did not find expected hexdecimal number"
  | .badCharacterCode => text "found invalid Unicode character escape code"
  | .tabInPlain => text "found a tab character that violates indentation"
  | .tabInBlock => text "found a tab character where an indentation space is expected"
  | .zeroIndentation => text "found an indentation indicator equal to 0"
  | .textAfterHeader => text "did not find expected comment or line break"
  | .badName => text "did not find expected alphabetic or numeric character"
  | .noDirectiveName => text "could not find expected directive name"
  | .badDirectiveName => text "found unexpected non-alphabetical character"
  | .unknownDirective => text "found unknown directive name"
  | .noVersion => text "did not find expected version number"
  | .longVersion => text "found extremely long version number"
  | .badVersion => text "did not find expected digit or '.' character"
  | .noWhitespace => text "did not find expected whitespace"
  | .noWhitespaceOrBreak => text "did not find expected whitespace or line break"
  | .noHandleMark => text "did not find expected '!'"
  | .noTagUri => text "did not find expected tag URI"
  | .noTagEnd => text "did not find the expected '>'"
  | .badUriEscape => text "did not find URI escaped octet"
  | .badUriLead => text "found an incorrect leading UTF-8 octet"
  | .badUriTail => text "found an incorrect trailing UTF-8 octet"
  | .noDocumentStart => text "did not find expected <document start>"
  | .noContent => text "did not find expected node content"
  | .noEntry => text "did not find expected '-' indicator"
  | .noKey => text "did not find expected key"
  | .openSequence => text "did not find expected ',' or ']'"
  | .openMapping => text "did not find expected ',' or '\x7d'"
  | .undefinedHandle => text "found undefined tag handle"
  | .duplicateVersion => text "found duplicate %YAML directive"
  | .incompatibleVersion => text "found incompatible YAML document"
  | .duplicateHandle => text "found duplicate %TAG directive"
  | .unknownAnchor name => text "unknown anchor '" ++ name ++ text "' referenced"
  | .undecodable found content wanted =>
    text "cannot decode " ++ found ++ text " `" ++ content ++ text "` as a " ++ wanted
  | .badBase64 => text "!!binary value contains invalid base64 data"
  | .badMerge => text "map merge requires map or sequence of maps as the value"
  | .containsItself name => text "anchor '" ++ name ++ text "' value contains itself"

/-- A malformation with the line that its message names; zero names none. -/
structure Malformed where
  line : Nat
  problem : Malformation
  deriving DecidableEq, Repr

namespace Malformed

/-- A malformation without a line. -/
def anywhere (problem : Malformation) : Malformed := ⟨0, problem⟩

/-- A malformed token: what it belongs to started at one place, and reading stopped at another. The
first of them that is not on the first line is named. -/
def ofToken (context stop : Place) (problem : Malformation) : Malformed :=
  let line := if context.line ≠ 0 then context.line else stop.line
  ⟨if line = 0 then 0 else line + 1, problem⟩

/-- A malformed node: what it belongs to started on one line, and a token on another does not fit.
The line above the first of them that is not the first line is named. Lines count from zero here. -/
def ofNode (context found : Nat) (problem : Malformation) : Malformed :=
  ⟨if context ≠ 0 then context else found, problem⟩

def message (m : Malformed) : Text :=
  (if m.line = 0 then [] else text "line " ++ .ofNat m.line ++ text ": ") ++ m.problem.message

end Malformed

/-- Why no token can be read: what it belongs to started at one place, and reading stopped at
another. -/
structure Failure where
  context : Place
  stop : Place
  problem : Malformation
  deriving DecidableEq, Repr

end Lox.Yaml
