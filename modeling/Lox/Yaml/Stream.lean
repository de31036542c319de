import Lox.Yaml.Token

/-!
# Token streams

Reading a document as tokens. Outside of brackets the indentation tells where block collections open
and close. A key need not be announced: a token that may start one is remembered, and when a colon
follows it on the same line, a key token is put in front of it, and a mapping opened if the key is
indented further than what is around it.

Nodes are read two tokens behind, and no token is looked at while it may still turn out to start a
key. So a document with a malformed token gives the tokens that can be looked at before it is noticed
(`Stream`).
-/

namespace Lox.Yaml

/-- A token that may start a key: its number, its place, and whether it has to. -/
structure KeyStart where
  number : Nat
  place : Place
  required : Bool
  deriving DecidableEq, Repr

/-- The largest number of characters of a key that is not announced. -/
def keyLimit : Nat := 1024

/-- A colon at a place still makes a key: it is on the same line and near enough. -/
def KeyStart.isValid (k : KeyStart) (p : Place) : Bool :=
  !(k.place.line < p.line) && !(k.place.index + keyLimit < p.index)

/-- The largest number of collections inside each other. -/
def depthLimit : Nat := 10000

/-- Where reading tokens stands. -/
structure Scanner where
  cursor : Cursor
  fault : Option EncodingError
  tokens : Array Token := #[]
  /-- The columns of the open block collections, the innermost first. -/
  columns : List Nat := []
  /-- For each level of brackets what may start a key there, the innermost first, and for the level
  outside of brackets. -/
  keys : List (Option KeyStart) := [none]
  /-- A key that is not announced may start here. -/
  keyAllowed : Bool := true

namespace Scanner

/-- Reading is inside brackets. -/
def inFlow (s : Scanner) : Bool := 1 < s.keys.length

/-- The least column of lines that belong to the innermost block collection and are no part of its
own frame. -/
def margin (s : Scanner) : Nat :=
  match s.columns with
  | [] => 0
  | column :: _ => column + 1

/-- A failure here. -/
def fail {α : Type} (s : Scanner) (problem : Malformation) : Except Failure α :=
  .error ⟨s.cursor.place, s.cursor.place, problem⟩

/-- Adds a token of the current line. -/
def push (s : Scanner) (kind : TokenKind) : Scanner :=
  { s with tokens := s.tokens.push ⟨kind, s.cursor.place.line⟩ }

/-- Adds the token of a character, and goes past it. -/
def pushMark (s : Scanner) (kind : TokenKind) : Scanner :=
  let s := s.push kind
  { s with cursor := s.cursor.skip 1 }

/-! ## Keys -/

/-- What may start a key on the innermost level. -/
def keyStart (s : Scanner) : Option KeyStart := (s.keys.head?).join

/-- Sets what may start a key on the innermost level. -/
def setKey (s : Scanner) (k : Option KeyStart) : Scanner := { s with keys := k :: s.keys.tail }

/-- Gives up what may start a key; one that has to start a key cannot be given up. -/
def dropKey (s : Scanner) : Except Failure Scanner :=
  match s.keyStart with
  | none => .ok s
  | some k =>
    if k.required then .error ⟨k.place, s.cursor.place, .missingColon⟩ else .ok (s.setKey none)

/-- Remembers that the next token may start a key, if one may start here. It has to if it stands in
the column of the innermost block collection. -/
def saveKey (s : Scanner) : Except Failure Scanner :=
  if s.keyAllowed then do
    let required := !s.inFlow && s.columns.head? = some s.cursor.place.column
    let s ← s.dropKey
    return s.setKey (some ⟨s.tokens.size, s.cursor.place, required⟩)
  else .ok s

/-- What starts a key, if a colon here makes one. One that has to start a key must still be able to. -/
def confirmedKey (s : Scanner) : Except Failure (Option KeyStart) :=
  match s.keyStart with
  | none => .ok none
  | some k =>
    if k.isValid s.cursor.place then .ok (some k)
    else if k.required then .error ⟨k.place, s.cursor.place, .missingColon⟩
    else .ok none

/-! ## Indentation -/

/-- Opens a block collection at a column that is further in than what is open. Its token takes a
number, or comes last. -/
def openBlock (s : Scanner) (kind : TokenKind) (column line : Nat) (number : Option Nat) :
    Except Failure Scanner :=
  if s.inFlow || s.columns.any (column ≤ ·) then .ok s
  else if depthLimit ≤ s.columns.length then s.fail .tooDeep
  else
    let token : Token := ⟨kind, line⟩
    .ok { s with
      columns := column :: s.columns
      tokens := match number with
        | some n => s.tokens.insertIdxIfInBounds n token
        | none => s.tokens.push token }

/-- Closes the block collections that are further in than a column, or all of them. -/
def closeBlocks (s : Scanner) (column : Option Nat) (line : Nat) : Scanner :=
  if s.inFlow then s
  else
    let closed := s.columns.takeWhile fun c => column.all (· < c)
    { s with
      columns := s.columns.drop closed.length
      tokens := closed.foldl (fun tokens _ => tokens.push ⟨.blockEnd, line⟩) s.tokens }

/-! ## Between tokens -/

/-- How far a comment line looks for the next one. -/
def commentWindow : Nat := 512

/-- Another comment follows, with nothing but blanks and line breaks before it. -/
def commentAhead : (window : Nat) → List Nat → Bool
  | 0, _ | _, [] => false
  | n + 1, c :: rest => if isBlank c || isBreak c then commentAhead n rest else c = 35

/-- What is being skipped between tokens. -/
inductive Skipping where
  | blanks
  | comment
  /-- Everything up to the next comment. -/
  | toComment
  deriving DecidableEq, Repr

/-- Skips blanks, line breaks and comments. Outside of brackets a tab is no blank where a key may
start, except between comments, and a key may start on each new line. -/
def skipToToken (flow : Bool) : Skipping → (keyAllowed : Bool) → Place → List Nat → Bool × Cursor
  | _, keyAllowed, p, [] => (keyAllowed, ⟨[], p⟩)
  | mode, keyAllowed, p, 13 :: 10 :: rest =>
    let mode := if mode = .comment then
        if commentAhead (commentWindow - 1) (10 :: rest) then .toComment else .blanks
      else mode
    skipToToken flow mode (keyAllowed || !flow) (p.nextLine 2) rest
  | mode, keyAllowed, p, c :: rest =>
    if isBreak c then
      let mode := if mode = .comment then
          if commentAhead (commentWindow - 1) rest then .toComment else .blanks
        else mode
      skipToToken flow mode (keyAllowed || !flow) (p.nextLine 1) rest
    else
      match mode with
      | .comment => skipToToken flow .comment keyAllowed p.next rest
      | .toComment =>
        skipToToken flow (if c = 35 then .comment else .toComment) keyAllowed p.next rest
      | .blanks =>
        if c = 35 then skipToToken flow .comment keyAllowed p.next rest
        else if c = 32 || (c = 9 && (flow || !keyAllowed)) || (c = 0xFEFF && p.index = 0) then
          skipToToken flow .blanks keyAllowed p.next rest
        else (keyAllowed, ⟨c :: rest, p⟩)

/-- Skips a comment on the same line. -/
def skipLineComment (c : Cursor) : Cursor :=
  let blanks := c.rest.takeWhile isBlank
  if blanks.length < commentWindow && (c.rest.drop blanks.length).head? = some 35 then
    c.skipWhile fun b => !isBreak b
  else c

/-! ## Tokens -/

/-- Ends the tokens. The end of the characters counts as the end of a line. -/
def endStream (s : Scanner) : Except Failure Scanner := do
  let p := s.cursor.place
  let s := if p.column = 0 then s
    else { s with cursor := ⟨[], { p with line := p.line + 1, column := 0 }⟩ }
  let s ← (s.closeBlocks none s.cursor.place.line).dropKey
  return { s with keyAllowed := false }.push .streamEnd

/-- Adds a directive. -/
def addDirective (s : Scanner) : Except Failure Scanner := do
  let p := s.cursor.place
  let s ← (s.closeBlocks none p.line).dropKey
  let (kind, c) ← directive p (s.cursor.skip 1)
  return { s with cursor := c, keyAllowed := false, tokens := s.tokens.push ⟨kind, p.line⟩ }

/-- Adds a marker for the start or the end of a document. -/
def addMarker (s : Scanner) (kind : TokenKind) : Except Failure Scanner := do
  let s ← (s.closeBlocks none s.cursor.place.line).dropKey
  let s := s.push kind
  return { s with cursor := s.cursor.skip 3, keyAllowed := false }

def openFlow (s : Scanner) (kind : TokenKind) : Except Failure Scanner := do
  let s ← s.saveKey
  if depthLimit < s.keys.length then s.fail .tooDeep
  return { s with keys := none :: s.keys, keyAllowed := true }.pushMark kind

def closeFlow (s : Scanner) (kind : TokenKind) : Except Failure Scanner := do
  let s ← s.dropKey
  let keys := if s.inFlow then s.keys.tail else s.keys
  return { s with keys, keyAllowed := false }.pushMark kind

def addComma (s : Scanner) : Except Failure Scanner := do
  let s ← s.dropKey
  return { s with keyAllowed := true }.pushMark .comma

/-- Adds a dash, and opens a sequence if it is the first of one. -/
def addDash (s : Scanner) : Except Failure Scanner := do
  let p := s.cursor.place
  if !s.inFlow && !s.keyAllowed then s.fail .misplacedEntry
  let s ← (← s.openBlock .blockSequence p.column p.line none).dropKey
  return { s with keyAllowed := true }.pushMark .dash

/-- Adds a question mark that announces a key, and opens a mapping if it is the first key of one. -/
def addKey (s : Scanner) : Except Failure Scanner := do
  let p := s.cursor.place
  if !s.inFlow && !s.keyAllowed then s.fail .misplacedKey
  let s ← (← s.openBlock .blockMapping p.column p.line none).dropKey
  return { s with keyAllowed := !s.inFlow }.pushMark .key

/-- Adds a colon, with the key in front of it if that was not announced. -/
def addColon (s : Scanner) : Except Failure Scanner := do
  let p := s.cursor.place
  match ← s.confirmedKey with
  | some k =>
    let s := { s with tokens := s.tokens.insertIdxIfInBounds k.number ⟨.key, k.place.line⟩ }
    let s ← s.openBlock .blockMapping k.place.column k.place.line (some k.number)
    return { s.setKey none with keyAllowed := false }.pushMark .colon
  | none =>
    let s := s.setKey none
    if !s.inFlow && !s.keyAllowed then s.fail .misplacedValue
    let s ← s.openBlock .blockMapping p.column p.line none
    return { s with keyAllowed := !s.inFlow }.pushMark .colon

/-- Adds a token that may start a key and ends with its characters. -/
def addWord (s : Scanner) (read : Place → Cursor → Except Failure (TokenKind × Cursor)) :
    Except Failure Scanner := do
  let p := s.cursor.place
  let s ← s.saveKey
  let (kind, c) ← read p s.cursor
  return { s with cursor := c, keyAllowed := false, tokens := s.tokens.push ⟨kind, p.line⟩ }

def addName (s : Scanner) (kind : Text → TokenKind) : Except Failure Scanner :=
  s.addWord fun p c => do
    let (name, c) ← anchorName p (c.skip 1)
    return (kind name, c)

def addQuoted (s : Scanner) (double : Bool) : Except Failure Scanner :=
  s.addWord fun p c => do
    let c := c.skip 1
    let (content, c) ←
      if double then doubleQuoted p .text c.place {} c.rest else singleQuoted p c.place {} c.rest
    return (.scalar false content, c)

def addBlockScalar (s : Scanner) (literal : Bool) : Except Failure Scanner := do
  let p := s.cursor.place
  let s ← s.dropKey
  let (content, c) ← blockScalar literal s.margin p (s.cursor.skip 1)
  return { s with
    cursor := c, keyAllowed := true, tokens := s.tokens.push ⟨.scalar false content, p.line⟩ }

/-- Adds a plain scalar. After a line break a key may start. -/
def addPlain (s : Scanner) : Except Failure Scanner := do
  let p := s.cursor.place
  let s ← s.saveKey
  let (found, c) ← plain s.inFlow s.margin p p {} s.cursor.rest
  let c := if found.broken then c else skipLineComment c
  return { s with
    cursor := c, keyAllowed := found.broken
    tokens := s.tokens.push ⟨.scalar true found.content, p.line⟩ }

/-- A plain scalar can start with a character: one that is no indicator, or a dash, question mark or
colon with a word behind it. -/
def startsPlain (flow : Bool) (c : Nat) (rest : List Nat) : Bool :=
  let indicator := isBlank c || isBreak c ||
    [45, 63, 58, 44, 91, 93, 123, 125, 35, 38, 42, 33, 124, 62, 39, 34, 37, 64, 96].contains c
  !indicator || (c = 45 && !rest.head?.any isBlank) || (!flow && (c = 63 || c = 58) && !endsWord rest)

/-- Skips a comment on the line of the last token. -/
def withComment (s : Scanner) : Scanner := { s with cursor := skipLineComment s.cursor }

/-- Adds the token that starts with the character here. A comment on the line of the token is skipped
with it, but not after a dash, where it belongs to what follows. -/
def addToken (s : Scanner) (c : Nat) (rest : List Nat) : Except Failure Scanner :=
  let flow := s.inFlow
  let first := s.cursor.place.column = 0
  if first && c = 37 then s.addDirective
  else if first && isMarker 45 (c :: rest) then s.addMarker .documentStart
  else if first && isMarker 46 (c :: rest) then s.addMarker .documentEnd
  else if c = 124 && !flow then s.addBlockScalar true
  else if c = 62 && !flow then s.addBlockScalar false
  else if c = 45 && endsWord rest then s.addDash
  else if startsPlain flow c rest then s.addPlain
  else
    let added :=
      if c = 91 then s.openFlow .openBracket
      else if c = 123 then s.openFlow .openBrace
      else if c = 93 then s.closeFlow .closeBracket
      else if c = 125 then s.closeFlow .closeBrace
      else if c = 44 then s.addComma
      else if c = 63 && (flow || endsWord rest) then s.addKey
      else if c = 58 && (flow || endsWord rest) then s.addColon
      else if c = 42 then s.addName .reference
      else if c = 38 then s.addName .anchor
      else if c = 33 then s.addWord tag
      else if c = 39 then s.addQuoted false
      else if c = 34 then s.addQuoted true
      else s.fail .noToken
    added.map withComment

/-- Reads one more token, with the tokens that it implies. -/
def next (s : Scanner) : Except Failure Scanner :=
  let before := s.cursor.place
  let (keyAllowed, c) := skipToToken s.inFlow .blanks s.keyAllowed before s.cursor.rest
  let s := { s with cursor := c, keyAllowed }.closeBlocks (some c.place.column) before.line
  match c.rest with
  | [] => s.endStream
  | first :: rest => s.addToken first rest

/-- The last token is the end. -/
def ended (s : Scanner) : Bool := s.tokens.back?.any (·.kind = .streamEnd)

/-- A token can be looked at: two more are known, and it cannot turn out to start a key. -/
def isSettled (s : Scanner) (number : Nat) : Bool :=
  number + 2 < s.tokens.size &&
    !s.keys.any fun k => k.any fun k => k.number = number && k.isValid s.cursor.place

/-- The tokens in front that can be looked at. -/
def settled (s : Scanner) : List Token :=
  s.tokens.toList.take ((List.range s.tokens.size).takeWhile s.isSettled).length

/-- A token that had to start a key and cannot any more, when it is looked at. -/
def lostKey? (s : Scanner) : Option KeyStart :=
  (s.keys.filterMap id).find? fun k =>
    k.required && !k.isValid s.cursor.place && (s.ended || k.number + 2 < s.tokens.size)

/-- What is wrong when reading came to some place: the fault in the encoding if the characters are
used up there, and else the problem. -/
def blame (s : Scanner) (e : Failure) : Malformed :=
  match s.fault with
  | some fault =>
    if s.cursor.place.index + s.cursor.rest.length ≤ e.stop.index then .anywhere (.encoding fault)
    else .ofToken e.context e.stop e.problem
  | none => .ofToken e.context e.stop e.problem

end Scanner

/-- The tokens of a document that can be looked at, and what is wrong after them, if something is. -/
structure Stream where
  tokens : List Token
  malformed : Option Malformed
  deriving DecidableEq, Repr

/-- Reads tokens up to the end. Each token takes a character at least, so `fuel` need not exceed the
number of characters by more than one. -/
def Scanner.stream : (fuel : Nat) → Scanner → Stream
  | 0, s => ⟨s.tokens.toList, none⟩
  | fuel + 1, s =>
    match s.next with
    | .error e => ⟨s.settled, some (s.blame e)⟩
    | .ok after =>
      match s.fault, after.cursor.rest with
      | some fault, [] => ⟨s.settled, some (.anywhere (.encoding fault))⟩
      | _, _ =>
        match after.lostKey? with
        | some k =>
          ⟨after.tokens.toList.take k.number,
            some (.ofToken k.place after.cursor.place .missingColon)⟩
        | none => if after.ended then ⟨after.tokens.toList, none⟩ else after.stream fuel

def Stream.ofText (t : Text) : Stream :=
  let source := Source.ofText t
  let s : Scanner := { cursor := ⟨source.characters, .start⟩, fault := source.fault }
  s.stream (source.characters.length + 1)

end Lox.Yaml
