import Lox.Yaml.Stream

/-!
# Nodes

A document is a tree of scalars, sequences and mappings. A node can have an anchor, and an alias
stands for the node with the last anchor of its name. Anchors are numbered in the order of their
nodes, so a node that contains itself through an alias is still a finite tree.
-/

namespace Lox.Yaml

/-- What a node carries besides its content: its line, counted from one, its tag if it has one, and
the number of its anchor. -/
structure NodeInfo where
  line : Nat
  tag : Option Text
  anchor : Option Nat
  deriving DecidableEq, Repr

/-- A node of a document. -/
inductive Node where
  | scalar (info : NodeInfo) (plain : Bool) (content : Text)
  | sequence (info : NodeInfo) (items : List Node)
  | mapping (info : NodeInfo) (entries : List (Node × Node))
  | reference (line : Nat) (name : Text) (anchor : Nat)
  deriving Repr

/-- What is left to read, and the names that the nodes so far have given meaning to. -/
structure Reader where
  tokens : List Token
  malformed : Option Malformed
  /-- The handles of tags and what they stand for. -/
  handles : List (Text × Text) := []
  /-- The names of the anchors, the newest first, with their numbers. -/
  anchors : List (Text × Nat) := []

/-- Reading nodes off tokens. -/
abbrev Reading := StateT Reader (Except Malformed)

namespace Reading

/-- The current token. After the last one there is only the end. -/
def peek : Reading Token := do
  let r ← get
  match r.tokens, r.malformed with
  | t :: _, _ => return t
  | [], some m => throw m
  | [], none => return ⟨.streamEnd, 0⟩

def skip : Reading Unit := modify fun r => { r with tokens := r.tokens.tail }

/-- Goes to the next token, which is then the current one. -/
def advance : Reading Token := do
  skip
  peek

/-- Fails at a token of something that started on a line. -/
def fail {α : Type} (context : Nat) (t : Token) (problem : Malformation) : Reading α :=
  throw (.ofNode context t.line problem)

/-- A node without content, on the line of a token. -/
def emptyNode (line : Nat) : Node := .scalar ⟨line + 1, none, none⟩ true []

/-- The number of a new anchor. -/
def newAnchor (name : Text) : Reading Nat := do
  let r ← get
  let n := r.anchors.length
  set { r with anchors := (name, n) :: r.anchors }
  return n

/-- What stands in front of a node: an anchor and a tag in either order. -/
structure Properties where
  line : Nat
  anchor : Option Text := none
  /-- The handle and the suffix of the tag, with its line. -/
  tag : Option (Text × Text × Nat) := none

/-- The properties in front of a node; the current token is then the first one after them. -/
def properties : Reading Properties := do
  let t ← peek
  match t.kind with
  | .anchor name =>
    let t' ← advance
    match t'.kind with
    | .tag handle suffix =>
      let _ ← advance
      return { line := t.line, anchor := some name, tag := some (handle, suffix, t'.line) }
    | _ => return { line := t.line, anchor := some name }
  | .tag handle suffix =>
    let t' ← advance
    match t'.kind with
    | .anchor name =>
      let _ ← advance
      return { line := t.line, anchor := some name, tag := some (handle, suffix, t.line) }
    | _ => return { line := t.line, tag := some (handle, suffix, t.line) }
  | _ => return { line := t.line }

/-- What the tags of the standard start with when they are written in full. -/
def standardPrefix : Text := text "tag:yaml.org,2002:"

/-- A tag with the start of the standard tags written as `!!`. -/
def shortTag (tag : Text) : Text :=
  if standardPrefix.isPrefixOf tag then text "!!" ++ tag.drop standardPrefix.length else tag

/-- The tag of a node: none, or the one that a handle and a suffix stand for. The tag `!` is none. -/
def tagOf (p : Properties) : Reading (Option Text) := do
  match p.tag with
  | none => return none
  | some ([], suffix, _) => return if suffix = [33] then none else some (shortTag suffix)
  | some (handle, suffix, line) =>
    match (← get).handles.lookup handle with
    | some full => return some (shortTag (full ++ suffix))
    | none => throw (.ofNode p.line line .undefinedHandle)

/-- A key or a value is missing where one of these tokens stands. -/
def endsBlockEntry : TokenKind → Bool
  | .key | .colon | .blockEnd => true
  | _ => false

mutual

/-- A node. `block` says that it can be a block collection, and `indentless` that it can be a sequence
in the column of the mapping around it. -/
def node : (fuel : Nat) → (block indentless : Bool) → Reading Node
  | 0, _, _ => throw (.anywhere .tooDeep)
  | fuel + 1, block, indentless => do
    let t ← peek
    match t.kind with
    | .reference name =>
      skip
      match (← get).anchors.lookup name with
      | some n => return .reference (t.line + 1) name n
      | none => throw (.anywhere (.unknownAnchor name))
    | _ =>
      let p ← properties
      let t ← peek
      let tag ← tagOf p
      let anchor ← p.anchor.mapM newAnchor
      let info : NodeInfo := ⟨p.line + 1, tag, anchor⟩
      match t.kind, block, indentless with
      | .dash, _, true => return .sequence info (← indentlessItems fuel)
      | .scalar plain content, _, _ =>
        skip
        return .scalar info plain content
      | .openBracket, _, _ =>
        skip
        return .sequence info (← flowItems fuel t.line true)
      | .openBrace, _, _ =>
        skip
        return .mapping info (← flowEntries fuel t.line true)
      | .blockSequence, true, _ =>
        skip
        return .sequence info (← blockItems fuel t.line)
      | .blockMapping, true, _ =>
        skip
        return .mapping info (← blockEntries fuel t.line)
      | _, _, _ =>
        if p.anchor.isSome || p.tag.isSome then return .scalar info true []
        else fail p.line t .noContent

/-- The items of a block sequence that was opened on a line. -/
def blockItems : (fuel : Nat) → (line : Nat) → Reading (List Node)
  | 0, _ => throw (.anywhere .tooDeep)
  | fuel + 1, line => do
    let t ← peek
    match t.kind with
    | .dash =>
      let t' ← advance
      let item ← match t'.kind with
        | .dash | .blockEnd => pure (emptyNode t.line)
        | _ => node fuel true false
      return item :: (← blockItems fuel line)
    | .blockEnd =>
      skip
      return []
    | _ => fail line t .noEntry

/-- The items of a sequence in the column of the mapping around it. -/
def indentlessItems : (fuel : Nat) → Reading (List Node)
  | 0 => throw (.anywhere .tooDeep)
  | fuel + 1 => do
    let t ← peek
    match t.kind with
    | .dash =>
      let t' ← advance
      let item ←
        if t'.kind = .dash || endsBlockEntry t'.kind then pure (emptyNode t.line)
        else node fuel true false
      return item :: (← indentlessItems fuel)
    | _ => return []

/-- The entries of a block mapping that was opened on a line. -/
def blockEntries : (fuel : Nat) → (line : Nat) → Reading (List (Node × Node))
  | 0, _ => throw (.anywhere .tooDeep)
  | fuel + 1, line => do
    let t ← peek
    match t.kind with
    | .key =>
      let t' ← advance
      let key ← if endsBlockEntry t'.kind then pure (emptyNode t.line) else node fuel true true
      let value ← blockValue fuel
      return (key, value) :: (← blockEntries fuel line)
    | .blockEnd =>
      skip
      return []
    | _ => fail line t .noKey

/-- The value of an entry of a block mapping. -/
def blockValue : (fuel : Nat) → Reading Node
  | 0 => throw (.anywhere .tooDeep)
  | fuel + 1 => do
    let t ← peek
    match t.kind with
    | .colon =>
      let t' ← advance
      if endsBlockEntry t'.kind then return emptyNode t.line else node fuel true true
    | _ => return emptyNode t.line

/-- The items of a sequence in brackets that was opened on a line. An item can be a mapping of one
entry without braces. -/
def flowItems : (fuel : Nat) → (line : Nat) → (first : Bool) → Reading (List Node)
  | 0, _, _ => throw (.anywhere .tooDeep)
  | fuel + 1, line, first => do
    let t ← peek
    if t.kind = .closeBracket then
      skip
      return []
    let t ← if first then pure t
      else if t.kind = .comma then advance
      else fail line t .openSequence
    match t.kind with
    | .closeBracket =>
      skip
      return []
    | .key =>
      let t' ← advance
      let key ← match t'.kind with
        | .colon | .comma | .closeBracket =>
          skip
          pure (emptyNode t'.line)
        | _ => node fuel false false
      let value ← flowPairValue fuel
      return .mapping ⟨t.line + 1, none, none⟩ [(key, value)] :: (← flowItems fuel line false)
    | _ =>
      let item ← node fuel false false
      return item :: (← flowItems fuel line false)

/-- The value of a mapping of one entry in brackets. -/
def flowPairValue : (fuel : Nat) → Reading Node
  | 0 => throw (.anywhere .tooDeep)
  | fuel + 1 => do
    let t ← peek
    match t.kind with
    | .colon =>
      let t' ← advance
      match t'.kind with
      | .comma | .closeBracket => return emptyNode t'.line
      | _ => node fuel false false
    | _ => return emptyNode t.line

/-- The entries of a mapping in braces that was opened on a line. -/
def flowEntries : (fuel : Nat) → (line : Nat) → (first : Bool) → Reading (List (Node × Node))
  | 0, _, _ => throw (.anywhere .tooDeep)
  | fuel + 1, line, first => do
    let t ← peek
    if t.kind = .closeBrace then
      skip
      return []
    let t ← if first then pure t
      else if t.kind = .comma then advance
      else fail line t .openMapping
    match t.kind with
    | .closeBrace =>
      skip
      return []
    | .key =>
      let t' ← advance
      let key ← match t'.kind with
        | .colon | .comma | .closeBrace => pure (emptyNode t'.line)
        | _ => node fuel false false
      let value ← flowValue fuel
      return (key, value) :: (← flowEntries fuel line false)
    | _ =>
      let key ← node fuel false false
      let after ← peek
      return (key, emptyNode after.line) :: (← flowEntries fuel line false)

/-- The value of an entry in braces. -/
def flowValue : (fuel : Nat) → Reading Node
  | 0 => throw (.anywhere .tooDeep)
  | fuel + 1 => do
    let t ← peek
    match t.kind with
    | .colon =>
      let t' ← advance
      match t'.kind with
      | .comma | .closeBrace => return emptyNode t'.line
      | _ => node fuel false false
    | _ => return emptyNode t.line

end

/-! ## Documents -/

/-- The handles that need no directive. -/
def standardHandles : List (Text × Text) := [(text "!", text "!"), (text "!!", standardPrefix)]

/-- Reads the directives in front of a document. A handle is declared once at most, and one that needs
no directive keeps its meaning unless it is declared. -/
def directives : (fuel : Nat) → (versioned : Bool) → Reading Unit
  | 0, _ => throw (.anywhere .tooDeep)
  | fuel + 1, versioned => do
    let t ← peek
    match t.kind with
    | .version major minor =>
      if versioned then fail 0 t .duplicateVersion
      if major ≠ 1 || minor ≠ 1 then fail 0 t .incompatibleVersion
      skip
      directives fuel true
    | .handle name full =>
      if ((← get).handles.lookup name).isSome then fail 0 t .duplicateHandle
      modify fun r => { r with handles := r.handles ++ [(name, full)] }
      skip
      directives fuel versioned
    | _ => modify fun r => { r with handles := r.handles ++ standardHandles }

/-- A node after the marker of its document; there may be none. -/
def contents (fuel : Nat) : Reading Node := do
  let t ← peek
  match t.kind with
  | .version .. | .handle .. | .documentStart | .documentEnd | .streamEnd => return emptyNode t.line
  | _ => node fuel true false

/-- The first document, if there is one. -/
def document (fuel : Nat) : Reading (Option Node) := do
  let t ← peek
  match t.kind with
  | .streamEnd => return none
  | .version .. | .handle .. | .documentStart =>
    directives fuel false
    let t ← peek
    if t.kind ≠ .documentStart then fail 0 t .noDocumentStart
    skip
    let root ← contents fuel
    let _ ← peek
    return some root
  | _ =>
    directives fuel false
    let root ← node fuel true false
    let _ ← peek
    return some root

end Reading

namespace Node

/-- Reads the first document of a text, if there is one. Each step of reading takes a token or is
followed by one that does, which bounds the steps. -/
def ofText (t : Text) : Except Malformed (Option Node) := do
  let stream := Stream.ofText t
  let fuel := 3 * stream.tokens.length + 3
  let (root, _) ← (Reading.document fuel).run { tokens := stream.tokens, malformed := stream.malformed }
  return root

mutual

def find? (anchor : Nat) : Node → Option Node
  | .scalar info plain content =>
    if info.anchor = some anchor then some (.scalar info plain content) else none
  | .sequence info items =>
    if info.anchor = some anchor then some (.sequence info items) else findInItems? anchor items
  | .mapping info entries =>
    if info.anchor = some anchor then some (.mapping info entries) else findInEntries? anchor entries
  | .reference .. => none

def findInItems? (anchor : Nat) : List Node → Option Node
  | [] => none
  | n :: rest => (n.find? anchor).or (findInItems? anchor rest)

def findInEntries? (anchor : Nat) : List (Node × Node) → Option Node
  | [] => none
  | (key, value) :: rest =>
    ((key.find? anchor).or (value.find? anchor)).or (findInEntries? anchor rest)

end

mutual

def size : Node → Nat
  | .scalar .. | .reference .. => 1
  | .sequence _ items => 1 + sizeOfItems items
  | .mapping _ entries => 1 + sizeOfEntries entries

def sizeOfItems : List Node → Nat
  | [] => 0
  | n :: rest => n.size + sizeOfItems rest

def sizeOfEntries : List (Node × Node) → Nat
  | [] => 0
  | (key, value) :: rest => key.size + value.size + sizeOfEntries rest

end

/-- The node that a node stands for in a tree: what an alias refers to, and every other node itself. -/
def target (root : Node) : Node → Node
  | .reference line name anchor => (root.find? anchor).getD (.reference line name anchor)
  | n => n

/-- The line of a node, counted from one. -/
def line : Node → Nat
  | .scalar info _ _ | .sequence info _ | .mapping info _ => info.line
  | .reference line _ _ => line

end Node

end Lox.Yaml
