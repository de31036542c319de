import Lox.Settings.Problem

/-!
# Settings from a document

A document is a mapping from keys to values. A key that is repeated spoils its mapping, one that is
unknown is a problem, and a value that is missing leaves a setting as it was. The merge key brings in
the entries of other mappings, without those that the mapping has itself or that an earlier one
brought in.
-/

namespace Lox.Settings

open Yaml (Node Meaning Malformed)

/-- What has become of the settings in a part of a document. -/
structure Progress where
  settings : Settings
  problems : List Problem := []
  /-- While mappings are merged: the keys that they cannot set any more. -/
  taken : Option (List Text) := none

/-- Taking settings out of a document. -/
abbrev Taking := StateT Progress (Except Malformed)

namespace Taking

def report (ps : List Problem) : Taking Unit :=
  modify fun p => { p with problems := p.problems ++ ps }

/-- What a scalar stands for. -/
def meaning (info : Yaml.NodeInfo) (plain : Bool) (content : Text) : Taking Meaning :=
  match Meaning.ofScalar info.tag plain content with
  | .ok m => return m
  | .error e => throw (.anywhere e)

/-- The kind and the text by which keys are compared. Collections are compared by their kind alone. -/
def keyOf : Node → Nat × Text
  | .scalar _ _ content => (0, content)
  | .sequence _ _ => (1, [])
  | .mapping _ _ => (2, [])
  | .reference _ name _ => (3, name)

/-- The keys that occur again, each with every later occurrence. -/
def duplicates : List (Node × Node) → List Problem
  | [] => []
  | (key, _) :: rest =>
    ((rest.map (·.1)).filter fun later => keyOf later = keyOf key).map
      (fun later => .duplicateKey later.line (keyOf later).2 key.line) ++ duplicates rest

/-- A collection stands where a value of another kind is expected. -/
def collectionMismatch (info : Yaml.NodeInfo) (tag : String) (expected : Kind) : Problem :=
  match info.tag with
  | none => .mismatch info.line (text tag) none expected
  | some t =>
    .mismatch info.line t (if t = text "!!seq" || t = text "!!map" then none else some []) expected

/-- What is wrong with a node that is no scalar where one is expected. -/
def notScalar (expected : Kind) : Node → List Problem
  | .sequence info _ => [collectionMismatch info "!!seq" expected]
  | .mapping info entries =>
    match duplicates entries with
    | [] => [collectionMismatch info "!!map" expected]
    | ps => ps
  | .scalar .. | .reference .. => []

/-- The name that a key stands for, if it stands for one. -/
def nameOf? (root key : Node) : Taking (Option Text) := do
  match root.target key with
  | .scalar info plain content =>
    match ← meaning info plain content with
    | .null => return none
    | m => return some (m.asText content)
  | node =>
    report (notScalar .string node)
    return none

def assign (root : Node) (field : Field) (value : Node) : Taking Unit := do
  match root.target value with
  | .scalar info plain content =>
    match ← meaning info plain content with
    | .null => return
    | m =>
      match (← get).settings.set? content m field with
      | some s => modify fun p => { p with settings := s }
      | none =>
        report [.mismatch info.line (Meaning.shownTag info.tag plain content) (some content) field.kind]
  | node => report (notScalar field.kind node)

/-- Takes one entry of a mapping in which some fields are set already; gives the fields that are set
then. -/
def takeEntry (root : Node) (done : List Field) (key value : Node) : Taking (List Field) := do
  match ← nameOf? root key with
  | none => return done
  | some name =>
    let taken := (← get).taken
    if taken.any (·.contains name) then return done
    modify fun p => { p with taken := taken.map (name :: ·) }
    match Field.ofKey? name with
    | none =>
      report [.unknownField key.line name]
      return done
    | some field =>
      if done.contains field then
        report [.repeatedField key.line name]
        return done
      assign root field value
      return field :: done

/-- Takes the entries of a mapping but for the merge key, whose last value is the result. -/
def takeEntries (root : Node) : (done : List Field) → (merged : Option Node) →
    List (Node × Node) → Taking (Option Node)
  | _, merged, [] => return merged
  | done, merged, (key, value) :: rest => do
    if key.isMerge then takeEntries root done (some value) rest
    else
      let done ← takeEntry root done key value
      takeEntries root done merged rest

/-- The texts among keys. -/
def keyTexts (root : Node) : List (Node × Node) → Taking (List Text)
  | [] => return []
  | (key, _) :: rest => do
    match root.target key with
    | .scalar info plain content =>
      match ← meaning info plain content with
      | .string t => return t :: (← keyTexts root rest)
      | _ => keyTexts root rest
    | _ => keyTexts root rest

mutual

/-- Takes a mapping. `within` are the anchors of the nodes that contain it through aliases. -/
def takeMapping (root : Node) : (fuel : Nat) → (within : List Nat) → List (Node × Node) → Taking Unit
  | 0, _, _ => throw (.anywhere .tooDeep)
  | fuel + 1, within, entries => do
    match duplicates entries with
    | [] =>
      match ← takeEntries root [] none entries with
      | none => return
      | some value =>
        match (← get).taken with
        | some _ => merge root fuel within value
        | none =>
          let names ← keyTexts root entries
          modify fun p => { p with taken := some names }
          merge root fuel within value
          modify fun p => { p with taken := none }
    | ps => report ps

/-- Merges a mapping, or each of a sequence of them. -/
def merge (root : Node) : (fuel : Nat) → (within : List Nat) → Node → Taking Unit
  | 0, _, _ => throw (.anywhere .tooDeep)
  | fuel + 1, within, node => do
    match node with
    | .sequence _ items => mergeAll root fuel within items
    | node => mergeOne root fuel within node

/-- Merges the mapping that a node is or refers to. -/
def mergeOne (root : Node) : (fuel : Nat) → (within : List Nat) → Node → Taking Unit
  | 0, _, _ => throw (.anywhere .tooDeep)
  | fuel + 1, within, node => do
    match node with
    | .mapping _ entries => takeMapping root fuel within entries
    | .reference _ name anchor =>
      match root.find? anchor with
      | some (.mapping _ entries) =>
        if within.contains anchor then throw (.anywhere (.containsItself name))
        takeMapping root fuel (anchor :: within) entries
      | _ => throw (.anywhere .badMerge)
    | _ => throw (.anywhere .badMerge)

/-- Merges mappings in their order. -/
def mergeAll (root : Node) : (fuel : Nat) → (within : List Nat) → List Node → Taking Unit
  | 0, _, _ => throw (.anywhere .tooDeep)
  | _ + 1, _, [] => return
  | fuel + 1, within, node :: rest => do
    mergeOne root fuel within node
    mergeAll root fuel within rest

end

/-- Takes a document. Going down in it, each step leads to a smaller node or through an alias to a node
that no other alias has led to, which bounds the steps. -/
def takeRoot (root : Node) : Taking Unit := do
  match root with
  | .mapping _ entries => takeMapping root ((root.size + 2) * (root.size + 2) * 4) [] entries
  | .scalar info plain content =>
    match ← meaning info plain content with
    | .null => return
    | _ =>
      report [.mismatch info.line (Meaning.shownTag info.tag plain content) (some content) .whole]
  | node => report (notScalar .whole node)

end Taking

/-- The settings with a document applied, and what was wrong with it. -/
def applyDocument (s : Settings) (root : Node) : Except Malformed (Settings × List Problem) := do
  let (_, progress) ← (Taking.takeRoot root).run { settings := s }
  return (progress.settings, progress.problems)

end Lox.Settings
