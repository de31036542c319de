import Lox.Yaml.Meaning

/-!
# The settings

What can be set, under which name and with which kind of value.
-/

namespace Lox

/-- The settings. -/
structure Settings where
  prompt : Text
  historyFile : Text
  color : Bool
  trace : Bool
  maxCallDepth : Int
  cpuProfile : Text
  verbose : Bool
  deriving DecidableEq, Repr

namespace Settings

/-- What is expected of a value. -/
inductive Kind where
  | string
  | bool
  | int
  /-- All settings together, as a mapping. -/
  | whole
  deriving DecidableEq, Repr

def Kind.name : Kind → String
  | .string => "string"
  | .bool => "bool"
  | .int => "int"
  | .whole => "config.Config"

/-- One setting. -/
inductive Field where
  | prompt
  | historyFile
  | color
  | trace
  | maxCallDepth
  | cpuProfile
  | verbose
  deriving DecidableEq, Repr

namespace Field

def all : List Field := [prompt, historyFile, color, trace, maxCallDepth, cpuProfile, verbose]

def key : Field → String
  | prompt => "prompt"
  | historyFile => "history_file"
  | color => "color"
  | trace => "trace"
  | maxCallDepth => "max_call_depth"
  | cpuProfile => "cpu_profile"
  | verbose => "verbose"

def ofKey? (t : Text) : Option Field := all.find? fun f => text f.key = t

def kind : Field → Kind
  | prompt | historyFile | cpuProfile => .string
  | color | trace | verbose => .bool
  | maxCallDepth => .int

end Field

/-! ## Values -/

/-- The words for true, besides the truth value itself. -/
def yesWords : List String := ["y", "Y", "yes", "Yes", "YES", "on", "On", "ON"]

/-- The words for false, besides the truth value itself. -/
def noWords : List String := ["n", "N", "no", "No", "NO", "off", "Off", "OFF"]

/-- A truth value for a setting. -/
def boolOf? : Yaml.Meaning → Option Bool
  | .bool b => some b
  | .string t =>
    if yesWords.any (text · = t) then some true
    else if noWords.any (text · = t) then some false
    else none
  | _ => none

/-- The largest integer of a setting. -/
def maxInt : Int := 0x7FFFFFFFFFFFFFFF

/-- A number cut to its whole part. One that is too small, or the one that is just too large, becomes
the least integer. -/
def cut? (x : Number) : Option Int :=
  if x.isNaN then none
  else if x.isInfinite then if x.isNegative then some (-maxInt - 1) else none
  else
    let n := x.wholePart
    if maxInt + 1 < n then none
    else if n ≤ maxInt && -maxInt ≤ n then some n
    else some (-maxInt - 1)

/-- An integer for a setting. -/
def intOf? : Yaml.Meaning → Option Int
  | .integer n => if n ≤ maxInt then some n else none
  | .float x => cut? x
  | _ => none

/-- The settings with one of them changed to a value that is not missing. `content` is the value as it
is written. -/
def set? (s : Settings) (content : Text) (value : Yaml.Meaning) : Field → Option Settings
  | .prompt => some { s with prompt := value.asText content }
  | .historyFile => some { s with historyFile := value.asText content }
  | .cpuProfile => some { s with cpuProfile := value.asText content }
  | .color => (boolOf? value).map fun b => { s with color := b }
  | .trace => (boolOf? value).map fun b => { s with trace := b }
  | .verbose => (boolOf? value).map fun b => { s with verbose := b }
  | .maxCallDepth => (intOf? value).map fun n => { s with maxCallDepth := n }

end Settings

end Lox
