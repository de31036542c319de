import Lox.Text.Integer
import Lox.Text.Quoted

/-!
# Flags

The flags of the command line stand before its arguments, with one or two dashes. A value follows after
an equals sign or, unless the flag is a truth value, as the next argument. The first argument that is
no flag, or `--`, ends the flags.
-/

namespace Lox

/-- A flag. The last two are one flag by its long and its short name. -/
inductive Flag where
  | config | color | trace | maxDepth | cpuProfile | printTree | dumpTree | verbose | help | helpShort
  deriving DecidableEq, Repr

namespace Flag

def all : List Flag :=
  [.config, .color, .trace, .maxDepth, .cpuProfile, .printTree, .dumpTree, .verbose, .help, .helpShort]

def name : Flag → String
  | .config => "config"
  | .color => "color"
  | .trace => "trace"
  | .maxDepth => "max-depth"
  | .cpuProfile => "cpuprofile"
  | .printTree => "print-ast"
  | .dumpTree => "dump-ast"
  | .verbose => "verbose"
  | .help => "help"
  | .helpShort => "h"

def ofHelp : List Flag := [.help, .helpShort]

/-- The flag of a name, among those that are known. -/
def ofName? (known : List Flag) (t : Text) : Option Flag := known.find? fun f => text f.name = t

end Flag

/-- The values of the flags that were given. -/
structure Flags where
  config : Option Text := none
  color : Option Bool := none
  trace : Option Bool := none
  maxDepth : Option Int := none
  cpuProfile : Option Text := none
  printTree : Option Bool := none
  dumpTree : Option Bool := none
  verbose : Option Bool := none
  help : Option Bool := none
  helpShort : Option Bool := none
  deriving DecidableEq, Repr

/-- What is wrong with the flags of a command line. -/
inductive UsageError where
  | twoForms
  | badSyntax (argument : Text)
  | undefined (name : Text)
  | needsArgument (f : Flag)
  | invalidBoolean (f : Flag) (value : Text)
  | invalidInteger (f : Flag) (value : Text)
  | outOfRange (f : Flag) (value : Text)
  deriving DecidableEq, Repr

def UsageError.message : UsageError → Text
  | .twoForms => text "Cannot use two forms of the same flag: h help"
  | .badSyntax argument => text "bad flag syntax: " ++ argument
  | .undefined name => text "flag provided but not defined: -" ++ name
  | .needsArgument f => text ("flag needs an argument: -" ++ f.name)
  | .invalidBoolean f value =>
    text "invalid boolean value " ++ value.quoted ++ text (" for -" ++ f.name ++ ": parse error")
  | .invalidInteger f value =>
    text "invalid value " ++ value.quoted ++ text (" for flag -" ++ f.name ++ ": parse error")
  | .outOfRange f value =>
    text "invalid value " ++ value.quoted ++ text (" for flag -" ++ f.name ++ ": value out of range")

/-- What an argument looks like. -/
inductive ArgumentForm where
  | positional
  | terminator
  | malformed
  | flag (name : Text) (value : Option Text)
  deriving DecidableEq, Repr

/-- The name of a flag and the value after an equals sign. -/
def ArgumentForm.ofFlag (t : Text) : ArgumentForm :=
  match t with
  | [] => .malformed
  | b :: _ =>
    if b == 45 || b == 61 then .malformed
    else
      match t.dropWhile (· != 61) with
      | [] => .flag t none
      | _ :: value => .flag (t.takeWhile (· != 61)) (some value)

def ArgumentForm.of : Text → ArgumentForm
  | [45, 45] => .terminator
  | 45 :: 45 :: rest => .ofFlag rest
  | 45 :: b :: rest => .ofFlag (b :: rest)
  | _ => .positional

namespace Flags

/-- A truth value as flags spell it. -/
def readBool? (t : Text) : Option Bool :=
  if ["1", "t", "T", "TRUE", "true", "True"].any (text · = t) then some true
  else if ["0", "f", "F", "FALSE", "false", "False"].any (text · = t) then some false
  else none

/-- The flags with a truth value put in, for a flag that has one. -/
def setBool? (s : Flags) (f : Flag) (b : Bool) : Option Flags :=
  match f with
  | .color => some { s with color := some b }
  | .trace => some { s with trace := some b }
  | .printTree => some { s with printTree := some b }
  | .dumpTree => some { s with dumpTree := some b }
  | .verbose => some { s with verbose := some b }
  | .help => some { s with help := some b }
  | .helpShort => some { s with helpShort := some b }
  | .config | .maxDepth | .cpuProfile => none

def isBool (f : Flag) : Bool := (setBool? {} f true).isSome

def set (s : Flags) (f : Flag) (value : Text) : Except UsageError Flags :=
  match f with
  | .config => .ok { s with config := some value }
  | .cpuProfile => .ok { s with cpuProfile := some value }
  | .maxDepth =>
    match value.readInteger with
    | .value n => .ok { s with maxDepth := some n }
    | .malformed => .error (.invalidInteger f value)
    | .tooLarge => .error (.outOfRange f value)
  | _ =>
    match (readBool? value).bind (s.setBool? f) with
    | some s => .ok s
    | none => .error (.invalidBoolean f value)

/-- The value of a flag and the arguments after it. A truth value that is only named is true; other
values may be the next argument. -/
def takeValue (f : Flag) (value : Option Text) (rest : List Text) : Option Text × List Text :=
  match value with
  | some v => (some v, rest)
  | none => if isBool f then (some (text "true"), rest) else (rest.head?, rest.tail)

theorem takeValue_length_le (f : Flag) (value : Option Text) (rest : List Text) :
    (takeValue f value rest).2.length ≤ rest.length := by
  unfold takeValue
  split
  · exact Nat.le_refl _
  · split <;> simp

/-- The flags of a command line, and its arguments or the first error. -/
def parse (known : List Flag) (s : Flags) : List Text → Flags × Except UsageError (List Text)
  | [] => (s, .ok [])
  | argument :: rest =>
    match ArgumentForm.of argument with
    | .positional => (s, .ok (argument :: rest))
    | .terminator => (s, .ok rest)
    | .malformed => (s, .error (.badSyntax argument))
    | .flag name value =>
      match Flag.ofName? known name with
      | none => (s, .error (.undefined name))
      | some f =>
        match (takeValue f value rest).1 with
        | none => (s, .error (.needsArgument f))
        | some v =>
          match s.set f v with
          | .ok s => s.parse known (takeValue f value rest).2
          | .error e => (s, .error e)
termination_by arguments => arguments.length
decreasing_by exact Nat.lt_succ_of_le (takeValue_length_le f value rest)

def wantsHelp (s : Flags) : Bool := s.help.getD false || s.helpShort.getD false

/-- Help was asked for by both names of its flag. -/
def hasTwoForms (s : Flags) : Bool := s.help.isSome && s.helpShort.isSome

end Flags

end Lox
