import Lox.Command.Flags
import Lox.Command.Help
import Lox.Command.History
import Lox.Session
import Lox.Settings
import Lox.Text.Control
import Lox.Tree.Dumped
import Lox.Tree.Printed

/-!
# The command line

The program runs a script, or reads lines from a prompt and runs each of them. What it needs of its
surroundings is a `Host`; the program is written once for every host.
-/

namespace Lox

/-- What the program needs of its surroundings. -/
structure Host (m : Type → Type) where
  home : Option Text
  contentsOf : Text → m (Except FileError Text)
  /-- Writes a file; if that is not possible, nothing happens. -/
  save : Text → Text → m Unit
  /-- The next line of the input, or nothing at its end. -/
  readLine : m (Option Text)
  writeOut : Text → m Unit
  writeErr : Text → m Unit
  /-- Runs a machine to its end with a largest number of active calls. The host may stop in between to
  hand the store on and take it back. -/
  execute : (maxDepth : Nat) → (handOn : Store → m Store) → Machine → m Machine
  /-- The largest number of lines that a prompt reads. -/
  patience : Nat

/-- How the program ends. -/
inductive Exit where
  | success
  | usage
  | staticError
  | runtimeError
  | fatal
  | unreadable
  | settings
  | noTopic
  /-- A guarantee was broken. -/
  | fault
  deriving DecidableEq, Repr

def Exit.code : Exit → Nat
  | .success => 0
  | .usage => 64
  | .staticError => 65
  | .runtimeError => 70
  | .fatal => 71
  | .unreadable => 74
  | .settings => 78
  | .noTopic => 3
  | .fault => 2

/-- How the program ends after a script in which nothing fatal happened: by the errors that the console
has seen. -/
def Console.exit (c : Console) : Exit :=
  if c.hadError then .staticError
  else if c.hadRuntimeError then .runtimeError
  else .success

/-- How the program ends after a script. -/
def Session.exit (s : Session) : Ending → Exit
  | .ran .overflow => .fatal
  | .ran (.fault _) | .ran .unfinished => .fault
  | .rejected | .ran .finished | .ran (.error _) => s.console.exit

/-- What to do with sources: run them, unless a tree is to be shown. -/
structure Mode where
  printTree : Bool
  dumpTree : Bool
  verbose : Bool
  maxDepth : Nat
  deriving DecidableEq, Repr

/-- Trees are shown instead of running. -/
def Mode.shows (mode : Mode) : Bool := mode.printTree || mode.dumpTree

namespace Command

variable {m : Type → Type} [Monad m]

def complain (host : Host m) (message : Text) : m Unit := host.writeErr (message ++ [Text.newline])

/-- Writes diagnostics, and the log if it is wanted, to the error output. -/
def writeNotices (host : Host m) (verbose : Bool) (notices : List Notice) : m Unit :=
  notices.forM fun
    | .diagnostic written => host.writeErr written
    | .record r => if verbose then complain host r.toLine else pure ()

/-- Writes what a store has printed and logged, and takes it out of the store. -/
def handOn (host : Host m) (verbose : Bool) (s : Store) : m Store := do
  host.writeOut (Console.written s.printed.toList)
  writeNotices host verbose (s.log.toList.map .record)
  return { s with printed := #[], log := #[] }

def runSource (host : Host m) (mode : Mode) (s : Session) (source : Text) : m (Session × Ending) := do
  match s.prepare source with
  | (s, notices, none) =>
    writeNotices host mode.verbose notices
    return (s, .rejected)
  | (s, notices, some machine) =>
    writeNotices host mode.verbose notices
    let turn := s.conclude (← host.execute mode.maxDepth (handOn host mode.verbose) machine)
    host.writeOut (Console.written turn.printed)
    writeNotices host mode.verbose turn.notices
    match turn.ending with
    | .ran .overflow => complain host (text "Fatal error: stack overflow.")
    | _ => pure ()
    return (turn.session, turn.ending)

/-- Shows the tree of a source; says whether it could be read. -/
def showSource (host : Host m) (mode : Mode) (s : Session) (source : Text) : m (Session × Bool) := do
  let (s, notices, reading) := s.read source
  writeNotices host mode.verbose notices
  if reading.errors.isEmpty then
    if mode.printTree then host.writeOut (reading.program.printed ++ [Text.newline])
    if mode.dumpTree then host.writeOut (reading.program.dumped ++ [Text.newline])
  return (s, reading.errors.isEmpty)

def script (host : Host m) (mode : Mode) (s : Session) (path : Text) : m Exit := do
  match ← host.contentsOf path with
  | .error e =>
    complain host (e.message path)
    return .unreadable
  | .ok source =>
    if mode.shows then
      let (_, ok) ← showSource host mode s source
      return if ok then .success else .staticError
    else
      let (s, ending) ← runSource host mode s source
      return s.exit ending

/-- Reads lines and runs each of them, or shows its tree, until the input or the patience of the host
ends. Empty lines are skipped. -/
def readLines (host : Host m) (mode : Mode) (prompt : Text) :
    (patience : Nat) → Session → History → m (Exit × History)
  | 0, _, history => return (.success, history)
  | patience + 1, s, history => do
    host.writeOut prompt
    match ← host.readLine with
    | none =>
      complain host (text "[EXIT]")
      return (.success, history)
    | some [] => readLines host mode prompt patience s history
    | some line =>
      let history := history.enter line
      if mode.shows then
        let (s, _) ← showSource host mode s line
        readLines host mode prompt patience s history
      else
        match ← runSource host mode s line with
        | (_, .ran .overflow) => return (.fatal, history)
        | (_, .ran (.fault _)) => return (.fault, history)
        | (s, _) => readLines host mode prompt patience s history

/-- Runs the prompt. The history is read before and written after it. -/
def prompt (host : Host m) (mode : Mode) (settings : Settings) (s : Session) : m Exit := do
  let history := match ← host.contentsOf settings.historyFile with
    | .ok contents => History.empty.addFile contents
    | .error _ => .empty
  let (exit, history) ← do
    if settings.prompt.hasControl then
      complain host (text "invalid prompt")
      pure (.unreadable, history)
    else readLines host mode settings.prompt host.patience s history
  if !settings.historyFile.isEmpty then host.save settings.historyFile history.toContents
  return exit

/-- The settings with the flags over them; the depth must be positive. -/
def withFlags (settings : Settings) (flags : Flags) : Option Settings :=
  let settings := { settings with
    color := flags.color.getD settings.color
    trace := flags.trace.getD settings.trace
    verbose := flags.verbose.getD settings.verbose }
  match flags.maxDepth with
  | none => some settings
  | some n => if 0 < n then some { settings with maxCallDepth := n } else none

/-- Runs a script, or the prompt without one, with settings. -/
def start (host : Host m) (flags : Flags) (settings : Settings) (arguments : List Text) : m Exit :=
  let mode : Mode :=
    { printTree := flags.printTree.getD false
      dumpTree := flags.dumpTree.getD false
      verbose := settings.verbose
      maxDepth := settings.maxCallDepth.toNat }
  let s := Session.new settings.color settings.trace
  match arguments with
  | [] => prompt host mode settings s
  | path :: _ => script host mode s path

def configure (host : Host m) (flags : Flags) (arguments : List Text) : m Exit := do
  match ← Settings.load host.contentsOf host.home (flags.config.getD []) with
  | .error e =>
    complain host e.message
    return .settings
  | .ok settings =>
    match withFlags settings flags with
    | none =>
      complain host (text "--max-depth must be positive")
      return .settings
    | some settings => start host flags settings arguments

/-- The names of the command `help`. -/
def isHelp (name : Text) : Bool := name = text "help" || name = text "h"

/-- Answers the command `help` on a topic. The only command is `help` itself. -/
def explain (host : Host m) : (topics : List Text) → m Exit
  | [] => do
    host.writeOut helpText
    return .success
  | [] :: _ => do
    host.writeOut namelessHelpText
    return .success
  | topic :: _ => do
    if isHelp topic then
      host.writeOut helpCommandText
      return .success
    complain host (text "No help topic for '" ++ topic ++ text "'")
    return .noTopic

/-- Follows the command `help` with its arguments, which can start with its own flag. -/
def help (host : Host m) (arguments : List Text) : m Exit := do
  let (flags, result) := Flags.parse Flag.ofHelp {} arguments
  let result := if flags.hasTwoForms then result.bind fun _ => .error .twoForms else result
  match result with
  | .error e =>
    host.writeOut (text "Incorrect Usage: " ++ e.message ++ text "\n\n" ++ helpCommandText)
    complain host e.message
    return .usage
  | .ok topics =>
    if flags.wantsHelp then
      host.writeOut helpCommandText
      return .success
    explain host topics

/-- Follows a command line without usage errors. -/
def follow (host : Host m) (flags : Flags) (arguments : List Text) : m Exit := do
  if flags.wantsHelp then
    host.writeOut helpText
    return .success
  match arguments with
  | [] => configure host flags []
  | first :: rest =>
    if isHelp first then help host rest
    else if rest.isEmpty then configure host flags [first]
    else
      host.writeOut helpText
      return .usage

/-- Runs the program with the arguments of a command line. -/
def run (host : Host m) (arguments : List Text) : m Exit := do
  let (flags, result) := Flags.parse Flag.all {} arguments
  if flags.hasTwoForms then
    let message := UsageError.twoForms.message
    host.writeOut (message ++ [Text.newline] ++ helpText)
    complain host message
    return .usage
  match result with
  | .ok arguments => follow host flags arguments
  | .error e =>
    host.writeOut (text "Incorrect Usage. " ++ e.message ++ text "\n\n" ++ helpText)
    complain host e.message
    return .usage

end Command

end Lox
