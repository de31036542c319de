import Lox.Console
import Lox.Machine.Step
import Lox.Tree.Program

/-!
# Sessions

A session runs sources one after another on one store: what a source defines is there for the next
one. A source with a static error does not run at all.
-/

namespace Lox

/-- What a session tells beside the output of programs. -/
inductive Notice where
  | diagnostic (written : Text)
  | record (r : LogRecord)
  deriving DecidableEq, Repr

/-- A session. -/
structure Session where
  store : Store
  /-- The site of the first token of the next source, so that no two references share a site. -/
  nextSite : Site
  console : Console

/-- What came of a source. -/
inductive Ending where
  /-- It has static errors and did not run. -/
  | rejected
  | ran (o : Outcome)
  deriving DecidableEq, Repr

/-- What running a source gives. -/
structure Turn where
  session : Session
  printed : List Text
  notices : List Notice
  ending : Ending

namespace Session

def new (color showTrace : Bool) : Session :=
  { store := .initial, nextSite := 0, console := { color, showTrace } }

def reportStatic (s : Session) (errors : List StaticError) : Session × List Notice :=
  let (console, written) := s.console.reportAll (errors.map .ofStatic)
  ({ s with console }, if errors.isEmpty then [] else [.diagnostic written])

/-- Reads a source and reports what is wrong with it. -/
def read (s : Session) (source : Text) : Session × List Notice × Reading :=
  let reading := Reading.ofSource s.nextSite source
  let (s, notices) := s.reportStatic reading.errors
  ({ s with nextSite := reading.nextSite },
    notices ++ [.record (.parsed reading.program.length reading.errors.isEmpty)], reading)

/-- Reads and binds a source; a source without static errors is ready to run. -/
def prepare (s : Session) (source : Text) : Session × List Notice × Option Machine :=
  let (s, noticed, reading) := ({ s with console := s.console.reset }).read source
  if reading.errors.isEmpty then
    let bound := Bound.ofProgram reading.program
    let (s, misuses) := s.reportStatic bound.errors
    let notices := noticed ++ misuses ++
      [.record (.resolved bound.bindings.length bound.errors.isEmpty)]
    if bound.errors.isEmpty then
      let store := s.store.addBindings bound.bindings
      (s, notices, some (Machine.start reading.program { store with printed := #[], log := #[] }))
    else (s, notices, none)
  else (s, noticed, none)

/-- Takes the store back from a machine and reports how it ended. -/
def conclude (s : Session) (m : Machine) : Turn :=
  let s := { s with store := m.store }
  let printed := m.store.printed.toList
  let notices := m.store.log.toList.map Notice.record
  match m.outcome with
  | .error e =>
    let (console, written) := s.console.reportRuntime e.report
    { session := { s with console }, printed, ending := .ran (.error e)
      notices := notices ++
        [.record (.runtimeError e.token.line e.trace.size), .diagnostic written] }
  | o => { session := s, printed, notices, ending := .ran o }

def run (limits : Limits) (steps : Nat) (s : Session) (source : Text) : Turn :=
  match s.prepare source with
  | (s, notices, none) => { session := s, printed := [], notices, ending := .rejected }
  | (s, notices, some m) =>
    let turn := s.conclude (m.run limits steps)
    { turn with notices := notices ++ turn.notices }

end Session

end Lox
