import Codemod.Failure
import Codemod.Json.Printer

/-! What a run can see and change: the disk, the events it has announced, and a part `σ` that stands
for everything else. A failure stops a run and undoes nothing. -/
namespace Codemod

/-- Something that happened, with its facts. -/
structure Event where
  name : String
  fields : List (String × Json)

/-- The event as one line. A fact may take the place of the name or the time. -/
def Event.toJson (time : String) (e : Event) : Json :=
  .obj (e.fields.foldl (fun fields f => Json.set f.1 f.2 fields)
    [("event", .str e.name), ("timestamp", .str time)])

def Event.line (time : String) (e : Event) : String := (e.toJson time).render Json.Layout.compact

structure World (σ : Type) where
  disk : Disk
  events : List Event
  /-- Whether events are announced at all. -/
  listening : Bool
  outside : σ

abbrev Act (σ α : Type) := ExceptT Failure (StateM (World σ)) α

namespace Act

def getDisk : Act σ Disk := do return (← get).disk

def setDisk (d : Disk) : Act σ Unit := modify fun w => { w with disk := d }

def liftDisk (r : Except DiskError α) : Act σ α :=
  match r with
  | .ok a => pure a
  | .error e => throw (.disk e)

def announce (name : String) (fields : List (String × Json)) : Act σ Unit :=
  modify fun w => if w.listening then { w with events := w.events ++ [⟨name, fields⟩] } else w

def write (file : Path) (text : String) : Act σ Unit := do
  setDisk (← liftDisk ((← getDisk).write file text))

def create (file : Path) (text : String) : Act σ Unit := do
  setDisk (← liftDisk ((← getDisk).create file text))

/-- Makes the directory of a path with all directories above it. A failure keeps what is there. -/
def ensureDirectory (dir : Path) : Act σ Unit := do
  setDisk (← liftDisk ((← getDisk).ensureDirectory dir))

def readText (file : Path) : Act σ String := do
  match (← getDisk).readText file with
  | .ok s => return s
  | .error e => throw e.failure

/-- The outcome of a step, which the run can look at and go on. -/
def attempt (x : Act σ α) : Act σ (Except Failure α) := fun w =>
  let (r, w) := x w
  (.ok r, w)

def pathJson (p : Path) : Json := .str (toString p)

end Act

/-! # Other programs

Seen from here: what is asked of them and what comes back. -/

/-- A program to be run in a directory. -/
structure Invocation where
  argv : List String
  directory : Path
  deriving DecidableEq, Repr

/-- What became of a program. -/
inductive ProcessResult where
  /-- There is no such program. -/
  | missing
  | timedOut
  | ended (code : Int) (output errors : ByteArray)

abbrev Launcher (σ : Type) := Invocation → Act σ ProcessResult

end Codemod
