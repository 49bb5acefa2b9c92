import Codemod.Plan.Wire
import Codemod.Verdict

/-! What a run reports: its steps, why it came to an end, and the counts at both ends. -/
namespace Codemod

/-- How the changes of a step are judged. -/
inductive Mode where
  /-- All together, by the snapshots before and after them. -/
  | simple
  /-- File by file, with the first diagnostic as the target. -/
  | focused
  deriving DecidableEq, Repr

def Mode.word : Mode → String
  | .simple => "simple"
  | .focused => "focused"

def Mode.all : List Mode := [.simple, .focused]

def Mode.ofWord? (word : String) : Option Mode := Mode.all.find? (·.word == word)

/-- Why a run came to an end. -/
inductive Halt where
  /-- No diagnostics are left. -/
  | clean
  /-- Two steps in a row ended on the same count. -/
  | stable
  /-- The steps are used up. -/
  | budget
  /-- The planner has nothing to propose. -/
  | noPlan
  /-- A batch did not lower the count. -/
  | noProgress
  deriving DecidableEq, Repr

def Halt.word : Halt → String
  | .clean => "clean"
  | .stable => "stable"
  | .budget => "budget"
  | .noPlan => "no_plan"
  | .noProgress => "no_progress"

def Halt.all : List Halt := [.clean, .stable, .budget, .noPlan, .noProgress]

def Halt.ofWord? (word : String) : Option Halt := Halt.all.find? (·.word == word)

/-- One round of planning and applying. -/
structure Step where
  index : Int
  /-- How many diagnostics there were before the step. -/
  before : Int
  /-- How many there are when the step has kept what it keeps. -/
  after : Int
  plan : Plan
  /-- What the plan amounts to on disk. -/
  changes : List Change := []
  target : Option Diagnostic := none
  applied : List Path := []
  rejected : List Path := []
  verdicts : List FileVerdict := []
  error : Option String := none

def FileVerdict.toJson (v : FileVerdict) : Json :=
  .obj [("file", Act.pathJson v.file), ("accepted", .bool v.accepted), ("reason", .str v.reason),
    ("deltaTarget", .int v.deltaTarget), ("localBefore", .int v.localBefore),
    ("localAfter", .int v.localAfter)]

namespace Step

def accepted (s : Step) : Bool := !s.applied.isEmpty

/-- Whether the step came to nothing because files had drifted. -/
def aborted (s : Step) : Bool := s.error.isSome && s.applied.isEmpty

def toJson (s : Step) : Json :=
  .obj ([("step", .int s.index), ("before", .int s.before), ("after", .int s.after),
      ("filesApplied", .arr (s.applied.map Act.pathJson)),
      ("filesRejected", .arr (s.rejected.map Act.pathJson)), ("plan", s.plan.toJson)] ++
    (s.target.map fun t => ("target", t.toShortJson)).toList ++
    (if s.verdicts.isEmpty then []
     else [("verdicts", Json.arr (s.verdicts.map FileVerdict.toJson))]) ++
    (s.error.map fun e => ("error", Json.str e)).toList)

end Step

/-- The outcome of a run. -/
structure Outcome where
  initial : Int
  final : Int
  reason : Halt
  steps : List Step := []
  session : Option String := none

namespace Outcome

def improved (o : Outcome) : Bool := o.final < o.initial

/-- The files that any step has kept, in ascending order. -/
def filesApplied (o : Outcome) : List String :=
  ((o.steps.flatMap fun s => s.applied.map toString).eraseDups).mergeSort (· ≤ ·)

def fields (o : Outcome) : List (String × Json) :=
  [("sessionId", Json.ofOption .str o.session), ("initial", .int o.initial),
    ("final", .int o.final), ("steps", .int o.steps.length), ("haltReason", .str o.reason.word),
    ("filesApplied", Json.strings o.filesApplied)]

def toJson (o : Outcome) : Json := .obj o.fields

end Outcome

/-! # The record of a run -/

structure Recorder where
  projectRoot : Path
  session : String
  /-- Where the files of the session go. -/
  directory : Path
  /-- The time written into the record of the whole run. -/
  time : String

namespace Recorder

def defaultDirectory : String := ".upgrade/runs"

/-- The recorder of a session, with its records under `runs` in the project. -/
def ofSession (cwd : List String) (projectRoot : Path) (session : String) (runs : String)
    (time : String) : Recorder :=
  let root := projectRoot.resolve cwd
  ⟨root, session, (root.child runs).child session, time⟩

def layout : Json.Layout := ⟨some 2, ",", ": ", false, true⟩

/-- The number of a step with at least three characters. -/
def stepNumber (n : Int) : String :=
  let digits := toString n.natAbs
  let sign := if n < 0 then "-" else ""
  let zeros := 3 - sign.length - digits.length
  sign ++ String.ofList (List.replicate zeros '0') ++ digits

/-- The name a file has in records: relative to the project, or below a directory of its own when it
lies outside. -/
def recordName (cwd : List String) (projectRoot file : Path) : String :=
  let place := file.resolve cwd
  match place.relativeTo? projectRoot with
  | some parts => toString (Path.mk .relative parts)
  | none => "_external/" ++ ("/".intercalate place.parts).replace ":" ""

def writeText (file : Path) (text : String) : Act σ Path := do
  Act.ensureDirectory file.parent
  Act.create file text
  return file

def writeJson (file : Path) (v : Json) : Act σ Path :=
  writeText file (v.render layout ++ "\n")

def recordPlan (r : Recorder) (index : Int) (plan : Plan) : Act σ Path :=
  writeJson (r.directory.child s!"step-{stepNumber index}.plan.json") plan.toJson

/-- Where a record lies as seen from the directory of the session. -/
def inside (r : Recorder) (file : Path) : Json :=
  .str (toString (Path.mk .relative ((file.relativeTo? r.directory).getD file.parts)))

/-- Records the texts of one change, and tells their places and the entry for the list of changes. -/
def recordChange (r : Recorder) (base : Path) (c : Change) : Act σ (List Path × Json) := do
  let name := recordName (← Act.getDisk).cwd r.projectRoot c.file
  let before ← writeText (base.child (name ++ ".before")) c.before
  let after ← writeText (base.child (name ++ ".after")) c.after
  return ([before, after],
    .obj [("file", .str name), ("beforePath", r.inside before), ("afterPath", r.inside after)])

def recordChanges (r : Recorder) (index : Int) (changes : List Change) : Act σ (List Path) := do
  let base := r.directory.child s!"step-{stepNumber index}.changes"
  let written ← changes.mapM (r.recordChange base)
  let list ← writeJson (base.child "manifest.json") (.arr (written.map (·.2)))
  return written.flatMap (·.1) ++ [list]

def recordStep (r : Recorder) (s : Step) : Act σ Path :=
  writeJson (r.directory.child s!"step-{stepNumber s.index}.json") s.toJson

def recordRun (r : Recorder) (o : Outcome) : Act σ Path :=
  writeJson (r.directory.child "run.json") (.obj (o.fields ++ [("timestamp", .str r.time)]))

end Recorder
end Codemod
