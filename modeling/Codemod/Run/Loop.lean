import Codemod.Verdict
import Codemod.Plan.Apply
import Codemod.Planning.Context
import Codemod.Run.Step

/-! Diagnose, plan, apply and judge, until no diagnostics are left or nothing moves any more. What a
step has kept stays on disk whatever ends the run. -/
namespace Codemod

/-! # One file at a time

Each file is written and judged at once; a rejected file is put back before the next one is tried, so every
file is judged on top of the accepted ones alone. -/

/-- Tries one change. A file that has drifted is left alone. -/
def tryChange (query : Act σ Snapshot) (policy : Policy) (c : Change) :
    Act σ (Policy × FileVerdict) := do
  match ← Act.attempt c.apply with
  | .error (.preimage _) =>
    return (policy, { file := c.file, accepted := false, error := some (preimageMessage c.file) })
  | .error e => throw e
  | .ok () =>
    let after ← query
    let verdict := policy.judge c.file after
    if verdict.accepted then return (policy.advance after, verdict)
    else
      Change.revertAll [c]
      return (policy, verdict)

/-- Tries changes in order, and gives the policy they leave behind with a verdict for each. -/
def applyEach (query : Act σ Snapshot) (policy : Policy) :
    List Change → Act σ (Policy × List FileVerdict)
  | [] => return (policy, [])
  | c :: changes => do
    let (policy, verdict) ← tryChange query policy c
    let (policy, verdicts) ← applyEach query policy changes
    return (policy, verdict :: verdicts)

/-! # The loop -/

/-- The changes that a plan amounts to on the disk as it is. -/
def Act.compile (root : Path) (plan : Plan) : Act σ (List Change) := do
  match plan.compile (← Act.getDisk) (some root) with
  | .ok changes => return changes
  | .error m => throw (.misfit m)

/-- What a run works with. -/
structure Job (σ : Type) where
  root : Path
  /-- The diagnostics of the project below a directory. -/
  source : Path → Act σ Snapshot
  planner : Planner σ
  /-- The changes that a plan amounts to. -/
  compile : Plan → Act σ (List Change) := Act.compile root
  mode : Mode
  maxSteps : Int
  scope : Context.Scope
  allowed : List Int := transientCodes
  recorder : Option Recorder := none

namespace Job

def query (job : Job σ) : Act σ Snapshot := job.source job.root

/-- Applies the changes of a step as one batch. -/
def applyBatch (job : Job σ) (step : Step) (before : Snapshot) : Act σ Step := do
  match ← Act.attempt (Change.applyAll step.changes) with
  | .error (.preimage file) => return { step with error := some (preimageMessage file) }
  | .error e => throw e
  | .ok () =>
    let after ← job.query
    let files := step.changes.map (·.file)
    if (judgeBatch before after).accepted then
      return { step with applied := files, after := after.count }
    else
      Change.revertAll step.changes
      return { step with rejected := files }

/-- Applies the changes of a step file by file. -/
def applyFocused (job : Job σ) (step : Step) (before : Snapshot) : Act σ Step := do
  let naming : Naming := ⟨(← Act.getDisk).cwd, some job.root⟩
  let (policy, verdicts) ←
    applyEach job.query ⟨before, step.target, job.allowed, naming⟩ step.changes
  let applied := (verdicts.filter (·.accepted)).map (·.file)
  let errors := verdicts.filterMap (·.error)
  return { step with
    verdicts, applied
    rejected := (verdicts.filter (!·.accepted)).map (·.file)
    error := if errors.isEmpty || !applied.isEmpty then none else some ("; ".intercalate errors)
    after := policy.baseline.count }

def applyChanges (job : Job σ) (step : Step) (before : Snapshot) : Act σ Step :=
  if step.changes.isEmpty then pure step
  else match job.mode with
    | .simple => job.applyBatch step before
    | .focused => job.applyFocused step before

/-- Hands something to the recorder, if there is one. -/
def record (job : Job σ) (write : Recorder → Act σ α) : Act σ Unit := do
  if let some r := job.recorder then discard (write r)

def target? (job : Job σ) (before : Snapshot) : Option Diagnostic :=
  match job.mode with
  | .simple => none
  | .focused => before.diagnostics.head?

/-- Plans once, and works out what the plan amounts to on disk; nothing when the planner has no
operation to propose. -/
def prepare? (job : Job σ) (index : Nat) (before : Snapshot) : Act σ (Option Step) := do
  let target := job.target? before
  let plan ← job.planner (job.scope.context (← Act.getDisk) before target)
  job.record (·.recordPlan index plan)
  if plan.ops.isEmpty then return none
  let changes ← job.compile plan
  if !changes.isEmpty then job.record (·.recordChanges index changes)
  return some { index, before := before.count, after := before.count, plan, changes, target }

def report (job : Job σ) (step : Step) : Act σ Unit := do
  Act.announce "step.completed" [("step", .int step.index), ("before", .int step.before),
    ("after", .int step.after), ("files_applied", .arr (step.applied.map Act.pathJson)),
    ("files_rejected", .arr (step.rejected.map Act.pathJson)),
    ("error", Json.ofOption .str step.error)]
  job.record (·.recordStep step)

/-- How far a run has come. -/
structure Progress where
  steps : List Step
  /-- The first count of the run. -/
  initial : Option Nat
  /-- The latest count of the run. -/
  final : Int
  /-- The count after the latest step that was not aborted. -/
  last : Option Int

def Progress.start : Progress := ⟨[], none, 0, none⟩

/-- The progress once the project has been looked at again. -/
def Progress.observe (p : Progress) (count : Nat) : Progress :=
  { p with initial := p.initial.or (some count), final := count }

/-- The progress after a step. An aborted one does not count as the latest. -/
def Progress.add (p : Progress) (step : Step) : Progress :=
  { p with
    steps := p.steps ++ [step], final := step.after
    last := if step.aborted then p.last else some step.after }

/-- Whether the run ends with a step, and why. -/
def halt? (mode : Mode) (last : Option Int) (step : Step) : Option Halt :=
  if step.aborted then none
  else if step.after = 0 then some .clean
  else if last = some step.after then some .stable
  else if mode = .simple ∧ step.before ≤ step.after then some .noProgress
  else none

def finish (job : Job σ) (reason : Halt) (p : Progress) : Act σ Outcome := do
  let outcome : Outcome :=
    { initial := (p.initial.map Int.ofNat).getD p.final, final := p.final, reason, steps := p.steps,
      session := job.recorder.map (·.session) }
  Act.announce "loop.halted" [("reason", .str reason.word), ("steps", .int p.steps.length),
    ("initial", .int outcome.initial), ("final", .int outcome.final),
    ("mode", .str job.mode.word)]
  job.record (·.recordRun outcome)
  return outcome

/-- Plans, applies and reports once; the outcome when that ends the run. -/
def round (job : Job σ) (p : Progress) : Act σ (Outcome ⊕ Progress) := do
  let before ← job.query
  let p := p.observe before.count
  if before.count = 0 then return .inl (← job.finish .clean p)
  match ← job.prepare? (p.steps.length + 1) before with
  | none => return .inl (← job.finish .noPlan p)
  | some step =>
    let step ← job.applyChanges step before
    job.report step
    match halt? job.mode p.last step with
    | some reason => return .inl (← job.finish reason (p.add step))
    | none => return .inr (p.add step)

/-- Takes up to `budget` more rounds. -/
def loop (job : Job σ) : (budget : Nat) → Progress → Act σ Outcome
  | 0, p => job.finish .budget p
  | budget + 1, p => do
    match ← job.round p with
    | .inl outcome => return outcome
    | .inr p => loop job budget p

/-- A run takes one round at least. -/
def budget (job : Job σ) : Nat := (max 1 job.maxSteps).toNat

def run (job : Job σ) : Act σ Outcome := job.loop job.budget .start

end Job
end Codemod
