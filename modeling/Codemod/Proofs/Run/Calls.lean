import Codemod.Proofs.Beside
import Codemod.Proofs.Run.Reach

/-! The calls of the planner. A job can be made to write down the disk at each call of its planner, in a
place that nothing else in a run knows of. Its runs are those of the job itself, with the calls beside
them; a round calls the planner once, unless there is nothing to plan for. -/
namespace Codemod
open Act

def Act.note (a : τ) : Act (σ × List τ) Unit := modify fun w => w.core.beside (w.extra ++ [a])

theorem Act.exec_note (a : τ) (w : World (σ × List τ)) :
    exec (note a) w = (.ok (), w.core.beside (w.extra ++ [a])) := rfl

namespace Job

/-- The job with a planner that writes down the disk when it is called. -/
def logged (job : Job σ) : Job (σ × List Disk) where
  root := job.root
  source := fun root => (job.source root).beside
  planner := fun context => do
    note (← getDisk)
    (job.planner context).beside
  compile := fun plan => (job.compile plan).beside
  mode := job.mode
  maxSteps := job.maxSteps
  scope := job.scope
  allowed := job.allowed
  recorder := job.recorder

/-- The disks that the planner is called on in a run. -/
def calls (job : Job σ) (w : World σ) : List Disk :=
  (exec job.logged.run (w.beside [])).2.extra

/-- The disk that the planner is called on in a round. -/
def roundCalls (job : Job σ) (w : World σ) : List Disk :=
  match exec job.query w with
  | (.ok before, v) => if before.count = 0 then [] else [v.disk]
  | (.error _, _) => []

section
variable {σ : Type} {job : Job σ}

theorem logged_query : job.logged.query = job.query.beside := rfl

theorem logged_record {write : Recorder → Act σ α} {write' : Recorder → Act (σ × List Disk) α}
    (h : ∀ r, (write r).beside = write' r) :
    job.logged.record write' = (job.record write).beside := by
  have hr : job.logged.recorder = job.recorder := rfl
  unfold record
  rw [hr]
  cases job.recorder with
  | none => rfl
  | some r => simp [h]

theorem logged_report (step : Step) : job.logged.report step = (job.report step).beside := by
  have hr : job.logged.record (·.recordStep step) = (job.record (·.recordStep step)).beside :=
    logged_record fun _ => Recorder.beside_writeJson _ _
  unfold report
  rw [beside_bind, beside_announce, hr]

theorem logged_finish (reason : Halt) (p : Progress) :
    job.logged.finish reason p = (job.finish reason p).beside := by
  have hr (o : Outcome) : job.logged.record (·.recordRun o) = (job.record (·.recordRun o)).beside :=
    logged_record fun _ => Recorder.beside_writeJson _ _
  unfold finish
  simp only [beside_bind, beside_announce, beside_pure, hr]
  rfl

theorem logged_applyBatch (step : Step) (before : Snapshot) :
    job.logged.applyBatch step before = (job.applyBatch step before).beside := by
  unfold applyBatch
  rw [logged_query, beside_bind, beside_attempt, Change.beside_applyAll]
  congr 1
  funext r
  split <;> simp [apply_ite Act.beside]

theorem logged_applyFocused (step : Step) (before : Snapshot) :
    job.logged.applyFocused step before = (job.applyFocused step before).beside := by
  unfold applyFocused
  simp only [beside_bind, beside_getDisk, beside_applyEach, beside_pure]
  rfl

theorem logged_applyChanges (step : Step) (before : Snapshot) :
    job.logged.applyChanges step before = (job.applyChanges step before).beside := by
  have hm : job.logged.mode = job.mode := rfl
  unfold applyChanges
  rw [hm, apply_ite Act.beside, beside_pure]
  congr 1
  cases job.mode
  · exact logged_applyBatch step before
  · exact logged_applyFocused step before

theorem exec_logged_planner (context : Context) (w : World (σ × List Disk)) :
    exec (job.logged.planner context) w =
      exec (job.planner context).beside (w.core.beside (w.extra ++ [w.disk])) := by
  change exec (getDisk >>= fun d => note d >>= fun _ => (job.planner context).beside) w = _
  rw [exec_bind_ok (exec_getDisk w), exec_bind_ok (exec_note _ w)]

/-- Preparing a step calls the planner once. -/
theorem exec_logged_prepare? (index : Nat) (before : Snapshot) (w : World (σ × List Disk)) :
    exec (job.logged.prepare? index before) w =
      exec (job.prepare? index before).beside (w.core.beside (w.extra ++ [w.disk])) := by
  have hp (plan : Plan) : job.logged.record (·.recordPlan index plan) =
      (job.record (·.recordPlan index plan)).beside :=
    logged_record fun _ => Recorder.beside_writeJson _ _
  have hc (changes : List Change) : job.logged.record (·.recordChanges index changes) =
      (job.record (·.recordChanges index changes)).beside :=
    logged_record fun r => r.beside_recordChanges _ _
  unfold prepare?
  simp only [beside_bind, beside_getDisk, beside_pure, apply_ite Act.beside, hp, hc]
  rw [exec_bind_ok (exec_getDisk w), exec_bind_ok (exec_getDisk _), exec_bind, exec_bind,
    exec_logged_planner]
  rfl

/-- A round of the logged job is a round of the job, with its call of the planner written down. -/
theorem exec_logged_round (p : Progress) (w : World (σ × List Disk)) :
    exec (job.logged.round p) w =
      exec (job.round p).beside (w.core.beside (w.extra ++ job.roundCalls w.core)) := by
  have hm : job.logged.mode = job.mode := rfl
  unfold round roundCalls
  rw [beside_bind, exec_bind, exec_bind, logged_query, exec_beside, exec_beside]
  dsimp only [World.core_beside, World.extra_beside]
  rcases exec job.query w.core with ⟨e | before, v⟩
  · dsimp only
    rw [List.append_nil]
  · dsimp only
    split
    · rw [List.append_nil, beside_bind, logged_finish]
      rfl
    · rw [beside_bind, exec_bind, exec_bind, exec_logged_prepare?]
      simp only [World.core_beside, World.extra_beside, World.disk_beside]
      generalize exec (job.prepare? _ before).beside (v.beside (w.extra ++ [v.disk])) = prepared
      rcases prepared with ⟨e | step?, u⟩
      · rfl
      · dsimp only
        congr 1
        cases step? with
        | none => simp [logged_finish]
        | some step =>
          simp only [beside_bind, logged_applyChanges, logged_report, hm]
          congr 1
          funext step'
          congr 1
          funext _
          split <;> simp [logged_finish]

theorem exec_logged_loop (budget : Nat) (p : Progress) (w : World (σ × List Disk)) :
    ∃ log, exec (job.logged.loop budget p) w =
      exec (job.loop budget p).beside (w.core.beside log) := by
  induction budget generalizing p w with
  | zero =>
    refine ⟨w.extra, ?_⟩
    unfold loop
    rw [logged_finish]
    rfl
  | succ budget ih =>
    unfold loop
    rw [beside_bind, exec_bind, exec_logged_round]
    simp only [exec_bind, exec_beside, World.core_beside, World.extra_beside]
    rcases exec (job.round p) w.core with ⟨e | o | q, v⟩
    · exact ⟨_, rfl⟩
    · exact ⟨_, rfl⟩
    · obtain ⟨log, hl⟩ := ih q (v.beside (w.extra ++ job.roundCalls w.core))
      exact ⟨log, hl⟩

theorem exec_logged_run (job : Job σ) (w : World σ) :
    exec job.logged.run (w.beside []) =
      ((exec job.run w).1, (exec job.run w).2.beside (job.calls w)) := by
  obtain ⟨log, hl⟩ := exec_logged_loop job.budget .start (w.beside [])
  have hr : exec job.logged.run (w.beside []) = exec job.run.beside (w.beside log) := hl
  rw [calls, hr]
  rfl

/-! What is beside the world after the parts of a run. -/

theorem extra_of_round {p : Progress} {w w' : World (σ × List Disk)}
    {r : Except Failure (Outcome ⊕ Progress)} (he : exec (job.logged.round p) w = (r, w')) :
    w'.extra = w.extra ++ job.roundCalls w.core := by
  rw [exec_logged_round] at he
  cases he
  rfl

theorem extra_of_finish {reason : Halt} {p : Progress} {w w' : World (σ × List Disk)}
    {r : Except Failure Outcome} (he : exec (job.logged.finish reason p) w = (r, w')) :
    w'.extra = w.extra := by
  rw [logged_finish] at he
  cases he
  rfl

theorem roundCalls_of_query {w v : World (σ × List Disk)} {before : Snapshot}
    (he : exec job.logged.query w = (.ok before, v)) :
    job.roundCalls w.core = if before.count = 0 then [] else [v.disk] := by
  rw [logged_query, exec_beside] at he
  obtain ⟨hr, rfl⟩ := Prod.mk.inj he
  unfold roundCalls
  rw [show exec job.query w.core = (.ok before, (exec job.query w.core).2) from Prod.ext hr rfl]
  rfl

/-! The logged job is left alone as the job is. -/

theorem Undisturbed.logged (h : job.Undisturbed) : job.logged.Undisturbed where
  source := Moves.beside h.source
  planner context := by
    refine quiet_getDisk.bind fun d => ?_
    refine Moves.bind (fun _ => rfl) fun _ => ?_
    exact Moves.beside (h.planner context)
  compile := by
    change (fun plan => (job.compile plan).beside) = _
    rw [h.compile]
    exact funext fun plan => beside_compile job.root plan

theorem moves_logged_record {R : Disk → Disk → Prop} {write : Recorder → Act σ α}
    {write' : Recorder → Act (σ × List Disk) α} (h : ∀ r, (write r).beside = write' r)
    (hm : Moves R (job.record write)) : Moves R (job.logged.record write') := by
  rw [logged_record h]
  exact Moves.beside hm

theorem Records.logged {R : Disk → Disk → Prop} (h : job.Records R) : job.logged.Records R where
  plan index plan := moves_logged_record (fun _ => Recorder.beside_writeJson _ _) (h.plan index plan)
  changes index changes :=
    moves_logged_record (fun r => r.beside_recordChanges _ _) (h.changes index changes)
  step step := moves_logged_record (fun _ => Recorder.beside_writeJson _ _) (h.step step)
  run outcome := moves_logged_record (fun _ => Recorder.beside_writeJson _ _) (h.run outcome)

/-- A round calls the planner on the disk it begins on, if at all. -/
theorem roundCalls_of_quiet (h : Quiet job.query) (w : World σ) : job.roundCalls w <+: [w.disk] := by
  unfold roundCalls
  rcases hq : exec job.query w with ⟨e | before, v⟩
  · exact List.nil_prefix
  · dsimp only
    split
    · exact List.nil_prefix
    · simp [h.of_exec hq]

end
end Job
end Codemod
