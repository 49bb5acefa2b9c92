import Codemod.Proofs.Act
import Codemod.Proofs.Disk.Growth
import Codemod.Run.Step
import Codemod.Proofs.Run.Trial

/-! What one round of a run does. The ways in which a round can succeed are told apart once, for every
job; when nobody else writes to the disk, the round looks, prepares a step, tries the changes of the
step, and tells about it. -/
namespace Codemod
open Act

/-! # The record of a run -/

theorem moves_ensureDirectory (dir : Path) : Moves Disk.Grows (ensureDirectory dir : Act σ Unit) := by
  intro w
  unfold ensureDirectory
  rw [exec_bind_ok (exec_getDisk w)]
  cases h : w.disk.ensureDirectory dir with
  | error e => exact refl_of Disk.Grows _
  | ok d => exact Disk.grows_makeDirectories h

theorem moves_create (file : Path) (text : String) :
    Moves Disk.Grows (create file text : Act σ Unit) := by
  intro w
  unfold create
  rw [exec_bind_ok (exec_getDisk w)]
  cases h : w.disk.create file text with
  | error e => exact refl_of Disk.Grows _
  | ok d => exact Disk.grows_create h

namespace Recorder

theorem moves_writeText (file : Path) (text : String) :
    Moves Disk.Grows (writeText file text : Act σ Path) :=
  (moves_ensureDirectory _).bind fun _ => (moves_create _ _).bind fun _ => .pure _

theorem moves_writeJson (file : Path) (v : Json) : Moves Disk.Grows (writeJson file v : Act σ Path) :=
  moves_writeText _ _

theorem moves_recordChange (r : Recorder) (base : Path) (c : Change) :
    Moves Disk.Grows (r.recordChange base c : Act σ (List Path × Json)) :=
  (Moves.of_quiet quiet_getDisk).bind fun _ => (moves_writeText _ _).bind fun _ =>
    (moves_writeText _ _).bind fun _ => .pure _

theorem moves_recordChanges (r : Recorder) (index : Int) (changes : List Change) :
    Moves Disk.Grows (r.recordChanges index changes : Act σ (List Path)) :=
  (Moves.mapM (r.moves_recordChange _) changes).bind fun _ =>
    (moves_writeJson _ _).bind fun _ => .pure _

end Recorder

/-! # One round -/

theorem Act.exec_compile_eq_ok_iff {root : Path} {plan : Plan} {w w' : World σ} {changes : List Change} :
    exec (Act.compile root plan) w = (.ok changes, w') ↔
      plan.compile w.disk (some root) = .ok changes ∧ w' = w := by
  unfold Act.compile
  rw [exec_bind_ok (exec_getDisk w)]
  cases plan.compile w.disk (some root) <;> simp [eq_comm]

theorem Act.quiet_compile (root : Path) (plan : Plan) :
    Quiet (Act.compile root plan : Act σ (List Change)) := by
  refine quiet_getDisk.bind fun d => ?_
  split
  · exact .pure _
  · exact quiet_throw _

/-- The step with what its verdicts have kept of it. -/
def Step.judged (s : Step) (policy : Policy) (verdicts : List FileVerdict) : Step :=
  let applied := (verdicts.filter (·.accepted)).map (·.file)
  let errors := verdicts.filterMap (·.error)
  { s with
    verdicts, applied
    rejected := (verdicts.filter (!·.accepted)).map (·.file)
    error := if errors.isEmpty || !applied.isEmpty then none else some ("; ".intercalate errors)
    after := policy.baseline.count }

theorem Step.judged_after (s : Step) (policy : Policy) (verdicts : List FileVerdict) :
    (s.judged policy verdicts).after = policy.baseline.count := rfl

theorem Step.judged_error (s : Step) (policy : Policy) {verdicts : List FileVerdict}
    (h : (s.judged policy verdicts).applied ≠ []) : (s.judged policy verdicts).error = none := by
  have hn : ((verdicts.filter (·.accepted)).map (·.file)).isEmpty = false :=
    List.isEmpty_eq_false_iff.2 h
  exact if_pos (by rw [hn, Bool.not_false, Bool.or_true])

namespace Job
open Act

section
variable {job : Job σ}

/-- How the changes of a step can be applied: there are none, they are one batch, or they are tried one
by one, from the snapshot before them. -/
inductive Applied (job : Job σ) (step : Step) (before : Snapshot) (w : World σ) :
    Step → World σ → Prop where
  | none : step.changes.isEmpty → Applied job step before w step w
  | batch {step' : Step} {w' : World σ} : ¬ step.changes.isEmpty → job.mode = .simple →
      exec (job.applyBatch step before) w = (.ok step', w') → Applied job step before w step' w'
  | each {policy policy' : Policy} {verdicts : List FileVerdict} {w' : World σ} :
      ¬ step.changes.isEmpty → job.mode = .focused →
      policy = ⟨before, step.target, job.allowed, ⟨w.disk.cwd, some job.root⟩⟩ →
      exec (applyEach job.query policy step.changes) w = (.ok (policy', verdicts), w') →
      Applied job step before w (step.judged policy' verdicts) w'

theorem applied_of_applyChanges {step step' : Step} {before : Snapshot} {w w' : World σ}
    (he : exec (job.applyChanges step before) w = (.ok step', w')) :
    Applied job step before w step' w' := by
  unfold applyChanges at he
  split at he
  · next hc =>
    cases he
    exact .none hc
  · next hc =>
    cases hm : job.mode with
    | simple =>
      rw [hm] at he
      exact .batch hc hm he
    | focused =>
      rw [hm] at he
      obtain ⟨_, _, hd, he⟩ := exec_bind_eq_ok_iff.1 he
      cases hd
      obtain ⟨⟨policy', verdicts⟩, v, hv, he⟩ := exec_bind_eq_ok_iff.1 he
      cases he
      exact .each hc hm rfl hv

/-- A prepared step holds what the plan compiles to, and has kept nothing yet. -/
theorem prepare?_eq_some {index : Nat} {before : Snapshot} {w w' : World σ} {step : Step}
    (he : exec (job.prepare? index before) w = (.ok (some step), w')) :
    ∃ plan changes u v, exec (job.compile plan) u = (.ok changes, v) ∧
      (w' = v ∨ exec (job.record (·.recordChanges index changes)) v = (.ok (), w')) ∧
      step = { index, before := before.count, after := before.count, plan, changes,
               target := job.target? before } := by
  unfold prepare? at he
  obtain ⟨_, _, -, he⟩ := exec_bind_eq_ok_iff.1 he
  obtain ⟨plan, _, -, he⟩ := exec_bind_eq_ok_iff.1 he
  obtain ⟨_, u, -, he⟩ := exec_bind_eq_ok_iff.1 he
  split at he
  · cases he
  · obtain ⟨changes, v, hc, he⟩ := exec_bind_eq_ok_iff.1 he
    refine ⟨plan, changes, u, v, hc, ?_⟩
    split at he
    · obtain ⟨_, _, hr, he⟩ := exec_bind_eq_ok_iff.1 he
      cases he
      exact ⟨.inr hr, rfl⟩
    · cases he
      exact ⟨.inl rfl, rfl⟩

theorem finish_eq_ok {reason : Halt} {p : Progress} {w w' : World σ} {o : Outcome}
    (he : exec (job.finish reason p) w = (.ok o, w')) :
    o = { initial := (p.initial.map Int.ofNat).getD p.final, final := p.final, reason,
          steps := p.steps, session := job.recorder.map (·.session) } := by
  unfold finish at he
  obtain ⟨_, _, -, he⟩ := exec_bind_eq_ok_iff.1 he
  obtain ⟨_, _, -, he⟩ := exec_bind_eq_ok_iff.1 he
  cases he
  rfl

/-- A step has been prepared, its changes have been tried, and it has been reported. -/
inductive Work (job : Job σ) (p : Progress) (w : World σ) : Snapshot → Step → World σ → Prop where
  | intro {before : Snapshot} {step step' : Step} {v u x y : World σ} :
      exec job.query w = (.ok before, v) → before.count ≠ 0 →
      exec (job.prepare? (p.steps.length + 1) before) v = (.ok (some step), u) →
      exec (job.applyChanges step before) u = (.ok step', x) →
      exec (job.report step') x = (.ok (), y) → Work job p w before step' y

/-- What happens in a round that succeeds. The project is looked at; then the run ends because there
is nothing to do, or a step is taken, which may end the run too. -/
inductive Turn (job : Job σ) (p : Progress) (w : World σ) : Outcome ⊕ Progress → World σ → Prop where
  | clean {before : Snapshot} {v w' : World σ} {o : Outcome} :
      exec job.query w = (.ok before, v) → before.count = 0 →
      exec (job.finish .clean (p.observe before.count)) v = (.ok o, w') → Turn job p w (.inl o) w'
  | noPlan {before : Snapshot} {v u w' : World σ} {o : Outcome} :
      exec job.query w = (.ok before, v) → before.count ≠ 0 →
      exec (job.prepare? (p.steps.length + 1) before) v = (.ok none, u) →
      exec (job.finish .noPlan (p.observe before.count)) u = (.ok o, w') → Turn job p w (.inl o) w'
  | last {before : Snapshot} {step : Step} {y w' : World σ} {reason : Halt} {o : Outcome} :
      Work job p w before step y → halt? job.mode p.last step = some reason →
      exec (job.finish reason ((p.observe before.count).add step)) y = (.ok o, w') →
      Turn job p w (.inl o) w'
  | next {before : Snapshot} {step : Step} {w' : World σ} :
      Work job p w before step w' → halt? job.mode p.last step = none →
      Turn job p w (.inr ((p.observe before.count).add step)) w'

theorem turn_of_round {p : Progress} {w w' : World σ} {r : Outcome ⊕ Progress}
    (he : exec (job.round p) w = (.ok r, w')) : Turn job p w r w' := by
  unfold round at he
  obtain ⟨before, v, hv, he⟩ := exec_bind_eq_ok_iff.1 he
  dsimp only at he
  split at he
  · next hb =>
    obtain ⟨o, _, ho, he⟩ := exec_bind_eq_ok_iff.1 he
    cases he
    exact .clean hv hb ho
  · next hb =>
    obtain ⟨step?, u, hu, he⟩ := exec_bind_eq_ok_iff.1 he
    cases step? with
    | none =>
      obtain ⟨o, _, ho, he⟩ := exec_bind_eq_ok_iff.1 he
      cases he
      exact .noPlan hv hb hu ho
    | some step =>
      obtain ⟨step', x, hx, he⟩ := exec_bind_eq_ok_iff.1 he
      obtain ⟨_, y, hy, he⟩ := exec_bind_eq_ok_iff.1 he
      have hwork : Work job p w before step' y := .intro hv hb hu hx hy
      split at he
      · next hh =>
        obtain ⟨o, _, ho, he⟩ := exec_bind_eq_ok_iff.1 he
        cases he
        exact .last hwork hh ho
      · next hh =>
        cases he
        exact .next hwork hh

end

/-- Nobody but the run and its recorder writes to the disk. -/
structure Undisturbed (job : Job σ) : Prop where
  source : Quiet job.query
  planner : ∀ context, Quiet (job.planner context)
  compile : job.compile = Act.compile job.root

/-- What the recorder does to the disk stays within `R`. -/
structure Records (job : Job σ) (R : Disk → Disk → Prop) : Prop where
  plan : ∀ index plan, Moves R (job.record (·.recordPlan index plan))
  changes : ∀ index changes, Moves R (job.record (·.recordChanges index changes))
  step : ∀ step, Moves R (job.record (·.recordStep step))
  run : ∀ outcome, Moves R (job.record (·.recordRun outcome))

namespace Records
variable {job : Job σ} {R : Disk → Disk → Prop} [IsPreorder Disk R]

theorem of_none (h : job.recorder = none) : job.Records R := by
  have none' {α : Type} (write : Recorder → Act σ α) : Moves R (job.record write) := by
    unfold record
    rw [h]
    exact .pure _
  exact ⟨fun _ _ => none' _, fun _ _ => none' _, fun _ => none' _, fun _ => none' _⟩

theorem moves_report (h : job.Records R) (step : Step) : Moves R (job.report step) :=
  (Moves.of_quiet (quiet_announce _ _)).bind fun _ => h.step step

theorem moves_finish (h : job.Records R) (reason : Halt) (p : Progress) :
    Moves R (job.finish reason p) :=
  (Moves.of_quiet (quiet_announce _ _)).bind fun _ => (h.run _).bind fun _ => .pure _

theorem moves_prepare? (h : job.Records R) (hu : job.Undisturbed) (index : Nat)
    (before : Snapshot) : Moves R (job.prepare? index before) := by
  refine (Moves.of_quiet quiet_getDisk).bind fun d => ?_
  refine (Moves.of_quiet (hu.planner _)).bind fun plan => ?_
  refine (h.plan _ _).bind fun _ => ?_
  split
  · exact .pure _
  · rw [hu.compile]
    refine (Moves.of_quiet (quiet_compile _ _)).bind fun changes => ?_
    split
    · exact (h.changes _ _).bind fun _ => .pure _
    · exact .pure _

end Records

/-- What happens to the disk besides the writing of changes. -/
def additions (job : Job σ) : Disk → Disk → Prop :=
  match job.recorder with
  | none => Eq
  | some _ => Disk.Grows

instance (job : Job σ) : IsPreorder Disk job.additions := by
  unfold additions
  rcases job.recorder with _ | r
  · exact inferInstanceAs (IsPreorder Disk Eq)
  · exact inferInstanceAs (IsPreorder Disk Disk.Grows)

section
variable {job : Job σ}

theorem grows_of_additions {d d' : Disk} (h : job.additions d d') : d.Grows d' := by
  cases hr : job.recorder <;> simp only [additions, hr] at h
  · exact h ▸ refl_of Disk.Grows d
  · exact h

theorem additions_eq (h : job.recorder = none) : job.additions = Eq := by
  unfold additions
  rw [h]

theorem moves_record {write : Recorder → Act σ α} (h : ∀ r, Moves Disk.Grows (write r)) :
    Moves job.additions (job.record write) := by
  unfold record additions
  rcases job.recorder with _ | r
  · exact fun _ => rfl
  · exact (h r).discard

theorem records_additions (job : Job σ) : job.Records job.additions where
  plan _ _ := moves_record fun _ => Recorder.moves_writeJson _ _
  changes _ _ := moves_record fun r => r.moves_recordChanges _ _
  step _ := moves_record fun _ => Recorder.moves_writeJson _ _
  run _ := moves_record fun _ => Recorder.moves_writeJson _ _

theorem moves_report (step : Step) : Moves job.additions (job.report step) :=
  job.records_additions.moves_report step

theorem moves_finish (reason : Halt) (p : Progress) :
    Moves job.additions (job.finish reason p) :=
  job.records_additions.moves_finish reason p

theorem moves_prepare? (h : job.Undisturbed) (index : Nat) (before : Snapshot) :
    Moves job.additions (job.prepare? index before) :=
  job.records_additions.moves_prepare? h index before

/-- A step that has been prepared has kept nothing yet. -/
theorem of_prepare? (h : job.Undisturbed) {index : Nat} {before : Snapshot} {w w' : World σ}
    {step : Step} (he : exec (job.prepare? index before) w = (.ok (some step), w')) :
    step.before = before.count ∧ step.after = before.count ∧ step.applied = [] ∧
      Change.Tidy step.changes := by
  obtain ⟨plan, changes, u, v, hc, -, rfl⟩ := prepare?_eq_some he
  rw [h.compile] at hc
  exact ⟨rfl, rfl, rfl, (Plan.compile_compiled (exec_compile_eq_ok_iff.1 hc).1).toTidy⟩

theorem of_finish {reason : Halt} {p : Progress} {w w' : World σ} {o : Outcome}
    (he : exec (job.finish reason p) w = (.ok o, w')) :
    o.steps = p.steps ∧ o.final = p.final ∧ job.additions w.disk w'.disk := by
  obtain rfl := finish_eq_ok he
  exact ⟨rfl, rfl, (moves_finish reason p).of_exec he⟩

/-- What happens to the disk in a round that succeeds, besides what the changes of a step do. -/
theorem of_round (h : job.Undisturbed) {p : Progress} {w w' : World σ} {r : Outcome ⊕ Progress}
    (he : exec (job.round p) w = (.ok r, w')) :
    ∃ before v, exec job.query w = (.ok before, v) ∧
      ((∃ o, r = .inl o ∧ o.steps = p.steps ∧ o.final = before.count ∧
        job.additions v.disk w'.disk ∧ (before.count = 0 ∨
          ∃ u, exec (job.prepare? (p.steps.length + 1) before) v = (.ok none, u))) ∨
      ∃ step step' u u', before.count ≠ 0 ∧
        exec (job.prepare? (p.steps.length + 1) before) v = (.ok (some step), u) ∧
        exec (job.applyChanges step before) u = (.ok step', u') ∧
        job.additions u'.disk w'.disk ∧
        (r = .inr ((p.observe before.count).add step') ∨
          ∃ o, r = .inl o ∧ o.steps = p.steps ++ [step'] ∧ o.final = step'.after)) := by
  cases turn_of_round he with
  | @clean before v _ o hv hb ho =>
    obtain ⟨hs, hf, ha⟩ := of_finish ho
    exact ⟨before, v, hv, .inl ⟨o, rfl, hs, hf, ha, .inl hb⟩⟩
  | @noPlan before v u _ o hv _ hu ho =>
    obtain ⟨hs, hf, ha⟩ := of_finish ho
    have hm := (moves_prepare? h _ before).of_exec hu
    exact ⟨before, v, hv, .inl ⟨o, rfl, hs, hf, trans_of _ hm ha, .inr ⟨u, hu⟩⟩⟩
  | @last before step' _ _ _ o hwork _ ho =>
    obtain ⟨hv, hb, hu, hx, hy⟩ := hwork
    obtain ⟨hs, hf, ha⟩ := of_finish ho
    have hr := trans_of _ ((moves_report step').of_exec hy) ha
    exact ⟨before, _, hv, .inr ⟨_, step', _, _, hb, hu, hx, hr, .inr ⟨o, rfl, hs, hf⟩⟩⟩
  | @next before step' _ hwork _ =>
    obtain ⟨hv, hb, hu, hx, hy⟩ := hwork
    exact ⟨before, _, hv, .inr ⟨_, step', _, _, hb, hu, hx,
      (moves_report step').of_exec hy, .inl rfl⟩⟩

end
end Job
end Codemod
