import Codemod.Proofs.Run.Round

/-! The points a run passes through: the progress after each round, and the outcome at the end. What
holds at the start and is carried by a round holds at all of them, and a run that succeeds has come to
one. -/
namespace Codemod.Job
open Act

/-- A run of the job from `w` gets to a point, in the world there. A run that fails gets to the points
before its failure. -/
inductive Reaches (job : Job σ) (w : World σ) : Outcome ⊕ Progress → World σ → Prop where
  | start : Reaches job w (.inr .start) w
  | round {p : Progress} {v v' : World σ} {r : Outcome ⊕ Progress} :
      Reaches job w (.inr p) v → p.steps.length < job.budget →
      exec (job.round p) v = (.ok r, v') → Reaches job w r v'
  | spent {p : Progress} {v v' : World σ} {o : Outcome} :
      Reaches job w (.inr p) v → p.steps.length = job.budget →
      exec (job.finish .budget p) v = (.ok o, v') → Reaches job w (.inl o) v'

/-- The steps taken up to a point. -/
def stepsAt (r : Outcome ⊕ Progress) : List Step := r.elim (·.steps) (·.steps)

section
variable {job : Job σ}

@[simp] theorem stepsAt_inl (o : Outcome) : stepsAt (.inl o) = o.steps := rfl

@[simp] theorem stepsAt_inr (p : Progress) : stepsAt (.inr p) = p.steps := rfl

theorem Turn.steps {p q : Progress} {w w' : World σ} (h : Turn job p w (.inr q) w') :
    ∃ step, q.steps = p.steps ++ [step] := by
  cases h
  exact ⟨_, rfl⟩

theorem Turn.steps_or {p : Progress} {w w' : World σ} {r : Outcome ⊕ Progress}
    (h : Turn job p w r w') : stepsAt r = p.steps ∨ ∃ step, stepsAt r = p.steps ++ [step] := by
  cases h with
  | clean _ _ ho | noPlan _ _ _ ho =>
    obtain rfl := finish_eq_ok ho
    exact .inl rfl
  | last _ _ ho =>
    obtain rfl := finish_eq_ok ho
    exact .inr ⟨_, rfl⟩
  | next => exact .inr ⟨_, rfl⟩

theorem reaches_of_loop {w v w' : World σ} {budget : Nat} {p : Progress} {o : Outcome}
    (hp : job.Reaches w (.inr p) v) (hb : p.steps.length + budget = job.budget)
    (he : exec (job.loop budget p) v = (.ok o, w')) : job.Reaches w (.inl o) w' := by
  induction budget generalizing p v with
  | zero => exact .spent hp hb he
  | succ budget ih =>
    obtain ⟨r, u, hu, he⟩ := exec_bind_eq_ok_iff.1 he
    have hr : job.Reaches w r u := .round hp (by omega) hu
    cases r with
    | inl o' =>
      cases he
      exact hr
    | inr q =>
      obtain ⟨step, hs⟩ := (turn_of_round hu).steps
      apply ih hr _ he
      rw [hs, List.length_append, List.length_singleton]
      omega

theorem reaches_of_run {w w' : World σ} {o : Outcome} (he : exec job.run w = (.ok o, w')) :
    job.Reaches w (.inl o) w' :=
  reaches_of_loop .start (Nat.zero_add _) he

/-- A run that fails does so in the round after a point it has got to, or at the very end. -/
theorem reaches_of_loop_error {w v w' : World σ} {budget : Nat} {p : Progress} {e : Failure}
    (hp : job.Reaches w (.inr p) v) (hb : p.steps.length + budget = job.budget)
    (he : exec (job.loop budget p) v = (.error e, w')) :
    ∃ q u, job.Reaches w (.inr q) u ∧
      (exec (job.round q) u = (.error e, w') ∨ exec (job.finish .budget q) u = (.error e, w')) := by
  induction budget generalizing p v with
  | zero => exact ⟨p, v, hp, .inr he⟩
  | succ budget ih =>
    unfold loop at he
    rw [exec_bind] at he
    rcases hu : exec (job.round p) v with ⟨e' | r, u⟩ <;> rw [hu] at he
    · cases he
      exact ⟨p, v, hp, .inl hu⟩
    · have hr : job.Reaches w r u := .round hp (by omega) hu
      cases r with
      | inl o => cases he
      | inr q =>
        obtain ⟨step, hs⟩ := (turn_of_round hu).steps
        apply ih hr _ he
        rw [hs, List.length_append, List.length_singleton]
        omega

theorem reaches_of_run_error {w w' : World σ} {e : Failure}
    (he : exec job.run w = (.error e, w')) :
    ∃ q u, job.Reaches w (.inr q) u ∧
      (exec (job.round q) u = (.error e, w') ∨ exec (job.finish .budget q) u = (.error e, w')) :=
  reaches_of_loop_error .start (Nat.zero_add _) he

theorem budget_pos (job : Job σ) : 0 < job.budget := by
  unfold budget
  omega

theorem steps_le_budget {w v : World σ} {r : Outcome ⊕ Progress} (h : job.Reaches w r v) :
    (stepsAt r).length ≤ job.budget := by
  cases h with
  | start => exact Nat.zero_le _
  | @round p _ _ _ _ hlt he =>
    rcases (turn_of_round he).steps_or with hs | ⟨step, hs⟩
    · rw [hs]
      exact Nat.le_of_lt hlt
    · rw [hs, List.length_append, List.length_singleton]
      exact hlt
  | spent _ heq ho =>
    obtain rfl := finish_eq_ok ho
    exact Nat.le_of_eq heq

/-- Every step of a run has been the last one at some point. -/
theorem Reaches.of_append {w v : World σ} {r : Outcome ⊕ Progress} (hp : job.Reaches w r v)
    {earlier later : List Step} (hs : stepsAt r = earlier ++ later) :
    ∃ r' v', job.Reaches w r' v' ∧ stepsAt r' = earlier := by
  induction hp generalizing later with
  | start => exact ⟨_, w, .start, (List.append_eq_nil_iff.1 hs.symm).1.symm⟩
  | @round p u v r hp hlt he ih =>
    rcases (turn_of_round he).steps_or with hr | ⟨step, hr⟩
    · exact ih (hr.symm.trans hs)
    · rcases List.eq_nil_or_concat later with rfl | ⟨later, t, rfl⟩
      · exact ⟨r, v, .round hp hlt he, by rw [hs, List.append_nil]⟩
      · rw [hr, List.concat_eq_append, ← List.append_assoc] at hs
        exact ih (List.append_inj' hs rfl).1
  | spent _ _ ho ih =>
    obtain rfl := finish_eq_ok ho
    exact ih hs

/-! Runs that are left alone, with a recorder that stays within a relation. -/

section
variable {R : Disk → Disk → Prop} [IsPreorder Disk R]

/-- The changes of a step are tried on the disk that was looked at, but for what is recorded. -/
theorem Work.applied (h : job.Undisturbed) (hr : job.Records R) {p : Progress} {w y : World σ}
    {before : Snapshot} {step : Step} (hw : Work job p w before step y) :
    ∃ (s : Step) (u x : World σ), R w.disk u.disk ∧ s.before = before.count ∧
      s.after = before.count ∧ s.applied = [] ∧ Change.Tidy s.changes ∧
      exec (job.applyChanges s before) u = (.ok step, x) ∧
      R x.disk y.disk := by
  obtain ⟨hv, -, hu, hx, hy⟩ := hw
  have hd := (hr.moves_prepare? h _ before).of_exec hu
  rw [← h.source.of_exec hv] at hd
  obtain ⟨hb, ha, hk, ht⟩ := of_prepare? h hu
  exact ⟨_, _, _, hd, hb, ha, hk, ht, hx, (hr.moves_report step).of_exec hy⟩

/-- A round leaves the steps as they are, or it has taken one more. -/
theorem Turn.seen (h : job.Undisturbed) (hr : job.Records R) {p : Progress} {w w' : World σ}
    {r : Outcome ⊕ Progress} (ht : Turn job p w r w') :
    (∃ before v, exec job.query w = (.ok before, v) ∧ stepsAt r = p.steps ∧
      r.elim (·.final) (·.final) = (before.count : Int) ∧ R w.disk w'.disk) ∨
    ∃ before s y, Work job p w before s y ∧ stepsAt r = p.steps ++ [s] ∧
      r.elim (·.final) (·.final) = s.after ∧ R y.disk w'.disk := by
  cases ht with
  | @clean before v _ _ hv _ ho =>
    have hm := (hr.moves_finish _ _).of_exec ho
    rw [← h.source.of_exec hv] at hm
    obtain rfl := finish_eq_ok ho
    exact .inl ⟨before, v, hv, rfl, rfl, hm⟩
  | @noPlan before v _ _ _ hv _ hu ho =>
    have hp := (hr.moves_prepare? h _ before).of_exec hu
    have hm := trans_of R hp ((hr.moves_finish _ _).of_exec ho)
    rw [← h.source.of_exec hv] at hm
    obtain rfl := finish_eq_ok ho
    exact .inl ⟨before, v, hv, rfl, rfl, hm⟩
  | @last before s y _ _ _ hwork _ ho =>
    have hm := (hr.moves_finish _ _).of_exec ho
    obtain rfl := finish_eq_ok ho
    exact .inr ⟨before, s, y, hwork, rfl, rfl, hm⟩
  | @next before s _ hwork _ => exact .inr ⟨before, s, w', hwork, rfl, rfl, refl_of R _⟩

/-- What holds at the start, whatever is recorded, and is carried by each step, holds at every point. -/
theorem Reaches.carried (h : job.Undisturbed) (hr : job.Records R) {P : List Step → Disk → Prop}
    {w v : World σ} {r : Outcome ⊕ Progress} (hp : job.Reaches w r v) (start : P [] w.disk)
    (recorded : ∀ steps d d', R d d' → P steps d → P steps d')
    (work : ∀ p u before s y, Work job p u before s y → P p.steps u.disk →
      P (p.steps ++ [s]) y.disk) : P (stepsAt r) v.disk := by
  induction hp with
  | start => exact start
  | @round p v v' r _ _ he ih =>
    rcases (turn_of_round he).seen h hr with ⟨_, _, -, hs, -, hd⟩ | ⟨before, s, y, hw, hs, -, hd⟩
    · rw [hs]
      exact recorded _ _ _ hd ih
    · rw [hs]
      exact recorded _ _ _ hd (work p v before s y hw ih)
  | spent _ _ ho ih =>
    have hd := (hr.moves_finish _ _).of_exec ho
    obtain rfl := finish_eq_ok ho
    exact recorded _ _ _ hd ih

end

end
end Codemod.Job
