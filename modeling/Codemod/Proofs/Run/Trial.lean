import Codemod.Proofs.Change.History
import Codemod.Run.Loop

/-! Changes on trial: written, looked at, and then kept or undone. This is said once, for a batch and
for a single file alike. Changes that fail to be written leave no trace, and those that are undone
leave none either; only a query that fails leaves changes behind that nobody has judged. -/
namespace Codemod

/-- What becomes of changes on trial. -/
inductive Fate where
  /-- They have not been written. -/
  | refused (e : Failure)
  /-- They have been written, and then there was no snapshot to judge them by. -/
  | unjudged (e : Failure)
  | kept (after : Snapshot)
  | undone (after : Snapshot)

/-- The fate of what an act writes. -/
def fate (write : Act σ Unit) (query : Act σ Snapshot) (accepts : Snapshot → Bool)
    (w : World σ) : Fate :=
  match Act.exec write w with
  | (.error e, _) => .refused e
  | (.ok (), v) =>
    match Act.exec query v with
    | (.error e, _) => .unjudged e
    | (.ok after, _) => if accepts after then .kept after else .undone after

/-- What a trial gives, by what each fate gives. -/
def Fate.result (refused : Failure → Except Failure α) (kept undone : Snapshot → α) :
    Fate → Except Failure α
  | .refused e => refused e
  | .unjudged e => .error e
  | .kept after => .ok (kept after)
  | .undone after => .ok (undone after)

/-- Where a trial of changes leads from a world. -/
inductive Trial (query : Act σ Snapshot) (accepts : Snapshot → Bool) (changes : List Change)
    (w : World σ) : Fate → World σ → Prop where
  | refused (e) : Trial query accepts changes w (.refused e) w
  | unjudged {v w' : World σ} {e} : (∀ c ∈ changes, c.Fits w.disk) →
      v.disk = w.disk.overwrite (Change.writes w.disk (·.after) changes) →
      Act.exec query v = (.error e, w') → Trial query accepts changes w (.unjudged e) w'
  | kept {v w' : World σ} {after} : (∀ c ∈ changes, c.Fits w.disk) →
      v.disk = w.disk.overwrite (Change.writes w.disk (·.after) changes) →
      Act.exec query v = (.ok after, w') → accepts after →
      Trial query accepts changes w (.kept after) w'
  | undone {w' : World σ} {after} : w'.disk = w.disk → ¬ accepts after →
      Trial query accepts changes w (.undone after) w'

/-- The act writes the changes when they fit, and otherwise does nothing. -/
def Writer (changes : List Change) (write : Act σ Unit) : Prop :=
  ∀ w, ((∀ c ∈ changes, c.Fits w.disk) ∧ ∃ v, Act.exec write w = (.ok (), v) ∧
      v.disk = w.disk.overwrite (Change.writes w.disk (·.after) changes)) ∨
    ∃ e, Act.exec write w = (.error e, w)

theorem writer_applyAll (changes : List Change) :
    Writer changes (Change.applyAll changes : Act σ Unit) := by
  intro w
  by_cases h : ∀ c ∈ changes, c.Fits w.disk
  · exact .inl ⟨h, Change.exec_applyAll_of_fits h⟩
  · exact .inr (Change.exec_applyAll_of_not_fits (by simpa using h))

theorem writer_apply (c : Change) : Writer [c] (c.apply : Act σ Unit) := by
  intro w
  by_cases h : c.Fits w.disk
  · exact .inl ⟨by simpa using h, Change.exec_apply_of_fits h⟩
  · exact .inr (Change.exec_apply_of_not_fits h)

/-- Writes changes, looks at the project, and keeps or undoes them. -/
def trial (changes : List Change) (write : Act σ Unit) (query : Act σ Snapshot)
    (accepts : Snapshot → Bool) (refused : Failure → Except Failure α)
    (kept undone : Snapshot → α) : Act σ α := do
  match ← Act.attempt write with
  | .error e => ExceptT.mk (pure (refused e))
  | .ok () =>
    let after ← query
    if accepts after then return kept after
    else
      Change.revertAll changes
      return undone after

theorem exec_trial {changes : List Change} {write : Act σ Unit} {query : Act σ Snapshot}
    (hw : Writer changes write) (hq : Act.Quiet query) (accepts : Snapshot → Bool)
    (refused : Failure → Except Failure α) (kept undone : Snapshot → α) (w : World σ) :
    ∃ w', Trial query accepts changes w (fate write query accepts w) w' ∧
      Act.exec (trial changes write query accepts refused kept undone) w =
        ((fate write query accepts w).result refused kept undone, w') := by
  unfold trial fate
  rw [Act.exec_bind_ok (Act.exec_attempt _ _)]
  rcases hw w with ⟨hf, v, hv, hd⟩ | ⟨e, he⟩
  · -- The query leaves the written disk as it is, so that undoing finds what was written.
    have hqv := hq v
    simp only [hv, Act.exec_bind]
    rcases hr : Act.exec query v with ⟨e | after, v'⟩ <;> rw [hr] at hqv
    · exact ⟨v', .unjudged hf hd hr, rfl⟩
    · dsimp only
      by_cases ha : accepts after
      · rw [if_pos ha, if_pos ha]
        exact ⟨v', .kept hf hd hr ha, rfl⟩
      · rw [if_neg ha, if_neg ha]
        obtain ⟨w', hw', hd'⟩ := Change.exec_revertAll_of_fits hf (hqv.symm.trans hd)
        rw [Act.exec_bind_ok hw']
        exact ⟨w', .undone hd' ha, rfl⟩
  · simp only [he]
    exact ⟨w, .refused e, rfl⟩

/-! The two ways of trying changes. -/

def fileFate (query : Act σ Snapshot) (policy : Policy) (c : Change) : World σ → Fate :=
  fate c.apply query fun after => (policy.judge c.file after).accepted

def fileResult (policy : Policy) (c : Change) : Fate → Except Failure (Policy × FileVerdict) :=
  Fate.result
    (fun
      | .preimage _ => .ok (policy,
          { file := c.file, accepted := false, error := some (preimageMessage c.file) })
      | e => .error e)
    (fun after => (policy.advance after, policy.judge c.file after))
    (fun after => (policy, policy.judge c.file after))

theorem exec_tryChange {query : Act σ Snapshot} (hq : Act.Quiet query) (policy : Policy)
    (c : Change) (w : World σ) :
    ∃ w', Trial query (fun after => (policy.judge c.file after).accepted) [c] w
        (fileFate query policy c w) w' ∧
      Act.exec (tryChange query policy c) w =
        (fileResult policy c (fileFate query policy c w), w') := by
  obtain ⟨w', ht, he⟩ := exec_trial (writer_apply c) hq
    (fun after => (policy.judge c.file after).accepted) _ _ _ w
  refine ⟨w', ht, Eq.trans ?_ he⟩
  congr 1
  unfold tryChange trial
  congr 1
  funext r
  cases r with
  | error e => cases e <;> rfl
  | ok => rfl

/-- A verdict is about the file of its change, and the policy moves only when it accepts that. -/
theorem verdict_of_tryChange {query : Act σ Snapshot} {policy policy' : Policy} {c : Change}
    {verdict : FileVerdict} {w w' : World σ}
    (he : Act.exec (tryChange query policy c) w = (.ok (policy', verdict), w')) :
    verdict.file = c.file ∧ (verdict.accepted = false → policy' = policy) := by
  unfold tryChange at he
  obtain ⟨r, v, -, he⟩ := Act.exec_bind_eq_ok_iff.1 he
  split at he
  · cases he
    exact ⟨rfl, fun _ => rfl⟩
  · cases he
  · obtain ⟨after, u, -, he⟩ := Act.exec_bind_eq_ok_iff.1 he
    dsimp only at he
    split at he
    · next ha =>
      cases he
      exact ⟨rfl, by simp [ha]⟩
    · obtain ⟨_, _, -, he⟩ := Act.exec_bind_eq_ok_iff.1 he
      cases he
      exact ⟨rfl, fun _ => rfl⟩

/-- What has happened when a change has been tried without a failure. -/
inductive Tried (query : Act σ Snapshot) (policy : Policy) (c : Change) (w : World σ) :
    Policy → FileVerdict → World σ → Prop where
  | drifted {message : String} : ¬ c.Fits w.disk → Tried query policy c w policy
      { file := c.file, accepted := false, error := some message } w
  | kept {v w' : World σ} {after : Snapshot} : c.Fits w.disk →
      v.disk = w.disk.overwrite (Change.writes w.disk (·.after) [c]) →
      Act.exec query v = (.ok after, w') → (policy.judge c.file after).accepted →
      Tried query policy c w (policy.advance after) (policy.judge c.file after) w'
  | undone {w' : World σ} {after : Snapshot} : w'.disk = w.disk →
      ¬ (policy.judge c.file after).accepted →
      Tried query policy c w policy (policy.judge c.file after) w'

theorem not_fits_of_refused {query : Act σ Snapshot} {policy : Policy} {c : Change} {w : World σ}
    {e : Failure} (h : fileFate query policy c w = .refused e) : ¬ c.Fits w.disk := by
  intro hf
  obtain ⟨v, hv, -⟩ := Change.exec_apply_of_fits hf
  unfold fileFate fate at h
  rw [hv] at h
  dsimp only at h
  split at h
  · contradiction
  · split at h <;> contradiction

theorem tried_of_tryChange {query : Act σ Snapshot} (hq : Act.Quiet query)
    {policy policy' : Policy} {c : Change} {verdict : FileVerdict} {w w' : World σ}
    (he : Act.exec (tryChange query policy c) w = (.ok (policy', verdict), w')) :
    Tried query policy c w policy' verdict w' := by
  obtain ⟨v, ht, hr⟩ := exec_tryChange hq policy c w
  rw [hr] at he
  generalize hf : fileFate query policy c w = f at *
  cases ht with
  | refused e => cases e <;> cases he; exact .drifted (not_fits_of_refused hf)
  | unjudged => cases he
  | kept hfits hd hv ha =>
    cases he
    exact .kept (hfits c (by simp)) hd hv ha
  | undone hd ha =>
    cases he
    exact .undone hd ha

/-- A change that is turned down leaves the disk as it was. -/
theorem disk_of_tryChange {query : Act σ Snapshot} (hq : Act.Quiet query) {policy policy' : Policy}
    {c : Change} {verdict : FileVerdict} {w w' : World σ}
    (he : Act.exec (tryChange query policy c) w = (.ok (policy', verdict), w'))
    (ha : verdict.accepted = false) : w'.disk = w.disk := by
  cases tried_of_tryChange hq he with
  | drifted => rfl
  | kept _ _ _ hacc =>
    rw [hacc] at ha
    contradiction
  | undone hd _ => exact hd

theorem exec_applyEach_cons {query : Act σ Snapshot} {policy policy' : Policy} {c : Change}
    {changes : List Change} {verdicts : List FileVerdict} {w w' : World σ} :
    Act.exec (applyEach query policy (c :: changes)) w = (.ok (policy', verdicts), w') ↔
      ∃ middle verdict rest v, Act.exec (tryChange query policy c) w = (.ok (middle, verdict), v) ∧
        Act.exec (applyEach query middle changes) v = (.ok (policy', rest), w') ∧
        verdicts = verdict :: rest := by
  constructor
  · intro he
    obtain ⟨⟨middle, verdict⟩, v, hv, he⟩ := Act.exec_bind_eq_ok_iff.1 he
    obtain ⟨⟨_, rest⟩, u, hu, he⟩ := Act.exec_bind_eq_ok_iff.1 he
    cases he
    exact ⟨middle, verdict, rest, v, hv, hu, rfl⟩
  · rintro ⟨middle, verdict, rest, v, hv, hu, rfl⟩
    unfold applyEach
    rw [Act.exec_bind_ok hv]
    dsimp only
    rw [Act.exec_bind_ok hu]
    rfl

def batchFate (query : Act σ Snapshot) (step : Step) (before : Snapshot) : World σ → Fate :=
  fate (Change.applyAll step.changes) query fun after => (judgeBatch before after).accepted

def batchResult (step : Step) : Fate → Except Failure Step :=
  Fate.result
    (fun
      | .preimage file => .ok { step with error := some (preimageMessage file) }
      | e => .error e)
    (fun after => { step with applied := step.changes.map (·.file), after := after.count })
    (fun _ => { step with rejected := step.changes.map (·.file) })

theorem exec_applyBatch {job : Job σ} (hq : Act.Quiet job.query) (step : Step)
    (before : Snapshot) (w : World σ) :
    ∃ w', Trial job.query (fun after => (judgeBatch before after).accepted) step.changes w
        (batchFate job.query step before w) w' ∧
      Act.exec (job.applyBatch step before) w =
        (batchResult step (batchFate job.query step before w), w') := by
  obtain ⟨w', ht, he⟩ := exec_trial (writer_applyAll step.changes) hq
    (fun after => (judgeBatch before after).accepted) _ _ _ w
  refine ⟨w', ht, Eq.trans ?_ he⟩
  congr 1
  unfold Job.applyBatch trial
  congr 1
  funext r
  cases r with
  | error e => cases e <;> rfl
  | ok => rfl

end Codemod
