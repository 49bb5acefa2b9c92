import Codemod.Proofs.Run.Calls
import Codemod.Proofs.Run.Consistency

/-! How a run comes to its end. A step that keeps nothing leaves the count alone, so each step a run goes
on after has left diagnostics, and has neither repeated the count of the step before it nor failed to
lower it where that is asked. The outcome is told from the steps by what the last of them has done. -/
namespace Codemod
open Act

namespace Step

/-- What holds of every step: it had something to do, it moves the count only by what it keeps, and it
keeps nothing when there is an error. -/
structure Coherent (s : Step) : Prop where
  before_ne : s.before ≠ 0
  idle : s.applied = [] → s.after = s.before
  error : s.error ≠ none → s.applied = []

theorem Coherent.aborted_iff {s : Step} (h : s.Coherent) : s.aborted = true ↔ s.error ≠ none := by
  unfold aborted
  rw [Bool.and_eq_true, List.isEmpty_iff, Option.isSome_iff_ne_none]
  exact ⟨And.left, fun he => ⟨he, h.error he⟩⟩

theorem Coherent.after_ne {s : Step} (h : s.Coherent) (he : s.error ≠ none) : s.after ≠ 0 := by
  rw [h.idle (h.error he)]
  exact h.before_ne

end Step

/-- The count after the latest of the steps without an error. -/
def lastCount (steps : List Step) : Option Int :=
  (steps.filter (·.error.isNone)).getLast?.map (·.after)

theorem lastCount_concat (steps : List Step) (s : Step) :
    lastCount (steps ++ [s]) = if s.error = none then some s.after else lastCount steps := by
  unfold lastCount
  rw [List.filter_append]
  cases h : s.error <;> simp [h]

/-- The step ends where the latest of the earlier steps without an error has ended, with diagnostics
left, and has no error itself. -/
def Step.Repeats (s : Step) (earlier : List Step) : Prop :=
  s.error = none ∧ s.after ≠ 0 ∧ lastCount earlier = some s.after

namespace Job

section
variable {mode : Mode} {last : Option Int} {s : Step}

theorem halt?_eq_clean_iff (h : s.Coherent) : halt? mode last s = some .clean ↔ s.after = 0 := by
  have hn : s.aborted = true → s.after ≠ 0 := fun ha => h.after_ne (h.aborted_iff.1 ha)
  unfold halt?
  grind

theorem halt?_eq_stable_iff (h : s.Coherent) :
    halt? mode last s = some .stable ↔ s.error = none ∧ s.after ≠ 0 ∧ last = some s.after := by
  have ha := h.aborted_iff
  unfold halt?
  grind

theorem of_halt?_eq_noProgress (h : halt? mode last s = some .noProgress) :
    mode = .simple ∧ s.before ≤ s.after := by
  unfold halt? at h
  grind

theorem halt?_ne_noPlan : halt? mode last s ≠ some .noPlan := by
  unfold halt?
  grind

theorem halt?_ne_budget : halt? mode last s ≠ some .budget := by
  unfold halt?
  grind

/-- A simple run goes on only after an error or a lower count. -/
theorem after_lt_of_halt?_eq_none (h : halt? .simple last s = none) (ha : s.aborted = false) :
    s.after < s.before := by
  unfold halt? at h
  grind

end

/-! The steps of any job are coherent. -/

theorem policy_of_applyEach {query : Act σ Snapshot} {policy policy' : Policy}
    {changes : List Change} {verdicts : List FileVerdict} {w w' : World σ}
    (he : exec (applyEach query policy changes) w = (.ok (policy', verdicts), w'))
    (hv : verdicts.filter (·.accepted) = []) : policy' = policy := by
  induction changes generalizing policy verdicts w with
  | nil =>
    cases he
    rfl
  | cons c changes ih =>
    obtain ⟨middle, verdict, rest, v, hc, hrest, rfl⟩ := exec_applyEach_cons.1 he
    obtain ⟨ha, hv⟩ : verdict.accepted = false ∧ rest.filter (·.accepted) = [] := by
      simpa using hv
    rw [ih hrest hv, (verdict_of_tryChange hc).2 ha]

variable {job : Job σ}

theorem coherent_applyChanges {step step' : Step} {before : Snapshot} {w w' : World σ}
    (hne : step.before ≠ 0) (ha : step.after = step.before) (hk : step.applied = [])
    (hr : step.error = none) (hb : step.before = before.count)
    (he : exec (job.applyChanges step before) w = (.ok step', w')) : step'.Coherent := by
  cases applied_of_applyChanges he with
  | none => exact ⟨hne, fun _ => ha, fun _ => hk⟩
  | batch hc _ he =>
    unfold applyBatch at he
    obtain ⟨r, v, -, he⟩ := exec_bind_eq_ok_iff.1 he
    split at he
    · cases he
      exact ⟨hne, fun _ => ha, fun _ => hk⟩
    · cases he
    · obtain ⟨after, u, -, he⟩ := exec_bind_eq_ok_iff.1 he
      dsimp only at he
      split at he
      · cases he
        refine ⟨hne, fun hi => ?_, fun hn => absurd hr hn⟩
        exact absurd (List.map_eq_nil_iff.1 hi) (by simpa using hc)
      · obtain ⟨_, _, -, he⟩ := exec_bind_eq_ok_iff.1 he
        cases he
        exact ⟨hne, fun _ => ha, fun _ => hk⟩
  | each _ _ hp hv =>
    subst hp
    refine ⟨hne, fun hi => ?_, fun hn => ?_⟩
    · rw [Step.judged_after, policy_of_applyEach hv (List.map_eq_nil_iff.1 hi)]
      exact hb.symm
    · by_contra hi
      exact hn (step.judged_error _ hi)

theorem Work.coherent {p : Progress} {w y : World σ} {before : Snapshot} {step : Step}
    (h : Work job p w before step y) : step.Coherent := by
  obtain ⟨-, hb, hu, hx, -⟩ := h
  obtain ⟨_, _, _, _, -, -, rfl⟩ := prepare?_eq_some hu
  exact coherent_applyChanges (by simpa using hb) rfl rfl rfl rfl hx

/-- The steps are such that a run goes on after each of them. -/
structure Ongoing (mode : Mode) (steps : List Step) : Prop where
  coherent : ∀ s ∈ steps, s.Coherent
  goes_on : ∀ earlier s later, steps = earlier ++ s :: later →
    halt? mode (lastCount earlier) s = none

theorem Ongoing.concat {mode : Mode} {steps : List Step} {s : Step} (h : Ongoing mode steps)
    (hs : s.Coherent) (hn : halt? mode (lastCount steps) s = none) :
    Ongoing mode (steps ++ [s]) := by
  constructor
  · intro t ht
    rcases List.mem_append.1 ht with ht | ht
    · exact h.coherent t ht
    · exact List.mem_singleton.1 ht ▸ hs
  · intro earlier t later he
    rcases List.eq_nil_or_concat later with rfl | ⟨later, u, rfl⟩
    · obtain ⟨rfl, ht⟩ := List.append_inj' he rfl
      cases ht
      exact hn
    · have he : steps ++ [s] = (earlier ++ t :: later) ++ [u] := by
        rw [he]
        simp
      exact h.goes_on earlier t later (List.append_inj' he rfl).1

theorem Ongoing.after_ne {mode : Mode} {steps : List Step} (h : Ongoing mode steps) {s : Step}
    (hs : s ∈ steps) : s.after ≠ 0 := by
  obtain ⟨earlier, later, he⟩ := List.append_of_mem hs
  have hn := h.goes_on earlier s later he
  intro ha
  rw [(halt?_eq_clean_iff (h.coherent s hs)).2 ha] at hn
  cases hn

theorem Ongoing.not_repeats {mode : Mode} {steps : List Step} (h : Ongoing mode steps)
    {earlier later : List Step} {s : Step} (he : steps = earlier ++ s :: later) :
    ¬ s.Repeats earlier := by
  intro hr
  have hs : s.Coherent := h.coherent s (by simp [he])
  have hn := h.goes_on earlier s later he
  rw [(halt?_eq_stable_iff hs).2 hr] at hn
  cases hn

theorem Ongoing.of_append {mode : Mode} {steps more : List Step}
    (h : Ongoing mode (steps ++ more)) : Ongoing mode steps :=
  ⟨fun s hs => h.coherent s (List.mem_append_left more hs),
    fun earlier s later he => h.goes_on earlier s (later ++ more) (by simp [he])⟩

/-- What is known of the progress of a run. -/
structure Underway (job : Job σ) (p : Progress) : Prop extends Ongoing job.mode p.steps where
  last : p.last = lastCount p.steps
  final : ∀ s ∈ p.steps.getLast?, p.final = s.after

/-- The ways in which a run ends, as told by its steps. -/
inductive Ends (job : Job σ) (o : Outcome) : Prop where
  | clean : Ongoing job.mode o.steps → o.reason = .clean → o.final = 0 → Ends job o
  | noPlan : Ongoing job.mode o.steps → o.reason = .noPlan → o.final ≠ 0 → Ends job o
  | last {earlier : List Step} {s : Step} : Ongoing job.mode earlier → s.Coherent →
      o.steps = earlier ++ [s] → o.final = s.after →
      halt? job.mode (lastCount earlier) s = some o.reason → Ends job o
  | spent : Ongoing job.mode o.steps → o.reason = .budget → o.final ≠ 0 →
      o.steps.length = job.budget → Ends job o

/-- What is known at a point that a run gets to. -/
def Known (job : Job σ) : Outcome ⊕ Progress → Prop
  | .inl o => job.Ends o
  | .inr p => job.Underway p

theorem Underway.turn {p : Progress} {v v' : World σ} {r : Outcome ⊕ Progress}
    (h : job.Underway p) (ht : Turn job p v r v') : job.Known r := by
  cases ht with
  | clean _ hb ho =>
    obtain rfl := finish_eq_ok ho
    exact .clean h.toOngoing rfl (by simp [Progress.observe, hb])
  | noPlan _ hb _ ho =>
    obtain rfl := finish_eq_ok ho
    exact .noPlan h.toOngoing rfl (by simpa [Progress.observe] using hb)
  | last hwork hh ho =>
    obtain rfl := finish_eq_ok ho
    rw [h.last] at hh
    exact .last h.toOngoing hwork.coherent rfl rfl hh
  | @next before s _ hwork hh =>
    have hs := hwork.coherent
    rw [h.last] at hh
    refine ⟨h.toOngoing.concat hs hh, ?_, ?_⟩
    · change (if s.aborted then p.last else some s.after) = lastCount (p.steps ++ [s])
      rw [lastCount_concat, h.last]
      by_cases he : s.error = none
      · rw [if_neg (by simpa [hs.aborted_iff] using he), if_pos he]
      · rw [if_pos (hs.aborted_iff.2 he), if_neg he]
    · intro t ht
      change t ∈ (p.steps ++ [s]).getLast? at ht
      rw [List.getLast?_concat] at ht
      cases ht
      rfl

theorem known_of_reaches {w v : World σ} {r : Outcome ⊕ Progress} (h : job.Reaches w r v) :
    job.Known r := by
  induction h with
  | start => exact ⟨⟨by simp [Progress.start], by simp [Progress.start]⟩, rfl, by simp [Progress.start]⟩
  | round _ _ he ih => exact ih.turn (turn_of_round he)
  | @spent p _ _ _ _ hl ho ih =>
    obtain rfl := finish_eq_ok ho
    refine .spent ih.toOngoing rfl ?_ hl
    have hne : p.steps ≠ [] := by
      intro hn
      rw [hn] at hl
      exact absurd hl.symm (Nat.ne_of_gt job.budget_pos)
    have hs := List.getLast_mem hne
    dsimp only
    rw [ih.final _ (List.getLast_mem_getLast? hne)]
    exact ih.after_ne hs

theorem Ends.ongoing {o : Outcome} (h : job.Ends o) {earlier later : List Step}
    (hs : o.steps = earlier ++ later) (hl : later ≠ []) : Ongoing job.mode earlier := by
  cases h with
  | clean hg _ _ | noPlan hg _ _ | spent hg _ _ _ => exact (hs ▸ hg).of_append
  | last hg _ he _ _ =>
    obtain ⟨later, t, rfl⟩ := (List.eq_nil_or_concat later).resolve_left hl
    rw [he, List.concat_eq_append, ← List.append_assoc] at hs
    exact ((List.append_inj' hs rfl).1 ▸ hg).of_append

theorem Ends.coherent {o : Outcome} (h : job.Ends o) : ∀ s ∈ o.steps, s.Coherent := by
  cases h with
  | clean hg _ _ | noPlan hg _ _ | spent hg _ _ _ => exact hg.coherent
  | last hg hs he _ _ =>
    intro t ht
    rw [he] at ht
    rcases List.mem_append.1 ht with ht | ht
    · exact hg.coherent t ht
    · exact List.mem_singleton.1 ht ▸ hs

/-- A run has gone on after each step but the last. -/
theorem Known.ongoing {r : Outcome ⊕ Progress} (h : job.Known r) {earlier later : List Step}
    (hs : stepsAt r = earlier ++ later) (hl : later ≠ []) : Ongoing job.mode earlier := by
  cases r with
  | inl o => exact Ends.ongoing h hs hl
  | inr p =>
    have hg := Underway.toOngoing h
    rw [show p.steps = earlier ++ later from hs] at hg
    exact hg.of_append

theorem Known.not_repeats {r : Outcome ⊕ Progress} (h : job.Known r) {earlier later : List Step}
    {s : Step} (hs : stepsAt r = earlier ++ s :: later) (hl : later ≠ []) : ¬ s.Repeats earlier := by
  have hg : Ongoing job.mode (earlier ++ [s]) := h.ongoing (by simp [hs]) hl
  exact hg.not_repeats rfl

theorem Known.coherent {r : Outcome ⊕ Progress} (h : job.Known r) :
    ∀ s ∈ stepsAt r, s.Coherent := by
  cases r with
  | inl o => exact Ends.coherent h
  | inr p => exact (Underway.toOngoing h).coherent

/-- The planner is called for every step, and once more when it has nothing to propose. -/
theorem length_extra_of_reaches {w v : World (σ × List Disk)} {r : Outcome ⊕ Progress}
    (h : job.logged.Reaches w r v) :
    v.extra.length = w.extra.length + (stepsAt r).length +
      r.elim (fun o => if o.reason = .noPlan then 1 else 0) fun _ => 0 := by
  induction h with
  | start => simp [Progress.start]
  | @round p v v' r _ _ he ih =>
    have hx := congrArg List.length (extra_of_round he)
    rw [List.length_append, ih] at hx
    have grown (before : Snapshot) (s : Step) :
        ((p.observe before.count).add s).steps.length = p.steps.length + 1 := by
      simp [Progress.add, Progress.observe]
    cases turn_of_round he with
    | clean hv hb ho =>
      obtain rfl := finish_eq_ok ho
      rw [hx, roundCalls_of_query hv, if_pos hb]
      simp [Progress.observe]
    | noPlan hv hb _ ho =>
      obtain rfl := finish_eq_ok ho
      rw [hx, roundCalls_of_query hv, if_neg hb]
      simp [Progress.observe]
    | @last _ _ _ _ reason _ hwork hh ho =>
      obtain ⟨hv, hb, -, -, -⟩ := hwork
      obtain rfl := finish_eq_ok ho
      have hr : reason ≠ .noPlan := fun hr => halt?_ne_noPlan (hr ▸ hh)
      rw [hx, roundCalls_of_query hv, if_neg hb]
      simp [grown, hr]
      omega
    | next hwork hh =>
      obtain ⟨hv, hb, -, -, -⟩ := hwork
      rw [hx, roundCalls_of_query hv, if_neg hb]
      simp [grown]
      omega
  | spent _ _ ho ih =>
    rw [extra_of_finish ho, ih]
    obtain rfl := finish_eq_ok ho
    simp

/-! What the reason of an outcome says about its steps. -/

namespace Ends
variable {o : Outcome}

theorem clean_iff (h : job.Ends o) : o.reason = .clean ↔ o.final = 0 := by
  cases h with
  | clean _ hr hf => simp [hr, hf]
  | noPlan _ hr hf => simp [hr, hf]
  | last _ hs _ hf hh => rw [hf, ← halt?_eq_clean_iff hs, hh, Option.some_inj]
  | spent _ hr hf _ => simp [hr, hf]

theorem stable_iff (h : job.Ends o) :
    o.reason = .stable ↔ ∃ earlier s, o.steps = earlier ++ [s] ∧ s.Repeats earlier := by
  have never (hg : Ongoing job.mode o.steps) :
      ¬ ∃ earlier s, o.steps = earlier ++ [s] ∧ s.Repeats earlier :=
    fun ⟨_, _, he, hs⟩ => hg.not_repeats he hs
  cases h with
  | clean hg hr _ => exact iff_of_false (by simp [hr]) (never hg)
  | noPlan hg hr _ => exact iff_of_false (by simp [hr]) (never hg)
  | spent hg hr _ _ => exact iff_of_false (by simp [hr]) (never hg)
  | @last earlier s _ hs he _ hh =>
    have hrep : o.reason = .stable ↔ s.Repeats earlier := by
      rw [Step.Repeats, ← halt?_eq_stable_iff hs, hh, Option.some_inj]
    rw [hrep]
    refine ⟨fun hr => ⟨earlier, s, he, hr⟩, ?_⟩
    rintro ⟨earlier', t, he', ht⟩
    obtain ⟨rfl, hst⟩ := List.append_inj' (he.symm.trans he') rfl
    cases hst
    exact ht

theorem of_noProgress (h : job.Ends o) (hr : o.reason = .noProgress) :
    job.mode = .simple ∧ ∃ s ∈ o.steps.getLast?, s.before ≤ s.after := by
  cases h with
  | clean _ hr' _ => simp [hr] at hr'
  | noPlan _ hr' _ => simp [hr] at hr'
  | spent _ hr' _ _ => simp [hr] at hr'
  | @last _ s _ _ he _ hh =>
    rw [hr] at hh
    obtain ⟨hm, hle⟩ := of_halt?_eq_noProgress hh
    exact ⟨hm, s, by simp [he], hle⟩

theorem of_budget (h : job.Ends o) (hr : o.reason = .budget) : o.steps.length = job.budget := by
  cases h with
  | clean _ hr' _ => simp [hr] at hr'
  | noPlan _ hr' _ => simp [hr] at hr'
  | spent _ _ _ hl => exact hl
  | last _ _ _ _ hh => exact absurd (hr ▸ hh) halt?_ne_budget

end Ends

/-- A run that succeeds has taken no more steps than it may, and one at most when it may take none. It
has called the planner for each of them, and once more when the planner had nothing to propose. Nothing
is left exactly when the reason is that the project is clean. The run is stable exactly when its last
step repeats the count of the latest step before it that had no error, which no other step does. It has
made no progress only in a simple run whose last step has not lowered the count, and its budget is spent
only when it has taken all steps that it may. -/
theorem run_ends_by_its_steps {w w' : World σ} {o : Outcome}
    (he : exec job.run w = (.ok o, w')) :
    (o.steps.length : Int) ≤ max 1 job.maxSteps ∧
    (job.calls w).length = o.steps.length + (if o.reason = .noPlan then 1 else 0) ∧
    (o.reason = .clean ↔ o.final = 0) ∧
    (o.reason = .stable ↔ (∃ earlier s, o.steps = earlier ++ [s] ∧ s.Repeats earlier) ∧
      ∀ earlier s later, o.steps = earlier ++ s :: later → later ≠ [] → ¬ s.Repeats earlier) ∧
    (o.reason = .noProgress → job.mode = .simple ∧ ∃ s ∈ o.steps.getLast?, s.before ≤ s.after) ∧
    (o.reason = .budget → (o.steps.length : Int) = max 1 job.maxSteps) := by
  have hr := reaches_of_run he
  have hknown : job.Known (.inl o) := known_of_reaches hr
  have hends : job.Ends o := hknown
  have hbudget : (job.budget : Int) = max 1 job.maxSteps := by
    unfold budget
    omega
  have hcalls : (job.calls w).length = o.steps.length + if o.reason = .noPlan then 1 else 0 := by
    have hlog := job.exec_logged_run w
    rw [he] at hlog
    simpa using length_extra_of_reaches (reaches_of_run hlog)
  refine ⟨?_, hcalls, hends.clean_iff, ⟨fun hs => ⟨hends.stable_iff.1 hs, ?_⟩, fun hs => ?_⟩,
    hends.of_noProgress, fun hb => ?_⟩
  · rw [← hbudget]
    exact Int.ofNat_le.2 (steps_le_budget hr)
  · exact fun earlier s later hs => hknown.not_repeats hs
  · exact hends.stable_iff.2 hs.1
  · rw [hends.of_budget hb, hbudget]

end Job

/-! The same project under a source that does not look at the files. -/
namespace Sample

/-- Answers by a script, and writes over the second file where the script says so. -/
def answer : Act (List (Snapshot × Bool)) Snapshot := do
  match (← get).outside with
  | [] => return ⟨[]⟩
  | (s, writes) :: rest =>
    modify fun w => { w with outside := rest }
    if writes then Act.write (file "b") "w"
    return s

def scripted : Job (List (Snapshot × Bool)) where
  root := .absolute ["p"]
  source := fun _ => answer
  planner := fun _ =>
    pure ⟨[1], [.editText "a" none "x" "y" 1000, .editText "b" none "u" "v" 1000], [], 0.5⟩
  mode := .focused
  maxSteps := 5
  scope := { projectRoot := .absolute ["p"] }

def one : Snapshot := ⟨[diagnostic 1 "a"]⟩

def worse : Snapshot := ⟨[diagnostic 1 "a", diagnostic 2 "b"]⟩

def script : World (List (Snapshot × Bool)) :=
  ⟨world.disk, [], false, [(one, false), (worse, false), (worse, false),
    (one, false), (worse, true), (one, false), (worse, false)]⟩

end Sample

/-- The second of three steps finds a file drifted, so the third one repeats the first. -/
theorem run_ends_by_its_steps_sample :
    ∃ o w', exec Sample.scripted.run Sample.script = (.ok o, w') ∧
      o.steps.map (fun s => (s.after, s.error.isSome)) = [(1, false), (1, true), (1, false)] ∧
      o.reason = .stable ∧ (∃ earlier s, o.steps = earlier ++ [s] ∧ s.Repeats earlier) ∧
      (Sample.scripted.calls Sample.script).length = 3 := by
  have hk : (exec Sample.scripted.run Sample.script).1.toOption.map
      (fun o => (o.steps.map fun s => (s.after, s.error.isSome), o.reason)) =
        some ([(1, false), (1, true), (1, false)], .stable) := by
    decide +kernel
  rcases he : exec Sample.scripted.run Sample.script with ⟨e | o, w'⟩ <;> rw [he] at hk
  · cases hk
  · obtain ⟨hs, hr⟩ := Prod.mk.inj (Option.some.inj hk)
    obtain ⟨-, hcalls, -, hstable, -, -⟩ := Job.run_ends_by_its_steps he
    have hl : o.steps.length = 3 := by simpa using congrArg List.length hs
    refine ⟨o, w', rfl, hs, hr, (hstable.1 hr).1, ?_⟩
    rw [hcalls, hl, hr]
    rfl

end Codemod
