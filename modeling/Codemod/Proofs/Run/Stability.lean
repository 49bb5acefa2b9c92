import Codemod.Proofs.Run.Halting

/-! Runs that do not go round in circles. When nobody else writes to the disk, changes fit it when they
are tried, so no step is aborted; and when the diagnostics are those of the disk, a step begins on the
count the last one ended on. So a step that keeps nothing repeats the count, which the second one in a
run does not survive, and a simple run goes on only while the count falls. -/
namespace Codemod
open Act

/-! No step has an error. -/

section
variable {query : Act σ Snapshot}

/-- A change that fits is judged, and then the disk holds it or is what it was. -/
theorem tryChange_of_fits (hq : Quiet query) {policy policy' : Policy} {c : Change}
    {verdict : FileVerdict} {w w' : World σ} (hf : c.Fits w.disk) (hd : c.file.Direct)
    (he : exec (tryChange query policy c) w = (.ok (policy', verdict), w')) :
    verdict.error = none ∧ (w'.disk = w.disk ∨ w'.disk = c.on w.disk) := by
  cases tried_of_tryChange hq he with
  | drifted hn => exact absurd hf hn
  | kept _ hv hs _ =>
    rw [← hq.of_exec hs, hv, hf.overwrite hd]
    exact ⟨rfl, .inr rfl⟩
  | undone hd _ => exact ⟨rfl, .inl hd⟩

theorem error_applyEach (hq : Quiet query) {policy policy' : Policy} {changes : List Change}
    {verdicts : List FileVerdict} {w w' : World σ} (ht : Change.Tidy changes)
    (hf : ∀ c ∈ changes, c.Fits w.disk)
    (he : exec (applyEach query policy changes) w = (.ok (policy', verdicts), w')) :
    ∀ verdict ∈ verdicts, verdict.error = none := by
  induction changes generalizing policy verdicts w with
  | nil =>
    cases he
    simp
  | cons c changes ih =>
    obtain ⟨middle, verdict, rest, v, hv, hrest, rfl⟩ := exec_applyEach_cons.1 he
    have hc := hf c (by simp)
    have hd := ht.direct c (by simp)
    obtain ⟨herr, hdisk⟩ := tryChange_of_fits hq hc hd hv
    -- What has been written is another file, so the other changes fit as before.
    have hfits : ∀ b ∈ changes, b.Fits v.disk := by
      intro b hb
      have hb' := hf b (by simp [hb])
      rcases hdisk with hdisk | hdisk <;> rw [hdisk]
      · exact hb'
      · exact hb'.on hc (ht.direct b (by simp [hb])) hd (ht.file_ne hb)
    simpa [herr] using ih ht.tail hfits hrest

end

namespace Job
variable {job : Job σ}

theorem error_applyChanges (h : job.Undisturbed) {step step' : Step} {before : Snapshot}
    {w w' : World σ} (ht : Change.Tidy step.changes) (hf : ∀ c ∈ step.changes, c.Fits w.disk)
    (hn : step.error = none) (he : exec (job.applyChanges step before) w = (.ok step', w')) :
    step'.error = none := by
  cases applied_of_applyChanges he with
  | none => exact hn
  | batch _ _ he =>
    unfold applyBatch at he
    obtain ⟨v, hv, -⟩ := Change.exec_applyAll_of_fits hf
    rw [exec_bind_ok (exec_attempt _ _), hv] at he
    obtain ⟨after, u, -, he⟩ := exec_bind_eq_ok_iff.1 he
    dsimp only at he
    split at he
    · cases he
      exact hn
    · obtain ⟨_, _, -, he⟩ := exec_bind_eq_ok_iff.1 he
      cases he
      exact hn
  | @each _ _ verdicts _ _ _ _ hv =>
    have hnone : verdicts.filterMap (·.error) = [] :=
      List.filterMap_eq_nil_iff.2 (error_applyEach h.source ht hf hv)
    simp [Step.judged, hnone]

/-- Changes that have been prepared fit the disk, also when they have been recorded since. -/
theorem fits_of_prepare? (h : job.Undisturbed) {index : Nat} {before : Snapshot} {w w' : World σ}
    {step : Step} (he : exec (job.prepare? index before) w = (.ok (some step), w')) :
    step.error = none ∧ ∀ c ∈ step.changes, c.Fits w'.disk := by
  obtain ⟨plan, changes, u, v, hexec, hr, rfl⟩ := prepare?_eq_some he
  rw [h.compile] at hexec
  obtain ⟨hok, rfl⟩ := exec_compile_eq_ok_iff.1 hexec
  have hcompiled := Plan.compile_compiled hok
  refine ⟨rfl, fun c hc => ?_⟩
  rcases hr with rfl | hr
  · exact hcompiled.fits c hc
  · have hm := (job.records_additions.changes _ _).of_exec hr
    exact (hcompiled.fits c hc).grows (hcompiled.direct c hc) (grows_of_additions hm)

theorem Work.error (h : job.Undisturbed) {p : Progress} {w y : World σ} {before : Snapshot}
    {step : Step} (hw : Work job p w before step y) : step.error = none := by
  obtain ⟨-, -, hu, hx, -⟩ := hw
  obtain ⟨hn, hf⟩ := fits_of_prepare? h hu
  obtain ⟨-, -, -, ht⟩ := of_prepare? h hu
  exact error_applyChanges h ht hf hn hx

theorem error_of_reaches (h : job.Undisturbed) {w v : World σ} {r : Outcome ⊕ Progress}
    (hp : job.Reaches w r v) : ∀ s ∈ stepsAt r, s.error = none := by
  refine hp.carried h job.records_additions (P := fun steps _ => ∀ s ∈ steps, s.error = none)
    (by simp) (fun _ _ _ _ hs => hs) ?_
  intro p u before s y hwork hs t ht
  rcases List.mem_append.1 ht with ht | ht
  · exact hs t ht
  · exact List.mem_singleton.1 ht ▸ hwork.error h

/-! What the steps of a run that is left alone say about it. -/

theorem lastCount_of_errorless {steps : List Step} {s : Step} (h : s.error = none) :
    lastCount (steps ++ [s]) = some s.after := by
  rw [lastCount_concat, if_pos h]

section
variable {look : Disk → Snapshot}

/-- A simple run goes on only after a step that has lowered the count. -/
theorem lowers_of_reaches (h : job.Undisturbed) (hm : job.mode = .simple) {w v : World σ}
    {r : Outcome ⊕ Progress} (hp : job.Reaches w r v) {earlier later : List Step} {s : Step}
    (hs : stepsAt r = earlier ++ s :: later) (hl : later ≠ []) :
    s.after < s.before ∧ s.applied ≠ [] := by
  have hg : Ongoing job.mode (earlier ++ [s]) := (known_of_reaches hp).ongoing (by simp [hs]) hl
  have hcoherent : s.Coherent := hg.coherent s (by simp)
  have herror := error_of_reaches h hp s (by simp [hs])
  have hn := hg.goes_on earlier s [] rfl
  rw [hm] at hn
  have hlt : s.after < s.before := by
    apply after_lt_of_halt?_eq_none hn
    simpa [herror] using hcoherent.aborted_iff.not
  refine ⟨hlt, fun hi => ?_⟩
  rw [hcoherent.idle hi] at hlt
  exact absurd hlt (Int.lt_irrefl _)

/-- There are no more steps than counts to come down through. -/
theorem length_le_of_lowers (h : job.Undisturbed) (hr : job.Records (SameLook look))
    (hl : Reads job.query look) {w v : World σ} {r : Outcome ⊕ Progress} (hp : job.Reaches w r v)
    (hlow : ∀ s ∈ (stepsAt r).dropLast, s.after < s.before) :
    (stepsAt r).length ≤ (look w.disk).count := by
  -- The last step need not lower the count, but it had one to begin with: hence the second part.
  refine (hp.carried h hr (P := fun steps d =>
    ((∀ s ∈ steps, s.after < s.before) → (look d).count + steps.length ≤ (look w.disk).count) ∧
    ((∀ s ∈ steps.dropLast, s.after < s.before) → steps.length ≤ (look w.disk).count))
    (by simp) ?_ ?_).2 hlow
  · intro steps d d' hd hs
    rwa [show look d' = look d from hd]
  · intro p u before s y hwork ⟨hall, _⟩
    obtain ⟨hbefore, hb, ha⟩ := hwork.counts h hr hl
    have hne : before.count ≠ 0 := by
      obtain ⟨-, hb, -, -, -⟩ := hwork
      exact hb
    rw [hbefore] at hne
    constructor
    · intro hs
      have hsteps := hall fun t ht => hs t (by simp [ht])
      have hlast := hs s (by simp)
      rw [List.length_append, List.length_singleton]
      omega
    · intro hs
      rw [List.dropLast_concat] at hs
      have hsteps := hall hs
      rw [List.length_append, List.length_singleton]
      omega

/-- A step that keeps nothing, with a step before it, repeats that one. -/
theorem repeats_of_idle (h : job.Undisturbed) (hr : job.Records (SameLook look))
    (hl : Reads job.query look) {w v : World σ} {r : Outcome ⊕ Progress} (hp : job.Reaches w r v)
    {earlier later : List Step} {s : Step} (hs : stepsAt r = earlier ++ s :: later)
    (he : earlier ≠ []) (hi : s.applied = []) : s.Repeats earlier := by
  obtain ⟨earlier, t, rfl⟩ := (List.eq_nil_or_concat earlier).resolve_left he
  rw [List.concat_eq_append] at hs ⊢
  have hcoherent := (known_of_reaches hp).coherent s (by simp [hs])
  have hchain := (linked_of_reaches h hr hl hp).chain
  rw [hs, List.append_assoc] at hchain
  have hmeet : s.before = t.after := by
    have := (List.isChain_append.1 hchain).2.1
    exact (List.isChain_cons_cons.1 this).1
  have hafter := hcoherent.idle hi
  refine ⟨error_of_reaches h hp s (by simp [hs]), ?_, ?_⟩
  · rw [hafter]
    exact hcoherent.before_ne
  · rw [lastCount_of_errorless (error_of_reaches h hp t (by simp [hs])), hafter, hmeet]

/-- The count that an outcome gives for the start is that of the disk there. -/
theorem initial_of_reaches (h : job.Undisturbed) (hr : job.Records (SameLook look))
    (hl : Reads job.query look) {w v : World σ} {r : Outcome ⊕ Progress} (hp : job.Reaches w r v) :
    match r with
    | .inl o => o.initial = (look w.disk).count
    | .inr p => p.initial = some (look w.disk).count ∨ p = .start ∧ v = w := by
  induction hp with
  | start => exact .inr ⟨rfl, rfl⟩
  | @round p v v' r hp _ he ih =>
    have observed (before : Snapshot) (hb : before = look v.disk) :
        (p.observe before.count).initial = some (look w.disk).count := by
      rcases ih with ih | ⟨rfl, rfl⟩
      · simp [Progress.observe, ih]
      · simp [Progress.observe, Progress.start, hb]
    cases turn_of_round he with
    | clean hv _ ho | noPlan hv _ _ ho =>
      obtain rfl := finish_eq_ok ho
      simp [observed _ (hl _ _ _ hv)]
    | last hwork _ ho =>
      obtain ⟨hb, -, -⟩ := hwork.counts h hr hl
      obtain rfl := finish_eq_ok ho
      simp [Progress.add, observed _ hb]
    | next hwork _ =>
      obtain ⟨hb, -, -⟩ := hwork.counts h hr hl
      exact .inl (observed _ hb)
  | @spent p _ _ _ _ hn ho ih =>
    obtain rfl := finish_eq_ok ho
    rcases ih with ih | ⟨rfl, -⟩
    · simp [ih]
    · exact absurd hn.symm (Nat.ne_of_gt job.budget_pos)

/-! The calls of the planner. -/

/-- After the first call, no two calls in a row are on disks that look the same. -/
def Fresh (look : Disk → Snapshot) (calls : List Disk) : Prop :=
  ∀ a b c, [a, b, c] <:+: calls → look b ≠ look c

theorem Fresh.shorten {calls calls' : List Disk} (h : Fresh look calls') (hp : calls <+: calls') :
    Fresh look calls := fun a b c hi => h a b c (hi.trans hp.isInfix)

theorem Fresh.concat {calls : List Disk} {b c : Disk} (h : Fresh look (calls ++ [b]))
    (hne : calls ≠ [] → look b ≠ look c) : Fresh look (calls ++ [b] ++ [c]) := by
  intro a' b' c' hi
  rcases List.infix_concat_iff.1 hi with hs | hi
  · obtain ⟨init, hs⟩ := hs
    have hs : init ++ [a'] ++ [b'] ++ [c'] = calls ++ [b] ++ [c] := by simpa using hs
    obtain ⟨hrest, hc⟩ := List.append_inj' hs rfl
    obtain ⟨hinit, hb⟩ := List.append_inj' hrest rfl
    cases hb
    cases hc
    refine hne ?_
    rintro rfl
    simp at hinit
  · exact h a' b' c' hi

theorem reads_logged (hl : Reads job.query look) : Reads job.logged.query look := by
  intro w s w' he
  rw [logged_query, exec_beside] at he
  obtain ⟨hs, -⟩ := Prod.mk.inj he
  exact hl w.core s _ (Prod.ext hs rfl)

/-- A run that goes on, and not from its first step, sees the project change. -/
theorem look_ne_of_round (h : job.Undisturbed) (hr : job.Records (SameLook look))
    (hl : Reads job.query look) {w v v' : World σ} {p q : Progress}
    (hp : job.Reaches w (.inr p) v) (hlt : p.steps.length < job.budget)
    (he : exec (job.round p) v = (.ok (.inr q), v')) (hne : p.steps ≠ []) :
    look v.disk ≠ look v'.disk := by
  intro hsame
  have hknown := known_of_reaches (.round hp hlt he)
  cases turn_of_round he with
  | @next _ s _ hwork _ =>
    obtain ⟨earlier, t, hsteps⟩ := (List.eq_nil_or_concat p.steps).resolve_left hne
    rw [List.concat_eq_append] at hsteps
    have hon : Ongoing job.mode (p.steps ++ [s]) := (show job.Underway _ from hknown).toOngoing
    obtain ⟨-, -, hafter⟩ := hwork.counts h hr hl
    have hlast : t.after = (look v.disk).count :=
      (linked_of_reaches h hr hl hp).last t (by simp [hsteps])
    have ht := error_of_reaches h hp t (by simp [hsteps])
    refine hon.not_repeats rfl ⟨hwork.error h, hon.after_ne (by simp), ?_⟩
    rw [hsteps, lastCount_of_errorless ht, hlast, hafter, hsame]

theorem fresh_of_reaches (h : job.Undisturbed) (hr : job.Records (SameLook look))
    (hl : Reads job.query look) {w v : World (σ × List Disk)} {r : Outcome ⊕ Progress}
    (hw : w.extra = []) (hp : job.logged.Reaches w r v) :
    match r with
    | .inl _ => Fresh look v.extra
    | .inr _ => Fresh look (v.extra ++ [v.disk]) := by
  induction hp with
  | start =>
    intro a b c hi
    have := hi.length_le
    simp [hw] at this
  | @round p v v' r hp hlt he ih =>
    have hlog := extra_of_round he
    have hpre : v'.extra <+: v.extra ++ [v.disk] := by
      rw [hlog]
      exact (List.prefix_append_right_inj _).2 (roundCalls_of_quiet h.source v.core)
    cases r with
    | inl o => exact ih.shorten hpre
    | inr q =>
      have hcall : v'.extra = v.extra ++ [v.disk] := by
        cases turn_of_round he with
        | next hwork _ =>
          obtain ⟨hv, hb, -, -, -⟩ := hwork
          rw [hlog, roundCalls_of_query hv, if_neg hb, ← h.logged.source.of_exec hv]
      dsimp only
      rw [hcall]
      refine ih.concat fun hne => look_ne_of_round h.logged hr.logged (reads_logged hl) hp hlt he ?_
      -- There has been a call before this one, and so a step.
      have hlen := length_extra_of_reaches hp
      simp only [hw, stepsAt_inr, List.length_nil, Sum.elim_inr] at hlen
      intro hnil
      simp [hnil] at hlen
      exact hne hlen
  | spent _ _ ho ih =>
    rw [extra_of_finish ho]
    exact ih.shorten (List.prefix_append _ _)

theorem fresh_calls (h : job.Undisturbed) (hr : job.Records (SameLook look))
    (hl : Reads job.query look) (w : World σ) : Fresh look (job.calls w) := by
  have hlog := job.exec_logged_run w
  rcases he : exec job.run w with ⟨e | o, w'⟩ <;> rw [he] at hlog
  · obtain ⟨q, u, hp, hlast⟩ := reaches_of_run_error hlog
    have hfresh : Fresh look (u.extra ++ [u.disk]) := fresh_of_reaches h hr hl rfl hp
    rcases hlast with hlast | hlast
    · have hx := extra_of_round hlast
      rw [World.extra_beside] at hx
      rw [hx]
      exact hfresh.shorten
        ((List.prefix_append_right_inj _).2 (roundCalls_of_quiet h.source u.core))
    · have hx := extra_of_finish hlast
      rw [World.extra_beside] at hx
      rw [hx]
      exact hfresh.shorten (List.prefix_append _ _)
  · exact fresh_of_reaches h hr hl rfl (reaches_of_run hlog)

/-- What keeps a run, with its reason if it has come to an end, from going on for ever. -/
structure Guarded (job : Job σ) (first : Nat) (steps : List Step) (reason : Option Halt) :
    Prop where
  lowers : job.mode = .simple → ∀ earlier s later, steps = earlier ++ s :: later → later ≠ [] →
    s.after < s.before ∧ s.applied ≠ []
  bounded : job.mode = .simple → steps.length ≤ first
  stalls : job.mode = .focused → ∀ earlier s later, steps = earlier ++ s :: later →
    earlier ≠ [] → s.applied = [] → later = [] ∧ reason = some .stable

theorem guarded_of_reaches (h : job.Undisturbed) (hr : job.Records (SameLook look))
    (hl : Reads job.query look) {w v : World σ} {r : Outcome ⊕ Progress} (hp : job.Reaches w r v) :
    job.Guarded (look w.disk).count (stepsAt r) (r.elim (fun o => some o.reason) fun _ => none) := by
  have hknown := known_of_reaches hp
  constructor
  · intro hm earlier s later hs hne
    exact lowers_of_reaches h hm hp hs hne
  · intro hm
    refine length_le_of_lowers h hr hl hp fun s hs => ?_
    obtain ⟨earlier, later, he⟩ := List.append_of_mem hs
    have hne : stepsAt r ≠ [] := by
      intro hnil
      simp [hnil] at hs
    have hsplit : stepsAt r = earlier ++ s :: (later ++ [(stepsAt r).getLast hne]) := by
      rw [← List.cons_append, ← List.append_assoc, ← he, List.dropLast_concat_getLast]
    exact (lowers_of_reaches h hm hp hsplit (by simp)).1
  · intro hm earlier s later hs hne hi
    have hrep := repeats_of_idle h hr hl hp hs hne hi
    have hlater : later = [] := by
      by_contra hne'
      exact hknown.not_repeats hs hne' hrep
    subst hlater
    refine ⟨rfl, ?_⟩
    cases r with
    | inr p => exact absurd hrep ((Underway.toOngoing hknown).not_repeats hs)
    | inl o =>
      have hstable : o.reason = .stable := (Ends.stable_iff hknown).2 ⟨earlier, s, hs, hrep⟩
      exact congrArg some hstable

/-- A run that is left alone does not go round in circles. In a simple run every step but the last lowers
the count and keeps something, so there are no more steps than diagnostics at the start. A focused run
ends as a stable one with the first step that keeps nothing, unless that is the first step of all. Of any
three calls of the planner in a row, the last two are on projects that look different. -/
theorem run_never_circles (h : job.Undisturbed) (hr : job.Records (SameLook look))
    (hl : Reads job.query look) (w : World σ) :
    (∀ r v, job.Reaches w r v → job.Guarded (look w.disk).count (stepsAt r)
      (r.elim (fun o => some o.reason) fun _ => none)) ∧
    (∀ o w', exec job.run w = (.ok o, w') → o.initial = (look w.disk).count ∧
      job.Guarded (look w.disk).count o.steps (some o.reason)) ∧
    ∀ a b c, [a, b, c] <:+: job.calls w → look b ≠ look c := by
  refine ⟨fun r v hp => guarded_of_reaches h hr hl hp, fun o w' he => ?_, fresh_calls h hr hl w⟩
  have hp := reaches_of_run he
  exact ⟨initial_of_reaches h hr hl hp, guarded_of_reaches h hr hl hp⟩

end
end Job

namespace Sample

/-- Proposes for ever what is undone every time. -/
def stubborn : Job Unit :=
  { job with
    planner := fun _ => pure ⟨[1], [.editText "b" none "u" "v" 1000], [], 0.5⟩
    maxSteps := 5 }

end Sample

/-- The second step that keeps nothing is the last one. -/
theorem run_never_circles_sample :
    Sample.stubborn.Undisturbed ∧ Sample.stubborn.Records (SameLook Sample.look) ∧
    Reads Sample.stubborn.query Sample.look ∧
    ∃ o w', exec Sample.stubborn.run Sample.world = (.ok o, w') ∧
      o.steps.map (·.applied) = [[], []] ∧ o.reason = .stable ∧ o.initial = 1 := by
  have hu : Sample.stubborn.Undisturbed := ⟨fun _ => rfl, fun _ => .pure _, rfl⟩
  have hr : Sample.stubborn.Records (SameLook Sample.look) := .of_none rfl
  have hl : Reads Sample.stubborn.query Sample.look := by
    intro w s w' he
    cases he
    rfl
  have hk : ((exec Sample.stubborn.run Sample.world).1.toOption.map
      fun o => o.steps.map (·.applied)) = some [[], []] := by
    decide +kernel
  have hcount : (Sample.look Sample.world.disk).count = 1 := by
    decide +kernel
  rcases he : exec Sample.stubborn.run Sample.world with ⟨e | o, w'⟩ <;> rw [he] at hk
  · cases hk
  · have hs : o.steps.map (·.applied) = [[], []] := Option.some.inj hk
    obtain ⟨-, hrun, -⟩ := Job.run_never_circles hu hr hl Sample.world
    obtain ⟨hinitial, hguard⟩ := hrun o w' he
    obtain ⟨s, t, hst⟩ : ∃ s t, o.steps = [s, t] := List.length_eq_two.1 (by
      simpa using congrArg List.length hs)
    obtain ⟨-, hidle⟩ : s.applied = [] ∧ t.applied = [] := by simpa [hst] using hs
    obtain ⟨-, hreason⟩ := hguard.stalls rfl [s] t [] hst (by simp) hidle
    exact ⟨hu, hr, hl, o, w', rfl, hs, Option.some.inj hreason, by rw [hinitial, hcount]; rfl⟩

end Codemod
