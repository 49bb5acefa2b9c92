import Codemod.Proofs.Run.Consistency
import Codemod.Proofs.Verdict

/-! What a run can bring into a project. A step of a simple run neither raises the count nor shows a new
code, and a step of a focused run shows no new codes but the ones allowed. Each verdict compares with the
baseline, which is always the look of the disk, so what holds of the steps adds up over the run. -/
namespace Codemod
open Act

section
variable {query : Act σ Snapshot} {look : Disk → Snapshot}

theorem adds_tryChange (hq : Quiet query) (hl : Reads query look) {policy policy' : Policy}
    {c : Change} {verdict : FileVerdict} {w w' : World σ} (hb : policy.baseline = look w.disk)
    (he : exec (tryChange query policy c) w = (.ok (policy', verdict), w')) :
    policy'.allowed = policy.allowed ∧ Adds policy.allowed (look w.disk) (look w'.disk) := by
  cases tried_of_tryChange hq he with
  | drifted => exact ⟨rfl, refl_of (Adds policy.allowed) _⟩
  | kept _ _ hv ha =>
    have hs := hl _ _ _ hv
    rw [hq.of_exec hv] at hs
    rw [← hb, ← hs]
    exact ⟨rfl, policy.adds_of_judge ha⟩
  | undone hd _ =>
    rw [hd]
    exact ⟨rfl, refl_of (Adds policy.allowed) _⟩

theorem adds_applyEach (hq : Quiet query) (hl : Reads query look) {policy policy' : Policy}
    {changes : List Change} {verdicts : List FileVerdict} {w w' : World σ}
    (hb : policy.baseline = look w.disk)
    (he : exec (applyEach query policy changes) w = (.ok (policy', verdicts), w')) :
    Adds policy.allowed (look w.disk) (look w'.disk) := by
  induction changes generalizing policy verdicts w with
  | nil =>
    cases he
    exact refl_of (Adds _) _
  | cons c changes ih =>
    obtain ⟨middle, verdict, rest, v, hv, hrest, rfl⟩ := exec_applyEach_cons.1 he
    obtain ⟨hallowed, hadds⟩ := adds_tryChange hq hl hb hv
    have hlater := ih (baseline_tryChange hq hl hb hv) hrest
    rw [hallowed] at hlater
    exact trans_of (Adds policy.allowed) hadds hlater

end

namespace Job
variable {job : Job σ} {look : Disk → Snapshot}

/-- The codes that a step may bring in. -/
def tolerated (job : Job σ) : List Int :=
  match job.mode with
  | .simple => []
  | .focused => job.allowed

/-- What a step may make of the diagnostics. -/
structure Tolerates (job : Job σ) (s t : Snapshot) : Prop where
  adds : Adds job.tolerated s t
  count : job.mode = .simple → t.count ≤ s.count

instance (job : Job σ) : IsPreorder Snapshot job.Tolerates where
  refl := fun s => ⟨refl_of (Adds job.tolerated) s, fun _ => Nat.le_refl _⟩
  trans := fun _ _ _ h h' =>
    ⟨trans_of (Adds job.tolerated) h.adds h'.adds, fun hm => (h'.count hm).trans (h.count hm)⟩

theorem tolerates_applyChanges (h : job.Undisturbed) (hl : Reads job.query look)
    {step step' : Step} {before : Snapshot} {w w' : World σ} (hb : before = look w.disk)
    (he : exec (job.applyChanges step before) w = (.ok step', w')) :
    job.Tolerates (look w.disk) (look w'.disk) := by
  cases applied_of_applyChanges he with
  | none => exact refl_of job.Tolerates _
  | batch _ hm he =>
    obtain ⟨v, hf, hr⟩ := exec_applyBatch h.source step before w
    rw [hr] at he
    generalize batchFate job.query step before w = f at *
    cases hf with
    | refused e => cases e <;> cases he; exact refl_of job.Tolerates _
    | unjudged => cases he
    | kept _ _ hv ha =>
      cases he
      have hs := hl _ _ _ hv
      rw [h.source.of_exec hv] at hs
      obtain ⟨hcount, hadds⟩ := judgeBatch_accepted_iff.1 ha
      rw [← hb, ← hs]
      exact ⟨by rwa [tolerated, hm], fun _ => hcount⟩
    | undone hd _ =>
      cases he
      rw [hd]
      exact refl_of job.Tolerates _
  | each _ hm hp hv =>
    subst hp
    refine ⟨?_, fun hs => absurd (hm.symm.trans hs) (by simp)⟩
    rw [tolerated, hm]
    exact adds_applyEach h.source hl hb hv

theorem Work.tolerates (h : job.Undisturbed) (hr : job.Records (SameLook look))
    (hl : Reads job.query look) {p : Progress} {w y : World σ} {before : Snapshot} {step : Step}
    (hw : Work job p w before step y) : job.Tolerates (look w.disk) (look y.disk) := by
  obtain ⟨hb, -, -⟩ := hw.counts h hr hl
  obtain ⟨s, u, x, hd, -, -, -, -, hx, hd'⟩ := hw.applied h hr
  have ht := tolerates_applyChanges h hl (hb.trans (Eq.symm hd)) hx
  rw [show look u.disk = look w.disk from hd] at ht
  rwa [show look y.disk = look x.disk from hd']

/-- What a run has made of the diagnostics, with its steps. -/
structure Contained (job : Job σ) (first : Snapshot) (steps : List Step) (now : Snapshot) :
    Prop where
  codes : ∀ code ∈ now.codes, code ∈ first.codes ∨ code ∈ job.tolerated
  counts : job.mode = .simple →
    ((first.count : Int) :: steps.flatMap (fun s => [s.before, s.after]) ++
      [(now.count : Int)]).Pairwise (· ≥ ·)

theorem pairwise_ge_concat {l : List Int} {a b : Int} (h : (l ++ [a]).Pairwise (· ≥ ·))
    (hb : b ≤ a) : (l ++ [a] ++ [b]).Pairwise (· ≥ ·) := by
  refine List.pairwise_append.2 ⟨h, List.pairwise_singleton _ _, fun x hx y hy => ?_⟩
  rw [List.mem_singleton.1 hy]
  rcases List.mem_append.1 hx with hx | hx
  · have hxa := (List.pairwise_append.1 h).2.2 x hx a (List.mem_singleton_self a)
    omega
  · rwa [List.mem_singleton.1 hx]

theorem contained_of_reaches (h : job.Undisturbed) (hr : job.Records (SameLook look))
    (hl : Reads job.query look) {w v : World σ} {r : Outcome ⊕ Progress}
    (hp : job.Reaches w r v) : job.Contained (look w.disk) (stepsAt r) (look v.disk) := by
  refine hp.carried h hr (P := fun steps d => job.Contained (look w.disk) steps (look d)) ?_ ?_ ?_
  · exact ⟨fun code hc => .inl hc, fun _ => by simp⟩
  · intro steps d d' hd hs
    rwa [show look d' = look d from hd]
  · intro p u before s y hwork hs
    obtain ⟨-, hb, ha⟩ := hwork.counts h hr hl
    have ht := hwork.tolerates h hr hl
    constructor
    · exact trans_of (Adds job.tolerated) hs.codes ht.adds
    · intro hm
      have hafter := pairwise_ge_concat (hs.counts hm) (Int.ofNat_le.2 (ht.count hm))
      have hnow := pairwise_ge_concat hafter (Int.le_refl _)
      rw [List.flatMap_append, List.flatMap_singleton, hb, ha]
      simpa using hnow

/-- A run that is left alone never shows a foreign code, and a simple one never a higher count: at every
point, the codes of the project are among those of the start and the ones that are let through, and the
counts of a simple run have not risen, from the start over both ends of each step to that point. There is
such a point after each step of a run. -/
theorem run_shows_no_foreign_codes (h : job.Undisturbed) (hr : job.Records (SameLook look))
    (hl : Reads job.query look) (w : World σ) :
    (∀ r v, job.Reaches w r v → job.Contained (look w.disk) (stepsAt r) (look v.disk)) ∧
    ∀ o w', exec job.run w = (.ok o, w') →
      job.Contained (look w.disk) o.steps (look w'.disk) ∧
      ∀ earlier later, o.steps = earlier ++ later → ∃ r v, job.Reaches w r v ∧
        stepsAt r = earlier ∧ job.Contained (look w.disk) earlier (look v.disk) := by
  have contained (r : Outcome ⊕ Progress) (v : World σ) (hp : job.Reaches w r v) :=
    contained_of_reaches h hr hl hp
  refine ⟨contained, fun o w' he => ?_⟩
  have ho := reaches_of_run he
  refine ⟨contained _ _ ho, fun earlier later hs => ?_⟩
  obtain ⟨r, v, hp, rfl⟩ := ho.of_append hs
  exact ⟨r, v, hp, rfl, contained r v hp⟩

end Job

namespace Sample

def tradeLook (d : Disk) : Snapshot :=
  ⟨if d.readText (file "a") = .ok "x" then [diagnostic 1 "a"] else [diagnostic 2 "a"]⟩

/-- Trades one code for another that is allowed. -/
def trade : Job Unit :=
  { job with
    source := fun _ => do return tradeLook (← getDisk)
    allowed := [2] }

end Sample

/-- The code of the start is gone, and the one that is there at the end was allowed. -/
theorem run_shows_no_foreign_codes_sample :
    Sample.trade.Undisturbed ∧ Sample.trade.Records (SameLook Sample.tradeLook) ∧
    Reads Sample.trade.query Sample.tradeLook ∧
    ∃ o w', exec Sample.trade.run Sample.world = (.ok o, w') ∧
      o.steps.map (·.applied) = [[Sample.file "a", Sample.file "b"], []] ∧
      (Sample.tradeLook Sample.world.disk).codes = [1] ∧ (Sample.tradeLook w'.disk).codes = [2] ∧
      Sample.trade.Contained (Sample.tradeLook Sample.world.disk) o.steps
        (Sample.tradeLook w'.disk) := by
  have hu : Sample.trade.Undisturbed := ⟨fun _ => rfl, fun _ => .pure _, rfl⟩
  have hr : Sample.trade.Records (SameLook Sample.tradeLook) := .of_none rfl
  have hl : Reads Sample.trade.query Sample.tradeLook := by
    intro w s w' he
    cases he
    rfl
  have hk : ((exec Sample.trade.run Sample.world).1.toOption.map fun o => o.steps.map (·.applied)) =
      some [[Sample.file "a", Sample.file "b"], []] := by
    decide +kernel
  have hc : (Sample.tradeLook (exec Sample.trade.run Sample.world).2.disk).codes = [2] := by
    decide +kernel
  rcases he : exec Sample.trade.run Sample.world with ⟨e | o, w'⟩ <;> rw [he] at hk hc
  · cases hk
  · have hrun := Job.run_shows_no_foreign_codes hu hr hl Sample.world
    exact ⟨hu, hr, hl, o, w', rfl, Option.some.inj hk, by decide +kernel, hc, (hrun.2 o w' he).1⟩

end Codemod
