import Codemod.Proofs.Run.Ledger
import Codemod.Proofs.Run.Reach
import Mathlib.Data.List.Chain

/-! Counts that a run reports belong to the disk it works on. When the diagnostics depend on the disk
alone, the snapshot a change is judged against is always that of the disk, since what is not kept is
undone exactly; so the counts of successive steps meet, and the last one is that of the disk at the
end. -/
namespace Codemod
open Act

/-- The diagnostics are those of the disk. -/
def Reads (query : Act σ Snapshot) (look : Disk → Snapshot) : Prop :=
  ∀ w s w', exec query w = (.ok s, w') → s = look w.disk

theorem baseline_tryChange {query : Act σ Snapshot} {look : Disk → Snapshot} (hq : Quiet query)
    (hl : Reads query look) {policy policy' : Policy} {c : Change} {verdict : FileVerdict}
    {w w' : World σ} (hb : policy.baseline = look w.disk)
    (he : exec (tryChange query policy c) w = (.ok (policy', verdict), w')) :
    policy'.baseline = look w'.disk := by
  cases tried_of_tryChange hq he with
  | drifted => exact hb
  | kept _ _ hv _ =>
    rw [← hq.of_exec hv]
    exact hl _ _ _ hv
  | undone hd _ =>
    rw [hd]
    exact hb

theorem baseline_applyEach {query : Act σ Snapshot} {look : Disk → Snapshot} (hq : Quiet query)
    (hl : Reads query look) {policy policy' : Policy} {changes : List Change}
    {verdicts : List FileVerdict} {w w' : World σ} (hb : policy.baseline = look w.disk)
    (he : exec (applyEach query policy changes) w = (.ok (policy', verdicts), w')) :
    policy'.baseline = look w'.disk := by
  induction changes generalizing policy verdicts w with
  | nil =>
    cases he
    exact hb
  | cons c changes ih =>
    obtain ⟨middle, verdict, rest, v, hv, hrest, rfl⟩ := exec_applyEach_cons.1 he
    exact ih (baseline_tryChange hq hl hb hv) hrest

/-- Both disks show the same diagnostics. -/
def SameLook (look : Disk → Snapshot) (d d' : Disk) : Prop := look d' = look d

instance (look : Disk → Snapshot) : IsPreorder Disk (SameLook look) where
  refl := fun _ => rfl
  trans := fun _ _ _ h h' => Eq.trans h' h

namespace Job
variable {job : Job σ} {look : Disk → Snapshot}

theorem after_applyChanges (h : job.Undisturbed) (hl : Reads job.query look) {step step' : Step}
    {before : Snapshot} {w w' : World σ} (hb : before = look w.disk)
    (ha : step.after = before.count)
    (he : exec (job.applyChanges step before) w = (.ok step', w')) :
    step'.after = (look w'.disk).count := by
  cases applied_of_applyChanges he with
  | none => rw [ha, hb]
  | batch _ _ he =>
    obtain ⟨v, hf, hr⟩ := exec_applyBatch h.source step before w
    rw [hr] at he
    generalize batchFate job.query step before w = f at *
    cases hf with
    | refused e =>
      cases e <;> cases he
      exact ha.trans (by rw [hb])
    | unjudged => cases he
    | kept _ _ hv _ =>
      cases he
      rw [← h.source.of_exec hv, ← hl _ _ _ hv]
    | undone hd _ =>
      cases he
      exact ha.trans (by rw [hb, hd])
  | each _ _ hp hv =>
    subst hp
    rw [Step.judged_after, baseline_applyEach h.source hl hb hv]

/-- Each step begins with the count on which the one before it ended, and the last one ended on the
count of the disk. -/
structure Linked (look : Disk → Snapshot) (steps : List Step) (d : Disk) : Prop where
  chain : steps.IsChain fun s t => t.before = s.after
  last : ∀ s ∈ steps.getLast?, s.after = (look d).count

theorem Linked.append {steps : List Step} {d d' : Disk} {step : Step} (h : Linked look steps d)
    (hb : step.before = (look d).count) (ha : step.after = (look d').count) :
    Linked look (steps ++ [step]) d' := by
  constructor
  · refine h.chain.append (List.isChain_singleton step) ?_
    intro s hs t ht
    cases ht
    rw [hb, h.last s hs]
  · intro s hs
    rw [List.getLast?_concat] at hs
    cases hs
    exact ha

theorem Linked.of_sameLook {steps : List Step} {d d' : Disk} (h : Linked look steps d)
    (hd : SameLook look d d') : Linked look steps d' :=
  ⟨h.chain, fun s hs => by rw [h.last s hs, show look d' = look d from hd]⟩

/-- A step goes from the count of the disk it begins on to the count of the disk it leaves. -/
theorem Work.counts (h : job.Undisturbed) (hr : job.Records (SameLook look))
    (hl : Reads job.query look) {p : Progress} {w y : World σ} {before : Snapshot} {step : Step}
    (hw : Work job p w before step y) :
    before = look w.disk ∧ step.before = (look w.disk).count ∧
      step.after = (look y.disk).count := by
  have hb : before = look w.disk := by
    obtain ⟨hv, -, -, -, -⟩ := hw
    exact hl _ _ _ hv
  obtain ⟨s, u, x, hd, hb', ha', hk, ht, hx, hd'⟩ := hw.applied h hr
  refine ⟨hb, ?_, ?_⟩
  · rw [(kept_applyChanges h ht hk hx).1, hb', hb]
  · rw [after_applyChanges h hl (hb.trans (Eq.symm hd)) ha' hx]
    rw [show look y.disk = look x.disk from hd']

theorem Linked.turn (h : job.Undisturbed) (hr : job.Records (SameLook look))
    (hl : Reads job.query look) {p : Progress} {w w' : World σ} {r : Outcome ⊕ Progress}
    (hp : Linked look p.steps w.disk) (ht : Turn job p w r w') :
    Linked look (stepsAt r) w'.disk ∧ r.elim (·.final) (·.final) = ((look w'.disk).count : Int) := by
  rcases ht.seen h hr with ⟨before, v, hv, hs, hf, hd⟩ | ⟨before, s, y, hwork, hs, hf, hd⟩
  · have hb : before = look w'.disk := (hl _ _ _ hv).trans (Eq.symm hd)
    rw [hs, hf, hb]
    exact ⟨hp.of_sameLook hd, rfl⟩
  · obtain ⟨-, hb, ha⟩ := hwork.counts h hr hl
    rw [hs, hf, show look w'.disk = look y.disk from hd]
    exact ⟨(hp.append hb ha).of_sameLook hd, ha⟩

theorem linked_of_reaches (h : job.Undisturbed) (hr : job.Records (SameLook look))
    (hl : Reads job.query look) {w v : World σ} {r : Outcome ⊕ Progress}
    (hp : job.Reaches w r v) : Linked look (stepsAt r) v.disk := by
  refine hp.carried h hr ⟨.nil, by simp⟩ (fun _ _ _ hd hs => hs.of_sameLook hd) ?_
  intro p u before s y hwork hs
  obtain ⟨-, hb, ha⟩ := hwork.counts h hr hl
  exact hs.append hb ha

theorem linked_round (h : job.Undisturbed) (hn : job.recorder = none) (hl : Reads job.query look)
    {p : Progress} {w w' : World σ} {r : Outcome ⊕ Progress} (hp : Linked look p.steps w.disk)
    (he : exec (job.round p) w = (.ok r, w')) :
    Linked look (r.elim (·.steps) (·.steps)) w'.disk ∧
      r.elim (·.final) (·.final) = ((look w'.disk).count : Int) :=
  hp.turn h (.of_none hn) hl (turn_of_round he)

theorem linked_loop (h : job.Undisturbed) (hn : job.recorder = none) (hl : Reads job.query look)
    {budget : Nat} {p : Progress} {w w' : World σ} {o : Outcome}
    (hp : Linked look p.steps w.disk) (hf : budget = 0 → p.final = (look w.disk).count)
    (he : exec (job.loop budget p) w = (.ok o, w')) :
    Linked look o.steps w'.disk ∧ o.final = (look w'.disk).count := by
  induction budget generalizing p w with
  | zero =>
    obtain ⟨hs, hf', ha⟩ := of_finish he
    rw [additions_eq hn] at ha
    rw [← ha, hs, hf']
    exact ⟨hp, hf rfl⟩
  | succ budget ih =>
    obtain ⟨r, v, hv, he⟩ := exec_bind_eq_ok_iff.1 he
    obtain ⟨hp', hf'⟩ := linked_round h hn hl hp hv
    cases r with
    | inl o' =>
      cases he
      exact ⟨hp', hf'⟩
    | inr p' => exact ih hp' (fun _ => hf') he

/-- A run that is left alone reports what is on the disk. Each step begins with the count on which the
step before it ended, the final count is that of the disk, and each place holds what it held at the
start, carried through the changes that the steps have kept; where they have kept none, nothing has
happened. -/
theorem run_consistent (h : job.Undisturbed) (hn : job.recorder = none) (hl : Reads job.query look)
    {w w' : World σ} {o : Outcome} (he : exec job.run w = (.ok o, w')) :
    o.steps.IsChain (fun s t => t.before = s.after) ∧
    o.final = (look w'.disk).count ∧
    (∀ place, Change.Replay place (o.steps.flatMap Step.kept)
      (w.disk.node? place) (w'.disk.node? place)) ∧
    ∀ place, (∀ c ∈ o.steps.flatMap Step.kept, c.file.parts ≠ place) →
      w'.disk.node? place = w.disk.node? place := by
  -- The count at the start means nothing; the first round replaces it, and there is one.
  have hbudget : job.budget ≠ 0 := by
    unfold budget
    omega
  obtain ⟨hlink, hfinal⟩ := linked_loop h hn hl (p := .start)
    ⟨.nil, by simp [Progress.start]⟩ (fun hz => absurd hz hbudget) he
  obtain ⟨new, hk, hs⟩ := kept_loop h he
  have hx := explains_loop h job.budget .start w
  rw [show exec (job.loop job.budget .start) w = _ from he, additions_eq hn] at hx
  have hh := hx.history_of_ok
  rw [hk, show new = o.steps from hs.symm] at hh
  have replay place := hh.replay (P := fun _ => True) place
    (fun _ _ hd _ => by rw [hd]) (fun _ => trivial) trivial
  exact ⟨hlink.chain, hfinal, replay, fun place => (replay place).of_unnamed⟩

end Job

/-! A project with two files. Its planner edits both of them, the first for the better. -/
namespace Sample

def file (name : String) : Path := .absolute ["p", name]

def world : World Unit where
  disk := ⟨["p"], [(["p"], .directory), (["p", "a"], .file "x".toUTF8),
    (["p", "b"], .file "u".toUTF8)]⟩
  events := []
  listening := false
  outside := ()

def diagnostic (code : Int) (name : String) : Diagnostic := ⟨code, "", name, .zero, none⟩

def look (d : Disk) : Snapshot :=
  ⟨(if d.readText (file "a") = .ok "x" then [diagnostic 1 "a"] else []) ++
    (if d.readText (file "b") = .ok "v" then [diagnostic 2 "b"] else [])⟩

def planner : Planner Unit := fun _ =>
  pure ⟨[1], [.editText "a" none "x" "y" 1000, .editText "b" none "u" "v" 1000], [], 0.5⟩

def job : Job Unit where
  root := .absolute ["p"]
  source := fun _ => do return look (← getDisk)
  planner := planner
  mode := .focused
  maxSteps := 2
  scope := { projectRoot := .absolute ["p"] }

end Sample

/-- The edit of one file is kept, that of the other one is undone. -/
theorem run_consistent_sample :
    Sample.job.Undisturbed ∧ Sample.job.recorder = none ∧ Reads Sample.job.query Sample.look ∧
    ∃ o w', exec Sample.job.run Sample.world = (.ok o, w') ∧
      o.steps.flatMap Step.kept = [⟨Sample.file "a", "x", "y"⟩] ∧ o.final = 0 ∧
      o.final = (Sample.look w'.disk).count ∧
      w'.disk.node? ["p", "b"] = Sample.world.disk.node? ["p", "b"] := by
  have hu : Sample.job.Undisturbed :=
    ⟨fun _ => rfl, fun _ => .pure _, rfl⟩
  have hl : Reads Sample.job.query Sample.look := by
    intro w s w' he
    cases he
    rfl
  have hk : (exec Sample.job.run Sample.world).1.toOption.map
      (fun o => (o.steps.flatMap Step.kept, o.final)) =
        some ([⟨Sample.file "a", "x", "y"⟩], 0) := by
    decide +kernel
  rcases he : exec Sample.job.run Sample.world with ⟨e | o, w'⟩ <;> rw [he] at hk
  · cases hk
  · obtain ⟨hs, hf⟩ := Prod.mk.inj (Option.some.inj hk)
    obtain ⟨-, hd, -, hsame⟩ := Job.run_consistent hu rfl hl he
    refine ⟨hu, rfl, hl, o, w', rfl, hs, hf, hd, hsame _ ?_⟩
    rw [hs]
    decide

end Codemod
