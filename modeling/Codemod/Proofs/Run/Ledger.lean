import Codemod.Proofs.Run.Round

/-! The account of a run: of the changes it has written, which were accepted and which were left without
a verdict. The ledger follows the run through every trial, and whatever ends the run, it explains the
disk: from the disk at the start through the changes that were kept, and then through those that were
left unjudged because a query failed. -/
namespace Codemod
open Act

structure Ledger where
  /-- The changes that were accepted, in order. -/
  kept : List Change
  /-- The changes that were written and never judged. -/
  unjudged : List Change

namespace Ledger

def empty : Ledger := ⟨[], []⟩

def append (l m : Ledger) : Ledger := ⟨l.kept ++ m.kept, l.unjudged ++ m.unjudged⟩

/-- The ledger of an act with more behind it, which is reached when the act succeeds. -/
def andThen (x : Act σ α) (first : Ledger) (more : α → World σ → Ledger) (w : World σ) : Ledger :=
  match exec x w with
  | (.ok a, w') => first.append (more a w')
  | (.error _, _) => first

@[simp] theorem empty_append (l : Ledger) : empty.append l = l := rfl

@[simp] theorem append_empty (l : Ledger) : l.append empty = l := by
  simp [append, empty]

theorem andThen_of_ok {x : Act σ α} {w w' : World σ} {a : α} (h : exec x w = (.ok a, w'))
    (first : Ledger) (more : α → World σ → Ledger) :
    first.andThen x more w = first.append (more a w') := by
  rw [andThen, h]

end Ledger

/-- Accepted changes are kept, and changes without a verdict are unjudged; all others are gone. -/
def Fate.ledger (changes : List Change) : Fate → Ledger
  | .kept _ => ⟨changes, []⟩
  | .unjudged _ => ⟨[], changes⟩
  | .refused _ | .undone _ => .empty

def fileLedger (query : Act σ Snapshot) (policy : Policy) (c : Change) (w : World σ) : Ledger :=
  (fileFate query policy c w).ledger [c]

def eachLedger (query : Act σ Snapshot) (policy : Policy) : List Change → World σ → Ledger
  | [], _ => .empty
  | c :: changes, w => (fileLedger query policy c w).andThen (tryChange query policy c)
      (fun r => eachLedger query r.1 changes) w

namespace Job

def stepLedger (job : Job σ) (step : Step) (before : Snapshot) (w : World σ) : Ledger :=
  if step.changes.isEmpty then .empty
  else match job.mode with
    | .simple => (batchFate job.query step before w).ledger step.changes
    | .focused => eachLedger job.query
        ⟨before, step.target, job.allowed, ⟨w.disk.cwd, some job.root⟩⟩ step.changes w

def roundLedger (job : Job σ) (p : Progress) : World σ → Ledger :=
  Ledger.empty.andThen job.query fun before =>
    if before.count = 0 then fun _ => .empty
    else Ledger.empty.andThen (job.prepare? (p.steps.length + 1) before) fun
      | none => fun _ => .empty
      | some step => job.stepLedger step before

def loopLedger (job : Job σ) : (budget : Nat) → Progress → World σ → Ledger
  | 0, _, _ => .empty
  | budget + 1, p, w => (job.roundLedger p w).andThen (job.round p) (fun
      | .inl _ => fun _ => .empty
      | .inr p => loopLedger job budget p) w

/-- The ledger of a run. -/
def ledger (job : Job σ) : World σ → Ledger := job.loopLedger job.budget .start

end Job

/-- The ledger explains how an act has come from a disk to a result and a world. -/
structure Ledger.Explains (l : Ledger) (query : Act σ Snapshot) (A : Disk → Disk → Prop) (d : Disk)
    (r : Except Failure α) (w' : World σ) : Prop where
  history : ∃ settled, Disk.History A l.kept d settled ∧ Disk.History Eq l.unjudged settled w'.disk
  tidy : Change.Tidy l.unjudged
  /-- Changes are left unjudged only by a query whose failure has ended the act. -/
  blame : l.unjudged ≠ [] → ∃ e v, exec query v = (.error e, w') ∧ r = .error e

namespace Ledger.Explains
variable {l : Ledger} {query : Act σ Snapshot} {A : Disk → Disk → Prop} {w w' : World σ}

theorem unjudged_eq_nil {d : Disk} {a : α} (h : l.Explains query A d (.ok a) w') :
    l.unjudged = [] := by
  by_contra hne
  obtain ⟨e, v, -, hr⟩ := h.blame hne
  cases hr

theorem history_of_ok {d : Disk} {a : α} (h : l.Explains query A d (.ok a) w') :
    Disk.History A l.kept d w'.disk := by
  obtain ⟨settled, hk, hu⟩ := h.history
  rw [h.unjudged_eq_nil] at hu
  rwa [← hu.eq_of_nil]

theorem of_moves {x : Act σ α} (h : Moves A x) (w : World σ) :
    empty.Explains query A w.disk (exec x w).1 (exec x w).2 :=
  ⟨⟨_, .still (h w), .still rfl⟩, ⟨by simp [empty], by simp [empty], by simp [empty]⟩,
    fun hne => absurd rfl hne⟩

theorem of_eq [IsPreorder Disk A] {d : Disk} {r : Except Failure α}
    (h : l.Explains query Eq d r w') : l.Explains query A d r w' := by
  obtain ⟨⟨settled, hk, hu⟩, ht, hb⟩ := h
  refine ⟨⟨settled, hk.mono ?_, hu⟩, ht, hb⟩
  rintro d _ rfl
  exact refl_of A d

theorem andThen {x : Act σ α} {f : α → Act σ β} {more : α → World σ → Ledger}
    (hx : l.Explains query A w.disk (exec x w).1 (exec x w).2)
    (hf : ∀ a w', exec x w = (.ok a, w') →
      (more a w').Explains query A w'.disk (exec (f a) w').1 (exec (f a) w').2) :
    (l.andThen x more w).Explains query A w.disk (exec (x >>= f) w).1 (exec (x >>= f) w).2 := by
  unfold Ledger.andThen
  rcases hr : exec x w with ⟨e | a, v⟩ <;> rw [hr] at hx
  · rw [exec_bind_error hr]
    refine ⟨hx.history, hx.tidy, fun hne => ?_⟩
    obtain ⟨e', v', hq, he⟩ := hx.blame hne
    cases he
    exact ⟨e, v', hq, rfl⟩
  · rw [exec_bind_ok hr]
    have hm := hf a v hr
    have hu := hx.unjudged_eq_nil
    obtain ⟨settled, hk', hu'⟩ := hm.history
    constructor
    · refine ⟨settled, hx.history_of_ok.append hk', ?_⟩
      simpa [append, hu] using hu'
    · simpa [append, hu] using hm.tidy
    · simpa [append, hu] using hm.blame

theorem bind_moves {x : Act σ α} {f : α → Act σ β}
    (hx : l.Explains query A w.disk (exec x w).1 (exec x w).2) (hf : ∀ a, Moves A (f a)) :
    l.Explains query A w.disk (exec (x >>= f) w).1 (exec (x >>= f) w).2 := by
  have h : (l.andThen x (fun _ _ => empty) w).Explains query A w.disk _ _ :=
    hx.andThen fun a w' _ => of_moves (hf a) w'
  have he : l.andThen x (fun _ _ => empty) w = l := by
    unfold Ledger.andThen
    split <;> simp
  rwa [he] at h

end Ledger.Explains

/-! The ledger explains every part of a run, and the whole. -/

theorem Trial.explains {query : Act σ Snapshot} (hq : Quiet query) {accepts : Snapshot → Bool}
    {changes : List Change} (ht : Change.Tidy changes) {w w' : World σ} {f : Fate}
    (h : Trial query accepts changes w f w') (refused : Failure → Except Failure α)
    (kept undone : Snapshot → α) :
    (f.ledger changes).Explains query Eq w.disk (f.result refused kept undone) w' := by
  have none' : Change.Tidy [] := ht.sublist (List.nil_sublist _)
  have wrote (hf : ∀ c ∈ changes, c.Fits w.disk) {v : World σ}
      (hd : v.disk = w.disk.overwrite (Change.writes w.disk (·.after) changes))
      {r : Except Failure Snapshot} (hr : exec query v = (r, w')) :
      Disk.History Eq changes w.disk w'.disk := by
    rw [← hq.of_exec hr, hd]
    exact .of_fits ht hf
  cases h with
  | refused e => exact ⟨⟨_, .still rfl, .still rfl⟩, none', fun hne => absurd rfl hne⟩
  | unjudged hf hd hr =>
    exact ⟨⟨_, .still rfl, wrote hf hd hr⟩, ht, fun _ => ⟨_, _, hr, rfl⟩⟩
  | kept hf hd hr _ =>
    exact ⟨⟨_, wrote hf hd hr, .still rfl⟩, none', fun hne => absurd rfl hne⟩
  | undone hd _ => exact ⟨⟨_, .still hd.symm, .still rfl⟩, none', fun hne => absurd rfl hne⟩

theorem explains_tryChange {query : Act σ Snapshot} (hq : Quiet query) (policy : Policy)
    {c : Change} (hc : Change.Tidy [c]) (w : World σ) :
    (fileLedger query policy c w).Explains query Eq w.disk (exec (tryChange query policy c) w).1
      (exec (tryChange query policy c) w).2 := by
  obtain ⟨w', ht, he⟩ := exec_tryChange hq policy c w
  rw [he]
  exact ht.explains hq hc _ _ _

theorem explains_applyEach {query : Act σ Snapshot} (hq : Quiet query) {changes : List Change}
    (ht : Change.Tidy changes) (policy : Policy) (w : World σ) :
    (eachLedger query policy changes w).Explains query Eq w.disk
      (exec (applyEach query policy changes) w).1 (exec (applyEach query policy changes) w).2 := by
  induction changes generalizing policy w with
  | nil => exact .of_moves (.pure _) w
  | cons c changes ih =>
    have hc : Change.Tidy [c] := ht.sublist (by simp)
    refine (explains_tryChange hq policy hc w).andThen fun r v _ => ?_
    exact (ih ht.tail r.1 v).bind_moves fun _ => .pure _

namespace Job
variable {job : Job σ}

theorem explains_applyChanges (h : job.Undisturbed) {step : Step}
    (ht : Change.Tidy step.changes) (before : Snapshot) (w : World σ) :
    (job.stepLedger step before w).Explains job.query Eq w.disk
      (exec (job.applyChanges step before) w).1 (exec (job.applyChanges step before) w).2 := by
  unfold stepLedger applyChanges
  split
  · exact .of_moves (.pure _) w
  · cases job.mode with
    | simple =>
      obtain ⟨w', hw, he⟩ := exec_applyBatch h.source step before w
      dsimp only
      rw [he]
      exact hw.explains h.source ht _ _ _
    | focused => exact (explains_applyEach h.source ht _ w).bind_moves fun _ => .pure _

theorem explains_round (h : job.Undisturbed) (p : Progress) (w : World σ) :
    (job.roundLedger p w).Explains job.query job.additions w.disk
      (exec (job.round p) w).1 (exec (job.round p) w).2 := by
  refine Ledger.Explains.andThen (.of_moves (.of_quiet h.source) w) fun before v _ => ?_
  dsimp only
  split
  · exact .of_moves ((moves_finish _ _).bind fun _ => .pure _) v
  · refine Ledger.Explains.andThen (.of_moves (moves_prepare? h _ _) v) fun step? u hu => ?_
    cases step? with
    | none => exact .of_moves ((moves_finish _ _).bind fun _ => .pure _) u
    | some step =>
      have ht := (of_prepare? h hu).2.2.2
      refine (explains_applyChanges h ht before u).of_eq.bind_moves fun step => ?_
      refine (moves_report step).bind fun _ => ?_
      split
      · exact (moves_finish _ _).bind fun _ => .pure _
      · exact .pure _

theorem explains_loop (h : job.Undisturbed) (budget : Nat) (p : Progress) (w : World σ) :
    (job.loopLedger budget p w).Explains job.query job.additions w.disk
      (exec (job.loop budget p) w).1 (exec (job.loop budget p) w).2 := by
  induction budget generalizing p w with
  | zero => exact .of_moves (moves_finish _ _) w
  | succ budget ih =>
    refine (explains_round h p w).andThen fun r v _ => ?_
    cases r with
    | inl o => exact .of_moves (.pure _) v
    | inr p => exact ih p v

end Job

/-! When a run succeeds, its steps tell what has been kept. -/

/-- What a step has kept of its changes. -/
def Step.kept (s : Step) : List Change := s.changes.filter (·.file ∈ s.applied)

theorem kept_tryChange {query : Act σ Snapshot} (hq : Quiet query) {policy policy' : Policy}
    {c : Change} {verdict : FileVerdict} {w w' : World σ}
    (he : exec (tryChange query policy c) w = (.ok (policy', verdict), w')) :
    verdict.file = c.file ∧
      (fileLedger query policy c w).kept = if verdict.accepted then [c] else [] := by
  obtain ⟨v, ht, hr⟩ := exec_tryChange hq policy c w
  rw [hr] at he
  unfold fileLedger
  generalize fileFate query policy c w = f at *
  cases ht with
  | refused e => cases e <;> cases he; exact ⟨rfl, rfl⟩
  | unjudged => cases he
  | kept _ _ _ ha =>
    cases he
    exact ⟨rfl, (if_pos ha).symm⟩
  | undone _ ha =>
    cases he
    exact ⟨rfl, (if_neg ha).symm⟩

theorem kept_applyEach {query : Act σ Snapshot} (hq : Quiet query) {policy policy' : Policy}
    {changes : List Change} {verdicts : List FileVerdict} {w w' : World σ}
    (he : exec (applyEach query policy changes) w = (.ok (policy', verdicts), w')) :
    (eachLedger query policy changes w).kept.Sublist changes ∧
      (eachLedger query policy changes w).kept.map (·.file) =
        (verdicts.filter (·.accepted)).map (·.file) := by
  induction changes generalizing policy verdicts w with
  | nil =>
    cases he
    exact ⟨.slnil, rfl⟩
  | cons c changes ih =>
    obtain ⟨middle, verdict, rest, v, hv, hrest, rfl⟩ := exec_applyEach_cons.1 he
    obtain ⟨hf, hk⟩ := kept_tryChange hq hv
    obtain ⟨hs, hm⟩ := ih hrest
    rw [eachLedger, Ledger.andThen_of_ok hv, Ledger.append, hk]
    split
    · next ha =>
      refine ⟨hs.cons_cons c, ?_⟩
      rw [List.filter_cons, if_pos ha, List.map_cons, ← hm, hf]
      rfl
    · next ha =>
      refine ⟨hs.cons c, ?_⟩
      rw [List.filter_cons, if_neg ha, ← hm]
      rfl

namespace Job
variable {job : Job σ}

theorem kept_applyChanges (h : job.Undisturbed) {step step' : Step}
    (ht : Change.Tidy step.changes) (ha : step.applied = []) {before : Snapshot} {w w' : World σ}
    (he : exec (job.applyChanges step before) w = (.ok step', w')) :
    step'.before = step.before ∧ (job.stepLedger step before w).kept = step'.kept := by
  unfold stepLedger
  cases applied_of_applyChanges he with
  | none hc =>
    rw [if_pos hc]
    exact ⟨rfl, by simp [Step.kept, ha, Ledger.empty]⟩
  | batch hc hm he =>
    obtain ⟨v, hf, hr⟩ := exec_applyBatch h.source step before w
    rw [if_neg hc, hm]
    rw [hr] at he
    dsimp only
    generalize batchFate job.query step before w = f at *
    cases hf with
    | refused e =>
      cases e <;> cases he
      exact ⟨rfl, by simp [Fate.ledger, Ledger.empty, Step.kept, ha]⟩
    | unjudged => cases he
    | kept =>
      cases he
      exact ⟨rfl, (ht.filter_mem (List.Sublist.refl _)).symm⟩
    | undone =>
      cases he
      exact ⟨rfl, by simp [Fate.ledger, Ledger.empty, Step.kept, ha]⟩
  | @each policy _ verdicts _ hc hm hp hv =>
    subst hp
    obtain ⟨hs, hk⟩ := kept_applyEach h.source hv
    rw [if_neg hc, hm]
    refine ⟨rfl, ?_⟩
    change _ = step.changes.filter (·.file ∈ (verdicts.filter (·.accepted)).map (·.file))
    rw [← hk]
    exact (ht.filter_mem hs).symm

theorem kept_round (h : job.Undisturbed) {p : Progress} {w w' : World σ}
    {r : Outcome ⊕ Progress} (he : exec (job.round p) w = (.ok r, w')) :
    ∃ new, (job.roundLedger p w).kept = new.flatMap Step.kept ∧
      r.elim (·.steps) (·.steps) = p.steps ++ new := by
  obtain ⟨before, v, hv, ⟨o, rfl, hs, -, -, hb⟩ | ⟨step, step', u, u', hb, hu, hu', -, hr⟩⟩ :=
    of_round h he
  · refine ⟨[], ?_, by simpa using hs⟩
    rw [roundLedger, Ledger.andThen_of_ok hv]
    obtain hb | ⟨u, hu⟩ := hb
    · rw [if_pos hb]
      rfl
    · split
      · rfl
      · rw [Ledger.andThen_of_ok hu]
        rfl
  · obtain ⟨-, -, ha, ht⟩ := of_prepare? h hu
    refine ⟨[step'], ?_, ?_⟩
    · rw [roundLedger, Ledger.andThen_of_ok hv, if_neg hb, Ledger.andThen_of_ok hu]
      simpa using (kept_applyChanges h ht ha hu').2
    · obtain rfl | ⟨o, rfl, hs, -⟩ := hr
      · rfl
      · exact hs

theorem kept_loop (h : job.Undisturbed) {budget : Nat} {p : Progress} {w w' : World σ}
    {o : Outcome} (he : exec (job.loop budget p) w = (.ok o, w')) :
    ∃ new, (job.loopLedger budget p w).kept = new.flatMap Step.kept ∧
      o.steps = p.steps ++ new := by
  induction budget generalizing p w with
  | zero => exact ⟨[], rfl, by simpa using (of_finish he).1⟩
  | succ budget ih =>
    obtain ⟨r, v, hv, he⟩ := exec_bind_eq_ok_iff.1 he
    obtain ⟨new, hk, hs⟩ := kept_round h hv
    rw [loopLedger, Ledger.andThen_of_ok hv]
    cases r with
    | inl o' =>
      cases he
      exact ⟨new, by simpa using hk, hs⟩
    | inr p' =>
      obtain ⟨new', hk', hs'⟩ := ih he
      refine ⟨new ++ new', ?_, ?_⟩
      · rw [List.flatMap_append, ← hk, ← hk']
        rfl
      · rw [hs', ← List.append_assoc, ← hs]
        rfl

end Job
end Codemod
