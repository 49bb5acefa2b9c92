import Codemod.Proofs.Run.Consistency

/-! What survives a run, however it ends. The files of the project have gone through the accepted
changes and no others, except when a query fails right after changes have been written: those are
neither judged nor undone. -/
namespace Codemod
open Act

namespace Job
variable {job : Job σ}

/-- Every run, whether it succeeds or fails, takes the files that were there at its start through the
changes that were accepted, to what would be settled. The disk it leaves is the settled one exactly
when no changes were left unjudged. If there are such changes, they have been written as well, and the
run has ended with the failure of the query that should have judged them. If the run succeeds there are
none, and its steps tell which changes were accepted. -/
theorem run_keeps_accepted (h : job.Undisturbed) (w : World σ) :
    ∃ settled : Disk,
      (∀ place n, w.disk.node? place = some n →
        Change.Replay place (job.ledger w).kept (some n) (settled.node? place)) ∧
      (∀ place, Change.Replay place (job.ledger w).unjudged
        (settled.node? place) ((exec job.run w).2.disk.node? place)) ∧
      ((∀ place, (exec job.run w).2.disk.node? place = settled.node? place) ↔
        (job.ledger w).unjudged = []) ∧
      ((job.ledger w).unjudged ≠ [] → ∃ e v, exec job.query v = (.error e, (exec job.run w).2) ∧
        (exec job.run w).1 = .error e) ∧
      ∀ o, (exec job.run w).1 = .ok o → (job.ledger w).unjudged = [] ∧
        (job.ledger w).kept = o.steps.flatMap Step.kept := by
  have hx : (job.ledger w).Explains job.query job.additions w.disk
      (exec job.run w).1 (exec job.run w).2 := explains_loop h job.budget .start w
  obtain ⟨settled, hk, hu⟩ := hx.history
  refine ⟨settled, ?_, ?_, ?_, hx.blame, ?_⟩
  · intro place n hn
    have hr := hk.replay (P := fun n => n.isSome) place ?_ (fun _ => rfl) (by simp [hn])
    · rwa [hn] at hr
    · intro d d' hd hp
      obtain ⟨m, hm⟩ := Option.isSome_iff_exists.1 hp
      rw [hm, grows_of_additions hd place m hm]
  · intro place
    exact hu.replay (P := fun _ => True) place (fun _ _ hd _ => by rw [hd]) (fun _ => trivial) trivial
  · constructor
    · exact hu.eq_nil_of_same hx.tidy
    · intro he place
      rw [he] at hu
      rw [hu.eq_of_nil]
  · intro o ho
    rw [ho] at hx
    obtain ⟨new, hn, hs⟩ := kept_loop h
      (show exec (job.loop job.budget .start) w = (.ok o, (exec job.run w).2) from
        Prod.ext ho rfl)
    exact ⟨hx.unjudged_eq_nil, hn.trans (by rw [hs]; rfl)⟩

end Job

namespace Sample

/-- The project, with a source that fails when it finds the first file edited. -/
def failing : Job Unit :=
  { job with source := fun _ => do
      let d ← getDisk
      if d.readText (file "a") = .ok "x" then return look d
      else throw (.diagnostics (.reported "no compiler")) }

end Sample

/-- Nothing has been accepted when the run fails, and yet a file is not what it was. -/
theorem run_keeps_accepted_sample :
    Sample.failing.Undisturbed ∧
    (Sample.failing.ledger Sample.world).kept = [] ∧
    (Sample.failing.ledger Sample.world).unjudged = [⟨Sample.file "a", "x", "y"⟩] ∧
    (∃ e, (exec Sample.failing.run Sample.world).1 = .error e) ∧
    Sample.world.disk.node? ["p", "a"] = some (.file "x".toUTF8) ∧
    (exec Sample.failing.run Sample.world).2.disk.node? ["p", "a"] = some (.file "y".toUTF8) := by
  have hj : Sample.failing.Undisturbed := by
    refine ⟨?_, fun _ => .pure _, rfl⟩
    refine quiet_getDisk.bind fun d => ?_
    split
    · exact .pure _
    · exact quiet_throw _
  have hk : (Sample.failing.ledger Sample.world).kept = [] := by decide +kernel
  have hu : (Sample.failing.ledger Sample.world).unjudged = [⟨Sample.file "a", "x", "y"⟩] := by
    decide +kernel
  obtain ⟨settled, -, hwritten, -, hblame, -⟩ := Job.run_keeps_accepted hj Sample.world
  obtain ⟨e, _, -, he⟩ := hblame (by rw [hu]; simp)
  have ha := hwritten ["p", "a"]
  rw [hu, Change.Replay, if_pos (by rfl)] at ha
  exact ⟨hj, hk, hu, ⟨e, he⟩, rfl, ha.2⟩

end Codemod
