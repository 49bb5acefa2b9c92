import Codemod.Proofs.Run.Consistency

/-! Changes that are turned down leave no trace. They leave the policy and the disk as they were, and
what a trial comes to follows from those two; so the trials of a list of changes come out the same when
the ones that are turned down are left out from the beginning. -/
namespace Codemod
open Act

/-! Trials go by the disk alone when the query does. -/

namespace Change

theorem local_currentText (file : Path) : Local (currentText file : Act σ (Option String)) := by
  refine Local.getDisk.bind fun d => ?_
  split
  · exact .pure _
  · exact .pure _
  · exact .pure _
  · exact .pure _
  · exact .throw _

theorem local_verify (c : Change) : Local (c.verify : Act σ Unit) := by
  refine (local_currentText _).bind fun text => ?_
  split
  · exact .throw _
  · exact .pure _

theorem local_apply (c : Change) : Local (c.apply : Act σ Unit) :=
  c.local_verify.bind fun _ => (Local.write _ _).bind fun _ => .announce _ _

theorem local_revertAll (changes : List Change) : Local (revertAll changes : Act σ Unit) := by
  refine (Local.forM (fun _ => .write _ _) changes).bind fun _ => ?_
  split
  · exact .announce _ _
  · exact .pure _

end Change

theorem local_tryChange {query : Act σ Snapshot} (h : Local query) (policy : Policy) (c : Change) :
    Local (tryChange query policy c) := by
  refine c.local_apply.attempt.bind fun r => ?_
  split
  · exact .pure _
  · exact .throw _
  · refine h.bind fun after => ?_
    dsimp only
    split
    · exact .pure _
    · exact (Change.local_revertAll _).bind fun _ => .pure _

/-! Lists of changes. -/

/-- The changes that their verdicts accept. -/
def acceptedOf (changes : List Change) (verdicts : List FileVerdict) : List Change :=
  ((changes.zip verdicts).filter (·.2.accepted)).map (·.1)

theorem acceptedOf_cons (c : Change) (changes : List Change) (verdict : FileVerdict)
    (verdicts : List FileVerdict) : acceptedOf (c :: changes) (verdict :: verdicts) =
      if verdict.accepted then c :: acceptedOf changes verdicts else acceptedOf changes verdicts := by
  unfold acceptedOf
  rw [List.zip_cons_cons, List.filter_cons]
  split <;> rfl

theorem exec_applyEach_append {query : Act σ Snapshot} {policy policy' : Policy}
    {earlier later : List Change} {verdicts : List FileVerdict} {w w' : World σ}
    (he : exec (applyEach query policy (earlier ++ later)) w = (.ok (policy', verdicts), w')) :
    ∃ middle before after v, exec (applyEach query policy earlier) w = (.ok (middle, before), v) ∧
      exec (applyEach query middle later) v = (.ok (policy', after), w') ∧
      verdicts = before ++ after := by
  induction earlier generalizing policy verdicts w with
  | nil => exact ⟨policy, [], verdicts, w, rfl, he, rfl⟩
  | cons c earlier ih =>
    obtain ⟨first, verdict, rest, u, hu, hrest, rfl⟩ := exec_applyEach_cons.1 he
    obtain ⟨middle, before, after, v, hv, hlater, rfl⟩ := ih hrest
    exact ⟨middle, verdict :: before, after, v,
      exec_applyEach_cons.2 ⟨first, verdict, before, u, hu, hv, rfl⟩, hlater, rfl⟩

theorem file_applyEach {query : Act σ Snapshot} {policy policy' : Policy} {changes : List Change}
    {verdicts : List FileVerdict} {w w' : World σ}
    (he : exec (applyEach query policy changes) w = (.ok (policy', verdicts), w')) :
    verdicts.map (·.file) = changes.map (·.file) := by
  induction changes generalizing policy verdicts w with
  | nil =>
    cases he
    rfl
  | cons c changes ih =>
    obtain ⟨middle, verdict, rest, v, hv, hrest, rfl⟩ := exec_applyEach_cons.1 he
    rw [List.map_cons, List.map_cons, ih hrest, (verdict_of_tryChange hv).1]

/-- From any world with the same disk, the accepted changes alone come to the same. -/
theorem applyEach_accepted {query : Act σ Snapshot} (hq : Quiet query) (hl : Local query)
    {policy policy' : Policy} {changes : List Change} {verdicts : List FileVerdict}
    {w w' u : World σ} (hd : u.disk = w.disk)
    (he : exec (applyEach query policy changes) w = (.ok (policy', verdicts), w')) :
    ∃ u', exec (applyEach query policy (acceptedOf changes verdicts)) u =
        (.ok (policy', verdicts.filter (·.accepted)), u') ∧ u'.disk = w'.disk := by
  induction changes generalizing policy verdicts w u with
  | nil =>
    cases he
    exact ⟨u, rfl, hd⟩
  | cons c changes ih =>
    obtain ⟨middle, verdict, rest, v, hv, hrest, rfl⟩ := exec_applyEach_cons.1 he
    rw [acceptedOf_cons, List.filter_cons]
    by_cases ha : verdict.accepted
    · rw [if_pos ha, if_pos ha]
      obtain ⟨v', hv', hd'⟩ := (local_tryChange hl policy c).of_exec hv hd
      obtain ⟨u', hu', hdisk⟩ := ih hd' hrest
      exact ⟨u', exec_applyEach_cons.2 ⟨middle, verdict, _, v', hv', hu', rfl⟩, hdisk⟩
    · -- The change is not in the shorter list, and nothing is left of it in the longer one.
      rw [if_neg ha, if_neg ha]
      have ha : verdict.accepted = false := by simpa using ha
      obtain rfl := (verdict_of_tryChange hv).2 ha
      exact ih (hd.trans (disk_of_tryChange hq hv ha).symm) hrest

/-- The query looks at the disk and at nothing else, and writes nothing. -/
structure Looks (query : Act σ Snapshot) (look : Disk → Except Failure Snapshot) : Prop where
  quiet : Quiet query
  result : ∀ w, (exec query w).1 = look w.disk

theorem Looks.local {query : Act σ Snapshot} {look : Disk → Except Failure Snapshot}
    (h : Looks query look) : Local query := by
  intro w u hd
  rw [h.result, h.result, hd, ← h.quiet w, ← h.quiet u]
  exact ⟨rfl, hd⟩

/-- Trying changes gives each of them a verdict, and trying only the accepted ones from the same place
gives the same verdicts on them, the same policy, and the same disk. Each verdict is the one that its
change gets when the accepted changes before it have been made, and no others. -/
theorem applyEach_ignores_rejected {query : Act σ Snapshot}
    {look : Disk → Except Failure Snapshot} (hq : Looks query look) {policy policy' : Policy}
    {changes : List Change} {verdicts : List FileVerdict} {w w' : World σ}
    (he : exec (applyEach query policy changes) w = (.ok (policy', verdicts), w')) :
    verdicts.map (·.file) = changes.map (·.file) ∧
    (∃ v, exec (applyEach query policy (acceptedOf changes verdicts)) w =
      (.ok (policy', verdicts.filter (·.accepted)), v) ∧ v.disk = w'.disk) ∧
    ∀ earlier c later, changes = earlier ++ c :: later →
      ∃ before verdict after, verdicts = before ++ verdict :: after ∧
        before.length = earlier.length ∧
        ∃ p u p' v, exec (applyEach query policy (acceptedOf earlier before)) w =
            (.ok (p, before.filter (·.accepted)), u) ∧
          exec (tryChange query p c) u = (.ok (p', verdict), v) := by
  refine ⟨file_applyEach he, applyEach_accepted hq.quiet hq.local rfl he, ?_⟩
  rintro earlier c later rfl
  obtain ⟨p, before, rest, v, hv, hrest, rfl⟩ := exec_applyEach_append he
  obtain ⟨p', verdict, after, v', hc, -, rfl⟩ := exec_applyEach_cons.1 hrest
  have hlength : before.length = earlier.length := by
    simpa using congrArg List.length (file_applyEach hv)
  obtain ⟨u, hu, hdisk⟩ := applyEach_accepted hq.quiet hq.local rfl hv
  obtain ⟨u', hu', -⟩ := (local_tryChange hq.local p c).of_exec hc hdisk
  exact ⟨before, verdict, after, rfl, hlength, p, u, p', u', hu, hu'⟩

namespace Sample

def query : Act Unit Snapshot := do return look (← getDisk)

/-- The policy at the start, when no code may come in. -/
def strict : Policy := ⟨look world.disk, none, [], ⟨["p"], some (.absolute ["p"])⟩⟩

def better : Change := ⟨file "a", "x", "y"⟩

def harmless : Change := ⟨file "b", "u", "w"⟩

/-- The second change brings in a code, and the third one finds its file drifted. -/
def changes : List Change := [better, ⟨file "b", "u", "v"⟩, ⟨file "a", "x", "z"⟩, harmless]

end Sample

/-- The first and the last one of four changes come to the same alone. -/
theorem applyEach_ignores_rejected_sample :
    Looks Sample.query (fun d => .ok (Sample.look d)) ∧
    ∃ policy verdicts w', exec (applyEach Sample.query Sample.strict Sample.changes) Sample.world =
        (.ok (policy, verdicts), w') ∧
      verdicts.map (·.accepted) = [true, false, false, true] ∧
      ∃ v, exec (applyEach Sample.query Sample.strict [Sample.better, Sample.harmless])
          Sample.world = (.ok (policy, verdicts.filter (·.accepted)), v) ∧ v.disk = w'.disk := by
  have hq : Looks Sample.query (fun d => .ok (Sample.look d)) := ⟨fun _ => rfl, fun _ => rfl⟩
  have hk : ((exec (applyEach Sample.query Sample.strict Sample.changes) Sample.world).1.toOption.map
      fun r => (r.2.map (·.accepted), acceptedOf Sample.changes r.2)) =
        some ([true, false, false, true], [Sample.better, Sample.harmless]) := by
    decide +kernel
  rcases he : exec (applyEach Sample.query Sample.strict Sample.changes) Sample.world with
    ⟨e | ⟨policy, verdicts⟩, w'⟩ <;> rw [he] at hk
  · cases hk
  · obtain ⟨hv, ha⟩ := Prod.mk.inj (Option.some.inj hk)
    obtain ⟨-, hsame, -⟩ := applyEach_ignores_rejected hq he
    dsimp only at ha
    rw [ha] at hsame
    exact ⟨hq, policy, verdicts, w', rfl, hv, hsame⟩

end Codemod
