import Codemod.Change
import Codemod.Proofs.Act
import Codemod.Proofs.Disk.Overwrite

/-! Applying changes as a batch. All files are checked before one is written, so a batch that fails has
written nothing; one that succeeds fits the disk, and from there reverting it is the exact inverse,
however often and under whatever names the batch mentions a file. -/
namespace Codemod

/-- The place a path leads to, if it leads anywhere. -/
def Disk.place? (d : Disk) (p : Path) : Option (List String) := (d.locate p).toOption

/-- The place a path leads to; the top when it leads nowhere. -/
def Disk.placeOf (d : Disk) (p : Path) : List String := (d.place? p).getD []

theorem Disk.FileAt.place?_eq {d : Disk} {p : Path} {place : List String} {bytes : ByteArray}
    (h : d.FileAt p place bytes) : d.place? p = some place := by
  simp [Disk.place?, h.locate, Except.toOption]

theorem Disk.FileAt.placeOf_eq {d : Disk} {p : Path} {place : List String} {bytes : ByteArray}
    (h : d.FileAt p place bytes) : d.placeOf p = place := by
  simp [Disk.placeOf, h.place?_eq]

namespace Change

/-- The file of a change holds the text that the change was made for. -/
def Fits (c : Change) (d : Disk) : Prop := d.readText c.file = .ok c.before

theorem Fits.fileAt {c : Change} {d : Disk} (h : c.Fits d) :
    d.FileAt c.file (d.placeOf c.file) c.before.toUTF8 := by
  obtain ⟨place, hf⟩ := Disk.readText_eq_ok_iff.1 h
  rwa [hf.placeOf_eq]

theorem exec_verify_of_fits {c : Change} {w : World σ} (h : c.Fits w.disk) :
    Act.exec c.verify w = (.ok (), w) := by
  have hr : w.disk.readText c.file = .ok c.before := h
  simp [verify, currentText, Act.exec_bind, hr]

theorem exec_verify_of_not_fits {c : Change} {w : World σ} (h : ¬ c.Fits w.disk) :
    ∃ e, Act.exec c.verify w = (.error e, w) := by
  unfold verify currentText
  simp only [Act.exec_bind, Act.exec_getDisk]
  split
  · next s hs =>
    split at hs
    · next t ht =>
      cases hs
      have hne : t ≠ c.before := fun he => h (show w.disk.readText c.file = _ from he ▸ ht)
      exact ⟨.preimage c.file, by simp [hne]⟩
    all_goals
      cases hs
      try exact ⟨.preimage c.file, by simp⟩
  · next e v he =>
    split at he <;> cases he
    exact ⟨_, rfl⟩

/-- Checking files goes well when every change fits, and changes nothing in any case. -/
theorem exec_forM_verify (changes : List Change) (w : World σ) :
    ((∀ c ∈ changes, c.Fits w.disk) ∧ Act.exec (changes.forM verify) w = (.ok (), w)) ∨
      ((∃ c ∈ changes, ¬ c.Fits w.disk) ∧ ∃ e, Act.exec (changes.forM verify) w = (.error e, w)) := by
  induction changes with
  | nil => exact .inl ⟨by simp, rfl⟩
  | cons c changes ih =>
    change (_ ∧ Act.exec (c.verify >>= fun _ => changes.forM verify) w = _) ∨
      (_ ∧ ∃ e, Act.exec (c.verify >>= fun _ => changes.forM verify) w = _)
    by_cases hc : c.Fits w.disk
    · rw [Act.exec_bind_ok (exec_verify_of_fits hc)]
      rcases ih with ⟨hall, hok⟩ | ⟨⟨b, hb, hno⟩, herr⟩
      · exact .inl ⟨by simpa [hc] using hall, hok⟩
      · exact .inr ⟨⟨b, by simp [hb], hno⟩, herr⟩
    · obtain ⟨e, he⟩ := exec_verify_of_not_fits hc
      exact .inr ⟨⟨c, by simp, hc⟩, e, Act.exec_bind_error he _⟩

theorem exec_forM_write (text : Change → String) (place : Change → List String)
    {changes : List Change} {w : World σ}
    (h : ∀ c ∈ changes, ∃ bytes, w.disk.FileAt c.file (place c) bytes) :
    Act.exec (changes.forM fun c => Act.write c.file (text c)) w =
      (.ok (), { w with
        disk := w.disk.overwrite (changes.map fun c => (place c, (text c).toUTF8)) }) := by
  induction changes generalizing w with
  | nil => rfl
  | cons c changes ih =>
    obtain ⟨bytes, hc⟩ := h c (by simp)
    have hw : Act.exec (Act.write c.file (text c)) w =
        (.ok (), { w with disk := w.disk.put (place c) (.file (text c).toUTF8) }) := by
      rw [Act.exec_write, hc.write]
    change Act.exec (Act.write c.file (text c) >>= fun _ => changes.forM _) w = _
    rw [Act.exec_bind_ok hw, ih]
    · rfl
    · intro b hb
      obtain ⟨bytes', hb'⟩ := h b (by simp [hb])
      exact hb'.put hc.node _

/-- Where the files of changes lead on a disk, with the bytes of one text of each. -/
def writes (d : Disk) (text : Change → String) (changes : List Change) :
    List (List String × ByteArray) :=
  changes.map fun c => (d.placeOf c.file, (text c).toUTF8)

theorem covers_writes {d : Disk} {changes : List Change} (h : ∀ c ∈ changes, c.Fits d)
    (text : Change → String) : d.Covers (writes d text changes) := by
  intro v hv
  obtain ⟨c, hc, rfl⟩ := List.mem_map.1 hv
  exact ⟨_, (h c hc).fileAt.node⟩

theorem exec_applyAll_of_fits {changes : List Change} {w : World σ}
    (h : ∀ c ∈ changes, c.Fits w.disk) :
    ∃ w', Act.exec (applyAll changes) w = (.ok (), w') ∧
      w'.disk = w.disk.overwrite (writes w.disk (·.after) changes) := by
  unfold applyAll
  split
  · next he =>
    obtain rfl := List.isEmpty_iff.1 he
    exact ⟨w, rfl, rfl⟩
  · rcases exec_forM_verify changes w with ⟨-, hok⟩ | ⟨⟨c, hc, hno⟩, -⟩
    · rw [Act.exec_bind_ok hok, Act.exec_bind_ok (exec_forM_write (·.after)
        (fun c => w.disk.placeOf c.file) fun c hc => ⟨_, (h c hc).fileAt⟩)]
      exact ⟨_, rfl, Act.announced_disk _ _ _⟩
    · exact absurd (h c hc) hno

theorem exec_applyAll_of_not_fits {changes : List Change} {w : World σ}
    (h : ∃ c ∈ changes, ¬ c.Fits w.disk) :
    ∃ e, Act.exec (applyAll changes) w = (.error e, w) := by
  obtain ⟨c, hc, hno⟩ := h
  unfold applyAll
  split
  · next he => simp [List.isEmpty_iff.1 he] at hc
  · rcases exec_forM_verify changes w with ⟨hall, -⟩ | ⟨-, e, he⟩
    · exact absurd (hall c hc) hno
    · exact ⟨e, Act.exec_bind_error he _⟩

theorem exec_apply_of_fits {c : Change} {w : World σ} (h : c.Fits w.disk) :
    ∃ w', Act.exec c.apply w = (.ok (), w') ∧
      w'.disk = w.disk.overwrite (writes w.disk (·.after) [c]) := by
  have hw : Act.exec (Act.write c.file c.after) w = (.ok (), { w with
      disk := w.disk.put (w.disk.placeOf c.file) (.file c.after.toUTF8) }) := by
    rw [Act.exec_write, h.fileAt.write]
  unfold apply
  rw [Act.exec_bind_ok (exec_verify_of_fits h), Act.exec_bind_ok hw]
  exact ⟨_, rfl, Act.announced_disk _ _ _⟩

theorem exec_apply_of_not_fits {c : Change} {w : World σ} (h : ¬ c.Fits w.disk) :
    ∃ e, Act.exec c.apply w = (.error e, w) := by
  obtain ⟨e, he⟩ := exec_verify_of_not_fits h
  exact ⟨e, Act.exec_bind_error he _⟩

/-- The last text written to a place, behind one text of each change another of each, is among the
latter. -/
theorem find?_writes_before {d : Disk} {changes : List Change} (h : ∀ c ∈ changes, c.Fits d)
    {place : List String} (hp : ∃ c ∈ changes, d.placeOf c.file = place)
    {v : List String × ByteArray}
    (hv : (writes d (·.after) changes ++ writes d (·.before) changes).reverse.find?
      (·.1 == place) = some v) : d.node? place = some (.file v.2) := by
  rw [List.reverse_append, List.find?_append] at hv
  cases hb : (writes d (·.before) changes).reverse.find? (·.1 == place) with
  | none =>
    obtain ⟨c, hc, rfl⟩ := hp
    simp only [List.find?_eq_none, List.mem_reverse, beq_iff_eq] at hb
    exact absurd rfl (hb _ (List.mem_map_of_mem hc))
  | some u =>
    rw [hb, Option.some_or] at hv
    cases hv
    obtain ⟨c, hc, rfl⟩ := List.mem_map.1 (List.mem_reverse.1 (List.mem_of_find?_eq_some hb))
    have : d.placeOf c.file = place := by simpa using List.find?_some hb
    rw [← this, (h c hc).fileAt.node]

/-- Reverting a batch that has just been written puts back the disk it was written to. -/
theorem exec_revertAll_of_fits {changes : List Change} {d : Disk} {w : World σ}
    (h : ∀ c ∈ changes, c.Fits d)
    (hw : w.disk = d.overwrite (writes d (·.after) changes)) :
    ∃ w', Act.exec (revertAll changes) w = (.ok (), w') ∧ w'.disk = d := by
  have hat : ∀ c ∈ changes, ∃ bytes, w.disk.FileAt c.file (d.placeOf c.file) bytes := by
    intro c hc
    rw [hw]
    exact (h c hc).fileAt.overwrite (covers_writes h _)
  -- Reverting is one more round of writes, and the last text written to each place is the old one.
  have hd : w.disk.overwrite (writes d (·.before) changes) = d := by
    rw [hw, Disk.overwrite_append]
    have named : ∀ v ∈ writes d (·.after) changes ++ writes d (·.before) changes,
        ∃ c ∈ changes, d.placeOf c.file = v.1 := by
      simp only [writes, List.mem_append, List.mem_map]
      rintro v (⟨c, hc, rfl⟩ | ⟨c, hc, rfl⟩) <;> exact ⟨c, hc, rfl⟩
    apply Disk.overwrite_eq_self
    · intro v hv
      obtain ⟨c, hc, hp⟩ := named v hv
      rw [← hp]
      exact Disk.ne_nil_of_file (h c hc).fileAt.node
    · exact fun v hv u hu => find?_writes_before h (named v hv) hu
  unfold revertAll
  rw [Act.exec_bind_ok (exec_forM_write (·.before) _ hat)]
  split
  · exact ⟨_, rfl, (Act.announced_disk _ _ _).trans hd⟩
  · exact ⟨_, rfl, hd⟩

end Change
end Codemod
