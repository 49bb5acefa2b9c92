import Codemod.Proofs.Disk.Growth
import Codemod.Proofs.Plan.Compile

/-! What has happened to a disk, told by the changes that were written to it. Each was written onto the
text it was made for, so the changes of one place can be replayed there, and the last of them is what
the place holds. -/
namespace Codemod

/-- Replaying the changes of a place, each onto the text it was made for, leads from one node to the
other. -/
def Change.Replay (place : List String) : List Change → Option Node → Option Node → Prop
  | [], first, last => last = first
  | c :: changes, first, last =>
    if c.file.parts = place then
      first = some (.file c.before.toUTF8) ∧
        Replay place changes (some (.file c.after.toUTF8)) last
    else Replay place changes first last

theorem Change.Replay.of_unnamed {place : List String} {changes : List Change}
    {first last : Option Node} (h : Replay place changes first last)
    (hn : ∀ c ∈ changes, c.file.parts ≠ place) : last = first := by
  induction changes with
  | nil => exact h
  | cons c changes ih =>
    rw [Replay, if_neg (hn c (by simp))] at h
    exact ih h fun b hb => hn b (by simp [hb])

/-- The disk after a change. -/
def Change.on (c : Change) (d : Disk) : Disk := d.put c.file.parts (.file c.after.toUTF8)

/-- The changes have been written to the disk, each onto the text it was made for; all that has
happened besides is what `A` allows. -/
inductive Disk.History (A : Disk → Disk → Prop) : List Change → Disk → Disk → Prop where
  | still {d d'} : A d d' → History A [] d d'
  | move {changes d e d'} : A d e → History A changes e d' → History A changes d d'
  | write {c changes d d'} : c.Fits d → c.file.Direct → History A changes (c.on d) d' →
      History A (c :: changes) d d'

namespace Change

theorem Fits.node? {c : Change} {d : Disk} (h : c.Fits d) (hd : c.file.Direct) :
    d.node? c.file.parts = some (.file c.before.toUTF8) := (h.fileAt_direct hd).node

theorem Fits.node?_on {c : Change} {d : Disk} (h : c.Fits d) (hd : c.file.Direct)
    (place : List String) : (c.on d).node? place =
      if c.file.parts = place then some (.file c.after.toUTF8) else d.node? place :=
  Disk.node?_put d (Disk.ne_nil_of_file (h.node? hd)) _ place

theorem Fits.on {b c : Change} {d : Disk} (hb : b.Fits d) (hc : c.Fits d) (db : b.file.Direct)
    (dc : c.file.Direct) (hne : b.file ≠ c.file) : b.Fits (c.on d) := by
  have hp : c.file.parts ≠ b.file.parts := fun h => hne (db.ext dc h.symm)
  have hf := hb.fileAt_direct db
  refine Disk.readText_eq_ok_iff.2 ⟨b.file.parts, ?_, ?_⟩
  · exact (Disk.walk_put (hc.node? dc) _ _ _).trans hf.locate
  · rw [hc.node?_on dc, if_neg hp, hf.node]

/-- A change still fits when only new files and directories have come up. -/
theorem Fits.grows {c : Change} {d d' : Disk} (h : c.Fits d) (hd : c.file.Direct)
    (hg : d.Grows d') : c.Fits d' := by
  have hf := h.fileAt_direct hd
  have ha : c.file.isAbsolute := by simp [Path.isAbsolute, hd.1]
  have hl := hf.locate
  rw [Disk.locate, if_pos ha] at hl
  refine Disk.readText_eq_ok_iff.2 ⟨c.file.parts, ?_, hg _ _ hf.node⟩
  rw [Disk.locate, if_pos ha]
  exact hg.walk hl

theorem Fits.overwrite {c : Change} {d : Disk} (h : c.Fits d) (hd : c.file.Direct) :
    d.overwrite (writes d (·.after) [c]) = c.on d := by
  change d.put (d.placeOf c.file) (.file c.after.toUTF8) = c.on d
  rw [(h.fileAt_direct hd).placeOf_eq]
  rfl

end Change

namespace Disk.History
variable {A B : Disk → Disk → Prop} {changes more : List Change} {d e d' : Disk}

theorem append (h : History A changes d e) (h' : History A more e d') :
    History A (changes ++ more) d d' := by
  induction h with
  | still hm => exact .move hm h'
  | move hm _ ih => exact .move hm (ih h')
  | write hf hd _ ih => exact .write hf hd (ih h')

theorem mono (hAB : ∀ d d', A d d' → B d d') (h : History A changes d d') :
    History B changes d d' := by
  induction h with
  | still hm => exact .still (hAB _ _ hm)
  | move hm _ ih => exact .move (hAB _ _ hm) ih
  | write hf hd _ ih => exact .write hf hd ih

theorem eq_of_nil (h : History Eq [] d d') : d = d' := by
  generalize hc : ([] : List Change) = changes at h
  induction h with
  | still hm => exact hm
  | move hm _ ih => exact hm.trans (ih hc)
  | write => contradiction

/-- The changes of a place can be replayed when nothing else touches a node with `P`. -/
theorem replay {P : Option Node → Prop} (place : List String)
    (keeps : ∀ d d', A d d' → P (d.node? place) → d'.node? place = d.node? place)
    (file : ∀ bytes, P (some (.file bytes))) (h : History A changes d d')
    (hp : P (d.node? place)) :
    Change.Replay place changes (d.node? place) (d'.node? place) := by
  induction h with
  | still hm => exact keeps _ _ hm hp
  | move hm _ ih =>
    have := keeps _ _ hm hp
    rw [← this]
    exact ih (by rwa [this])
  | @write c changes d d' hf hd _ ih =>
    unfold Change.Replay
    have hn := hf.node?_on hd place
    split
    · next he =>
      rw [if_pos he] at hn
      refine ⟨he ▸ hf.node? hd, ?_⟩
      rw [← hn]
      exact ih (by rw [hn]; exact file _)
    · next he =>
      rw [if_neg he] at hn
      rw [← hn]
      exact ih (by rwa [hn])

/-- Changes of distinct files that fit a disk can be written to it in any order. -/
theorem of_fits (ht : Change.Tidy changes) (hf : ∀ c ∈ changes, c.Fits d) :
    History Eq changes d (d.overwrite (Change.writes d (·.after) changes)) := by
  induction changes generalizing d with
  | nil => exact .still rfl
  | cons c changes ih =>
    have hc := hf c (by simp)
    have dc := ht.direct c (by simp)
    have hrest : ∀ b ∈ changes, b.Fits (c.on d) := fun b hb =>
      (hf b (by simp [hb])).on hc (ht.direct b (by simp [hb])) dc (ht.file_ne hb)
    have same : Change.writes (c.on d) (·.after) changes = Change.writes d (·.after) changes := by
      apply List.map_congr_left
      intro b hb
      have db := ht.direct b (by simp [hb])
      rw [((hrest b hb).fileAt_direct db).placeOf_eq,
        ((hf b (by simp [hb])).fileAt_direct db).placeOf_eq]
    have hh := ih ht.tail hrest
    rw [same] at hh
    refine .write hc dc ?_
    change History Eq changes (c.on d)
      ((d.put (d.placeOf c.file) (.file c.after.toUTF8)).overwrite _)
    rwa [(hc.fileAt_direct dc).placeOf_eq]

/-- Changes that leave every place as it was are none. -/
theorem eq_nil_of_same (ht : Change.Tidy changes) (h : History Eq changes d d')
    (same : ∀ place, d'.node? place = d.node? place) : changes = [] := by
  cases changes with
  | nil => rfl
  | cons c changes =>
    have dc := ht.direct c (by simp)
    have hr := h.replay (P := fun _ => True) c.file.parts
      (fun _ _ he _ => by rw [he]) (fun _ => trivial) trivial
    rw [same, Change.Replay, if_pos rfl] at hr
    obtain ⟨hb, hr⟩ := hr
    have last := hr.of_unnamed fun b hm hp =>
      ht.file_ne hm ((ht.direct b (by simp [hm])).ext dc hp)
    rw [hb, Option.some_inj, Node.file.injEq, toUTF8_inj] at last
    exact absurd last.symm (ht.differs c (by simp))

end Disk.History
end Codemod
