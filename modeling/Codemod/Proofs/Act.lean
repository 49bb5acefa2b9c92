import Codemod.World
import Mathlib.Order.Defs.Unbundled

/-! Running acts in a world. Each operation has an equation for its result and the world it leaves, and
a sequence of acts is taken apart at its first failure. What acts do to the disk is stated as a preorder
on disks, so that it passes from the parts of an act to the whole whatever its result. -/
namespace Codemod.Act

/-- The result of an act in a world, and the world it leaves. -/
def exec (x : Act σ α) (w : World σ) : Except Failure α × World σ := x w

@[simp] theorem exec_pure (a : α) (w : World σ) : exec (pure a : Act σ α) w = (.ok a, w) := rfl

@[simp] theorem exec_throw (e : Failure) (w : World σ) :
    exec (throw e : Act σ α) w = (.error e, w) := rfl

theorem exec_bind (x : Act σ α) (f : α → Act σ β) (w : World σ) :
    exec (x >>= f) w = match exec x w with
      | (.ok a, w') => exec (f a) w'
      | (.error e, w') => (.error e, w') := by
  change ExceptT.bind x f w = _
  unfold ExceptT.bind ExceptT.bindCont ExceptT.mk
  simp only [exec, bind, StateT.bind]
  rcases x w with ⟨_ | _, w'⟩ <;> rfl

theorem exec_bind_ok {x : Act σ α} {w w' : World σ} {a : α} (h : exec x w = (.ok a, w'))
    (f : α → Act σ β) : exec (x >>= f) w = exec (f a) w' := by
  rw [exec_bind, h]

theorem exec_bind_error {x : Act σ α} {w w' : World σ} {e : Failure}
    (h : exec x w = (.error e, w')) (f : α → Act σ β) :
    exec (x >>= f) w = (.error e, w') := by
  rw [exec_bind, h]

theorem exec_bind_eq_ok_iff {x : Act σ α} {f : α → Act σ β} {w w' : World σ} {b : β} :
    exec (x >>= f) w = (.ok b, w') ↔
      ∃ a v, exec x w = (.ok a, v) ∧ exec (f a) v = (.ok b, w') := by
  rw [exec_bind]
  rcases exec x w with ⟨_ | a, v⟩ <;> simp [and_assoc]

@[simp] theorem exec_getDisk (w : World σ) : exec getDisk w = (.ok w.disk, w) := rfl

@[simp] theorem exec_setDisk (d : Disk) (w : World σ) :
    exec (setDisk d) w = (.ok (), { w with disk := d }) := rfl

@[simp] theorem exec_attempt (x : Act σ α) (w : World σ) :
    exec (attempt x) w = (.ok (exec x w).1, (exec x w).2) := rfl

/-- The world once an event has been announced. -/
def announced (w : World σ) (name : String) (fields : List (String × Json)) : World σ :=
  if w.listening then { w with events := w.events ++ [⟨name, fields⟩] } else w

@[simp] theorem exec_announce (name : String) (fields : List (String × Json)) (w : World σ) :
    exec (announce name fields) w = (.ok (), announced w name fields) := rfl

@[simp] theorem announced_disk (w : World σ) (name : String) (fields : List (String × Json)) :
    (announced w name fields).disk = w.disk := by
  unfold announced
  split <;> rfl

/-- A write puts the new disk in the place of the old one, or fails and changes nothing. -/
theorem exec_write (file : Path) (text : String) (w : World σ) :
    exec (write file text) w = match w.disk.write file text with
      | .ok d => (.ok (), { w with disk := d })
      | .error e => (.error (.disk e), w) := by
  unfold write
  rw [exec_bind_ok (exec_getDisk w)]
  cases w.disk.write file text <;> rfl

/-- Whatever comes of the act, the disk it leaves is related by `R` to the one it found. -/
def Moves (R : Disk → Disk → Prop) (x : Act σ α) : Prop := ∀ w, R w.disk (exec x w).2.disk

/-- The act leaves the disk as it is. -/
abbrev Quiet (x : Act σ α) : Prop := Moves Eq x

theorem Moves.of_exec {R : Disk → Disk → Prop} {x : Act σ α} {w w' : World σ}
    {r : Except Failure α} (h : Moves R x) (he : exec x w = (r, w')) : R w.disk w'.disk := by
  have := h w
  rwa [he] at this

section Moves
variable {R : Disk → Disk → Prop} [IsPreorder Disk R]

theorem Moves.of_quiet {x : Act σ α} (h : Quiet x) : Moves R x := by
  intro w
  rw [← h w]
  exact refl_of R _

theorem Moves.pure (a : α) : Moves R (Pure.pure a : Act σ α) := fun _ => refl_of R _

theorem Moves.bind {x : Act σ α} {f : α → Act σ β} (hx : Moves R x) (hf : ∀ a, Moves R (f a)) :
    Moves R (x >>= f) := by
  intro w
  rcases hr : exec x w with ⟨e | a, v⟩
  · rw [exec_bind_error hr]
    exact hx.of_exec hr
  · rw [exec_bind_ok hr]
    exact trans_of R (hx.of_exec hr) (hf a v)

theorem Moves.discard {x : Act σ α} (hx : Moves R x) : Moves R (discard x) := by
  have he : Functor.discard x = x >>= fun _ => Pure.pure () := by
    rw [Functor.discard, map_const, bind_pure_comp]
    rfl
  rw [he]
  exact hx.bind fun _ => .pure _

theorem Moves.mapM {f : α → Act σ β} (hf : ∀ a, Moves R (f a)) (l : List α) :
    Moves R (l.mapM f) := by
  induction l with
  | nil => exact .pure _
  | cons a l ih =>
    rw [List.mapM_cons]
    exact (hf a).bind fun _ => ih.bind fun _ => .pure _

end Moves

theorem quiet_getDisk : Quiet (getDisk : Act σ Disk) := fun _ => rfl

theorem quiet_throw (e : Failure) : Quiet (throw e : Act σ α) := fun _ => rfl

theorem quiet_announce (name : String) (fields : List (String × Json)) :
    Quiet (announce name fields : Act σ Unit) := fun w => (announced_disk w name fields).symm

/-! Acts that go by the disk alone. -/

/-- What comes of the act, and the disk it leaves, follow from the disk it finds. -/
def Local (x : Act σ α) : Prop := ∀ w u : World σ, w.disk = u.disk →
  (exec x w).1 = (exec x u).1 ∧ (exec x w).2.disk = (exec x u).2.disk

namespace Local

theorem of_exec {x : Act σ α} (h : Local x) {w w' u : World σ} {r : Except Failure α}
    (he : exec x w = (r, w')) (hd : u.disk = w.disk) :
    ∃ u', exec x u = (r, u') ∧ u'.disk = w'.disk := by
  obtain ⟨hr, hd'⟩ := h u w hd
  rw [he] at hr hd'
  exact ⟨(exec x u).2, Prod.ext hr rfl, hd'⟩

theorem pure (a : α) : Local (Pure.pure a : Act σ α) := fun _ _ hd => ⟨rfl, hd⟩

theorem throw (e : Failure) : Local (MonadExcept.throw e : Act σ α) := fun _ _ hd => ⟨rfl, hd⟩

theorem getDisk : Local (Act.getDisk : Act σ Disk) := fun _ _ hd => ⟨congrArg Except.ok hd, hd⟩

theorem setDisk (d : Disk) : Local (Act.setDisk d : Act σ Unit) := fun _ _ _ => ⟨rfl, rfl⟩

theorem announce (name : String) (fields : List (String × Json)) :
    Local (Act.announce name fields : Act σ Unit) := by
  intro w u hd
  simpa using hd

theorem attempt {x : Act σ α} (h : Local x) : Local (Act.attempt x) := by
  intro w u hd
  obtain ⟨hr, hd'⟩ := h w u hd
  exact ⟨congrArg Except.ok hr, hd'⟩

theorem bind {x : Act σ α} {f : α → Act σ β} (hx : Local x) (hf : ∀ a, Local (f a)) :
    Local (x >>= f) := by
  intro w u hd
  rcases hr : exec x w with ⟨e | a, v⟩
  · obtain ⟨v', hv, hd'⟩ := hx.of_exec hr hd.symm
    rw [exec_bind_error hr, exec_bind_error hv]
    exact ⟨rfl, hd'.symm⟩
  · obtain ⟨v', hv, hd'⟩ := hx.of_exec hr hd.symm
    rw [exec_bind_ok hr, exec_bind_ok hv]
    exact hf a v v' hd'.symm

theorem forM {f : α → Act σ PUnit} (hf : ∀ a, Local (f a)) (l : List α) : Local (l.forM f) := by
  induction l with
  | nil => exact .pure _
  | cons a l ih => exact (hf a).bind fun _ => ih

theorem liftDisk (r : Except DiskError α) : Local (Act.liftDisk r : Act σ α) := by
  cases r
  · exact .throw _
  · exact .pure _

theorem write (file : Path) (text : String) : Local (Act.write file text : Act σ Unit) :=
  getDisk.bind fun _ => (liftDisk _).bind fun _ => .setDisk _

end Local

end Codemod.Act
