import Codemod.Proofs.Act
import Codemod.Run.Loop
import Codemod.Run.Step

/-! Acts in a world that holds more than they know of. An act can run beside anything, and leaves it
alone; what is put together from acts runs beside it part by part. So the acts that are written for
every world are, run beside something, the same acts again. -/
namespace Codemod

namespace World

def beside (w : World σ) (t : τ) : World (σ × τ) :=
  ⟨w.disk, w.events, w.listening, (w.outside, t)⟩

def core (w : World (σ × τ)) : World σ := ⟨w.disk, w.events, w.listening, w.outside.1⟩

def extra (w : World (σ × τ)) : τ := w.outside.2

@[simp] theorem core_beside (w : World σ) (t : τ) : (w.beside t).core = w := rfl

@[simp] theorem extra_beside (w : World σ) (t : τ) : (w.beside t).extra = t := rfl

@[simp] theorem disk_beside (w : World σ) (t : τ) : (w.beside t).disk = w.disk := rfl

end World

namespace Act

/-- The act beside something it does not know of. -/
def beside (x : Act σ α) : Act (σ × τ) α := fun w =>
  ((exec x w.core).1, (exec x w.core).2.beside w.extra)

theorem exec_beside (x : Act σ α) (w : World (σ × τ)) :
    exec x.beside w = ((exec x w.core).1, (exec x w.core).2.beside w.extra) := rfl

theorem Moves.beside {R : Disk → Disk → Prop} {x : Act σ α} (h : Moves R x) :
    Moves R (x.beside : Act (σ × τ) α) := fun w => h w.core

theorem ext_exec {x y : Act σ α} (h : ∀ w, exec x w = exec y w) : x = y := funext h

section
variable {σ τ α β : Type}

@[simp] theorem beside_pure (a : α) :
    ((pure a : Act σ α).beside : Act (σ × τ) α) = pure a := rfl

@[simp] theorem beside_throw (e : Failure) :
    ((throw e : Act σ α).beside : Act (σ × τ) α) = throw e := rfl

@[simp] theorem beside_getDisk : ((getDisk : Act σ Disk).beside : Act (σ × τ) Disk) = getDisk := rfl

@[simp] theorem beside_setDisk (d : Disk) :
    ((setDisk d : Act σ Unit).beside : Act (σ × τ) Unit) = setDisk d := rfl

@[simp] theorem beside_announce (name : String) (fields : List (String × Json)) :
    ((announce name fields : Act σ Unit).beside : Act (σ × τ) Unit) = announce name fields := by
  apply ext_exec
  intro w
  rw [exec_beside, exec_announce, exec_announce]
  unfold announced
  have hc : w.core.listening = w.listening := rfl
  by_cases h : w.listening
  · rw [hc, if_pos h, if_pos h]
    rfl
  · rw [hc, if_neg h, if_neg h]
    rfl

@[simp] theorem beside_attempt (x : Act σ α) :
    ((attempt x).beside : Act (σ × τ) (Except Failure α)) = attempt x.beside := rfl

@[simp] theorem beside_bind (x : Act σ α) (f : α → Act σ β) :
    ((x >>= f).beside : Act (σ × τ) β) = x.beside >>= fun a => (f a).beside := by
  apply ext_exec
  intro w
  simp only [exec_beside, exec_bind]
  rcases exec x w.core with ⟨_ | a, v⟩ <;> rfl

@[simp] theorem beside_map (f : α → β) (x : Act σ α) :
    ((f <$> x).beside : Act (σ × τ) β) = f <$> x.beside := by
  rw [map_eq_pure_bind, map_eq_pure_bind, beside_bind]
  rfl

@[simp] theorem beside_discard (x : Act σ α) :
    ((discard x).beside : Act (σ × τ) Unit) = discard x.beside := by
  rw [Functor.discard, Functor.discard, map_const, map_const]
  exact beside_map _ x

@[simp] theorem beside_forM (f : α → Act σ PUnit) (l : List α) :
    ((forM l f).beside : Act (σ × τ) PUnit) = forM l fun a => (f a).beside := by
  induction l with
  | nil => rfl
  | cons a l ih => simp [ih]

@[simp] theorem beside_mapM (f : α → Act σ β) (l : List α) :
    ((l.mapM f).beside : Act (σ × τ) (List β)) = l.mapM fun a => (f a).beside := by
  induction l with
  | nil => rfl
  | cons a l ih => simp [ih]

/-! The acts on the disk. -/

@[simp] theorem beside_liftDisk (r : Except DiskError α) :
    ((liftDisk r : Act σ α).beside : Act (σ × τ) α) = liftDisk r := by
  cases r <;> rfl

@[simp] theorem beside_write (file : Path) (text : String) :
    ((write file text : Act σ Unit).beside : Act (σ × τ) Unit) = write file text := by
  simp [write]

@[simp] theorem beside_create (file : Path) (text : String) :
    ((create file text : Act σ Unit).beside : Act (σ × τ) Unit) = create file text := by
  simp [create]

@[simp] theorem beside_ensureDirectory (dir : Path) :
    ((ensureDirectory dir : Act σ Unit).beside : Act (σ × τ) Unit) = ensureDirectory dir := by
  simp [ensureDirectory]

end
end Act

section
variable {σ τ : Type}

namespace Change

@[simp] theorem beside_currentText (file : Path) :
    ((currentText file : Act σ (Option String)).beside : Act (σ × τ) (Option String)) =
      currentText file := by
  unfold currentText
  rw [Act.beside_bind, Act.beside_getDisk]
  congr 1
  funext d
  split <;> rfl

@[simp] theorem beside_verify (c : Change) :
    ((c.verify : Act σ Unit).beside : Act (σ × τ) Unit) = c.verify := by
  simp [verify, apply_ite Act.beside]

@[simp] theorem beside_applyAll (changes : List Change) :
    ((applyAll changes : Act σ Unit).beside : Act (σ × τ) Unit) = applyAll changes := by
  simp [applyAll, apply_ite Act.beside]

@[simp] theorem beside_apply (c : Change) :
    ((c.apply : Act σ Unit).beside : Act (σ × τ) Unit) = c.apply := by
  simp [apply]

@[simp] theorem beside_revertAll (changes : List Change) :
    ((revertAll changes : Act σ Unit).beside : Act (σ × τ) Unit) = revertAll changes := by
  simp [revertAll, apply_ite Act.beside]

end Change

@[simp] theorem Act.beside_compile (root : Path) (plan : Plan) :
    ((Act.compile root plan : Act σ (List Change)).beside : Act (σ × τ) (List Change)) =
      Act.compile root plan := by
  unfold compile
  rw [beside_bind, beside_getDisk]
  congr 1
  funext d
  split <;> rfl

@[simp] theorem beside_tryChange (query : Act σ Snapshot) (policy : Policy) (c : Change) :
    ((tryChange query policy c).beside : Act (σ × τ) (Policy × FileVerdict)) =
      tryChange query.beside policy c := by
  unfold tryChange
  simp only [Act.beside_bind, Act.beside_attempt, Change.beside_apply]
  congr 1
  funext r
  split <;> simp [apply_ite Act.beside]

@[simp] theorem beside_applyEach (query : Act σ Snapshot) (policy : Policy)
    (changes : List Change) :
    ((applyEach query policy changes).beside : Act (σ × τ) (Policy × List FileVerdict)) =
      applyEach query.beside policy changes := by
  induction changes generalizing policy with
  | nil => rfl
  | cons c changes ih => simp [applyEach, ih]

namespace Recorder

@[simp] theorem beside_writeText (file : Path) (text : String) :
    ((writeText file text : Act σ Path).beside : Act (σ × τ) Path) = writeText file text := by
  simp [writeText]

@[simp] theorem beside_writeJson (file : Path) (v : Json) :
    ((writeJson file v : Act σ Path).beside : Act (σ × τ) Path) = writeJson file v :=
  beside_writeText _ _

@[simp] theorem beside_recordChange (r : Recorder) (base : Path) (c : Change) :
    ((r.recordChange base c : Act σ (List Path × Json)).beside : Act (σ × τ) (List Path × Json)) =
      r.recordChange base c := by
  simp [recordChange]

@[simp] theorem beside_recordChanges (r : Recorder) (index : Int) (changes : List Change) :
    ((r.recordChanges index changes : Act σ (List Path)).beside : Act (σ × τ) (List Path)) =
      r.recordChanges index changes := by
  simp [recordChanges]

end Recorder
end
end Codemod
