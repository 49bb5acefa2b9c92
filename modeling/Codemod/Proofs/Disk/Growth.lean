import Codemod.Disk
import Mathlib.Order.Defs.Unbundled

/-! Making files and directories. Neither takes the place of anything, so a disk on which only that
happens grows. -/
namespace Codemod.Disk

/-- All that is on the first disk is on the second one too. -/
def Grows (d d' : Disk) : Prop := ∀ place n, d.node? place = some n → d'.node? place = some n

instance : IsPreorder Disk Grows where
  refl := fun _ _ _ h => h
  trans := fun _ _ _ h h' place n hn => h' place n (h place n hn)

/-- Putting something where nothing is. -/
theorem grows_put {d : Disk} {place : List String} (h : d.node? place = none) (n : Node) :
    d.Grows (d.put place n) := by
  have hne : place ≠ [] := by
    rintro rfl
    simp [node?] at h
  intro other m hm
  rw [node?_put d hne, if_neg, hm]
  rintro rfl
  rw [h] at hm
  contradiction

theorem grows_create {d d' : Disk} {p : Path} {content : String}
    (h : d.create p content = .ok d') : d.Grows d' := by
  unfold create at h
  cases hl : d.locate p with
  | error e => simp [hl, Except.bind] at h
  | ok place =>
    cases hn : d.node? place with
    | some n => simp [hl, hn, Except.bind] at h
    | none =>
      simp only [hl, hn, Except.bind, Except.ok.injEq] at h
      exact h ▸ grows_put hn _

theorem grows_makeDirectory {d d' : Disk} {p : Path} (h : d.makeDirectory p = .ok d') :
    d.Grows d' := by
  unfold makeDirectory at h
  cases hl : d.locate p with
  | error e => simp [hl, Except.bind] at h
  | ok place =>
    cases hn : d.node? place with
    | some n => simp [hl, hn, Except.bind] at h
    | none =>
      simp only [hl, hn, Except.bind, Except.ok.injEq] at h
      exact h ▸ grows_put hn _

theorem grows_makeDirectories {d d' : Disk} {p : Path} {n : Nat}
    (h : d.makeDirectories p n = .ok d') : d.Grows d' := by
  have found : ∀ {e e' : Disk} {q : Path} {f : DiskError},
      (if e.isDirectory q then .ok e else .error f) = Except.ok e' → e = e' := by
    intro e e' q f he
    split at he
    · exact Except.ok.inj he
    · contradiction
  induction n generalizing d d' with
  | zero =>
    unfold makeDirectories at h
    dsimp only at h
    split at h
    · next hm => exact Except.ok.inj h ▸ grows_makeDirectory hm
    · contradiction
    · exact found h ▸ refl_of Grows d
  | succ n ih =>
    unfold makeDirectories at h
    dsimp only at h
    split at h
    · next hm => exact Except.ok.inj h ▸ grows_makeDirectory hm
    · next k hm hk =>
      cases hk
      split at h
      · next e he =>
        split at h
        · exact Except.ok.inj h ▸ ih he
        · exact trans_of Grows (ih he) (grows_makeDirectory h)
      · contradiction
    · exact found h ▸ refl_of Grows d

/-- A path that leads somewhere goes on to lead there. -/
theorem Grows.walk {d d' : Disk} (h : d.Grows d') {parts at' place : List String}
    (hw : d.walk at' parts = .ok place) : d'.walk at' parts = .ok place := by
  induction parts generalizing at' with
  | nil => exact hw
  | cons part rest ih =>
    unfold Disk.walk at hw ⊢
    by_cases hp : part = ".."
    · rw [if_pos hp] at hw ⊢
      exact ih hw
    · rw [if_neg hp] at hw ⊢
      by_cases hr : rest.isEmpty
      · rwa [if_pos hr] at hw ⊢
      · rw [if_neg hr] at hw ⊢
        rcases hn : d.node? (at' ++ [part]) with _ | _ | _ <;> rw [hn] at hw
        · cases hw
        · cases hw
        · rw [h _ _ hn]
          exact ih hw

end Codemod.Disk
