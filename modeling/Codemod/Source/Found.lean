import Codemod.Source.Frame

/-! Places of a text where something is recognised. A recogniser sees the character before a place
and all that follows it; places are collected from the left and do not overlap. -/
namespace Codemod.Source

/-- Reads a value at the head of a text, `behind` being the character before it, and tells how many
characters it takes. -/
abbrev Recogniser (α : Type) := (behind : Option Char) → List Char → Option (α × Nat)

/-- A value read from the characters `start` up to `start + length`. -/
structure Found (α : Type) where
  start : Nat
  length : Nat
  value : α

def Found.stop (f : Found α) : Nat := f.start + f.length

/-- The places of `cs` from offset `pos` on, when `skip` characters still belong to the last one. -/
def foundFrom (r : Recogniser α) (pos skip : Nat) (behind : Option Char) :
    List Char → List (Found α)
  | [] => []
  | c :: cs =>
    match skip with
    | k + 1 => foundFrom r (pos + 1) k (some c) cs
    | 0 =>
      match r behind (c :: cs) with
      | some (a, n) => ⟨pos, n, a⟩ :: foundFrom r (pos + 1) (n - 1) (some c) cs
      | none => foundFrom r (pos + 1) 0 (some c) cs

def found (r : Recogniser α) (text : List Char) : List (Found α) := foundFrom r 0 0 none text

/-- The places that begin outside literals and comments. -/
def liveFound (r : Recogniser α) (text : List Char) : List (Found α) :=
  let inert := marks text
  (found r text).filter fun f => inert[f.start]? == some .live

theorem start_mem_foundFrom {r : Recogniser α} {cs : List Char} {pos skip : Nat}
    {behind : Option Char} {f : Found α} (h : f ∈ foundFrom r pos skip behind cs) :
    pos ≤ f.start ∧ f.start < pos + cs.length := by
  induction cs generalizing pos skip behind with
  | nil => simp [foundFrom] at h
  | cons c cs ih =>
    unfold foundFrom at h
    split at h
    · have := ih h; simp; omega
    · split at h
      · rcases List.mem_cons.1 h with rfl | h
        · simp
        · have := ih h; simp; omega
      · have := ih h; simp; omega

end Codemod.Source
