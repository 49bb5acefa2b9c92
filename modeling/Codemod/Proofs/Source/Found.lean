import Codemod.Source.Found

/-! What a left-to-right collection of places holds. When a place begins with a character that does not
occur further on in it, no place hides another: the collection holds every place there is. -/
namespace Codemod.Source

/-- The character behind what follows `cs`, when `behind` is the one before it. -/
def lastOr (behind : Option Char) (cs : List Char) : Option Char := cs.getLast?.or behind

@[simp] theorem lastOr_nil (behind : Option Char) : lastOr behind [] = behind := rfl

@[simp] theorem lastOr_cons (behind : Option Char) (c : Char) (cs : List Char) :
    lastOr behind (c :: cs) = lastOr (some c) cs := by
  cases cs with
  | nil => rfl
  | cons d cs =>
    unfold lastOr
    rw [List.getLast?_cons_cons]
    cases h : (d :: cs).getLast? with
    | none => simp at h
    | some e => rfl

theorem lastOr_append (behind : Option Char) (cs ds : List Char) :
    lastOr behind (cs ++ ds) = lastOr (lastOr behind cs) ds := by
  induction cs generalizing behind with
  | nil => rfl
  | cons c cs ih => rw [List.cons_append, lastOr_cons, lastOr_cons, ih]

/-- Places begin with `lead`, and it does not occur further on in them. -/
def LedBy (lead : Char) (r : Recogniser α) : Prop :=
  ∀ {behind cs a n}, r behind cs = some (a, n) →
    ∃ body rest, cs = lead :: body ++ rest ∧ n = body.length + 1 ∧ lead ∉ body

/-- The recogniser reads `f` in `cs`, offsets being counted from `pos`. -/
def IsPlace (r : Recogniser α) (pos : Nat) (behind : Option Char) (cs : List Char) (f : Found α) :
    Prop :=
  ∃ before rest, cs = before ++ rest ∧ f.start = pos + before.length ∧
    r (lastOr behind before) rest = some (f.value, f.length)

theorem isPlace_cons_iff {r : Recogniser α} {pos : Nat} {behind : Option Char} {c : Char}
    {cs : List Char} {f : Found α} :
    IsPlace r pos behind (c :: cs) f ↔
      (f.start = pos ∧ r behind (c :: cs) = some (f.value, f.length)) ∨
        IsPlace r (pos + 1) (some c) cs f := by
  constructor
  · rintro ⟨before, rest, hcs, hstart, hread⟩
    cases before with
    | nil =>
      rw [List.nil_append] at hcs
      exact .inl ⟨by simpa using hstart, by simpa [hcs] using hread⟩
    | cons b before =>
      obtain ⟨rfl, rfl⟩ := List.cons.inj hcs
      rw [List.length_cons] at hstart
      exact .inr ⟨before, rest, rfl, by omega, by simpa using hread⟩
  · rintro (⟨hstart, hread⟩ | ⟨before, rest, rfl, hstart, hread⟩)
    · exact ⟨[], c :: cs, rfl, by simpa using hstart, by simpa using hread⟩
    · exact ⟨c :: before, rest, rfl, by rw [List.length_cons]; omega, by simpa using hread⟩

/-- What is found is a place, behind the characters that are skipped. -/
theorem isPlace_of_mem_foundFrom {r : Recogniser α} {cs : List Char} {pos skip : Nat}
    {behind : Option Char} {f : Found α} (h : f ∈ foundFrom r pos skip behind cs) :
    IsPlace r pos behind cs f ∧ pos + skip ≤ f.start := by
  induction cs generalizing pos skip behind with
  | nil => simp [foundFrom] at h
  | cons c cs ih =>
    rw [isPlace_cons_iff]
    cases skip with
    | succ k =>
      obtain ⟨hplace, hstart⟩ := ih h
      exact ⟨.inr hplace, by omega⟩
    | zero =>
      unfold foundFrom at h
      dsimp only at h
      split at h
      · next a n hread =>
        rcases List.mem_cons.1 h with rfl | h
        · exact ⟨.inl ⟨rfl, hread⟩, Nat.le_refl _⟩
        · obtain ⟨hplace, hstart⟩ := ih h
          exact ⟨.inr hplace, by omega⟩
      · obtain ⟨hplace, hstart⟩ := ih h
        exact ⟨.inr hplace, by omega⟩

theorem mem_foundFrom_iff {r : Recogniser α} {lead : Char} (hr : LedBy lead r) {cs : List Char}
    {skip : Nat} (hskip : lead ∉ cs.take skip) (pos : Nat) (behind : Option Char) (f : Found α) :
    f ∈ foundFrom r pos skip behind cs ↔ IsPlace r pos behind cs f := by
  induction cs generalizing pos skip behind with
  | nil =>
    refine iff_of_false (by simp [foundFrom]) ?_
    rintro ⟨before, rest, hcs, -, hread⟩
    obtain ⟨body, tail, hrest, -⟩ := hr hread
    simp [hrest] at hcs
  | cons c cs ih =>
    rw [isPlace_cons_iff]
    cases skip with
    | succ k =>
      have hc : c ≠ lead := fun h => hskip (by simp [h])
      have hk : lead ∉ cs.take k := fun h => hskip (by simp [h])
      have hno : r behind (c :: cs) ≠ some (f.value, f.length) := by
        intro h
        obtain ⟨body, rest, hcs, -⟩ := hr h
        exact hc (List.cons.inj hcs).1
      rw [foundFrom, ih hk]
      simp [hno]
    | zero =>
      rw [foundFrom]
      cases hread : r behind (c :: cs) with
      | none =>
        rw [ih (by simp)]
        simp
      | some p =>
        obtain ⟨a, n⟩ := p
        -- what is skipped behind a place holds no lead, so it hides no place
        obtain ⟨body, rest, hcs, rfl, hbody⟩ := hr hread
        have hk : lead ∉ cs.take (body.length + 1 - 1) := by
          rw [(List.cons.inj hcs).2]
          simpa using hbody
        rw [List.mem_cons, ih hk]
        refine or_congr ?_ Iff.rfl
        obtain ⟨start, length, value⟩ := f
        simp only [Found.mk.injEq, Option.some_inj, Prod.mk.injEq]
        constructor
        · rintro ⟨rfl, rfl, rfl⟩
          exact ⟨rfl, rfl, rfl⟩
        · rintro ⟨rfl, rfl, rfl⟩
          exact ⟨rfl, rfl, rfl⟩

/-- A place holds no other place further on in it. -/
def Alone (r : Recogniser α) : Prop :=
  ∀ {behind cs a n}, r behind cs = some (a, n) → 0 < n ∧ n ≤ cs.length ∧
    ∀ k, 0 < k → k < n → r (lastOr behind (cs.take k)) (cs.drop k) = none

/-- Where no place hides another, every place there is is found, when none is skipped. -/
theorem mem_foundFrom_iff_of_alone {r : Recogniser α} (hr : Alone r) {cs : List Char} {skip : Nat}
    {behind : Option Char} (hskip : ∀ k < skip, r (lastOr behind (cs.take k)) (cs.drop k) = none) (pos : Nat)
    (f : Found α) : f ∈ foundFrom r pos skip behind cs ↔ IsPlace r pos behind cs f := by
  induction cs generalizing pos skip behind with
  | nil =>
    refine iff_of_false (by simp [foundFrom]) ?_
    rintro ⟨before, rest, hcs, -, hread⟩
    obtain ⟨-, rfl⟩ := List.append_eq_nil_iff.1 hcs.symm
    obtain ⟨hpos, hlen, -⟩ := hr hread
    rw [List.length_nil] at hlen
    omega
  | cons c cs ih =>
    rw [isPlace_cons_iff]
    cases skip with
    | succ k =>
      have hno : r behind (c :: cs) = none := hskip 0 (by omega)
      rw [foundFrom, ih fun j hj => by simpa using hskip (j + 1) (by omega)]
      simp [hno]
    | zero =>
      rw [foundFrom]
      cases hread : r behind (c :: cs) with
      | none =>
        rw [ih (by simp)]
        simp
      | some p =>
        obtain ⟨a, n⟩ := p
        obtain ⟨hpos, -, hinside⟩ := hr hread
        rw [List.mem_cons, ih fun j hj => by simpa using hinside (j + 1) (by omega) (by omega)]
        refine or_congr ?_ Iff.rfl
        obtain ⟨start, length, value⟩ := f
        simp only [Found.mk.injEq, Option.some_inj, Prod.mk.injEq]
        constructor
        · rintro ⟨rfl, rfl, rfl⟩
          exact ⟨rfl, rfl, rfl⟩
        · rintro ⟨rfl, rfl, rfl⟩
          exact ⟨rfl, rfl, rfl⟩

/-- Places are collected from the left. -/
theorem pairwise_foundFrom (r : Recogniser α) (pos skip : Nat) (behind : Option Char)
    (cs : List Char) :
    (foundFrom r pos skip behind cs).Pairwise fun f g => f.start < g.start := by
  induction cs generalizing pos skip behind with
  | nil => simp [foundFrom]
  | cons c cs ih =>
    unfold foundFrom
    split
    · exact ih _ _ _
    · split
      · refine List.pairwise_cons.2 ⟨fun f hf => ?_, ih _ _ _⟩
        have hstart := (start_mem_foundFrom hf).1
        dsimp only
        omega
      · exact ih _ _ _

/-- Places do not overlap. -/
theorem pairwise_stop_le_start (r : Recogniser α) (pos skip : Nat) (behind : Option Char)
    (cs : List Char) :
    (foundFrom r pos skip behind cs).Pairwise fun f g => f.stop ≤ g.start := by
  induction cs generalizing pos skip behind with
  | nil => simp [foundFrom]
  | cons c cs ih =>
    unfold foundFrom
    split
    · exact ih _ _ _
    · split
      · refine List.pairwise_cons.2 ⟨fun f hf => ?_, ih _ _ _⟩
        have hstart := (isPlace_of_mem_foundFrom hf).2
        unfold Found.stop
        dsimp only
        omega
      · exact ih _ _ _

/-- What is skipped holds no place. -/
theorem foundFrom_skip (r : Recogniser α) (pos : Nat) (behind : Option Char) (cs rest : List Char) :
    foundFrom r pos cs.length behind (cs ++ rest) =
      foundFrom r (pos + cs.length) 0 (lastOr behind cs) rest := by
  induction cs generalizing pos behind with
  | nil => rfl
  | cons c cs ih =>
    rw [List.cons_append, List.length_cons, foundFrom, ih, lastOr_cons]
    congr 1
    omega

/-- What is read does not depend on the offset that is given to it. -/
theorem map_value_foundFrom (r : Recogniser α) (pos pos' skip : Nat) (behind : Option Char)
    (cs : List Char) :
    (foundFrom r pos skip behind cs).map (·.value) = (foundFrom r pos' skip behind cs).map (·.value) := by
  induction cs generalizing pos pos' skip behind with
  | nil => rfl
  | cons c cs ih =>
    cases skip with
    | succ k => exact ih _ _ _ _
    | zero =>
      rw [foundFrom, foundFrom]
      cases r behind (c :: cs) with
      | none => exact ih _ _ _ _
      | some read => exact congrArg (read.1 :: ·) (ih _ _ _ _)

end Codemod.Source
