import Codemod.Source.Frame
import Mathlib.Data.List.Chain

/-! The ranges of literals and comments of a text, and what they have to do with the reader that finds
them: an offset is covered by a range exactly when its mark is not live, and from a live offset on the
text is read as if it began there. -/
namespace Codemod.Source

/-- The offset lies in one of the literals and comments of the text. -/
def Covered (text : List Char) (i : Nat) : Prop :=
  ∃ r ∈ inertRanges text, r.1 ≤ i ∧ i < r.2

instance (text : List Char) (i : Nat) : Decidable (Covered text i) :=
  inferInstanceAs (Decidable (∃ r ∈ inertRanges text, r.1 ≤ i ∧ i < r.2))

/-! ## Marks and ranges -/

theorem markOf_eq_live_iff {frames next : List Frame} {c : Char} :
    markOf frames next c = .live ↔
      (frames = [] ∧ next = []) ∨ (frames = [.lineComment] ∧ c = '\n') := by
  unfold markOf
  split
  · simp
  · simp
  · next hne hcomment =>
    refine iff_of_false (by simp) ?_
    rintro (⟨hnil, -⟩ | ⟨hline, -⟩)
    · exact hne hnil
    · exact hcomment hline

theorem markOf_ne_inside (next : List Frame) (c : Char) : markOf [] next c ≠ .inside := by
  simp only [markOf]
  split <;> simp

/-- Nothing is inside a literal or comment that has not been opened. -/
def Led (marks : List Mark) : Prop := marks.IsChain fun a b => b = .inside → a ≠ .live

theorem Led.tail {m : Mark} {marks : List Mark} (h : Led (m :: marks)) : Led marks :=
  List.IsChain.tail h

theorem led_insides {m : Mark} (h : m ≠ .live) (cs : List Char) :
    Led (m :: cs.map fun _ => Mark.inside) := by
  induction cs generalizing m with
  | nil => simp [Led]
  | cons c cs ih =>
    have hrest : Led (Mark.inside :: cs.map fun _ => Mark.inside) := ih (by simp)
    exact List.isChain_cons_cons.2 ⟨fun _ => h, hrest⟩

/-- In front of the marks of a text there can be a live mark only when no frame is open there. -/
theorem led_marksFrom {m : Mark} {frames : List Frame} (h : m = .live → frames = [])
    (cs : List Char) : Led (m :: marksFrom frames cs) := by
  induction cs generalizing m frames with
  | nil => simp [Led, marksFrom]
  | cons c cs ih =>
    unfold marksFrom
    split
    · next hstep =>
      have hframes : frames ≠ [] := by
        rintro rfl
        simp [step] at hstep
      exact led_insides (fun hm => hframes (h hm)) (c :: cs)
    · next next hstep =>
      refine List.isChain_cons_cons.2 ⟨?_, ih ?_⟩
      · intro hmark hm
        obtain rfl := h hm
        exact markOf_ne_inside _ _ hmark
      · intro hmark
        rcases markOf_eq_live_iff.1 hmark with ⟨-, hnext⟩ | ⟨rfl, rfl⟩
        · exact hnext
        · simpa [step] using hstep.symm

theorem led_marks (text : List Char) : Led (marks text) :=
  (led_marksFrom (m := .live) (fun _ => rfl) text).tail

/-- How many of the marks at the head belong to what has been opened before them. -/
def leading (marks : List Mark) : Nat := (marks.takeWhile (· == .inside)).length

theorem getElem?_of_lt_leading {marks : List Mark} {k : Nat} (h : k < leading marks) :
    marks[k]? = some .inside := by
  induction marks generalizing k with
  | nil => simp [leading] at h
  | cons m marks ih =>
    cases m with
    | inside =>
      cases k with
      | zero => rfl
      | succ k =>
        have hk : k < leading marks := by simpa [leading] using h
        simpa using ih hk
    | live => simp [leading] at h
    | opening => simp [leading] at h

theorem leading_eq_zero {marks : List Mark} (h : Led (.live :: marks)) : leading marks = 0 := by
  cases marks with
  | nil => rfl
  | cons m marks =>
    have hm : m ≠ .inside := fun hm => (List.isChain_cons_cons.1 h).1 hm rfl
    cases m <;> first | rfl | exact absurd rfl hm

theorem exists_go_iff {marks : List Mark} (h : Led marks) (pos i : Nat) :
    (∃ r ∈ inertRanges.go pos marks, r.1 ≤ i ∧ i < r.2) ↔
      ∃ k, i = pos + k ∧ leading marks ≤ k ∧ ∃ m, marks[k]? = some m ∧ m ≠ .live := by
  induction marks generalizing pos with
  | nil => simp [inertRanges.go]
  | cons m marks ih =>
    have hrest := ih h.tail (pos + 1)
    cases m with
    | live =>
      rw [inertRanges.go, hrest, leading_eq_zero h]
      · constructor
        · rintro ⟨k, rfl, -, hk⟩
          exact ⟨k + 1, by omega, by simp [leading], by simpa using hk⟩
        · rintro ⟨k, rfl, -, m, hm, hlive⟩
          cases k with
          | zero => simp at hm; exact absurd hm.symm hlive
          | succ k => exact ⟨k, by omega, by omega, m, by simpa using hm, hlive⟩
      · simp
    | inside =>
      have hlead : leading (.inside :: marks) = leading marks + 1 := by simp [leading]
      rw [inertRanges.go, hrest, hlead]
      · constructor
        · rintro ⟨k, rfl, hk, hm⟩
          exact ⟨k + 1, by omega, by omega, by simpa using hm⟩
        · rintro ⟨k, rfl, hk, m, hm, hlive⟩
          obtain ⟨k, rfl⟩ : ∃ j, k = j + 1 := ⟨k - 1, by omega⟩
          exact ⟨k, by omega, by omega, m, by simpa using hm, hlive⟩
      · simp
    | opening =>
      have hlead : leading (.opening :: marks) = 0 := by simp [leading]
      rw [inertRanges.go, hlead]
      simp only [List.mem_cons, exists_eq_or_imp, hrest]
      constructor
      · rintro (⟨hlow, hhigh⟩ | ⟨k, rfl, -, hm⟩)
        · -- The range reaches as far as the marks inside it do.
          change i < pos + 1 + leading marks at hhigh
          refine ⟨i - pos, by omega, by omega, ?_⟩
          cases hk : i - pos with
          | zero => exact ⟨.opening, rfl, by simp⟩
          | succ k => exact ⟨.inside, by simpa using getElem?_of_lt_leading (by omega), by simp⟩
        · exact ⟨k + 1, by omega, by omega, by simpa using hm⟩
      · rintro ⟨k, rfl, -, m, hm, hlive⟩
        cases k with
        | zero => exact .inl ⟨by omega, by omega⟩
        | succ k =>
          by_cases hk : k < leading marks
          · exact .inl ⟨by omega, show pos + (k + 1) < pos + 1 + leading marks by omega⟩
          · exact .inr ⟨k, by omega, by omega, m, by simpa using hm, hlive⟩

/-- A range covers exactly the offsets that are not live. -/
theorem covered_iff {text : List Char} {i : Nat} :
    Covered text i ↔ ∃ m, (marks text)[i]? = some m ∧ m ≠ .live := by
  have hlead : leading (marks text) = 0 := leading_eq_zero (led_marksFrom (fun _ => rfl) text)
  unfold Covered inertRanges
  rw [exists_go_iff (led_marks text), hlead]
  simp

theorem not_covered_iff {text : List Char} {i : Nat} (h : i < text.length) :
    ¬ Covered text i ↔ (marks text)[i]? = some .live := by
  have hi : i < (marks text).length := by simpa using h
  rw [covered_iff, List.getElem?_eq_getElem hi]
  simp

/-! ## Reading on from an offset -/

/-- The frames that are open after `cs`, when `rest` follows; none after a mismatch. -/
def framesAfter (frames : List Frame) : (cs rest : List Char) → Option (List Frame)
  | [], _ => some frames
  | c :: cs, rest => (step frames c (cs ++ rest)).bind fun next => framesAfter next cs rest

/-- The marks of what follows `cs` come from the frames that are open there. -/
theorem drop_marksFrom (frames : List Frame) (cs rest : List Char) :
    (marksFrom frames (cs ++ rest)).drop cs.length =
      match framesAfter frames cs rest with
      | some next => marksFrom next rest
      | none => rest.map fun _ => .inside := by
  induction cs generalizing frames with
  | nil => rfl
  | cons c cs ih =>
    rw [List.cons_append, marksFrom, framesAfter]
    cases hstep : step frames c (cs ++ rest) with
    | none =>
      simp only [Option.bind_none, List.length_cons, List.drop_succ_cons]
      rw [List.map_append, List.drop_left' (by simp)]
    | some next => exact ih next

theorem framesAfter_append (frames : List Frame) (cs ds rest : List Char) :
    framesAfter frames (cs ++ ds) rest =
      (framesAfter frames cs (ds ++ rest)).bind fun next => framesAfter next ds rest := by
  induction cs generalizing frames with
  | nil => rfl
  | cons c cs ih =>
    simp only [List.cons_append, framesAfter, List.append_assoc, ih, Option.bind_assoc]

/-- Characters that open no literal or comment, when `rest` follows. -/
def Plain : (cs rest : List Char) → Prop
  | [], _ => True
  | c :: cs, rest => inertFrames c (cs ++ rest) = [] ∧ Plain cs rest

theorem framesAfter_plain {cs rest : List Char} (h : Plain cs rest) :
    framesAfter [] cs rest = some [] := by
  induction cs with
  | nil => rfl
  | cons c cs ih => rw [framesAfter, step, h.1, Option.bind_some, ih h.2]

theorem marksFrom_plain {cs rest : List Char} (h : Plain cs rest) :
    marksFrom [] (cs ++ rest) = (cs.map fun _ => .live) ++ marksFrom [] rest := by
  induction cs with
  | nil => rfl
  | cons c cs ih =>
    rw [List.cons_append, marksFrom, step, h.1]
    simp only [markOf, List.isEmpty_nil, if_true, List.map_cons, List.cons_append, ih h.2]

/-- The mark of a character comes from the frames that are open in front of it. -/
theorem getElem?_marks_append (front rest : List Char) : (marks (front ++ rest))[front.length]? =
    match framesAfter [] front rest with
    | some frames => (marksFrom frames rest)[0]?
    | none => (rest.map fun _ => Mark.inside)[0]? := by
  have hhead : (marks (front ++ rest))[front.length]? = ((marks (front ++ rest)).drop front.length)[0]? := by simp
  rw [hhead, marks, drop_marksFrom]
  cases framesAfter [] front rest <;> rfl

/-- A character is live exactly where no frame is open and it opens none. A line feed that ends a comment
is the one live character at which a frame is still open. -/
theorem getElem?_marks_eq_live_iff {cs rest : List Char} {c : Char} (hc : c ≠ '\n') :
    (marks (cs ++ c :: rest))[cs.length]? = some .live ↔
      framesAfter [] cs (c :: rest) = some [] ∧ inertFrames c rest = [] := by
  rw [getElem?_marks_append]
  cases hframes : framesAfter [] cs (c :: rest) with
  | none => simp
  | some frames =>
    simp only [marksFrom, Option.some_inj]
    cases hstep : step frames c rest with
    | none =>
      have hne : frames ≠ [] := by
        rintro rfl
        simp [step] at hstep
      simp [hne]
    | some next =>
      simp only [List.getElem?_cons_zero, Option.some_inj, markOf_eq_live_iff, hc, and_false,
        or_false, and_congr_right_iff]
      rintro rfl
      obtain rfl : inertFrames c rest = next := by simpa [step] using hstep
      rfl

theorem not_covered_iff_opens {cs rest : List Char} {c : Char} (hc : c ≠ '\n') :
    ¬ Covered (cs ++ c :: rest) cs.length ↔
      framesAfter [] cs (c :: rest) = some [] ∧ inertFrames c rest = [] := by
  rw [not_covered_iff (by simp), getElem?_marks_eq_live_iff hc]

theorem not_covered_iff_framesAfter {cs rest : List Char} {c : Char} (hc : c ≠ '\n')
    (hopens : inertFrames c rest = []) :
    ¬ Covered (cs ++ c :: rest) cs.length ↔ framesAfter [] cs (c :: rest) = some [] := by
  rw [not_covered_iff_opens hc, and_iff_left hopens]

/-- From a live character on, the text is read as if it began there. -/
theorem drop_marks_of_live {cs rest : List Char} {c : Char} (hc : c ≠ '\n')
    (hopens : inertFrames c rest = []) (h : ¬ Covered (cs ++ c :: rest) cs.length) :
    (marks (cs ++ c :: rest)).drop cs.length = marksFrom [] (c :: rest) := by
  rw [marks, drop_marksFrom, (not_covered_iff_framesAfter hc hopens).1 h]

end Codemod.Source
