import Codemod.Text.Blank

/-! Texts written line by line. -/
namespace Codemod.Text

/-- The text consists of the lines, each with its end behind it. The last line may lack one, and is not
empty then. -/
inductive Lined : List (List Char) → List Char → Prop
  | nil : Lined [] []
  | feed (line : List Char) {rest : List (List Char)} {text : List Char} (h : Lined rest text) :
    Lined (line :: rest) (line ++ '\n' :: text)
  | crlf (line : List Char) {rest : List (List Char)} {text : List Char} (h : Lined rest text) :
    Lined (line :: rest) (line ++ '\r' :: '\n' :: text)
  | last {line : List Char} (h : line ≠ []) : Lined [line] line

/-- Nothing in the line ends it. -/
def Unbroken (line : List Char) : Prop := ∀ c ∈ line, isLineBreak c = false

instance (line : List Char) : Decidable (Unbroken line) :=
  decidable_of_iff (line.all (!isLineBreak ·) = true) (by simp [Unbroken])

variable {line text : List Char}

theorem unbroken_append_iff {rest : List Char} :
    Unbroken (line ++ rest) ↔ Unbroken line ∧ Unbroken rest := List.forall_mem_append

theorem lines_cons {c : Char} (hc : isLineBreak c = false) (d : Char) {first : List Char}
    {rest : List (List Char)} (h : lines (d :: text) = first :: rest) :
    lines (c :: d :: text) = (c :: first) :: rest := by
  rw [lines.eq_def]
  split
  · next heq => cases heq
  · next heq =>
    obtain ⟨rfl, -⟩ := List.cons.inj heq
    exact absurd hc (by decide)
  · next heq =>
    obtain ⟨rfl, rfl⟩ := List.cons.inj heq
    rw [if_neg (by simp [hc]), h]

theorem lines_singleton {c : Char} (hc : isLineBreak c = false) : lines [c] = [[c]] := by
  simp [lines, hc]

theorem lines_feed (text : List Char) : lines ('\n' :: text) = [] :: lines text := by
  rw [lines.eq_def]
  split
  · next heq => cases heq
  · next heq => cases (List.cons.inj heq).1
  · next heq =>
    obtain ⟨rfl, rfl⟩ := List.cons.inj heq
    rw [if_pos (by decide)]

theorem lines_crlf (text : List Char) : lines ('\r' :: '\n' :: text) = [] :: lines text := by
  rw [lines]

/-- Characters that end no line go in front of the first line. -/
theorem lines_append (hline : Unbroken line) (d : Char) {first : List Char}
    {rest : List (List Char)} (h : lines (d :: text) = first :: rest) :
    lines (line ++ d :: text) = (line ++ first) :: rest := by
  induction line with
  | nil => exact h
  | cons c line ih =>
    have hc : isLineBreak c = false := hline c (by simp)
    have hrest := ih fun e he => hline e (by simp [he])
    cases line with
    | nil => exact lines_cons hc d hrest
    | cons e line => exact lines_cons hc e hrest

theorem lines_last (hline : Unbroken line) (h : line ≠ []) : lines line = [line] := by
  induction line with
  | nil => exact absurd rfl h
  | cons c line ih =>
    have hc : isLineBreak c = false := hline c (by simp)
    cases line with
    | nil => exact lines_singleton hc
    | cons d line => exact lines_cons hc d (ih (fun e he => hline e (by simp [he])) (by simp))

/-- The lines of a text that was written line by line. -/
theorem lines_of_lined {ls : List (List Char)} (h : Lined ls text) (hls : ∀ l ∈ ls, Unbroken l) :
    lines text = ls := by
  induction h with
  | nil => rfl
  | feed line h ih =>
    have hrest := ih fun l hl => hls l (by simp [hl])
    rw [lines_append (hls line (by simp)) '\n' (lines_feed _), hrest, List.append_nil]
  | crlf line h ih =>
    have hrest := ih fun l hl => hls l (by simp [hl])
    rw [lines_append (hls line (by simp)) '\r' (lines_crlf _), hrest, List.append_nil]
  | last h => exact lines_last (hls _ (by simp)) h

/-! ## Line ends made the same -/

theorem unifyLineEnds_append {word : List Char} (h : '\r' ∉ word) (rest : List Char) :
    unifyLineEnds (word ++ rest) = word ++ unifyLineEnds rest := by
  induction word with
  | nil => rfl
  | cons c word ih =>
    rw [List.mem_cons, not_or] at h
    rw [List.cons_append, unifyLineEnds, if_neg (Ne.symm h.1), ih h.2, List.cons_append]
    exact fun _ hc _ => h.1 hc.symm

theorem unifyLineEnds_eq_self {cs : List Char} (h : '\r' ∉ cs) : unifyLineEnds cs = cs := by
  have happend := unifyLineEnds_append h []
  rwa [unifyLineEnds, List.append_nil] at happend

end Codemod.Text
