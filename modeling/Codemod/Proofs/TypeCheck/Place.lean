import Codemod.Proofs.Text.Span
import Codemod.TypeCheck.Report
import Mathlib.Order.Bounds.Basic

/-! Places of a text by line and column. The place that is written down for an offset leads back to it, and
every place, also one that the text does not have, leads to a span inside the text. -/
namespace Codemod
open Text

namespace Text
variable {text : List Char}

/-! ## Lines -/

theorem lineStartsFrom_append (pos : Nat) (cs ds : List Char) :
    lineStartsFrom pos (cs ++ ds) = lineStartsFrom pos cs ++ lineStartsFrom (pos + cs.length) ds := by
  induction cs generalizing pos with
  | nil => rfl
  | cons c cs ih =>
    rw [List.cons_append, lineStartsFrom, lineStartsFrom, ih, List.length_cons, Nat.add_right_comm,
      Nat.add_assoc]
    split <;> rfl

/-- Each line feed begins a line. -/
theorem length_lineStartsFrom (pos : Nat) (cs : List Char) : (lineStartsFrom pos cs).length = cs.count '\n' := by
  induction cs generalizing pos with
  | nil => rfl
  | cons c cs ih =>
    rw [lineStartsFrom]
    split
    · next hc => rw [hc, List.length_cons, ih, List.count_cons_self]
    · next hc => rw [ih, List.count_cons_of_ne hc]

theorem length_lineStarts (text : List Char) : (lineStarts text).length = text.count '\n' + 1 := by
  rw [lineStarts, List.length_cons, length_lineStartsFrom]

/-- What stands in front of an offset: the lines before its own, and what its own line holds up to there. -/
theorem exists_lastLine (front : List Char) : ∃ head line, front = head ++ line ∧ '\n' ∉ line ∧
    (front.reverse.takeWhile (· != '\n')).length = line.length ∧ (head = [] ∨ ∃ before, head = before ++ ['\n']) := by
  obtain ⟨run, rest, hsplit, hrun, hrest⟩ := exists_span (· != '\n') front.reverse
  refine ⟨rest.reverse, run.reverse, ?_, fun hm => ?_, ?_, ?_⟩
  · rw [← List.reverse_append, ← hsplit, List.reverse_reverse]
  · simpa using hrun _ (List.mem_reverse.1 hm)
  · rw [hsplit, takeWhile_span hrun hrest, List.length_reverse]
  · cases rest with
    | nil => exact .inl rfl
    | cons c rest =>
      obtain rfl : c = '\n' := by simpa using hrest c rfl
      exact .inr ⟨rest.reverse, List.reverse_cons⟩

/-- The line of an offset begins behind the last line feed in front of it. -/
theorem getElem?_lineStarts {head line : List Char} (hline : '\n' ∉ line)
    (hhead : head = [] ∨ ∃ before, head = before ++ ['\n']) (rest : List Char) :
    (lineStarts (head ++ line ++ rest))[(head ++ line).count '\n']? = some head.length := by
  rw [List.count_append, List.count_eq_zero_of_not_mem hline, Nat.add_zero]
  rcases hhead with rfl | ⟨before, rfl⟩
  · rfl
  · have hcount : (before ++ ['\n']).count '\n' = (lineStartsFrom 0 before).length + 1 := by
      rw [length_lineStartsFrom, List.count_append, List.count_singleton_self]
    rw [hcount, lineStarts, List.getElem?_cons_succ, List.append_assoc, List.append_assoc,
      lineStartsFrom_append, List.getElem?_append_right (Nat.le_refl _), Nat.sub_self, List.singleton_append,
      lineStartsFrom, if_pos rfl, List.getElem?_cons_zero, Nat.zero_add, List.length_append, List.length_singleton]

/-- The line and column of an offset lead back to it. -/
theorem offsetAt?_lineColumn {o : Nat} (ho : o ≤ text.length) :
    offsetAt? text (lineColumn text o).1 (lineColumn text o).2 = some o := by
  obtain ⟨head, line, hsplit, hline, hrun, hhead⟩ := exists_lastLine (text.take o)
  have hlen : head.length + line.length = o := by
    rw [← List.length_append, ← hsplit, List.length_take_of_le ho]
  have htext : text = head ++ line ++ text.drop o := by rw [← hsplit, List.take_append_drop]
  have hstart : (lineStarts text)[(text.take o).count '\n']? = some head.length := by
    have hat := getElem?_lineStarts hline hhead (text.drop o)
    rwa [← htext, ← hsplit] at hat
  have hcolumn : ((line.length + 1 : Nat) - 1 : Int).toNat = line.length := by omega
  have hrow : (((text.take o).count '\n' + 1 : Nat) - 1 : Int).toNat = (text.take o).count '\n' := by omega
  rw [lineColumn, hrun, offsetAt?, if_neg (by omega), hrow, hstart, Option.map_some, hcolumn, hlen, Nat.min_eq_left ho]

theorem offsetAt?_le {line column : Int} {o : Nat} (h : offsetAt? text line column = some o) : o ≤ text.length := by
  rw [offsetAt?] at h
  split at h
  · cases h
  · obtain ⟨start, -, rfl⟩ := Option.map_eq_some_iff.1 h
    exact Nat.min_le_right _ _

theorem offsetAt?_eq_none {line : Int} (h : line < 1 ∨ text.count '\n' + 1 < line) (column : Int) :
    offsetAt? text line column = none := by
  rw [offsetAt?]
  split
  · rfl
  · rw [List.getElem?_eq_none, Option.map_none]
    rw [length_lineStarts]
    omega

/-! ## Identifiers -/

/-- The identifier at an offset is the longest run of its characters. -/
theorem isGreatest_identifierEnd {o : Nat} (ho : o ≤ text.length) :
    IsGreatest {e | o ≤ e ∧ e ≤ text.length ∧ ∀ c ∈ between o e text, isIdentifier c = true}
      (identifierEnd text o) := by
  obtain ⟨run, rest, hsplit, hrun, hrest⟩ := exists_span isIdentifier (text.drop o)
  have hend : identifierEnd text o = o + run.length := by rw [identifierEnd, hsplit, takeWhile_span hrun hrest]
  have hlen := congrArg List.length hsplit
  rw [List.length_drop, List.length_append] at hlen
  rw [hend]
  refine ⟨⟨Nat.le_add_right _ _, by omega, fun c hc => ?_⟩, fun e ⟨hlow, hhigh, hall⟩ => ?_⟩
  · rw [between, hsplit, Nat.add_sub_cancel_left, List.take_left] at hc
    exact hrun c hc
  · by_contra hbeyond
    obtain ⟨c, rest, rfl⟩ : ∃ c rest', rest = c :: rest' := by
      refine List.exists_cons_of_ne_nil fun hnil => ?_
      rw [hnil, List.length_nil] at hlen
      omega
    have hmem : c ∈ between o e text := by
      obtain ⟨k, hk⟩ : ∃ k, e - o = run.length + (k + 1) := ⟨e - o - run.length - 1, by omega⟩
      rw [between, hsplit, hk, List.take_length_add_append, List.take_succ_cons]
      simp
    have hno := hrest c rfl
    rw [hall c hmem] at hno
    cases hno

end Text

namespace Report

/-- The span at the line and column of an offset begins there and covers the identifier that does. Every line
and column have a span inside the text; it is empty, in front of the text, for a line that the text lacks. -/
theorem spanAt_covers_place (text : List Char) :
    (∀ o ≤ text.length,
      (spanAt text (lineColumn text o).1 (lineColumn text o).2).start = o ∧
      IsGreatest {e | o ≤ e ∧ e ≤ text.length ∧ ∀ c ∈ between o e text, isIdentifier c = true}
        (spanAt text (lineColumn text o).1 (lineColumn text o).2).stop) ∧
    ∀ line column : Int,
      (spanAt text line column).start ≤ (spanAt text line column).stop ∧
      (spanAt text line column).stop ≤ text.length ∧
      (line < 1 ∨ text.count '\n' + 1 < line → spanAt text line column = .zero) := by
  refine ⟨fun o ho => ?_, fun line column => ⟨(spanAt text line column).start_le_stop, ?_, fun hline => ?_⟩⟩
  · rw [spanAt, offsetAt?_lineColumn ho]
    exact ⟨rfl, isGreatest_identifierEnd ho⟩
  · rw [spanAt]
    split
    · next o ho => exact (isGreatest_identifierEnd (offsetAt?_le ho)).1.2.1
    · exact Nat.zero_le _
  · rw [spanAt, offsetAt?_eq_none hline]

theorem spanAt_covers_place_sample :
    let text := "x\r\n\n  foo1 = $y\r\n".toList
    6 ≤ text.length ∧ lineColumn text 6 = (3, 3) ∧ (spanAt text 3 3).start = 6 ∧
      IsGreatest {e | 6 ≤ e ∧ e ≤ text.length ∧ ∀ c ∈ between 6 e text, isIdentifier c = true}
        (spanAt text 3 3).stop ∧ text.count '\n' + 1 < (6 : Int) ∧ spanAt text 6 1 = .zero := by
  intro text
  have hlen : 6 ≤ text.length := by decide
  have hplace : lineColumn text 6 = (3, 3) := by decide
  obtain ⟨hstart, hstop⟩ := (spanAt_covers_place text).1 6 hlen
  rw [hplace] at hstart hstop
  exact ⟨hlen, hplace, hstart, hstop, by decide, ((spanAt_covers_place text).2 6 1).2.2 (.inr (by decide))⟩

end Report
end Codemod
