import Codemod.Source.Splice
import Mathlib.Data.List.Sort

/-! Carrying out edits from the left. The order in which edits are listed does not matter when no two of
them begin at one offset, and edits that lie in order are carried out piece by piece. -/
namespace Codemod.Source

theorem Edit.before_total (a b : Edit) : (a.before b || b.before a) = true := by
  simp only [Edit.before, Bool.or_eq_true, Bool.and_eq_true, decide_eq_true_eq, beq_iff_eq]
  omega

theorem Edit.before_trans {a b c : Edit} (hab : a.before b = true) (hbc : b.before c = true) :
    a.before c = true := by
  simp only [Edit.before, Bool.or_eq_true, Bool.and_eq_true, decide_eq_true_eq, beq_iff_eq] at *
  omega

theorem Edit.before_of_lt {a b : Edit} (h : a.start < b.start) : a.before b = true := by
  simp [Edit.before, h]

theorem Edit.pairwise_mergeSort (edits : List Edit) :
    (edits.mergeSort Edit.before).Pairwise fun a b => a.before b = true := by
  apply List.pairwise_mergeSort
  · intro a b c
    exact Edit.before_trans
  · exact Edit.before_total

/-- Edits listed in any order are carried out from the left. -/
theorem splice_of_perm {text : List Char} {edits sorted : List Edit} (hp : sorted.Perm edits)
    (hs : sorted.Pairwise fun a b => a.start < b.start) :
    splice text edits = spliceFrom 0 text sorted := by
  have hsorted : sorted.Pairwise fun a b => a.before b = true := hs.imp Edit.before_of_lt
  have hperm : (edits.mergeSort Edit.before).Perm sorted :=
    (List.mergeSort_perm edits Edit.before).trans hp.symm
  have hstarts : (sorted.map Edit.start).Nodup :=
    List.pairwise_map.2 (hs.imp fun h => Nat.ne_of_lt h)
  have heq : edits.mergeSort Edit.before = sorted := by
    refine hperm.eq_of_pairwise ?_ (Edit.pairwise_mergeSort edits) hsorted
    intro a b ha hb hab hba
    have hstart : a.start = b.start := by
      simp only [Edit.before, Bool.or_eq_true, Bool.and_eq_true, decide_eq_true_eq,
        beq_iff_eq] at hab hba
      omega
    exact List.inj_on_of_nodup_map hstarts (hperm.subset ha) hb hstart
  rw [splice, heq]

/-- Text in front of all edits is kept. -/
theorem spliceFrom_append {cursor : Nat} (kept : List Char) {edits : List Edit}
    (h : ∀ e ∈ edits, cursor + kept.length ≤ e.start ∧ e.start ≤ e.stop) (rest : List Char) :
    spliceFrom cursor (kept ++ rest) edits =
      kept ++ spliceFrom (cursor + kept.length) rest edits := by
  cases edits with
  | nil => rfl
  | cons e edits =>
    obtain ⟨hstart, hstop⟩ := h e (by simp)
    have htake : (kept ++ rest).take (e.start - cursor) =
        kept ++ rest.take (e.start - (cursor + kept.length)) := by
      rw [List.take_append, List.take_of_length_le (by omega)]
      congr 2
      omega
    have hdrop : (kept ++ rest).drop (e.stop - cursor) =
        rest.drop (e.stop - (cursor + kept.length)) := by
      rw [List.drop_append, List.drop_eq_nil_of_le (by omega), List.nil_append]
      congr 1
      omega
    rw [spliceFrom, spliceFrom, if_neg (by omega), if_neg (by omega), htake, hdrop]
    simp only [List.append_assoc]

/-- An edit at the cursor replaces what it covers. -/
theorem spliceFrom_replace (e : Edit) {covered : List Char}
    (hstop : e.stop = e.start + covered.length) (rest : List Char) (edits : List Edit) :
    spliceFrom e.start (covered ++ rest) (e :: edits) = e.text ++ spliceFrom e.stop rest edits := by
  rw [spliceFrom, if_neg (by omega), hstop]
  simp

/-- Two edits that do not overlap are carried out one after the other, the later one first. -/
theorem splice_pair {text : List Char} {e later : Edit} {edits : List Edit}
    (hperm : edits.Perm [e, later]) (hstart : e.start < later.start) (hstop : e.stop ≤ later.start)
    (hlater : later.start ≤ later.stop) (hlen : later.start ≤ text.length) :
    splice text edits = splice (splice text [later]) [e] := by
  have hsorted : [e, later].Pairwise fun a b => a.start < b.start := by simpa using hstart
  have htake : (text.take later.start).length = later.start := by simp [hlen]
  have hfront : (text.take later.start ++ (later.text ++ text.drop later.stop)).take e.start =
      text.take e.start := by
    rw [List.take_append_of_le_length (by omega), List.take_take, Nat.min_eq_left (by omega)]
  have hback : (text.take later.start ++ (later.text ++ text.drop later.stop)).drop e.stop =
      (text.drop e.stop).take (later.start - e.stop) ++ (later.text ++ text.drop later.stop) := by
    rw [List.drop_append_of_le_length (by omega), List.drop_take]
  have hrest : (text.drop e.stop).drop (later.stop - e.stop) = text.drop later.stop := by
    rw [List.drop_drop]
    congr 1
    omega
  rw [splice_of_perm hperm.symm hsorted, splice_singleton, splice_singleton, List.append_assoc
    (text.take later.start), hfront, hback]
  simp only [spliceFrom, Nat.not_lt_zero, if_false, Nat.sub_zero]
  rw [if_neg (by omega), hrest, List.append_assoc (List.take _ (text.drop e.stop))]

/-! ## Edits that lie apart -/

/-- The new text is the old one from an offset on with the ranges of the edits replaced: every other
character stays, in its order. -/
inductive Replaced : Nat → List Edit → List Char → List Char → Prop
  | rest (cursor : Nat) (kept : List Char) : Replaced cursor [] kept kept
  | edit {cursor : Nat} {e : Edit} {edits : List Edit} {old new : List Char} (kept covered : List Char)
      (start_eq : e.start = cursor + kept.length) (stop_eq : e.stop = e.start + covered.length)
      (later : Replaced e.stop edits old new) :
      Replaced cursor (e :: edits) (kept ++ (covered ++ old)) (kept ++ (e.text ++ new))

/-- Edits in order that do not overlap and lie inside the text. -/
structure Apart (text : List Char) (edits : List Edit) : Prop where
  pairwise : edits.Pairwise fun a b => a.start < b.start ∧ a.stop ≤ b.start
  inside : ∀ e ∈ edits, e.start ≤ e.stop ∧ e.stop ≤ text.length

theorem replaced_spliceFrom {cursor : Nat} {old : List Char} {edits : List Edit}
    (hpairwise : edits.Pairwise fun a b => a.stop ≤ b.start)
    (hinside : ∀ e ∈ edits, cursor ≤ e.start ∧ e.start ≤ e.stop ∧ e.stop ≤ cursor + old.length) :
    Replaced cursor edits old (spliceFrom cursor old edits) := by
  induction edits generalizing cursor old with
  | nil => exact .rest cursor old
  | cons e edits ih =>
    obtain ⟨hbehind, hpairwise⟩ := List.pairwise_cons.1 hpairwise
    obtain ⟨hcursor, hcovers, hend⟩ := hinside e (by simp)
    have hsplit : old = old.take (e.start - cursor) ++
        ((old.drop (e.start - cursor)).take (e.stop - e.start) ++ old.drop (e.stop - cursor)) := by
      have hdrop : old.drop (e.stop - cursor) =
          (old.drop (e.start - cursor)).drop (e.stop - e.start) := by
        rw [List.drop_drop]
        congr 1
        omega
      rw [hdrop, List.take_append_drop, List.take_append_drop]
    have hlater : Replaced e.stop edits (old.drop (e.stop - cursor))
        (spliceFrom e.stop (old.drop (e.stop - cursor)) edits) := by
      refine ih hpairwise fun e' he' => ?_
      have hstop := hbehind e' he'
      obtain ⟨-, hcovers', hend'⟩ := hinside e' (by simp [he'])
      simp only [List.length_drop]
      omega
    have hstart : e.start = cursor + (old.take (e.start - cursor)).length := by
      rw [List.length_take]
      omega
    have hstop : e.stop =
        e.start + ((old.drop (e.start - cursor)).take (e.stop - e.start)).length := by
      rw [List.length_take, List.length_drop]
      omega
    have hstep := Replaced.edit _ _ hstart hstop hlater
    rw [← hsplit] at hstep
    rw [spliceFrom, if_neg (by omega), List.append_assoc]
    exact hstep

/-- Edits that lie apart are all carried out, in whatever order they are listed. -/
theorem Apart.replaced_splice {text : List Char} {edits listed : List Edit} (h : Apart text edits)
    (hp : edits.Perm listed) : Replaced 0 edits text (splice text listed) := by
  rw [splice_of_perm hp (h.pairwise.imp And.left)]
  exact replaced_spliceFrom (h.pairwise.imp And.right) fun e he => by simpa using h.inside e he

/-- What an edit puts in stands in the text that results. -/
theorem Replaced.exists_append {cursor : Nat} {edits : List Edit} {old new : List Char}
    (h : Replaced cursor edits old new) {e : Edit} (he : e ∈ edits) :
    ∃ front rest, new = front ++ (e.text ++ rest) := by
  induction h with
  | rest => cases he
  | @edit cursor e' edits old new kept covered hstart hstop later ih =>
    rcases List.mem_cons.1 he with rfl | he
    · exact ⟨kept, new, rfl⟩
    · obtain ⟨front, rest, rfl⟩ := ih he
      exact ⟨kept ++ (e'.text ++ front), rest, by simp⟩

end Codemod.Source
