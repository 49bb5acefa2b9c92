import Codemod.Proofs.Text.Span
import Codemod.Source.Splice

/-! The edit near an anchor replaces one occurrence of a piece: the first of those that lie within the window
around the anchor, or else the first of all. -/
namespace Codemod.Source
open Text

/-- The piece, where it stands at `i`, lies within `window` characters of the first place of the anchor. -/
def LiesNear (text anchor piece : List Char) (window i : Nat) : Prop :=
  ∃ a, IsLeast {a | Occurs anchor text a} a ∧ a ≤ i + window ∧ i + piece.length ≤ a + anchor.length + window

/-- The piece stands at `i`, near an anchor that is given and not empty. -/
def OccursNear (text : List Char) (anchor : Option (List Char)) (piece : List Char) (window i : Nat) : Prop :=
  Occurs piece text i ∧ ∃ a ∈ anchor, a ≠ [] ∧ LiesNear text a piece window i

/-- The occurrence to replace. -/
inductive Chosen (text : List Char) (anchor : Option (List Char)) (piece : List Char) (window i : Nat) : Prop
  | near (h : IsLeast {i | OccursNear text anchor piece window i} i)
  | anywhere (hnone : ∀ j, ¬ OccursNear text anchor piece window j) (h : IsLeast {i | Occurs piece text i} i)

variable {text piece a : List Char} {anchor : Option (List Char)} {window at' i : Nat}

theorem Chosen.occurs (h : Chosen text anchor piece window i) : Occurs piece text i := by
  cases h with
  | near h => exact h.1.1
  | anywhere _ h => exact h.1

/-- An anchor that is not given, or is empty, or does not stand in the text has nothing near it. -/
theorem not_occursNear (h : ∀ a ∈ anchor, a ≠ [] → ∀ i, ¬ Occurs a text i) (j : Nat) :
    ¬ OccursNear text anchor piece window j := by
  rintro ⟨-, a, ha, hne, b, hb, -⟩
  exact h a ha hne b hb.1

theorem anchoredAt?_of_absent (h : ∀ a ∈ anchor, a ≠ [] → ∀ i, ¬ Occurs a text i) (window : Int) :
    anchoredAt? text anchor piece window = find? piece text := by
  cases anchor with
  | none => rfl
  | some a =>
    by_cases hnil : a = []
    · subst hnil
      rfl
    · have hnone : find? a text = none := find?_eq_none_iff.2 (h a rfl hnil)
      rw [anchoredAt?, Option.filter_some_pos (by simpa using hnil), Option.bind_some, hnone]
      rfl

/-- The window around the first place of the anchor, cut at both ends of the text. -/
theorem anchoredAt?_of_occurs (ha : IsLeast {i | Occurs a text i} at') (hne : a ≠ []) (window : Nat) :
    anchoredAt? text (some a) piece window =
      (findWithin? piece text (at' - window) (min text.length (at' + a.length + window))).or
        (find? piece text) := by
  have hlow : (max 0 ((at' : Int) - window)).toNat = at' - window := by omega
  have hhigh : (min (text.length : Int) (at' + a.length + window)).toNat =
      min text.length (at' + a.length + window) := by omega
  rw [anchoredAt?, Option.filter_some_pos (by simpa using hne), Option.bind_some, find?_eq_some_iff.2 ha,
    Option.bind_some, if_neg (by omega), hlow, hhigh, Option.orElse_eq_or]

/-- What stands between the ends of the window is what stands near the anchor. -/
theorem occursNear_iff (ha : IsLeast {i | Occurs a text i} at') (hne : a ≠ []) (hpiece : piece ≠ []) :
    OccursNear text (some a) piece window i ↔ Occurs piece text i ∧ at' - window ≤ i ∧
      i + piece.length ≤ min text.length (at' + a.length + window) := by
  constructor
  · rintro ⟨hi, b, hb, -, c, hc, hlow, hhigh⟩
    obtain rfl := Option.some_inj.1 hb
    obtain rfl := ha.unique hc
    have hlen := hi.add_length_le hpiece
    exact ⟨hi, by omega, by omega⟩
  · rintro ⟨hi, hlow, hhigh⟩
    exact ⟨hi, a, rfl, hne, at', ha, by omega, by omega⟩

theorem anchoredAt?_eq_some_iff (hpiece : piece ≠ []) :
    anchoredAt? text anchor piece window = some i ↔ Chosen text anchor piece window i := by
  have hanywhere (hnone : ∀ j, ¬ OccursNear text anchor piece window j) :
      Chosen text anchor piece window i ↔ IsLeast {i | Occurs piece text i} i :=
    ⟨fun h => h.casesOn (fun hnear => absurd hnear.1 (hnone _)) fun _ h => h, .anywhere hnone⟩
  by_cases habsent : ∀ a ∈ anchor, a ≠ [] → ∀ i, ¬ Occurs a text i
  · rw [anchoredAt?_of_absent habsent, find?_eq_some_iff, hanywhere (not_occursNear habsent)]
  · push Not at habsent
    obtain ⟨a, rfl, hne, hoccurs⟩ := habsent
    obtain ⟨at', ha⟩ : ∃ at', IsLeast {i | Occurs a text i} at' := by
      cases hfind : find? a text with
      | none => exact absurd hoccurs.choose_spec (find?_eq_none_iff.1 hfind _)
      | some at' => exact ⟨at', find?_eq_some_iff.1 hfind⟩
    have hnear : {i | OccursNear text (some a) piece window i} = {i | Occurs piece text i ∧ at' - window ≤ i ∧
        i + piece.length ≤ min text.length (at' + a.length + window)} :=
      Set.ext fun _ => occursNear_iff ha hne hpiece
    rw [anchoredAt?_of_occurs ha hne]
    cases hfind : findWithin? piece text (at' - window) (min text.length (at' + a.length + window)) with
    | some j =>
      have hleast := (findWithin?_eq_some_iff hpiece).1 hfind
      rw [← hnear] at hleast
      rw [Option.some_or, Option.some_inj]
      constructor
      · rintro rfl
        exact .near hleast
      · rintro (h | ⟨hnone, -⟩)
        · exact hleast.unique h
        · exact absurd hleast.1 (hnone j)
    | none =>
      have hnone := (findWithin?_eq_none_iff hpiece).1 hfind
      rw [Option.none_or, find?_eq_some_iff, hanywhere fun j hj => ?_]
      obtain ⟨hj, hlow, hhigh⟩ := (occursNear_iff ha hne hpiece).1 hj
      exact hnone j hj hlow hhigh

theorem exists_chosen (hpiece : piece ≠ []) (h : Occurs piece text i) (anchor : Option (List Char)) (window : Nat) :
    ∃ j, Chosen text anchor piece window j ∧ anchoredAt? text anchor piece window = some j := by
  cases hfound : anchoredAt? text anchor piece window with
  | some j => exact ⟨j, (anchoredAt?_eq_some_iff hpiece).1 hfound, rfl⟩
  | none =>
    rw [anchoredAt?, Option.orElse_eq_or, Option.or_eq_none_iff] at hfound
    exact absurd h (find?_eq_none_iff.1 hfound.2 i)

/-- The edit leaves a text alone that lacks the piece, and so it does when the piece is empty or one of the two
texts is too long. Otherwise it exchanges one occurrence and keeps what stands on both sides of it: the first
one near the anchor or, where there is none, the first one of all. -/
theorem editNearAnchor_replaces_one (text : List Char) (anchor : Option (List Char)) (before after : List Char)
    (maxLength : Int) (window : Nat) :
    ((before = [] ∨ maxLength < before.length ∨ maxLength < after.length ∨ ∀ i, ¬ Occurs before text i) →
      editNearAnchor text anchor before after maxLength window = text) ∧
    (before ≠ [] → before.length ≤ maxLength → after.length ≤ maxLength → (∃ i, Occurs before text i) →
      ∃ front behind, text = front ++ (before ++ behind) ∧ Chosen text anchor before window front.length ∧
        editNearAnchor text anchor before after maxLength window = front ++ (after ++ behind) ∧
        ((editNearAnchor text anchor before after maxLength window).length : Int) =
          text.length + (after.length - before.length)) := by
  refine ⟨fun h => ?_, fun hne hbefore hafter hoccurs => ?_⟩
  · rw [editNearAnchor]
    split
    · rfl
    · next hgiven =>
      obtain ⟨⟨hne, hbefore⟩, hafter⟩ : (before ≠ [] ∧ before.length ≤ maxLength) ∧ after.length ≤ maxLength := by
        simpa using hgiven
      rcases h with h | h | h | habsent
      · exact absurd h hne
      · omega
      · omega
      · split
        · rfl
        · next i hi => exact absurd ((anchoredAt?_eq_some_iff hne).1 hi).occurs (habsent i)
  · obtain ⟨i, hi⟩ := hoccurs
    obtain ⟨j, hchosen, hfound⟩ := exists_chosen hne hi anchor window
    have hsplit := hchosen.occurs.eq_append
    have hfront : (text.take j).length = j := by
      have hlen := hchosen.occurs.add_length_le hne
      exact List.length_take_of_le (by omega)
    have hedit : editNearAnchor text anchor before after maxLength window =
        text.take j ++ (after ++ text.drop (j + before.length)) := by
      have hgiven : ¬ (before.isEmpty || decide (maxLength < before.length) ||
          decide (maxLength < after.length)) = true := by simpa [hne] using ⟨hbefore, hafter⟩
      rw [editNearAnchor, if_neg hgiven, hfound, ← List.append_assoc]
    refine ⟨_, _, hsplit, by rwa [hfront], hedit, ?_⟩
    have hlen := congrArg List.length hsplit
    rw [hedit]
    simp only [List.length_append] at hlen ⊢
    omega

theorem editNearAnchor_replaces_one_sample :
    let text := "a = 1; b(); go(); a = 1;".toList
    let before := "= 1".toList
    before ≠ [] ∧ (before.length : Int) ≤ 200 ∧ (∃ i, Occurs before text i) ∧
      ∃ front behind, text = front ++ (before ++ behind) ∧
        Chosen text (some "go".toList) before 9 front.length ∧
        editNearAnchor text (some "go".toList) before "= 2".toList 200 9 = front ++ ("= 2".toList ++ behind) := by
  intro text before
  have hoccurs : ∃ i, Occurs before text i := ⟨2, by decide⟩
  obtain ⟨front, behind, htext, hchosen, hedit, -⟩ := (editNearAnchor_replaces_one text (some "go".toList) before
    "= 2".toList 200 9).2 (by decide) (by decide) (by decide) hoccurs
  exact ⟨by decide, by decide, hoccurs, front, behind, htext, hchosen, hedit⟩

/-- The occurrence near the anchor is not the first one. -/
example : editNearAnchor "a = 1; b(); go(); a = 1;".toList (some "go".toList) "= 1".toList "= 2".toList 200 9 =
    "a = 1; b(); go(); a = 2;".toList := by decide

end Codemod.Source
