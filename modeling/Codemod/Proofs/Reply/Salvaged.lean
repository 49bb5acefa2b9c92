import Codemod.Proofs.Json.Behind
import Codemod.Proofs.Json.RoundTrip
import Codemod.Proofs.Reply.Bracketed
import Codemod.Proofs.Reply.Fence

/-! What is taken out of an answer that is no JSON as a whole: the first array or object, from its opening
bracket to its closing one, whatever stands in its strings and whatever comes behind it. -/
namespace Codemod.Reply
open Text Json

theorem isAtomChar_of_isBlank {c : Char} (h : isBlank c = true) : isAtomChar c = false := by
  rw [Bool.eq_false_iff]
  intro hatom
  rw [isBlank_of_isAtomChar hatom] at h
  cases h

theorem isAtomChar_of_closing {c : Char} (hc : isClosing c = true) : isAtomChar c = false := by
  obtain rfl | rfl := eq_of_isClosing hc
  all_goals decide

/-- An array or object has its brackets at its ends, or spaces around them. -/
theorem ends_of_container {core : List Char} {v : Json} (h : Json.read core = .ok v)
    (hv : v.isContainer = true) :
    (∀ c ∈ core.head?, isAtomChar c = false) ∧ ∀ c ∈ core.getLast?, isAtomChar c = false := by
  obtain ⟨a, inner, d, htrim, ha, hd⟩ := exists_ends_of_bracketed? (bracketed_self h hv)
  obtain ⟨left, right, hsplit, hleft, hright⟩ := exists_trim core
  rw [htrim] at hsplit
  constructor
  · intro c hc
    rw [hsplit, Option.mem_def, List.head?_append, Option.or_eq_some_iff] at hc
    rcases hc with hc | ⟨-, hc⟩
    · exact isAtomChar_of_isBlank (hleft c (List.mem_of_mem_head? hc))
    · cases hc
      exact (opening_eq ha).2.1
  · intro c hc
    rw [hsplit, ← List.append_assoc, Option.mem_def, List.getLast?_append, Option.or_eq_some_iff] at hc
    rcases hc with hc | ⟨-, hc⟩
    · exact isAtomChar_of_isBlank (hright c (List.mem_of_mem_getLast? hc))
    · rw [← List.cons_append, ← List.append_assoc, List.getLast?_concat] at hc
      cases hc
      exact isAtomChar_of_closing hd

theorem opensWithLongNumber_toDigits_iff {n : Nat} :
    OpensWithLongNumber (Nat.toDigits 10 n) ↔ 10 ^ digitLimit ≤ n := by
  have htokens : tokens (Nat.toDigits 10 n) = [.whole false (Nat.toDigits 10 n)] := by
    have htext := tokens_numeral false (Numeral.ofNat n)
    rwa [Numeral.ofNat_text, Numeral.ofNat_token] at htext
  have hlength := Nat.length_toDigits_le_iff (b := 10) (k := digitLimit) (n := n) (by decide) (by decide)
  rw [OpensWithLongNumber, htokens, ← Nat.not_lt, ← hlength, Nat.not_le]
  simp [Token.TooLong]

/-- In an answer that is no JSON, the first array or object is found to its end, and nothing but commas in
front of closing brackets is taken out of it. Only a whole number of too many digits, at the very beginning,
keeps it from being looked for. -/
theorem repaired?_finds_extent_iff {front core back : List Char} {v : Json}
    (hfront : ∀ c ∈ front, c ≠ '[' ∧ c ≠ '\x7b') (hcore : Json.read core = .ok v)
    (hv : v.isContainer = true) (hfence : fenced? (front ++ (core ++ back)) = none)
    (htrim : trim (front ++ (core ++ back)) = front ++ (core ++ back))
    (hread : ∀ w, Json.read (front ++ (core ++ back)) ≠ .ok w) :
    (repaired? (front ++ (core ++ back)) = .ok (some (withoutTrailingCommas (trim core))) ↔
        ¬ OpensWithLongNumber front) ∧
      (repaired? (front ++ (core ++ back)) = .ok (some (trim core)) ↔
        ¬ OpensWithLongNumber front ∧ ¬ HasTrailingComma (trim core)) ∧
      (OpensWithLongNumber front → repaired? (front ++ (core ++ back)) = .error .tooManyDigits) := by
  obtain ⟨hhead, hlast⟩ := ends_of_container hcore hv
  have hfound : bracketed? (front ++ (core ++ back)) = some (trim core) :=
    bracketed_around hcore hv (fun c hc => closingOf?_eq_none_iff.2 (hfront c hc)) back
  have hlong := read_around_eq_tooManyDigits_iff hfront hcore hhead hlast back
  by_cases h : OpensWithLongNumber front
  · have hfault := repaired?_of_tooManyDigits (htrim.symm ▸ hfence) (htrim.symm ▸ hlong.2 h)
    simp [hfault, h]
  · have hmalformed : Json.read (trim (front ++ (core ++ back))) = .error .malformed := by
      rw [htrim]
      cases hr : Json.read (front ++ (core ++ back)) with
      | ok w => exact absurd hr (hread w)
      | error e =>
        cases e with
        | malformed => rfl
        | tooManyDigits => exact absurd (hlong.1 hr) h
    have hpart := repaired?_of_malformed (htrim.symm ▸ hfence) hmalformed
    rw [htrim, hfound, Option.map_some] at hpart
    simp [hpart, h, withoutTrailingCommas_eq_self_iff]

theorem repaired?_finds_extent_iff_sample :
    repaired? ("say \"hi\": ".toList ++ ("[\"]\\\"\", 1]".toList ++ " or ]".toList)) =
        .ok (some "[\"]\\\"\", 1]".toList) ∧
      repaired? (Nat.toDigits 10 (10 ^ digitLimit) ++ ("[]".toList ++ [])) = .error .tooManyDigits := by
  constructor
  · have hcore : Json.read "[\"]\\\"\", 1]".toList = .ok (.arr [.str "]\"", .int 1]) := by
      with_unfolding_all rfl
    have hread : Json.read ("say \"hi\": ".toList ++ ("[\"]\\\"\", 1]".toList ++ " or ]".toList)) =
        .error .malformed := by with_unfolding_all rfl
    refine (repaired?_finds_extent_iff (by simp) hcore rfl (by decide +kernel) (by decide +kernel)
      (fun w hw => ?_)).2.1.2 ⟨not_opensWithLongNumber rfl (by decide) rfl _, ?_⟩
    · rw [hread] at hw
      cases hw
    · exact withoutTrailingCommas_eq_self_iff.1 (by decide +kernel)
  · suffices h : ∀ n, 10 ^ digitLimit ≤ n →
        repaired? (Nat.toDigits 10 n ++ ("[]".toList ++ [])) = .error .tooManyDigits from h _ le_rfl
    intro n hn
    have hne {c d : Char} (hc : c ∈ Nat.toDigits 10 n) (hd : d.isDigit = false) : c ≠ d := by
      rintro rfl
      rw [isDigit_of_mem_toDigits hc] at hd
      cases hd
    have hfront : ∀ c ∈ Nat.toDigits 10 n, c ≠ '[' ∧ c ≠ '\x7b' := fun c hc => ⟨hne hc rfl, hne hc rfl⟩
    have hcore : Json.read "[]".toList = .ok (.arr []) := by with_unfolding_all rfl
    have hsheltered : Sheltered (Nat.toDigits 10 n ++ ("[]".toList ++ [])) :=
      (sheltered_of_read hcore).behind fun hc => hne hc rfl rfl
    have hlong := opensWithLongNumber_toDigits_iff.2 hn
    obtain ⟨hhead, hlast⟩ := ends_of_container hcore rfl
    have hread := (read_around_eq_tooManyDigits_iff hfront hcore hhead hlast []).2 hlong
    refine (repaired?_finds_extent_iff hfront hcore rfl hsheltered.fenced?_eq_none ?_
      (fun w hw => ?_)).2.2 hlong
    · apply trim_eq_self
      · intro c hc
        rw [Option.mem_def, List.head?_append_of_ne_nil _ Nat.toDigits_ne_nil] at hc
        have hdigit : c.isDigit = true := isDigit_of_mem_toDigits (List.mem_of_mem_head? hc)
        exact isBlank_of_isAtomChar (isAtomChar_of_isAsciiDigit hdigit)
      · intro c hc
        rw [List.append_nil, Option.mem_def, List.getLast?_append] at hc
        cases hc
        rfl
    · rw [hread] at hw
      cases hw

end Codemod.Reply
