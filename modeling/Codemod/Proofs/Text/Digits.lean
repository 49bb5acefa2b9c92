import Codemod.Proofs.Text.Span
import Codemod.Text.Word
import Mathlib.Algebra.Group.Nat.Defs
import Mathlib.Data.List.Basic

/-! Whole numbers in the digits of ASCII. -/
namespace Codemod.Text

theorem digit?_of_isDigit {c : Char} (h : c.isDigit = true) : digit? c = some (c.toNat - '0'.toNat) := by
  obtain ⟨hlow, hhigh⟩ := toNat_of_isDigit h
  rw [digit?, zeros, List.find?_cons_of_pos (by simp; omega)]
  rfl

theorem digitsValue_eq {cs : List Char} (h : ∀ c ∈ cs, c.isDigit = true) :
    digitsValue cs = Nat.ofDigitChars 10 cs 0 := by
  have hfold (ds : List Char) (hds : ∀ c ∈ ds, c.isDigit = true) (start : Nat) :
      ds.foldl (fun n c => 10 * n + (digit? c).getD 0) start = Nat.ofDigitChars 10 ds start := by
    induction ds generalizing start with
    | nil => rfl
    | cons c ds ih =>
      rw [List.foldl_cons, Nat.ofDigitChars_cons, digit?_of_isDigit (hds c (by simp))]
      exact ih (fun d hd => hds d (by simp [hd])) _
  exact hfold cs h 0

theorem digitsValue_lt (cs : List Char) : digitsValue cs < 10 ^ cs.length := by
  have hdigit (c : Char) : (digit? c).getD 0 < 10 := by
    cases hc : digit? c with
    | none => decide
    | some d => exact digit?_lt hc
  have hfold (cs : List Char) (start : Nat) :
      cs.foldl (fun n c => 10 * n + (digit? c).getD 0) start < (start + 1) * 10 ^ cs.length := by
    induction cs generalizing start with
    | nil => simp
    | cons c cs ih =>
      have hstep : 10 * start + (digit? c).getD 0 + 1 ≤ (start + 1) * 10 := by
        have := hdigit c
        omega
      rw [List.foldl_cons, List.length_cons, Nat.pow_succ', ← Nat.mul_assoc]
      exact (ih _).trans_le (Nat.mul_le_mul_right _ hstep)
  exact (hfold cs 0).trans_eq (Nat.one_mul _)

theorem isDigit_of_mem_toDigits {n : Nat} {c : Char} (h : c ∈ Nat.toDigits 10 n) : c.isDigit = true :=
  Nat.isDigit_of_mem_toDigits (by decide) (by decide) h

theorem digitsValue_toDigits (n : Nat) : digitsValue (Nat.toDigits 10 n) = n := by
  rw [digitsValue_eq fun _ => isDigit_of_mem_toDigits, Nat.ofDigitChars_ten_toDigits]

/-- Only zero is written with a zero in front. -/
theorem toDigits_of_head_zero {n : Nat} (h : (Nat.toDigits 10 n).head? = some '0') :
    Nat.toDigits 10 n = ['0'] := by
  induction n using Nat.strongRecOn with
  | _ n ih =>
    rcases Nat.lt_or_ge n 10 with hn | hn
    · rw [Nat.toDigits_of_lt_base hn] at h ⊢
      rw [Option.some.inj h]
    · rw [Nat.toDigits_of_base_le (by decide) hn, List.head?_append_of_ne_nil _ Nat.toDigits_ne_nil] at h
      have hzero := congrArg digitsValue (ih (n / 10) (by omega) h)
      rw [digitsValue_toDigits] at hzero
      exact absurd (show n / 10 = 0 from hzero) (by omega)

theorem ascii_zeros (n : Nat) : ∀ c ∈ List.replicate n '0', c.isDigit = true := by
  intro c hc
  rw [List.eq_of_mem_replicate hc]
  rfl

/-- Zeros behind a number multiply it with powers of ten. -/
theorem digitsValue_append_zeros {cs : List Char} (h : ∀ c ∈ cs, c.isDigit = true) (n : Nat) :
    digitsValue (cs ++ List.replicate n '0') = digitsValue cs * 10 ^ n := by
  have hall : ∀ c ∈ cs ++ List.replicate n '0', c.isDigit = true :=
    List.forall_mem_append.2 ⟨h, ascii_zeros n⟩
  rw [digitsValue_eq hall, digitsValue_eq h, Nat.ofDigitChars_append, Nat.ofDigitChars_replicate_zero,
    Nat.mul_comm]

theorem digitsValue_zeros_append {cs : List Char} (h : ∀ c ∈ cs, c.isDigit = true) (n : Nat) :
    digitsValue (List.replicate n '0' ++ cs) = digitsValue cs := by
  have hall : ∀ c ∈ List.replicate n '0' ++ cs, c.isDigit = true :=
    List.forall_mem_append.2 ⟨ascii_zeros n, h⟩
  rw [digitsValue_eq hall, digitsValue_eq h, Nat.ofDigitChars_append, Nat.ofDigitChars_replicate_zero,
    Nat.mul_zero]

end Codemod.Text
