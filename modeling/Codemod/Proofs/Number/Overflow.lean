import Mathlib
import Codemod.Number.Double

/-! Whole numbers that are too large for a double. One that is nearer to the largest double than to what
would come next is rounded down to it; from halfway on it is infinite. -/
namespace Codemod.Number

/-! ## Rounding -/

theorem divEven_bounds (num den : Nat) :
    num / den ≤ divEven num den ∧ divEven num den ≤ num / den + 1 := by
  unfold divEven
  dsimp only
  split_ifs <;> omega

/-- A quotient with an odd integer part is rounded up from one half on. -/
theorem divEven_eq_succ_iff {num den : Nat} (hodd : num / den % 2 = 1) :
    divEven num den = num / den + 1 ↔ den ≤ 2 * (num % den) := by
  unfold divEven
  dsimp only
  split_ifs <;> omega

variable {num : Nat}

/-- A whole number is scaled to 53 binary digits in front of the point. -/
theorem scaled_log2 (h : num ≠ 0) : ∃ a b, scaled num 1 ((num.log2 : Int) - 52) = (a, b) ∧
    2 ^ 52 ≤ a / b ∧ a / b < 2 ^ 53 := by
  have hle : 2 ^ num.log2 ≤ num := Nat.log2_self_le h
  have hlt : num < 2 ^ (num.log2 + 1) := Nat.lt_log2_self
  generalize num.log2 = l at hle hlt
  obtain hl | hl := Nat.le_total 52 l
  · obtain ⟨k, rfl⟩ := Nat.exists_eq_add_of_le hl
    have hk : ((52 + k : Nat) : Int) - 52 = .ofNat k := by simp
    rw [hk]
    refine ⟨num, 2 ^ k, by simp [scaled, Nat.pow_eq], ?_, ?_⟩
    · rw [Nat.le_div_iff_mul_le (Nat.two_pow_pos k), ← Nat.pow_add]
      exact hle
    · rw [Nat.div_lt_iff_lt_mul (Nat.two_pow_pos k), ← Nat.pow_add]
      calc num < 2 ^ (52 + k + 1) := hlt
        _ = 2 ^ (53 + k) := by congr 1; omega
  · obtain ⟨k, hk⟩ := Nat.exists_eq_add_of_le hl
    rcases k with - | k
    · obtain rfl : 52 = l := by simpa using hk
      exact ⟨num, 1, by simp [scaled], by simpa using hle, by simpa using hlt⟩
    · have hq : (l : Int) - 52 = .negSucc k := by omega
      rw [hq]
      refine ⟨num * 2 ^ (k + 1), 1, by simp [scaled, Nat.pow_eq], ?_, ?_⟩
      · calc 2 ^ 52 = 2 ^ l * 2 ^ (k + 1) := by rw [← Nat.pow_add, ← hk]
          _ ≤ num * 2 ^ (k + 1) := Nat.mul_le_mul_right _ hle
          _ = num * 2 ^ (k + 1) / 1 := (Nat.div_one _).symm
      · calc num * 2 ^ (k + 1) / 1 = num * 2 ^ (k + 1) := Nat.div_one _
          _ < 2 ^ (l + 1) * 2 ^ (k + 1) := Nat.mul_lt_mul_of_pos_right hlt (Nat.two_pow_pos _)
          _ = 2 ^ 53 := by rw [← Nat.pow_add]; congr 1; omega

/-- The bits of a whole number other than zero, from its quotient with 53 digits. -/
theorem nearestBits_one (h : num ≠ 0) {a b : Nat} {q : Int} (hq : (num.log2 : Int) - 52 = q)
    (hscaled : scaled num 1 q = (a, b)) (hle : 2 ^ 52 ≤ a / b) :
    nearestBits num 1 =
      if divEven a b = 2 ^ 53 then
        if q + 1 > 971 then 2047 * 2 ^ 52 else (q + 1 + 1075).toNat * 2 ^ 52
      else if q > 971 then 2047 * 2 ^ 52 else (q + 1075).toNat * 2 ^ 52 + (divEven a b - 2 ^ 52) := by
  have hlog : Nat.log2 1 = 0 := by decide
  have hguess : (num.log2 : Int) - Nat.log2 1 - 52 = q := by simp [hlog, hq]
  have hmax : max (if a / b < 2 ^ 52 then q - 1 else q) (-1074) = q := by
    rw [if_neg (Nat.not_lt.2 hle)]
    omega
  have hm : ¬ divEven a b < 2 ^ 52 := Nat.not_lt.2 (hle.trans (divEven_bounds a b).1)
  unfold nearestBits
  simp only [Nat.pow_eq, if_neg h, hguess, hscaled, hmax]
  by_cases hcarry : divEven a b = 2 ^ 53
  · simp only [if_pos hcarry]
    simp
  · simp only [if_neg hcarry, if_neg hm]

/-- Rounding to 53 digits carries to a further one from one half below it on. -/
theorem divEven_eq_carry_iff {unit : Nat} (hunit : 0 < unit) (hlt : num / (2 * unit) < 2 ^ 53) :
    divEven num (2 * unit) = 2 ^ 53 ↔ (2 ^ 54 - 1) * unit ≤ num := by
  have hdiv : 2 * unit * (num / (2 * unit)) + num % (2 * unit) = num := Nat.div_add_mod _ _
  have hmod : num % (2 * unit) < 2 * unit := Nat.mod_lt _ (by omega)
  have hbounds := divEven_bounds num (2 * unit)
  by_cases hlast : num / (2 * unit) = 2 ^ 53 - 1
  · have hround : divEven num (2 * unit) = num / (2 * unit) + 1 ↔ 2 * unit ≤ 2 * (num % (2 * unit)) :=
      divEven_eq_succ_iff (by omega)
    rw [hlast] at hround hdiv
    omega
  · have hle : 2 * unit * (num / (2 * unit)) ≤ 2 * unit * (2 ^ 53 - 2) :=
      Nat.mul_le_mul_left _ (by omega)
    omega

theorem scaled_succ (k : Nat) : scaled num 1 ((k + 1 : Nat) : Int) = (num, 2 * 2 ^ k) := by
  rw [← Nat.pow_succ', ← Nat.one_mul (2 ^ k.succ)]
  rfl

/-! ## The bound -/

/-- Halfway from the largest double to `2 ^ 1024`, the power of two that would come next. -/
def overflowBound : Nat := (Nat.pow 2 54 - 1) * Nat.pow 2 970

/-- Rounding goes beyond the largest double from the bound on. -/
theorem nearestBits_one_lt_iff : nearestBits num 1 < 2047 * Nat.pow 2 52 ↔ num < overflowBound := by
  -- the unit of half the last digit of the largest doubles; its exponent is kept from being computed
  obtain ⟨k, hk⟩ : ∃ k, k = 970 := ⟨_, rfl⟩
  have hbound : overflowBound = (2 ^ 54 - 1) * 2 ^ k := by
    rw [overflowBound, ← hk]
    simp [Nat.pow_eq]
  have hunit : 0 < 2 ^ k := Nat.two_pow_pos k
  have hbelow : 2 ^ (k + 53) = 2 ^ 53 * 2 ^ k := by rw [Nat.pow_add, Nat.mul_comm]
  have habove : 2 ^ (k + 54) = 2 ^ 54 * 2 ^ k := by rw [Nat.pow_add, Nat.mul_comm]
  rw [hbound]
  by_cases h : num = 0
  · subst h
    exact iff_of_true (by decide) (by omega)
  obtain ⟨a, b, hscaled, hle, hlt⟩ := scaled_log2 h
  have hbounds := divEven_bounds a b
  rw [nearestBits_one h rfl hscaled hle, Nat.pow_eq]
  obtain hl | hl | hl := Nat.lt_trichotomy num.log2 (k + 53)
  · have hsmall : num < 2 ^ (k + 53) := (Nat.log2_lt h).1 hl
    refine iff_of_true ?_ (by omega)
    split_ifs <;> omega
  · -- the last step before the next power of two
    have hq : ((k + 53 : Nat) : Int) - 52 = ((k + 1 : Nat) : Int) := by omega
    rw [hl, hq, scaled_succ] at hscaled
    obtain ⟨rfl, rfl⟩ := Prod.mk.inj hscaled
    have hcarry := divEven_eq_carry_iff hunit hlt
    rw [hl]
    split_ifs <;> omega
  · have hlarge : 2 ^ (k + 54) ≤ num := (Nat.le_log2 h).1 hl
    refine iff_of_false ?_ (by omega)
    split_ifs <;> omega

theorem nearestBits_one_le : nearestBits num 1 ≤ 2047 * Nat.pow 2 52 := by
  by_cases h : num = 0
  · subst h
    decide
  obtain ⟨a, b, hscaled, hle, hlt⟩ := scaled_log2 h
  have hbounds := divEven_bounds a b
  rw [nearestBits_one h rfl hscaled hle, Nat.pow_eq]
  split_ifs <;> omega

/-! ## The bits of a double -/

open Float.Model.UnpackedFloat in
/-- Bits that do not stand for what is no number are kept. -/
theorem toBits_ofBits {b : UInt64} (h : b.toNat / 2 ^ 52 % 2 ^ 11 ≠ 2047 ∨ b.toNat % 2 ^ 52 = 0) :
    (Float.ofBits b).toBits = b := by
  rw [← UInt64.toBitVec_inj]
  change pack Float.Model.Format.binary64 (unpack Float.Model.Format.binary64 b.toBitVec) = b.toBitVec
  rw [pack_unpack, if_neg]
  rw [isNaNBits, decide_eq_true_eq, unpackExponent_def, unpackMantissa_def]
  rintro ⟨hexponent, hfraction⟩
  rw [← BitVec.toNat_inj, BitVec.extractLsb'_toNat, Nat.shiftRight_eq_div_pow] at hexponent
  rw [ne_eq, ← BitVec.toNat_inj, BitVec.extractLsb'_toNat, Nat.shiftRight_zero] at hfraction
  exact h.elim (fun h => h hexponent) hfraction

/-- The bits of a magnitude that is no larger than infinity, with its sign. -/
theorem toBits_nearest (negative : Bool) (h : nearestBits num den ≤ 2047 * Nat.pow 2 52) :
    (nearest negative num den).toBits.toNat =
      nearestBits num den + if negative then Nat.pow 2 63 else 0 := by
  rw [Nat.pow_eq] at h
  have hlt : (nearestBits num den + if negative then Nat.pow 2 63 else 0) < 2 ^ 64 := by
    rw [Nat.pow_eq]
    split_ifs <;> omega
  have hnat : (nearestBits num den + if negative then Nat.pow 2 63 else 0).toUInt64.toNat =
      nearestBits num den + if negative then Nat.pow 2 63 else 0 := by
    rw [Nat.toUInt64_eq, UInt64.toNat_ofNat']
    exact Nat.mod_eq_of_lt hlt
  rw [nearest, toBits_ofBits, hnat]
  rw [hnat, Nat.pow_eq]
  split_ifs <;> omega

theorem isFinite_iff (x : Float) :
    isFinite x = true ↔ x.toBits.toNat / Nat.pow 2 52 % Nat.pow 2 11 ≠ 2047 := by
  unfold isFinite Double.ofFloat
  dsimp only
  by_cases h : x.toBits.toNat / Nat.pow 2 52 % Nat.pow 2 11 = 2047
  · rw [h]
    by_cases hfraction : (x.toBits.toNat % Nat.pow 2 52 == 0) = true <;> simp [hfraction]
  · rw [if_neg (by simpa using h)]
    by_cases hexponent : (x.toBits.toNat / Nat.pow 2 52 % Nat.pow 2 11 == 0) = true <;>
      simpa [hexponent] using h

/-- An integer has a finite double just when it is less than the bound in magnitude. -/
theorem isFinite_ofInt_iff (n : Int) : isFinite (ofInt n) = true ↔ n.natAbs < overflowBound := by
  rw [← nearestBits_one_lt_iff]
  have hle : nearestBits n.natAbs 1 ≤ 2047 * Nat.pow 2 52 := nearestBits_one_le
  rw [isFinite_iff, ofInt, toBits_nearest _ hle]
  simp only [Nat.pow_eq] at hle ⊢
  split_ifs <;> omega

end Codemod.Number
