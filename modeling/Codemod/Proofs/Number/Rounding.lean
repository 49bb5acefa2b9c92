import Mathlib
import Codemod.Proofs.Number.Overflow

/-! Quotients that are read as a given double: those between the middles to its two neighbours, the
middles themselves going to the even one. -/
namespace Codemod.Number

/-! ## Scaling -/

theorem two_pow_lt {a b : Int} (h : (2 : ℚ) ^ a < 2 ^ b) : a < b :=
  (zpow_lt_zpow_iff_right₀ (by norm_num)).1 h

theorem scaled_pos (num : Nat) {den : Nat} (h : 0 < den) (q : Int) : 0 < (scaled num den q).2 := by
  cases q with
  | ofNat n => exact Nat.mul_pos h (Nat.pow_pos (by decide))
  | negSucc n => exact h

theorem scaled_ratio (num den : Nat) (q : Int) :
    ((scaled num den q).1 : ℚ) / (scaled num den q).2 = num / den / 2 ^ q := by
  cases q with
  | ofNat n =>
    simp only [scaled, Nat.pow_eq, Int.ofNat_eq_natCast, zpow_natCast]
    push_cast
    rw [div_div]
  | negSucc n =>
    simp only [scaled, Nat.pow_eq, zpow_negSucc, div_inv_eq_mul]
    push_cast
    ring

/-! ## Rounding to an integer -/

/-- A quotient no further than a half from an integer is rounded to it; at the half, if it is even. -/
theorem divEven_eq {a b k : Nat} (hb : 0 < b) (hlow : 2 * (k * b) ≤ 2 * a + b)
    (hhigh : 2 * a ≤ 2 * (k * b) + b)
    (hodd : k % 2 = 1 → 2 * (k * b) < 2 * a + b ∧ 2 * a < 2 * (k * b) + b) : divEven a b = k := by
  have hdiv : b * (a / b) + a % b = a := Nat.div_add_mod a b
  have hmod : a % b < b := Nat.mod_lt a hb
  generalize hr : a % b = r at hdiv hmod
  generalize ht : a / b = t at hdiv
  have hcases : k = t ∨ k = t + 1 := by
    by_contra hne
    rcases Nat.lt_or_ge k t with hk | hk
    · have : b * (k + 1) ≤ b * t := Nat.mul_le_mul_left b hk
      rw [Nat.mul_add, Nat.mul_comm b k] at this
      omega
    · have : b * (t + 2) ≤ b * k := Nat.mul_le_mul_left b (by omega)
      rw [Nat.mul_add, Nat.mul_comm b k] at this
      omega
  unfold divEven
  simp only [hr, ht]
  rcases hcases with rfl | rfl
  · rw [Nat.mul_comm b k] at hdiv
    split_ifs <;> omega
  · have hmul : (t + 1) * b = b * t + b := by rw [Nat.add_mul, Nat.mul_comm t, Nat.one_mul]
    rw [hmul] at hlow hhigh hodd
    split_ifs <;> omega

theorem divEven_eq_of_ratio {a b k : Nat} (hb : 0 < b) (hlow : (k : ℚ) - 1 / 2 ≤ a / b)
    (hhigh : (a : ℚ) / b ≤ k + 1 / 2)
    (hodd : k % 2 = 1 → (k : ℚ) - 1 / 2 < a / b ∧ (a : ℚ) / b < k + 1 / 2) : divEven a b = k := by
  have hb' : (0 : ℚ) < b := by exact_mod_cast hb
  rw [le_div_iff₀ hb'] at hlow
  rw [div_le_iff₀ hb'] at hhigh
  rw [lt_div_iff₀ hb', div_lt_iff₀ hb'] at hodd
  refine divEven_eq hb ?_ ?_ fun h => ⟨?_, ?_⟩
  · have : (2 * (k * b) : ℚ) ≤ 2 * a + b := by linarith
    exact_mod_cast this
  · have : (2 * a : ℚ) ≤ 2 * (k * b) + b := by linarith
    exact_mod_cast this
  · have : (2 * (k * b) : ℚ) < 2 * a + b := by linarith [(hodd h).1]
    exact_mod_cast this
  · have : (2 * a : ℚ) < 2 * (k * b) + b := by linarith [(hodd h).2]
    exact_mod_cast this

theorem divEven_scaled {num den k : Nat} {q : Int} (hden : 0 < den)
    (hlow : ((k : ℚ) - 1 / 2) * 2 ^ q ≤ num / den) (hhigh : (num : ℚ) / den ≤ (k + 1 / 2) * 2 ^ q)
    (hodd : k % 2 = 1 →
      ((k : ℚ) - 1 / 2) * 2 ^ q < num / den ∧ (num : ℚ) / den < (k + 1 / 2) * 2 ^ q) :
    divEven (scaled num den q).1 (scaled num den q).2 = k := by
  have hpow : (0 : ℚ) < 2 ^ q := by positivity
  refine divEven_eq_of_ratio (scaled_pos num hden q) ?_ ?_ fun h => ?_
  · rwa [scaled_ratio, le_div_iff₀ hpow]
  · rwa [scaled_ratio, div_le_iff₀ hpow]
  · rw [scaled_ratio, lt_div_iff₀ hpow, div_lt_iff₀ hpow]
    exact hodd h

/-! ## The magnitudes of doubles -/

/-- The one way to write a magnitude as `m * 2 ^ q` that doubles have. -/
structure Canonical (m : Nat) (q : Int) : Prop where
  lt : m < 2 ^ 53
  low : -1074 ≤ q
  high : q ≤ 971
  normal : m < 2 ^ 52 → q = -1074

/-- How far the values that are read as `m * 2 ^ q` reach below it, in quarters of its last digit. -/
def gapBelow (m : Nat) (q : Int) : Nat := if m = 2 ^ 52 ∧ -1074 < q then 1 else 2

/-- Between two ends, which count when `closed`. -/
structure Between (closed : Bool) (a b r : ℚ) : Prop where
  low : a ≤ r
  high : r ≤ b
  inside : closed = false → a < r ∧ r < b

/-- The values that are nearer to `m * 2 ^ q` than to any other double, and those as near to it as to
another when it is the even one. -/
abbrev Near (m : Nat) (q : Int) (r : ℚ) : Prop :=
  Between (m % 2 == 0) ((4 * m - gapBelow m q : Nat) * 2 ^ (q - 2)) ((4 * m + 2 : Nat) * 2 ^ (q - 2)) r

/-- The bits of the magnitude `m * 2 ^ q`. -/
def magnitudeBits (m : Nat) (q : Int) : Nat :=
  if m < 2 ^ 52 then m else (q + 1075).toNat * 2 ^ 52 + (m - 2 ^ 52)

theorem gapBelow_bounds (m : Nat) (q : Int) : 1 ≤ gapBelow m q ∧ gapBelow m q ≤ 2 := by
  unfold gapBelow
  split_ifs <;> omega

variable {m : Nat} {q : Int} {r : ℚ}

theorem quarters (n : Nat) (q : Int) : (n : ℚ) * 2 ^ (q - 2) = n / 4 * 2 ^ q := by
  rw [zpow_sub₀ two_ne_zero]
  norm_num
  ring

theorem Near.pos (hm : m ≠ 0) (h : Near m q r) : 0 < r := by
  have hbounds := gapBelow_bounds m q
  have hnat : 0 < 4 * m - gapBelow m q := by omega
  have hcast : (0 : ℚ) < (4 * m - gapBelow m q : Nat) := by exact_mod_cast hnat
  exact lt_of_lt_of_le (by positivity) h.low

/-- The values lie no further than half of the last digit away. -/
theorem Near.half (hm : m ≠ 0) (h : Near m q r) :
    ((m : ℚ) - 1 / 2) * 2 ^ q ≤ r ∧ r ≤ (m + 1 / 2) * 2 ^ q ∧
      (m % 2 = 1 → ((m : ℚ) - 1 / 2) * 2 ^ q < r ∧ r < (m + 1 / 2) * 2 ^ q) := by
  have hbounds := gapBelow_bounds m q
  have hle : gapBelow m q ≤ 4 * m := by omega
  have hgap : ((gapBelow m q : Nat) : ℚ) ≤ 2 := by exact_mod_cast hbounds.2
  have hpow : (0 : ℚ) < 2 ^ q := by positivity
  have hlow : ((m : ℚ) - 1 / 2) * 2 ^ q ≤ ((4 * m - gapBelow m q : Nat) : ℚ) * 2 ^ (q - 2) := by
    rw [quarters, Nat.cast_sub hle]
    push_cast
    refine mul_le_mul_of_nonneg_right ?_ hpow.le
    linarith
  have hhigh : ((4 * m + 2 : Nat) : ℚ) * 2 ^ (q - 2) = (m + 1 / 2) * 2 ^ q := by
    rw [quarters]
    push_cast
    ring
  refine ⟨hlow.trans h.low, hhigh ▸ h.high, fun hodd => ?_⟩
  have hopen := h.inside (by simp [hodd])
  exact ⟨hlow.trans_lt hopen.1, hhigh ▸ hopen.2⟩

/-! ## Rounding to a double -/

/-- The exponent that gives a quotient 53 digits in front of the point, as it is found. -/
def exponentOf (num den : Nat) : Int :=
  let guess : Int := (num.log2 : Int) - den.log2 - 52
  if (scaled num den guess).1 / (scaled num den guess).2 < 2 ^ 52 then guess - 1 else guess

theorem log2_bounds {n : Nat} (h : n ≠ 0) : (2 : ℚ) ^ (n.log2 : Int) ≤ n ∧ (n : ℚ) < 2 ^ ((n.log2 : Int) + 1) := by
  have hle : 2 ^ n.log2 ≤ n := Nat.log2_self_le h
  have hlt : n < 2 ^ (n.log2 + 1) := Nat.lt_log2_self
  refine ⟨?_, ?_⟩
  · rw [zpow_natCast]
    exact_mod_cast hle
  · have hsucc : ((n.log2 : Int) + 1) = ((n.log2 + 1 : Nat) : Int) := by push_cast; rfl
    rw [hsucc, zpow_natCast]
    exact_mod_cast hlt

theorem exponentOf_spec {num den : Nat} (hnum : num ≠ 0) (hden : 0 < den) :
    (2 : ℚ) ^ (exponentOf num den + 52) ≤ num / den ∧ (num : ℚ) / den < 2 ^ (exponentOf num den + 53) := by
  obtain ⟨hnlow, hnhigh⟩ := log2_bounds hnum
  obtain ⟨hdlow, hdhigh⟩ := log2_bounds hden.ne'
  have hden' : (0 : ℚ) < den := by exact_mod_cast hden
  generalize hguess : (num.log2 : Int) - den.log2 - 52 = guess
  have hnlog : (num.log2 : Int) = guess + 52 + den.log2 := by omega
  -- the guess is right, or one too large
  have hlow : (2 : ℚ) ^ (guess + 51) < num / den := by
    rw [lt_div_iff₀ hden']
    calc (2 : ℚ) ^ (guess + 51) * den < 2 ^ (guess + 51) * 2 ^ ((den.log2 : Int) + 1) := by gcongr
      _ = 2 ^ (num.log2 : Int) := by rw [← zpow_add₀ two_ne_zero, hnlog]; congr 1; ring
      _ ≤ num := hnlow
  have hhigh : (num : ℚ) / den < 2 ^ (guess + 53) := by
    rw [div_lt_iff₀ hden']
    calc (num : ℚ) < 2 ^ ((num.log2 : Int) + 1) := hnhigh
      _ = 2 ^ (guess + 53) * 2 ^ (den.log2 : Int) := by
        rw [← zpow_add₀ two_ne_zero, hnlog]; congr 1; ring
      _ ≤ 2 ^ (guess + 53) * den := by gcongr
  have hpos := scaled_pos num hden guess
  have hratio := scaled_ratio num den guess
  have hcut : (scaled num den guess).1 / (scaled num den guess).2 < 2 ^ 52 ↔
      (num : ℚ) / den < 2 ^ (guess + 52) := by
    have hpos' : (0 : ℚ) < (scaled num den guess).2 := by exact_mod_cast hpos
    have hsplit : (2 : ℚ) ^ (guess + 52) = 2 ^ 52 * 2 ^ guess := by
      rw [zpow_add₀ two_ne_zero, mul_comm]
      norm_num
    rw [Nat.div_lt_iff_lt_mul hpos, hsplit, ← div_lt_iff₀ (by positivity), ← hratio, div_lt_iff₀ hpos']
    norm_cast
  unfold exponentOf
  simp only [hguess]
  split_ifs with h
  · refine ⟨le_of_eq_of_le ?_ hlow.le, lt_of_lt_of_eq (hcut.1 h) ?_⟩ <;> congr 1 <;> ring
  · exact ⟨not_lt.1 fun hlt => h (hcut.2 hlt), hhigh⟩

theorem nearestBits_eq {num den : Nat} (hnum : num ≠ 0) {k : Nat} {q : Int}
    (hq : max (exponentOf num den) (-1074) = q)
    (hk : divEven (scaled num den q).1 (scaled num den q).2 = k) :
    nearestBits num den =
      if k = 2 ^ 53 then (if q + 1 > 971 then 2047 * 2 ^ 52 else (q + 1 + 1075).toNat * 2 ^ 52)
      else if q > 971 then 2047 * 2 ^ 52 else magnitudeBits k q := by
  unfold exponentOf at hq
  unfold nearestBits magnitudeBits
  simp only [Nat.pow_eq] at hq ⊢
  simp only [if_neg hnum, hq, hk]
  by_cases hcarry : k = 2 ^ 53
  · simp only [if_pos hcarry]
    simp
  · simp only [if_neg hcarry]

theorem num_ne_zero_of_near {num den : Nat} (hm : m ≠ 0) (h : Near m q ((num : ℚ) / den)) : num ≠ 0 := by
  have hpos := h.pos hm
  rintro rfl
  simp at hpos

section
variable {num den : Nat} (hden : 0 < den) (hc : Canonical m q) (hm : m ≠ 0) (h : Near m q ((num : ℚ) / den))
include hden hc hm h

/-- The exponent found is not above that of the double. -/
theorem exponentOf_le : exponentOf num den ≤ q := by
  obtain ⟨helow, -⟩ := exponentOf_spec (num_ne_zero_of_near hm h) hden
  have hm53 : (m : ℚ) + 1 ≤ 2 ^ (53 : Int) := by exact_mod_cast hc.lt
  have hlt : (2 : ℚ) ^ (exponentOf num den + 52) < 2 ^ (q + 53) :=
    calc (2 : ℚ) ^ (exponentOf num den + 52) ≤ num / den := helow
      _ ≤ (m + 1 / 2) * 2 ^ q := (h.half hm).2.1
      _ < 2 ^ (53 : Int) * 2 ^ q := mul_lt_mul_of_pos_right (by linarith) (by positivity)
      _ = 2 ^ (q + 53) := by rw [add_comm, zpow_add₀ two_ne_zero]
  have := two_pow_lt hlt
  omega

/-- Where the exponent found is below that of the double, the quotient lies below a power of two, and
rounding carries to it. -/
theorem carries_of_exponentOf_lt (hq : max (exponentOf num den) (-1074) < q) :
    m = 2 ^ 52 ∧ max (exponentOf num den) (-1074) = q - 1 ∧
      divEven (scaled num den (q - 1)).1 (scaled num den (q - 1)).2 = 2 ^ 53 := by
  obtain ⟨-, hehigh⟩ := exponentOf_spec (num_ne_zero_of_near hm h) hden
  obtain ⟨he, hlowest⟩ := max_lt_iff.1 hq
  have hpow : (0 : ℚ) < 2 ^ q := by positivity
  have hshift (n : Int) : (2 : ℚ) ^ (q + n) = 2 ^ n * 2 ^ q := by rw [zpow_add₀ two_ne_zero, mul_comm]
  have hbelow : (num : ℚ) / den < 2 ^ 52 * 2 ^ q :=
    calc (num : ℚ) / den < 2 ^ (exponentOf num den + 53) := hehigh
      _ ≤ 2 ^ (q + 52) := zpow_le_zpow_right₀ one_le_two (by omega)
      _ = 2 ^ 52 * 2 ^ q := hshift 52
  have hpower : m = 2 ^ 52 := by
    have hmle : (m : ℚ) - 1 / 2 < 2 ^ 52 :=
      lt_of_mul_lt_mul_right ((h.half hm).1.trans_lt hbelow) hpow.le
    have hmlt : m < 2 ^ 52 + 1 := by
      have : (m : ℚ) < 2 ^ 52 + 1 := by linarith
      exact_mod_cast this
    have := mt hc.normal hlowest.ne'
    omega
  have hquarter : ((2 : ℚ) ^ 52 - 1 / 4) * 2 ^ q ≤ num / den := by
    have := h.low
    rw [quarters, gapBelow, if_pos ⟨hpower, hlowest⟩, hpower] at this
    norm_num at this ⊢
    exact this
  have hexponent : q - 1 ≤ exponentOf num den := by
    have hlt : (2 : ℚ) ^ (q + 51) < 2 ^ (exponentOf num den + 53) := by
      refine (le_trans ?_ hquarter).trans_lt hehigh
      rw [hshift]
      refine mul_le_mul_of_nonneg_right ?_ hpow.le
      norm_num
    have := two_pow_lt hlt
    omega
  have hhalf (x : ℚ) : x * 2 ^ (q - 1) = x / 2 * 2 ^ q := by
    rw [zpow_sub₀ two_ne_zero]
    ring
  refine ⟨hpower, by omega, divEven_scaled hden ?_ ?_ fun h => absurd h (by decide)⟩
  · rw [hhalf]
    norm_num at hquarter ⊢
    exact hquarter
  · rw [hhalf]
    refine hbelow.le.trans (mul_le_mul_of_nonneg_right ?_ hpow.le)
    norm_num

/-- A quotient near a double has its bits. -/
theorem nearestBits_of_near : nearestBits num den = magnitudeBits m q := by
  have hnum := num_ne_zero_of_near hm h
  rcases (max_le (exponentOf_le hden hc hm h) hc.low).eq_or_lt with hq | hq
  · obtain ⟨hlow, hhigh, hodd⟩ := h.half hm
    rw [nearestBits_eq hnum hq (divEven_scaled hden hlow hhigh hodd), if_neg hc.lt.ne,
      if_neg (not_lt.2 hc.high)]
  · obtain ⟨hpower, hexponent, hround⟩ := carries_of_exponentOf_lt hden hc hm h hq
    rw [nearestBits_eq hnum hexponent hround, if_pos rfl, magnitudeBits, hpower]
    have := hc.high
    simp
    omega

end

/-! ## Doubles read back -/

variable {x : Float} {negative : Bool}

/-- The bits of a double: its sign, its exponent and its fraction. -/
theorem bits_eq (x : Float) : x.toBits.toNat =
    x.toBits.toNat / 2 ^ 52 % 2 ^ 11 * 2 ^ 52 + x.toBits.toNat % 2 ^ 52 +
      if x.toBits.toNat / 2 ^ 63 == 1 then 2 ^ 63 else 0 := by
  have hlt : x.toBits.toNat < 2 ^ 64 := x.toBits.toNat_lt
  by_cases h : x.toBits.toNat / 2 ^ 63 = 1
  · rw [if_pos (beq_iff_eq.2 h)]
    omega
  · rw [if_neg (mt beq_iff_eq.1 h)]
    omega

theorem ofFloat_finite (h : Double.ofFloat x = .finite negative m q) :
    Canonical m q ∧ x.toBits.toNat = magnitudeBits m q + if negative then 2 ^ 63 else 0 := by
  have hbits := bits_eq x
  unfold Double.ofFloat at h
  simp only [Nat.pow_eq] at h
  have hexponent : x.toBits.toNat / 2 ^ 52 % 2 ^ 11 < 2 ^ 11 := Nat.mod_lt _ (by decide)
  have hfraction : x.toBits.toNat % 2 ^ 52 < 2 ^ 52 := Nat.mod_lt _ (by decide)
  generalize x.toBits.toNat / 2 ^ 52 % 2 ^ 11 = exponent at h hbits hexponent
  generalize x.toBits.toNat % 2 ^ 52 = fraction at h hbits hfraction
  generalize (x.toBits.toNat / 2 ^ 63 == 1) = sign at h hbits
  split at h
  · split at h <;> cases h
  · next hspecial =>
    rw [beq_iff_eq] at hspecial
    split at h
    · next hzero =>
      rw [beq_iff_eq] at hzero
      obtain ⟨rfl, rfl, rfl⟩ := Double.finite.inj h
      refine ⟨⟨by omega, by omega, by omega, fun _ => rfl⟩, ?_⟩
      rw [hbits, magnitudeBits, if_pos hfraction, hzero, Nat.zero_mul, Nat.zero_add]
    · next hzero =>
      rw [beq_iff_eq] at hzero
      obtain ⟨rfl, rfl, rfl⟩ := Double.finite.inj h
      have hcut : ((exponent : Int) - 1075 + 1075).toNat = exponent := by omega
      refine ⟨⟨by omega, by omega, by omega, fun hlt => by omega⟩, ?_⟩
      rw [hbits, magnitudeBits, if_neg (Nat.not_lt.2 (Nat.le_add_right _ _)), hcut,
        Nat.add_sub_cancel_left]

theorem nearest_of_bits {num den : Nat}
    (h : x.toBits.toNat = nearestBits num den + if negative then 2 ^ 63 else 0) :
    nearest negative num den = x := by
  rw [nearest, Nat.pow_eq, ← h, Nat.toUInt64_eq, UInt64.ofNat_toNat, Float.ofBits_toBits]

/-- A quotient near a double is read as it. -/
theorem nearest_of_near {num den : Nat} (hx : Double.ofFloat x = .finite negative m q) (hm : m ≠ 0)
    (hden : 0 < den) (h : Near m q ((num : ℚ) / den)) : nearest negative num den = x := by
  obtain ⟨hc, hbits⟩ := ofFloat_finite hx
  exact nearest_of_bits (by rw [hbits, nearestBits_of_near hden hc hm h])

theorem nearest_zero (hx : Double.ofFloat x = .finite negative 0 q) : nearest negative 0 1 = x := by
  obtain ⟨-, hbits⟩ := ofFloat_finite hx
  refine nearest_of_bits (by rw [hbits]; rfl)

theorem nearestBits_infinite : nearestBits (Nat.pow 2 1024) 1 = 2047 * 2 ^ 52 := by
  have hbound : ¬ nearestBits (Nat.pow 2 1024) 1 < 2047 * Nat.pow 2 52 := by
    rw [nearestBits_one_lt_iff]
    decide +kernel
  exact Nat.le_antisymm nearestBits_one_le (Nat.not_lt.1 hbound)

theorem nearest_infinite (hx : Double.ofFloat x = .infinite negative) :
    nearest negative (Nat.pow 2 1024) 1 = x := by
  refine nearest_of_bits ?_
  have hbits := bits_eq x
  unfold Double.ofFloat at hx
  simp only [Nat.pow_eq] at hx
  split at hx
  · next hspecial =>
    split at hx
    · next hfraction =>
      rw [beq_iff_eq] at hspecial hfraction
      rw [nearestBits_infinite, hbits, hspecial, hfraction, Double.infinite.inj hx, Nat.add_zero]
    · cases hx
  · split at hx <;> cases hx

open Float.Model.UnpackedFloat in
theorem toBitVec_of_nan (hx : Double.ofFloat x = .nan) :
    x.toBits.toBitVec = packedNaN Float.Model.Format.binary64 := by
  unfold Double.ofFloat at hx
  simp only [Nat.pow_eq] at hx
  split at hx
  · next hspecial =>
    split at hx
    · cases hx
    · next hfraction =>
      rw [beq_iff_eq] at hspecial hfraction
      refine x.toModel.valid.eq_packedNaN ?_ ?_
      · rw [unpackExponent_def, ← BitVec.toNat_inj, BitVec.extractLsb'_toNat, Nat.shiftRight_eq_div_pow]
        exact hspecial
      · rw [unpackMantissa_def, ne_eq, ← BitVec.toNat_inj, BitVec.extractLsb'_toNat, Nat.shiftRight_zero]
        exact hfraction
  · split at hx <;> cases hx

/-- There is one double that is no number. -/
theorem eq_of_nan (hx : Double.ofFloat x = .nan) : (0.0 / 0.0 : Float) = x := by
  have hbits : (0.0 / 0.0 : Float).toBits = x.toBits := by
    rw [← UInt64.toBitVec_inj, toBitVec_of_nan hx]
    rfl
  rw [← Float.ofBits_toBits x, ← hbits, Float.ofBits_toBits]

/-! ## Decimals near a double -/

theorem Near.bounds (hc : Canonical m q) (hm : m ≠ 0) (h : Near m q r) :
    (2 : ℚ) ^ (-1075 : Int) ≤ r ∧ r < 2 ^ (1024 : Int) := by
  obtain ⟨hlow, hhigh, -⟩ := h.half hm
  have hpow : (0 : ℚ) < 2 ^ q := by positivity
  have hm1 : (1 : ℚ) ≤ m := by exact_mod_cast Nat.one_le_iff_ne_zero.2 hm
  have hm53 : (m : ℚ) + 1 ≤ 2 ^ 53 := by exact_mod_cast hc.lt
  constructor
  · calc (2 : ℚ) ^ (-1075 : Int) = 1 / 2 * 2 ^ (-1074 : Int) := by
          rw [show (-1075 : Int) = -1 + -1074 by rfl, zpow_add₀ two_ne_zero]
          norm_num
      _ ≤ 1 / 2 * 2 ^ q := by
          refine mul_le_mul_of_nonneg_left (zpow_le_zpow_right₀ one_le_two hc.low) (by norm_num)
      _ ≤ (m - 1 / 2) * 2 ^ q := mul_le_mul_of_nonneg_right (by linarith) hpow.le
      _ ≤ r := hlow
  · calc r ≤ (m + 1 / 2) * 2 ^ q := hhigh
      _ < 2 ^ 53 * 2 ^ q := mul_lt_mul_of_pos_right (by linarith) hpow
      _ ≤ 2 ^ 53 * 2 ^ (971 : Int) := by
          refine mul_le_mul_of_nonneg_left (zpow_le_zpow_right₀ one_le_two hc.high) (by positivity)
      _ = 2 ^ (1024 : Int) := by
          rw [show (1024 : Int) = (53 : Nat) + 971 by rfl, zpow_add₀ two_ne_zero, zpow_natCast]

theorem eight_pow_le (n : Nat) : (2 : ℚ) ^ (3 * (n : Int)) ≤ 10 ^ (n : Int) := by
  rw [zpow_mul, zpow_natCast, zpow_natCast]
  exact pow_le_pow_left₀ (by norm_num) (by norm_num) n

section
variable {digits : Nat} {exponent : Int}

/-- A decimal that is no larger than a double has no large exponent. -/
theorem exponent_le_of_lt (hdigits : digits ≠ 0) (h : (digits : ℚ) * 10 ^ exponent < 2 ^ (1024 : Int)) :
    exponent ≤ 400 := by
  by_contra! hlt
  have hone : (1 : ℚ) ≤ digits := by exact_mod_cast Nat.one_le_iff_ne_zero.2 hdigits
  have hbig : (2 : ℚ) ^ (1024 : Int) < digits * 10 ^ exponent :=
    calc (2 : ℚ) ^ (1024 : Int) < 2 ^ (3 * ((401 : Nat) : Int)) :=
          zpow_lt_zpow_right₀ one_lt_two (by decide)
      _ ≤ 10 ^ ((401 : Nat) : Int) := eight_pow_le 401
      _ ≤ 10 ^ exponent := zpow_le_zpow_right₀ (by norm_num) hlt
      _ ≤ digits * 10 ^ exponent := le_mul_of_one_le_left (by positivity) hone
  exact absurd hbig h.le.not_gt

/-- A decimal that is no smaller than a double has no small exponent for its digits. -/
theorem le_exponent_of_le (h : (2 : ℚ) ^ (-1075 : Int) ≤ digits * 10 ^ exponent) :
    -400 ≤ (digits.log2 / 3 : Nat) + exponent + 2 := by
  by_contra! hlt
  have hlog : digits < 2 ^ (3 * (digits.log2 / 3 + 1)) :=
    Nat.lt_log2_self.trans_le (Nat.pow_le_pow_right two_pos (by omega))
  generalize digits.log2 / 3 = size at hlt hlog
  have hsmall : (digits : ℚ) * 10 ^ exponent < 2 ^ (-1075 : Int) :=
    calc (digits : ℚ) * 10 ^ exponent < 10 ^ ((size + 1 : Nat) : Int) * 10 ^ exponent := by
          refine mul_lt_mul_of_pos_right ?_ (by positivity)
          refine lt_of_lt_of_le ?_ (eight_pow_le (size + 1))
          exact_mod_cast hlog
      _ = 10 ^ (((size + 1 : Nat) : Int) + exponent) := (zpow_add₀ (by norm_num) _ _).symm
      _ ≤ 10 ^ (-((402 : Nat) : Int)) := zpow_le_zpow_right₀ (by norm_num) (by omega)
      _ = (10 ^ ((402 : Nat) : Int))⁻¹ := zpow_neg _ _
      _ ≤ (2 ^ (3 * ((402 : Nat) : Int)))⁻¹ := inv_anti₀ (by positivity) (eight_pow_le 402)
      _ = 2 ^ (-(3 * ((402 : Nat) : Int))) := (zpow_neg _ _).symm
      _ ≤ 2 ^ (-1075 : Int) := zpow_le_zpow_right₀ one_le_two (by decide)
  exact absurd hsmall h.not_gt

/-- A decimal near a double is read as it: its exponent is multiplied out. -/
theorem ofDecimal_of_near (hx : Double.ofFloat x = .finite negative m q) (hm : m ≠ 0)
    (h : Near m q ((digits : ℚ) * 10 ^ exponent)) : ofDecimal negative digits exponent = x := by
  obtain ⟨hlow, hhigh⟩ := h.bounds (ofFloat_finite hx).1 hm
  have hdigits : digits ≠ 0 := by
    rintro rfl
    simpa using h.pos hm
  have hlarge := exponent_le_of_lt hdigits hhigh
  have hsmall := le_exponent_of_le hlow
  unfold ofDecimal
  simp only [if_neg hdigits]
  rw [if_neg (by simp [hlarge]), if_neg (by exact_mod_cast hsmall.not_gt)]
  cases exponent with
  | ofNat n =>
    refine nearest_of_near hx hm Nat.one_pos ?_
    simpa using h
  | negSucc n =>
    refine nearest_of_near hx hm (Nat.pow_pos (by decide)) ?_
    simpa [zpow_negSucc, div_eq_mul_inv] using h

end

end Codemod.Number
