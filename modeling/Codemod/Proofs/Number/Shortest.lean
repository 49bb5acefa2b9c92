import Mathlib
import Codemod.Number.Decimal
import Codemod.Proofs.Number.Rounding

/-! The shortest decimal of a double is near it. Within twenty grids of powers of ten, the finest has
steps smaller than half of the last binary digit, so that one of its points cannot be missed. -/
namespace Codemod.Number

theorem ten_pow_pos (k : Int) : (0 : ℚ) < 10 ^ k := by positivity

/-! ## Grids -/

theorem inUnits_pos (num : Nat) {den : Nat} (h : 0 < den) (k : Int) : 0 < (inUnits num den k).2 := by
  cases k with
  | ofNat n => exact Nat.mul_pos h (Nat.pow_pos (by decide))
  | negSucc n => exact h

theorem inUnits_snd (num num' den : Nat) (k : Int) : (inUnits num den k).2 = (inUnits num' den k).2 := by
  cases k <;> rfl

theorem scaled_snd (num num' den : Nat) (q : Int) : (scaled num den q).2 = (scaled num' den q).2 := by
  cases q <;> rfl

theorem scaled_fst_le {num num' : Nat} (h : num ≤ num') (den : Nat) (q : Int) :
    (scaled num den q).1 ≤ (scaled num' den q).1 := by
  cases q with
  | ofNat n => exact h
  | negSucc n => exact Nat.mul_le_mul_right _ h

theorem inUnits_ratio (num den : Nat) (k : Int) :
    ((inUnits num den k).1 : ℚ) / (inUnits num den k).2 = num / den / 10 ^ k := by
  cases k with
  | ofNat n =>
    simp only [inUnits, Nat.pow_eq, Int.ofNat_eq_natCast, zpow_natCast]
    push_cast
    rw [div_div]
  | negSucc n =>
    simp only [inUnits, Nat.pow_eq, zpow_negSucc, div_inv_eq_mul]
    push_cast
    ring

/-- Whether a point of the grid lies between the ends, as it is tested. -/
def pointInside (low high den : Nat) (closed : Bool) (k : Int) (c : Nat) : Bool :=
  let d := (inUnits low den k).2
  if closed then (inUnits low den k).1 ≤ c * d && c * d ≤ (inUnits high den k).1
  else (inUnits low den k).1 < c * d && c * d < (inUnits high den k).1

variable {low num high den c : Nat} {closed : Bool} {k : Int}

theorem pointInside_iff (hden : 0 < den) : pointInside low high den closed k c = true ↔
    Between closed ((low : ℚ) / den) (high / den) (c * 10 ^ k) := by
  have hpos : (0 : ℚ) < (inUnits low den k).2 := by exact_mod_cast inUnits_pos low hden k
  have hlow := inUnits_ratio low den k
  have hhigh := inUnits_ratio high den k
  rw [inUnits_snd high low] at hhigh
  have hle : (low : ℚ) / den ≤ c * 10 ^ k ↔ (inUnits low den k).1 ≤ c * (inUnits low den k).2 := by
    rw [← div_le_iff₀ (ten_pow_pos k), ← hlow, div_le_iff₀ hpos]
    norm_cast
  have hlt : (low : ℚ) / den < c * 10 ^ k ↔ (inUnits low den k).1 < c * (inUnits low den k).2 := by
    rw [← div_lt_iff₀ (ten_pow_pos k), ← hlow, div_lt_iff₀ hpos]
    norm_cast
  have hge : (c : ℚ) * 10 ^ k ≤ high / den ↔ c * (inUnits low den k).2 ≤ (inUnits high den k).1 := by
    rw [← le_div_iff₀ (ten_pow_pos k), ← hhigh, le_div_iff₀ hpos]
    norm_cast
  have hgt : (c : ℚ) * 10 ^ k < high / den ↔ c * (inUnits low den k).2 < (inUnits high den k).1 := by
    rw [← lt_div_iff₀ (ten_pow_pos k), ← hhigh, lt_div_iff₀ hpos]
    norm_cast
  unfold pointInside
  cases closed with
  | true =>
    simp only [if_pos, Bool.and_eq_true, decide_eq_true_eq, ← hle, ← hge]
    exact ⟨fun h => ⟨h.1, h.2, nofun⟩, fun h => ⟨h.low, h.high⟩⟩
  | false =>
    simp only [Bool.false_eq_true, if_false, Bool.and_eq_true, decide_eq_true_eq, ← hlt, ← hgt]
    exact ⟨fun h => ⟨h.1.le, h.2.le, fun _ => h⟩, fun h => h.inside rfl⟩

/-- Of the two points around the value, one that lies inside is taken. -/
theorem gridPoint?_eq (low num high den : Nat) (closed : Bool) (k : Int) :
    ∃ first : Bool, gridPoint? low num high den closed k =
      let c := (inUnits num den k).1 / (inUnits num den k).2
      match pointInside low high den closed k c, pointInside low high den closed k (c + 1) with
      | true, true => some (if first then c else c + 1)
      | true, false => some c
      | false, true => some (c + 1)
      | false, false => none :=
  ⟨_, rfl⟩

theorem gridPoint?_spec (hden : 0 < den) (h : gridPoint? low num high den closed k = some c) :
    Between closed ((low : ℚ) / den) (high / den) (c * 10 ^ k) := by
  rw [← pointInside_iff hden]
  obtain ⟨first, hpoint⟩ := gridPoint?_eq low num high den closed k
  rw [hpoint] at h
  dsimp only at h
  split at h
  · next hc hsucc =>
    cases first with
    | true => exact Option.some.inj h ▸ hc
    | false => exact Option.some.inj h ▸ hsucc
  · next hc _ => exact Option.some.inj h ▸ hc
  · next _ hsucc => exact Option.some.inj h ▸ hsucc
  · cases h

/-- A grid has a point between the ends when they are further than a step above the value. -/
theorem gridPoint?_isSome (hden : 0 < den) (hlow : low ≤ num)
    (hstep : (num : ℚ) / den + 10 ^ k < high / den) :
    (gridPoint? low num high den closed k).isSome = true := by
  have hunit := ten_pow_pos k
  have hfloor := Nat.floor_le (show 0 ≤ (num : ℚ) / den / 10 ^ k by positivity)
  have hceil := Nat.lt_floor_add_one ((num : ℚ) / den / 10 ^ k)
  rw [← inUnits_ratio, Nat.floor_div_eq_div, inUnits_ratio] at hfloor hceil
  rw [le_div_iff₀ hunit] at hfloor
  rw [div_lt_iff₀ hunit] at hceil
  have hle : (low : ℚ) / den ≤ num / den := by gcongr
  have hsucc : pointInside low high den closed k ((inUnits num den k).1 / (inUnits num den k).2 + 1) =
      true := by
    rw [pointInside_iff hden]
    push_cast
    have hlow' := hle.trans_lt hceil
    have hhigh' : (((inUnits num den k).1 / (inUnits num den k).2 : Nat) + 1 : ℚ) * 10 ^ k < high / den := by
      rw [add_mul, one_mul]
      exact (add_le_add_left hfloor _).trans_lt hstep
    exact ⟨hlow'.le, hhigh'.le, fun _ => ⟨hlow', hhigh'⟩⟩
  obtain ⟨first, hpoint⟩ := gridPoint?_eq low num high den closed k
  rw [hpoint]
  dsimp only
  rw [hsucc]
  cases pointInside low high den closed k ((inUnits num den k).1 / (inUnits num den k).2) <;> rfl

/-! ## The grids that are tried -/

theorem digitCount_bounds {n : Nat} (h : n ≠ 0) :
    (10 : ℚ) ^ ((digitCount n : Int) - 1) ≤ n ∧ (n : ℚ) < 10 ^ (digitCount n : Int) := by
  have hpos : 0 < digitCount n := List.length_pos_iff.2 Nat.toDigits_ne_nil
  have hlt : n < 10 ^ digitCount n := (Nat.length_toDigits_le_iff (by decide) hpos).1 le_rfl
  have hle : 10 ^ (digitCount n - 1) ≤ n := by
    by_contra hlt
    by_cases hone : digitCount n = 1
    · rw [hone] at hlt
      omega
    · have := (Nat.length_toDigits_le_iff (by decide) (by omega)).2 (not_le.1 hlt)
      rw [← digitCount] at this
      omega
  have hpred : (digitCount n : Int) - 1 = (digitCount n - 1 : Nat) := by omega
  rw [hpred, zpow_natCast, zpow_natCast]
  exact ⟨by exact_mod_cast hle, by exact_mod_cast hlt⟩

/-- The exponent of the coarsest grid for a value. -/
def topOf (num den : Nat) : Int := (digitCount num : Int) - digitCount den + 1

theorem topOf_le {num den : Nat} (hnum : num ≠ 0) (hden : den ≠ 0) :
    (10 : ℚ) ^ (topOf num den - 2) ≤ num / den := by
  have hpos : (0 : ℚ) < den := by exact_mod_cast Nat.pos_of_ne_zero hden
  have hlow := (digitCount_bounds hnum).1
  have hhigh := (digitCount_bounds hden).2
  rw [le_div_iff₀ hpos]
  calc (10 : ℚ) ^ (topOf num den - 2) * den
      ≤ 10 ^ (topOf num den - 2) * 10 ^ (digitCount den : Int) := by gcongr
    _ = 10 ^ ((digitCount num : Int) - 1) := by
      rw [← zpow_add₀ (by norm_num)]
      congr 1
      unfold topOf
      ring
    _ ≤ num := hlow

/-- The point taken from one grid for the double `m * 2 ^ q`. -/
def pointFor (m : Nat) (q : Int) (k : Int) : Option Nat :=
  gridPoint? (scaled (4 * m - gapBelow m q) 1 (2 - q)).1 (scaled (4 * m) 1 (2 - q)).1
    (scaled (4 * m + 2) 1 (2 - q)).1 (scaled (4 * m) 1 (2 - q)).2 (m % 2 == 0) k

theorem shortest_eq {m : Nat} (hm : m ≠ 0) (q : Int) :
    let top := topOf (scaled (4 * m) 1 (2 - q)).1 (scaled (4 * m) 1 (2 - q)).2
    ∃ other, shortest m q =
      (((List.range 20).map fun i : Nat => top - i).findSome? fun k =>
        (pointFor m q k).map fun c => Decimal.mk c k).getD other := by
  have hgap : (if m = Nat.pow 2 52 && q > -1074 then 1 else 2) = gapBelow m q := by
    simp [gapBelow]
  unfold shortest
  simp only [if_neg hm, hgap]
  exact ⟨_, rfl⟩

variable {m : Nat} {q : Int}

theorem scaled_quarters (a b : Nat) (q : Int) :
    ((scaled a 1 (2 - q)).1 : ℚ) / (scaled b 1 (2 - q)).2 = a * 2 ^ (q - 2) := by
  rw [scaled_snd b a, scaled_ratio, Nat.cast_one, div_one, div_eq_mul_inv, ← zpow_neg, neg_sub]

theorem pointFor_near (h : pointFor m q k = some c) : Near m q (c * 10 ^ k) := by
  have hspec := gridPoint?_spec (scaled_pos _ Nat.one_pos _) h
  rwa [scaled_quarters, scaled_quarters] at hspec

/-- A grid with steps below half of the last digit has a point for the double. -/
theorem pointFor_isSome (hc : Canonical m q) (h : 10 ^ 17 * 10 ^ k ≤ (m : ℚ) * 2 ^ q) :
    (pointFor m q k).isSome = true := by
  have hpow : (0 : ℚ) < 2 ^ q := by positivity
  have hstep : (10 : ℚ) ^ k < 1 / 2 * 2 ^ q := by
    have hm53 : (m : ℚ) ≤ 2 ^ 53 := by exact_mod_cast hc.lt.le
    have hlt : (10 : ℚ) ^ 17 * 10 ^ k < 10 ^ 17 * (1 / 2 * 2 ^ q) :=
      calc (10 : ℚ) ^ 17 * 10 ^ k ≤ m * 2 ^ q := h
        _ ≤ 2 ^ 53 * 2 ^ q := mul_le_mul_of_nonneg_right hm53 hpow.le
        _ < 10 ^ 17 / 2 * 2 ^ q := mul_lt_mul_of_pos_right (by norm_num) hpow
        _ = 10 ^ 17 * (1 / 2 * 2 ^ q) := by ring
    exact lt_of_mul_lt_mul_left hlt (by positivity)
  refine gridPoint?_isSome (scaled_pos _ Nat.one_pos _) (scaled_fst_le (Nat.sub_le _ _) _ _) ?_
  · rw [scaled_quarters, scaled_quarters, quarters, quarters]
    push_cast
    linarith

/-- The shortest decimal of a double is near it. -/
theorem shortest_near (hc : Canonical m q) (hm : m ≠ 0) :
    Near m q ((shortest m q).digits * 10 ^ (shortest m q).exponent) := by
  obtain ⟨other, hshortest⟩ := shortest_eq hm q
  have hden := scaled_pos (4 * m) Nat.one_pos (2 - q)
  have hvalue := scaled_quarters (4 * m) (4 * m) q
  have hnum : (scaled (4 * m) 1 (2 - q)).1 ≠ 0 := by
    intro hzero
    rw [hzero, Nat.cast_zero, zero_div] at hvalue
    have : (4 * m : Nat) * (2 : ℚ) ^ (q - 2) ≠ 0 := by positivity
    exact this hvalue.symm
  have htop := topOf_le hnum hden.ne'
  rw [hvalue, quarters] at htop
  generalize topOf (scaled (4 * m) 1 (2 - q)).1 (scaled (4 * m) 1 (2 - q)).2 = top at hshortest htop
  have hfinest : (pointFor m q (top - (19 : Nat))).isSome = true := by
    refine pointFor_isSome hc ?_
    calc (10 : ℚ) ^ 17 * 10 ^ (top - (19 : Nat)) = 10 ^ (top - 2) := by
          rw [← zpow_natCast, ← zpow_add₀ (by norm_num)]
          congr 1
          push_cast
          ring
      _ ≤ m * 2 ^ q := by
        push_cast at htop
        linarith
  cases hfind : ((List.range 20).map fun i : Nat => top - i).findSome? fun k =>
      (pointFor m q k).map fun c => Decimal.mk c k with
  | none =>
    have hmem : top - (19 : Nat) ∈ (List.range 20).map fun i : Nat => top - i :=
      List.mem_map_of_mem (by decide)
    have hnone := List.findSome?_eq_none_iff.1 hfind _ hmem
    rw [Option.map_eq_none_iff] at hnone
    rw [hnone] at hfinest
    cases hfinest
  | some d =>
    obtain ⟨k, -, hk⟩ := List.exists_of_findSome?_eq_some hfind
    obtain ⟨c, hc, rfl⟩ := Option.map_eq_some_iff.1 hk
    rw [hshortest, hfind]
    exact pointFor_near hc

end Codemod.Number
