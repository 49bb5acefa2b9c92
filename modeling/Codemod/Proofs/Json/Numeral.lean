import Mathlib
import Codemod.Json.Token
import Codemod.Number.Decimal
import Codemod.Proofs.Text.Digits

/-! Numbers as they are written, and that each is read as what it says. -/
namespace Codemod.Json
open Text

/-- The exponent of a number, with its sign written out. -/
structure Exponent where
  negative : Bool
  digits : List Char
  ne_nil : digits ≠ []
  ascii : ∀ c ∈ digits, c.isDigit = true

/-- A number without its sign: the digits in front of the point, those behind it, and an exponent. A zero
in front stands alone. -/
structure Numeral where
  whole : List Char
  fraction : List Char
  exponent : Option Exponent
  ne_nil : whole ≠ []
  whole_ascii : ∀ c ∈ whole, c.isDigit = true
  fraction_ascii : ∀ c ∈ fraction, c.isDigit = true
  zero : whole.head? = some '0' → whole = ['0']

def Exponent.text (e : Exponent) : List Char := 'e' :: (if e.negative then '-' else '+') :: e.digits

def Exponent.value (e : Exponent) : Int :=
  if e.negative then -(digitsValue e.digits : Int) else digitsValue e.digits

namespace Numeral

def fractionText (fraction : List Char) : List Char := if fraction.isEmpty then [] else '.' :: fraction

def exponentText (exponent : Option Exponent) : List Char := (exponent.map Exponent.text).getD []

def text (n : Numeral) : List Char := n.whole ++ (fractionText n.fraction ++ exponentText n.exponent)

/-- The power of ten that the digits of both parts are multiplied with. -/
def scale (n : Numeral) : Int := (n.exponent.map Exponent.value).getD 0 - n.fraction.length

/-- The token that the number is read as. -/
def token (negative : Bool) (n : Numeral) : Token :=
  if n.fraction.isEmpty && n.exponent.isNone then .whole negative n.whole
  else .decimal negative (n.whole ++ n.fraction) n.scale

/-! ## Reading a number -/

theorem exponent?_exponentText (exponent : Option Exponent) :
    exponent? (exponentText exponent) =
      exponent.map fun e => (e.value, (exponentText exponent).length) := by
  cases exponent with
  | none => rfl
  | some e =>
    have hdigits : e.digits.takeWhile isAsciiDigit = e.digits := by
      rw [List.takeWhile_eq_self_iff]
      exact e.ascii
    obtain ⟨negative, digits, hne, hascii⟩ := e
    cases negative with
    | true =>
      simp [exponentText, Exponent.text, exponent?, hdigits, hne, Exponent.value]
      omega
    | false =>
      simp [exponentText, Exponent.text, exponent?, hdigits, hne, Exponent.value]
      omega

theorem not_digit_exponentText (exponent : Option Exponent) :
    ∀ c ∈ (exponentText exponent).head?, isAsciiDigit c = false := by
  cases exponent with
  | none => simp [exponentText]
  | some e =>
    rintro c ⟨⟩
    rfl

theorem not_digit_fractionText (fraction : List Char) (exponent : Option Exponent) :
    ∀ c ∈ (fractionText fraction ++ exponentText exponent).head?, isAsciiDigit c = false := by
  unfold fractionText
  split
  · exact not_digit_exponentText exponent
  · rintro c ⟨⟩
    rfl

theorem wholeDigits_append (n : Numeral) {rest : List Char}
    (h : ∀ c ∈ rest.head?, isAsciiDigit c = false) : wholeDigits (n.whole ++ rest) = n.whole := by
  obtain ⟨c, cs, hcs⟩ := List.exists_cons_of_ne_nil n.ne_nil
  by_cases hzero : c = '0'
  · have hwhole := n.zero (by rw [hcs, hzero]; rfl)
    rw [hwhole]
    rfl
  · have hspan := takeWhile_span n.whole_ascii h
    rw [hcs] at hspan ⊢
    unfold wholeDigits
    split
    · next he => exact absurd (List.cons.inj he).1 hzero
    · exact hspan

theorem fractionDigits_append (n : Numeral) :
    fractionDigits (fractionText n.fraction ++ exponentText n.exponent) = n.fraction := by
  unfold fractionText
  split
  · next hempty =>
    rw [List.isEmpty_iff.1 hempty, List.nil_append]
    cases n.exponent <;> rfl
  · exact takeWhile_span n.fraction_ascii (not_digit_exponentText n.exponent)

/-- A number is read up to its end. -/
theorem number?_text (negative : Bool) (n : Numeral) :
    number? negative n.text = some (n.token negative, []) := by
  have hwhole := n.wholeDigits_append (not_digit_fractionText n.fraction n.exponent)
  have hdrop : n.text.drop n.whole.length = fractionText n.fraction ++ exponentText n.exponent :=
    List.drop_left
  have hfraction := n.fractionDigits_append
  have hlength : (fractionText n.fraction).length =
      if n.fraction.isEmpty then 0 else n.fraction.length + 1 := by
    unfold fractionText
    split <;> rfl
  have hread : n.text.drop (n.whole.length + (fractionText n.fraction).length) = exponentText n.exponent := by
    rw [← List.drop_drop, hdrop, List.drop_left]
  unfold number?
  rw [text, hwhole, ← text]
  dsimp only
  rw [if_neg (by simp [n.ne_nil]), hdrop, hfraction, ← hlength, hread, exponent?_exponentText]
  cases he : n.exponent with
  | none =>
    simp only [token, scale, he, Option.map_none, Option.isNone_none, Bool.and_true, Option.getD_none,
      Int.zero_sub]
    split <;> rfl
  | some e =>
    simp only [token, scale, he, Option.map_some, Option.isNone_some, Bool.and_false, Option.getD_some]
    rw [← he, ← List.drop_drop, hread, List.drop_length, if_neg (by decide)]

/-! ## Whole numbers -/

/-- A natural number in its digits. -/
def ofNat (n : Nat) : Numeral where
  whole := Nat.toDigits 10 n
  fraction := []
  exponent := none
  ne_nil := Nat.toDigits_ne_nil
  whole_ascii := fun _ => isDigit_of_mem_toDigits
  fraction_ascii := by simp
  zero := toDigits_of_head_zero

theorem ofNat_text (n : Nat) : (ofNat n).text = Nat.toDigits 10 n := List.append_nil _

theorem ofNat_token (negative : Bool) (n : Nat) :
    (ofNat n).token negative = .whole negative (Nat.toDigits 10 n) := rfl

/-! ## Decimals -/

/-- What a number stands for, without its sign. -/
def value (n : Numeral) : ℚ := (digitsValue (n.whole ++ n.fraction) : ℚ) * 10 ^ n.scale

end Numeral

/-- Digits without zeros at their end that spell a decimal, with the exponent of the first. -/
structure Significant (d : Number.Decimal) (digits : List Char) (exponent : Int) : Prop where
  ne_nil : digits ≠ []
  ascii : ∀ c ∈ digits, c.isDigit = true
  zero : digits.head? = some '0' → digits = ['0'] ∧ exponent = 0
  value : (digitsValue digits : ℚ) * 10 ^ (exponent - (digits.length - 1)) = d.digits * 10 ^ d.exponent

/-- A number in its digits, with the zeros at their end cut off. -/
theorem exists_kept (n : Nat) : ∃ z, Nat.toDigits 10 n =
      ((Nat.toDigits 10 n).reverse.dropWhile (· == '0')).reverse ++ List.replicate z '0' := by
  refine ⟨((Nat.toDigits 10 n).reverse.takeWhile (· == '0')).length, ?_⟩
  have hzeros : ((Nat.toDigits 10 n).reverse.takeWhile (· == '0')) =
      List.replicate ((Nat.toDigits 10 n).reverse.takeWhile (· == '0')).length '0' :=
    List.eq_replicate_iff.2 ⟨rfl, fun c hc => by simpa using List.mem_takeWhile_imp hc⟩
  have hsplit := congrArg List.reverse
    (List.takeWhile_append_dropWhile (p := (· == '0')) (l := (Nat.toDigits 10 n).reverse))
  rw [List.reverse_append, List.reverse_reverse, hzeros, List.reverse_replicate] at hsplit
  exact hsplit.symm

theorem significant (d : Number.Decimal) :
    Significant d (Number.significand d).1 (if d.digits = 0 then 0 else (Number.significand d).2) := by
  obtain ⟨n, exponent⟩ := d
  unfold Number.significand
  dsimp only
  by_cases hn : n = 0
  · subst hn
    have hzero : digitsValue ['0'] = 0 := by decide
    exact ⟨by simp, by simp, by simp, by simp [hzero]⟩
  · obtain ⟨z, hz⟩ := exists_kept n
    rw [if_neg hn]
    generalize ((Nat.toDigits 10 n).reverse.dropWhile (· == '0')).reverse = kept at hz
    have hascii : ∀ c ∈ kept, c.isDigit = true := fun c hc =>
      isDigit_of_mem_toDigits (n := n) (by rw [hz]; exact List.mem_append_left _ hc)
    have hvalue : n = digitsValue kept * 10 ^ z := by
      rw [← digitsValue_append_zeros hascii, ← hz, digitsValue_toDigits]
    have hne : kept ≠ [] := by
      rintro rfl
      exact hn (by rw [hvalue]; simp [digitsValue])
    rw [if_neg (by simpa using hne)]
    refine ⟨hne, hascii, fun hhead => ?_, ?_⟩
    · have hzero := toDigits_of_head_zero (n := n) (by rw [hz, List.head?_append_of_ne_nil _ hne, hhead])
      have := congrArg digitsValue hzero
      rw [digitsValue_toDigits] at this
      exact absurd this hn
    · have hscale : exponent + ((Nat.toDigits 10 n).length : Int) - 1 - (kept.length - 1) = z + exponent := by
        rw [hz, List.length_append, List.length_replicate]
        push_cast
        ring
      have hcast : (n : ℚ) = digitsValue kept * 10 ^ z := by exact_mod_cast hvalue
      rw [hscale, zpow_add₀ (by norm_num), zpow_natCast, hcast, mul_assoc]

theorem ascii_twoDigits (n : Nat) : ∀ c ∈ Number.twoDigits n, c.isDigit = true := by
  unfold Number.twoDigits
  dsimp only
  split
  · exact List.forall_mem_cons.2 ⟨rfl, fun c hc => isDigit_of_mem_toDigits hc⟩
  · exact fun c hc => isDigit_of_mem_toDigits hc

theorem digitsValue_twoDigits (n : Nat) : digitsValue (Number.twoDigits n) = n := by
  have hzero := digitsValue_zeros_append (fun _ => isDigit_of_mem_toDigits (n := n)) 1
  unfold Number.twoDigits
  dsimp only
  split
  · exact hzero.trans (digitsValue_toDigits n)
  · exact digitsValue_toDigits n

theorem twoDigits_ne_nil (n : Nat) : Number.twoDigits n ≠ [] := by
  unfold Number.twoDigits
  dsimp only
  split
  · exact List.cons_ne_nil _ _
  · exact Nat.toDigits_ne_nil

/-- An exponent with its sign and at least two digits. -/
def Exponent.ofInt (n : Int) : Exponent where
  negative := n < 0
  digits := Number.twoDigits n.natAbs
  ne_nil := twoDigits_ne_nil _
  ascii := ascii_twoDigits _

theorem Exponent.ofInt_value (n : Int) : (ofInt n).value = n := by
  unfold ofInt value
  simp only [digitsValue_twoDigits, decide_eq_true_eq]
  split <;> omega

theorem Exponent.ofInt_text (n : Int) :
    (ofInt n).text = 'e' :: (if n < 0 then '-' else '+') :: Number.twoDigits n.natAbs := by
  unfold ofInt text
  simp only [decide_eq_true_eq]

/-- The number that a spelling has, with the value of the decimal. It is never a whole number. -/
structure Spells (d : Number.Decimal) (cs : List Char) (n : Numeral) : Prop where
  text : n.text = cs
  fractional : n.fraction ≠ [] ∨ n.exponent ≠ none
  value : n.value = d.digits * 10 ^ d.exponent

section
variable {d : Number.Decimal} {digits : List Char} {exponent : Int} (h : Significant d digits exponent)
include h

/-- All digits stand in front of the point, with zeros behind them. -/
theorem Significant.exists_whole {k : Nat} (hk : exponent = k) (hlength : digits.length ≤ k + 1) :
    ∃ n, Spells d (digits ++ List.replicate (k + 1 - digits.length) '0' ++ ".0".toList) n := by
  have hwhole : ∀ c ∈ digits ++ List.replicate (k + 1 - digits.length) '0', c.isDigit = true :=
    List.forall_mem_append.2 ⟨h.ascii, ascii_zeros _⟩
  have hzero : (digits ++ List.replicate (k + 1 - digits.length) '0').head? = some '0' →
      digits ++ List.replicate (k + 1 - digits.length) '0' = ['0'] := by
    rw [List.head?_append_of_ne_nil _ h.ne_nil]
    intro hhead
    obtain ⟨hdigits, hexponent⟩ := h.zero hhead
    obtain rfl : k = 0 := by omega
    rw [hdigits]
    rfl
  refine ⟨⟨_, ['0'], none, by simp [h.ne_nil], hwhole, ascii_zeros 1, hzero⟩, ?_, .inl (by simp), ?_⟩
  · simp [Numeral.text, Numeral.fractionText, Numeral.exponentText]
  · simp only [Numeral.value, List.append_assoc, ← List.replicate_succ']
    rw [digitsValue_append_zeros h.ascii, ← h.value]
    have hscale : exponent - ((digits.length : Int) - 1) = (k + 1 - digits.length + 1 : Nat) + (0 - 1) := by
      omega
    rw [hscale, zpow_add₀ (by norm_num), zpow_natCast]
    push_cast
    rw [mul_assoc]
    rfl

/-- The point stands between digits. -/
theorem Significant.exists_mixed {k : Nat} (hk : exponent = k) (hlength : k + 1 < digits.length) :
    ∃ n, Spells d (digits.take (k + 1) ++ '.' :: digits.drop (k + 1)) n := by
  have hrest : digits.drop (k + 1) ≠ [] := by simpa using hlength
  have hzero : (digits.take (k + 1)).head? = some '0' → digits.take (k + 1) = ['0'] := by
    rw [List.head?_take, if_neg (Nat.succ_ne_zero k)]
    intro hhead
    rw [(h.zero hhead).1, List.take_succ_cons, List.take_nil]
  refine ⟨⟨digits.take (k + 1), digits.drop (k + 1), none, by simp [h.ne_nil],
    fun c hc => h.ascii c (List.mem_of_mem_take hc), fun c hc => h.ascii c (List.mem_of_mem_drop hc), hzero⟩,
    ?_, .inl hrest, ?_⟩
  · rw [Numeral.text, Numeral.fractionText, if_neg (by simpa using hlength)]
    simp [Numeral.exponentText]
  · have hscale : exponent - ((digits.length : Int) - 1) = 0 - ((digits.drop (k + 1)).length : Int) := by
      rw [List.length_drop]
      omega
    rw [← h.value, hscale, Numeral.value, List.take_append_drop]
    rfl

theorem Significant.exists_positional {k : Nat} (hk : exponent = k) : ∃ n, Spells d
    (digits.take (k + 1) ++ List.replicate (k + 1 - (digits.take (k + 1)).length) '0' ++
      if (digits.drop (k + 1)).isEmpty then ".0".toList else '.' :: digits.drop (k + 1)) n := by
  rcases Nat.lt_or_ge (k + 1) digits.length with hlength | hlength
  · have hnone : k + 1 - (digits.take (k + 1)).length = 0 := by
      rw [List.length_take]
      omega
    rw [if_neg (by simpa using hlength), hnone, List.replicate_zero, List.append_nil]
    exact h.exists_mixed hk hlength
  · rw [if_pos (by simpa using hlength), List.take_of_length_le hlength]
    exact h.exists_whole hk hlength

theorem Significant.exists_small {k : Nat} (hk : exponent = .negSucc k) : ∃ n, Spells d
    ('0' :: '.' :: List.replicate k '0' ++ digits) n := by
  have hfraction : ∀ c ∈ List.replicate k '0' ++ digits, c.isDigit = true :=
    List.forall_mem_append.2 ⟨ascii_zeros k, h.ascii⟩
  have hne : List.replicate k '0' ++ digits ≠ [] := by simp [h.ne_nil]
  refine ⟨⟨['0'], List.replicate k '0' ++ digits, none, by simp, ascii_zeros 1, hfraction, fun _ => rfl⟩, ?_,
    .inl hne, ?_⟩
  · rw [Numeral.text, Numeral.fractionText, if_neg (by simpa using hne)]
    simp [Numeral.exponentText]
  · have hdigits : ['0'] ++ (List.replicate k '0' ++ digits) = List.replicate (k + 1) '0' ++ digits := rfl
    have hscale : exponent - ((digits.length : Int) - 1) = 0 - ((List.replicate k '0' ++ digits).length : Int) := by
      rw [hk, List.length_append, List.length_replicate]
      omega
    rw [← h.value, Numeral.value, hdigits, digitsValue_zeros_append h.ascii, hscale]
    rfl

theorem Significant.exists_scientific : ∃ n, Spells d
    (digits.take 1 ++ (if digits.length > 1 then '.' :: digits.drop 1 else []) ++
      'e' :: (if exponent < 0 then '-' else '+') :: Number.twoDigits exponent.natAbs) n := by
  refine ⟨⟨digits.take 1, digits.drop 1, some (.ofInt exponent), by simp [h.ne_nil],
    fun c hc => h.ascii c (List.mem_of_mem_take hc), fun c hc => h.ascii c (List.mem_of_mem_drop hc),
    ?_⟩, ?_, .inr (by simp), ?_⟩
  · rw [List.head?_take, if_neg Nat.one_ne_zero]
    intro hhead
    rw [(h.zero hhead).1]
    rfl
  · have hfraction : (if digits.length > 1 then '.' :: digits.drop 1 else []) =
        Numeral.fractionText (digits.drop 1) := by
      rcases digits with _ | ⟨c, _ | ⟨c', cs⟩⟩ <;> simp [Numeral.fractionText]
    rw [hfraction, List.append_assoc, ← Exponent.ofInt_text]
    rfl
  · have hlength : ((digits.drop 1).length : Int) = digits.length - 1 := by
      have := List.length_pos_iff.2 h.ne_nil
      rw [List.length_drop]
      omega
    simp only [Numeral.value, Numeral.scale, Option.map_some, Option.getD_some, Exponent.ofInt_value,
      List.take_append_drop, hlength]
    exact h.value

end

/-- A decimal in data is written as a number with its value. -/
theorem exists_spells (d : Number.Decimal) : ∃ n, Spells d (Number.dataStyle.spell d) n := by
  have h := significant d
  unfold Number.Style.spell
  dsimp only
  generalize (Number.significand d).1 = digits at h
  generalize (if d.digits = 0 then 0 else (Number.significand d).2) = exponent at h
  split
  · cases exponent with
    | ofNat k => exact h.exists_positional rfl
    | negSucc k => exact h.exists_small rfl
  · exact h.exists_scientific

end Codemod.Json
