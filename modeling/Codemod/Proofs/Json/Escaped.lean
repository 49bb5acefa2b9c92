import Codemod.Json.Printer
import Codemod.Proofs.Json.Alike

/-! Strings in quotes: each character is read back as it was, whether it is written as itself, by its
letter, or as one or two units in hexadecimal digits. -/
namespace Codemod.Json
open Text

/-! ## Hexadecimal digits -/

theorem hexDigit?_digitChar : ∀ d < 16, hexDigit? (Nat.digitChar d) = some d := by decide

theorem hexValue?_append_singleton {cs : List Char} {n d : Nat} (hcs : hexValue? cs = some n)
    (hd : d < 16) : hexValue? (cs ++ [Nat.digitChar d]) = some (16 * n + d) := by
  rw [hexValue?] at hcs ⊢
  rw [List.foldlM_append, hcs]
  simp [hexDigit?_digitChar d hd]

theorem hexValue?_toDigits (n : Nat) : hexValue? (Nat.toDigits 16 n) = some n := by
  induction n using Nat.strongRecOn with
  | _ n ih =>
    rcases Nat.lt_or_ge n 16 with hn | hn
    · rw [Nat.toDigits_of_lt_base hn]
      have hempty : hexValue? [] = some 0 := rfl
      simpa using hexValue?_append_singleton hempty hn
    · rw [Nat.toDigits_of_base_le (by decide) hn,
        hexValue?_append_singleton (ih (n / 16) (by omega)) (Nat.mod_lt n (by decide)), Nat.div_add_mod]

theorem hexValue?_zeros_append (k : Nat) (cs : List Char) :
    hexValue? (List.replicate k '0' ++ cs) = hexValue? cs := by
  induction k with
  | zero => rfl
  | succ k ih =>
    rw [← ih]
    rfl

theorem hex4_length {n : Nat} (hn : n < 0x10000) : (hex4 n).toList.length = 4 := by
  have hle : (Nat.toDigits 16 n).length ≤ 4 :=
    (Nat.length_toDigits_le_iff (by decide) (by decide)).2 hn
  simp only [hex4, String.toList_ofList, List.length_append, List.length_replicate]
  omega

theorem hexValue?_hex4 (n : Nat) : hexValue? (hex4 n).toList = some n := by
  rw [hex4, String.toList_ofList, hexValue?_zeros_append, hexValue?_toDigits]

/-! ## Units -/

theorem not_short {hex : List Char} (h : hex.length = 4) (rest : List Char) :
    ¬ (hex ++ rest).length < 4 := by
  rw [List.length_append]
  omega

theorem unit?_hex4 {n : Nat} (hn : n < 0x10000) (hother : ¬ (0xD800 ≤ n ∧ n < 0xE000))
    (rest : List Char) : unit? ((hex4 n).toList ++ rest) = some (Char.ofNat n, 4) := by
  have hlength := hex4_length hn
  rw [unit?, if_neg (not_short hlength rest), List.take_left' hlength, hexValue?_hex4]
  simp [hother]

/-- The two units of a character beyond the first plane are joined. -/
theorem unit?_surrogates {high low : Nat} (hhigh : 0xD800 ≤ high ∧ high < 0xDC00)
    (hlow : 0xDC00 ≤ low ∧ low < 0xE000) (rest : List Char) :
    unit? ((hex4 high).toList ++ '\\' :: 'u' :: ((hex4 low).toList ++ rest)) =
      some (Char.ofNat (0x10000 + (high - 0xD800) * 0x400 + (low - 0xDC00)), 10) := by
  have hfirst : (hex4 high).toList.length = 4 := hex4_length (by omega)
  have hsecond : (hex4 low).toList.length = 4 := hex4_length (by omega)
  have hsurrogate : (0xD800 ≤ high && high < 0xE000) = true := by simp; omega
  have hpair : (high < 0xDC00 && 0xDC00 ≤ low && low < 0xE000) = true := by simp; omega
  simp only [unit?, if_neg (not_short hfirst _), List.take_left' hfirst, hexValue?_hex4, Option.map_some,
    if_pos hsurrogate, List.drop_left' hfirst, if_neg (not_short hsecond _), List.take_left' hsecond,
    if_pos hpair]

/-! ## Characters -/

/-- The text read as one character in front of a body. -/
def inFront (c : Char) (p : List Char × List Char) : List Char × List Char := (c :: p.1, p.2)

theorem stringBody_unit {units rest : List Char} {c : Char} {n : Nat} (hn : units.length = n)
    (h : unit? (units ++ rest) = some (c, n)) :
    stringBody 0 ('\\' :: 'u' :: (units ++ rest)) = (stringBody 0 rest).map (inFront c) := by
  rw [← hn] at h
  rw [stringBody]
  simp [h, stringBody, stringBody_skip units rest]
  rfl

theorem stringBody_letter {e c : Char} (h : simpleEscape? e = some c) (rest : List Char) :
    stringBody 0 ('\\' :: e :: rest) = (stringBody 0 rest).map (inFront c) := by
  -- the reader looks for a unit first
  have hunit : e = 'u' → False := by
    rintro rfl
    cases h
  simp [stringBody, h]
  rfl

theorem stringBody_plain {c : Char} (hquote : c ≠ '"') (hslash : c ≠ '\\') (hc : 32 ≤ c.toNat)
    (rest : List Char) : stringBody 0 (c :: rest) = (stringBody 0 rest).map (inFront c) := by
  simp [stringBody, hquote, hslash, Nat.not_lt.2 hc]
  rfl

theorem unitMark_toList : "\\u".toList = ['\\', 'u'] := rfl

theorem toNat_valid (c : Char) : c.toNat < 0xD800 ∨ (0xDFFF < c.toNat ∧ c.toNat < 0x110000) := c.valid

/-- The surrogates of a character beyond the first plane. -/
theorem exists_surrogates {c : Char} (hn : ¬ c.toNat < 0x10000) : ∃ high low,
    (0xD800 ≤ high ∧ high < 0xDC00) ∧ (0xDC00 ≤ low ∧ low < 0xE000) ∧
      0x10000 + (high - 0xD800) * 0x400 + (low - 0xDC00) = c.toNat ∧
      escapeUnits c = "\\u" ++ hex4 high ++ "\\u" ++ hex4 low := by
  have hvalid := toNat_valid c
  refine ⟨0xD800 + (c.toNat - 0x10000) / 0x400, 0xDC00 + c.toNat % 0x400, ?_, ?_, ?_, if_neg hn⟩ <;> omega

theorem stringBody_low {c : Char} (hn : c.toNat < 0x10000) (rest : List Char) :
    stringBody 0 ((escapeUnits c).toList ++ rest) = (stringBody 0 rest).map (inFront c) := by
  have hvalid := toNat_valid c
  have hunit := unit?_hex4 hn (by omega) rest
  rw [Char.ofNat_toNat] at hunit
  rw [escapeUnits, if_pos hn, String.toList_append, unitMark_toList]
  exact stringBody_unit (hex4_length hn) hunit

theorem stringBody_high {c : Char} (hn : ¬ c.toNat < 0x10000) (rest : List Char) :
    stringBody 0 ((escapeUnits c).toList ++ rest) = (stringBody 0 rest).map (inFront c) := by
  obtain ⟨high, low, hhigh, hlow, hvalue, htext⟩ := exists_surrogates hn
  have hfirst : (hex4 high).toList.length = 4 := hex4_length (by omega)
  have hsecond : (hex4 low).toList.length = 4 := hex4_length (by omega)
  have hunit := unit?_surrogates hhigh hlow rest
  rw [hvalue, Char.ofNat_toNat] at hunit
  have hlength : ((hex4 high).toList ++ '\\' :: 'u' :: (hex4 low).toList).length = 10 := by
    simp [hfirst, hsecond]
  have hsplit : (escapeUnits c).toList ++ rest =
      '\\' :: 'u' :: (((hex4 high).toList ++ '\\' :: 'u' :: (hex4 low).toList) ++ rest) := by
    simp [htext, unitMark_toList]
  rw [hsplit]
  refine stringBody_unit hlength ?_
  rw [← hunit]
  simp

/-- A character written as units is read as it. -/
theorem stringBody_escapeUnits (c : Char) (rest : List Char) :
    stringBody 0 ((escapeUnits c).toList ++ rest) = (stringBody 0 rest).map (inFront c) := by
  by_cases hn : c.toNat < 0x10000
  · exact stringBody_low hn rest
  · exact stringBody_high hn rest

/-- A character as a writer puts it is read as it. -/
theorem stringBody_escapeChar (ascii : Bool) (c : Char) (rest : List Char) :
    stringBody 0 ((escapeChar ascii c).toList ++ rest) = (stringBody 0 rest).map (inFront c) := by
  unfold escapeChar
  split
  · exact stringBody_letter rfl rest
  · exact stringBody_letter rfl rest
  · exact stringBody_letter rfl rest
  · exact stringBody_letter rfl rest
  · exact stringBody_letter rfl rest
  · exact stringBody_letter rfl rest
  · exact stringBody_letter rfl rest
  · next hquote hslash _ _ _ _ _ =>
    split
    · exact stringBody_escapeUnits c rest
    · next hplain =>
      have hc : 32 ≤ c.toNat := by
        rw [Bool.or_eq_true, not_or, decide_eq_true_eq] at hplain
        exact Nat.le_of_not_lt hplain.1
      rw [Char.toString_eq_singleton, String.toList_singleton]
      exact stringBody_plain hquote hslash hc rest

/-! ## Strings -/

theorem quote_toList (ascii : Bool) (s : String) :
    (quote ascii s).toList = '"' :: (s.toList.flatMap (fun c => (escapeChar ascii c).toList) ++ ['"']) := by
  have hfold (cs : List Char) (out : String) :
      (cs.foldl (fun out c => out ++ escapeChar ascii c) out).toList =
        out.toList ++ cs.flatMap fun c => (escapeChar ascii c).toList := by
    induction cs generalizing out with
    | nil => simp
    | cons c cs ih => rw [List.foldl_cons, ih, String.toList_append, List.flatMap_cons, List.append_assoc]
  rw [quote, String.toList_append, hfold]
  rfl

theorem stringBody_escaped (ascii : Bool) (cs after : List Char) :
    stringBody 0 (cs.flatMap (fun c => (escapeChar ascii c).toList) ++ '"' :: after) = some (cs, after) := by
  induction cs with
  | nil => simp [stringBody]
  | cons c cs ih =>
    rw [List.flatMap_cons, List.append_assoc, stringBody_escapeChar, ih]
    rfl

/-- A string in quotes is one token, whatever stands behind it. -/
theorem tokens_quote (ascii : Bool) (s : String) (after : List Char) :
    tokens ((quote ascii s).toList ++ after) = .str s.toList :: tokens after := by
  have hbody := stringBody_escaped ascii s.toList after
  rw [quote_toList, List.cons_append, List.append_assoc, tokens_cons rfl]
  simp [nextToken, punctuation?, longToken?, hbody]

end Codemod.Json
