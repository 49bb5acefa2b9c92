import Codemod.Json.Reader
import Codemod.Proofs.Text.Span

/-! How a valid text is written: as signs, quoted strings, and numbers and words, with spaces between
them. What stands in a string is only told as far as it takes to find its end, and that is enough for a
reader to get there. -/
namespace Codemod.Json
open Text

/-! ## Strings -/

/-- What may stand between the quotes of a string. -/
inductive Quotable : List Char → Prop
  | nil : Quotable []
  | plain {c : Char} {cs : List Char} (hquote : c ≠ '"') (hslash : c ≠ '\\') (hc : 32 ≤ c.toNat)
      (h : Quotable cs) : Quotable (c :: cs)
  | escape {e : Char} {cs : List Char} (he : (simpleEscape? e).isSome = true) (h : Quotable cs) :
      Quotable ('\\' :: e :: cs)
  | unit {hex cs : List Char} (hlength : hex.length = 4) (hhex : (hexValue? hex).isSome = true)
      (h : Quotable cs) : Quotable ('\\' :: 'u' :: (hex ++ cs))

theorem Quotable.append {cs ds : List Char} (hc : Quotable cs) (hd : Quotable ds) :
    Quotable (cs ++ ds) := by
  induction hc with
  | nil => exact hd
  | plain hquote hslash hc _ ih => exact .plain hquote hslash hc ih
  | escape he _ ih => exact .escape he ih
  | unit hlength hhex _ ih =>
    rw [List.cons_append, List.cons_append, List.append_assoc]
    exact .unit hlength hhex ih

theorem toNat_between {low high c : Char} (h : (low ≤ c && c ≤ high) = true) :
    low.toNat ≤ c.toNat ∧ c.toNat ≤ high.toNat := by
  rw [Bool.and_eq_true, decide_eq_true_eq, decide_eq_true_eq] at h
  exact ⟨UInt32.le_iff_toNat_le.1 h.1, UInt32.le_iff_toNat_le.1 h.2⟩

theorem toNat_hexDigit {c : Char} (h : (hexDigit? c).isSome = true) :
    (48 ≤ c.toNat ∧ c.toNat ≤ 57) ∨ (97 ≤ c.toNat ∧ c.toNat ≤ 102) ∨ (65 ≤ c.toNat ∧ c.toNat ≤ 70) := by
  unfold hexDigit? at h
  split at h
  · next hr => exact .inl (toNat_between hr)
  · split at h
    · next hr => exact .inr (.inl (toNat_between hr))
    · split at h
      · next hr => exact .inr (.inr (toNat_between hr))
      · cases h

theorem ne_of_hexDigit {c d : Char} (h : (hexDigit? c).isSome = true) (hd : hexDigit? d = none) :
    c ≠ d := by
  rintro rfl
  rw [hd] at h
  cases h

theorem hexDigits_of_hexValue {cs : List Char} (h : (hexValue? cs).isSome = true) :
    ∀ c ∈ cs, (hexDigit? c).isSome = true := by
  have go : ∀ (cs : List Char) (k : Nat),
      (cs.foldlM (fun n c => (hexDigit? c).map (16 * n + ·)) k).isSome = true →
        ∀ c ∈ cs, (hexDigit? c).isSome = true := by
    intro cs
    induction cs with
    | nil => simp
    | cons c cs ih =>
      intro k hk
      rw [List.foldlM_cons] at hk
      cases hc : hexDigit? c with
      | none => simp [hc] at hk
      | some d =>
        rw [List.forall_mem_cons, hc]
        exact ⟨rfl, ih (16 * k + d) (by simpa [hc] using hk)⟩
  exact go cs 0 h

theorem Quotable.no_control {cs : List Char} (h : Quotable cs) : ∀ c ∈ cs, 32 ≤ c.toNat := by
  induction h with
  | nil => simp
  | plain _ _ hc _ ih => simpa [hc] using ih
  | @escape e cs he _ ih =>
    have hlow : 32 ≤ e.toNat := by
      unfold simpleEscape? at he
      split at he <;> first | decide | cases he
    simpa [hlow] using ih
  | @unit hex cs _ hhex _ ih =>
    have hlow : ∀ c ∈ hex, 32 ≤ c.toNat := by
      intro c hc
      have := toNat_hexDigit (hexDigits_of_hexValue hhex c hc)
      omega
    rw [List.forall_mem_cons, List.forall_mem_cons, List.forall_mem_append]
    exact ⟨by decide, by decide, hlow, ih⟩

theorem quotable_unit {cs : List Char} {u : Char} {n : Nat} (h : unit? cs = some (u, n)) :
    Quotable ('\\' :: 'u' :: cs.take n) := by
  unfold unit? at h
  split at h
  · cases h
  · next hlength =>
    obtain ⟨high, hhigh, h⟩ := Option.map_eq_some_iff.1 h
    have hunit {ds : List Char} (hds : Quotable ds) : Quotable ('\\' :: 'u' :: (cs.take 4 ++ ds)) :=
      .unit (by rw [List.length_take]; omega) (by rw [hhigh]; rfl) hds
    have hfour : Quotable ('\\' :: 'u' :: cs.take 4) := by simpa using hunit .nil
    split at h
    · split at h
      · next rest hrest =>
        split at h
        · next low hlow =>
          split at h
          · obtain ⟨-, rfl⟩ := Prod.mk.inj h
            have hten : cs.take 10 = cs.take 4 ++ '\\' :: 'u' :: rest.take 4 := by
              rw [List.take_add (i := 4) (j := 6), hrest]
              rfl
            split at hlow
            · cases hlow
            · next hlength' =>
              have hsecond : Quotable ('\\' :: 'u' :: (rest.take 4 ++ [])) :=
                .unit (by rw [List.length_take]; omega) (by rw [hlow]; rfl) .nil
              rw [List.append_nil] at hsecond
              rw [hten]
              exact hunit hsecond
          · obtain ⟨-, rfl⟩ := Prod.mk.inj h
            exact hfour
        · obtain ⟨-, rfl⟩ := Prod.mk.inj h
          exact hfour
      · obtain ⟨-, rfl⟩ := Prod.mk.inj h
        exact hfour
    · obtain ⟨-, rfl⟩ := Prod.mk.inj h
      exact hfour

/-- A string ends at the first quote that no backslash takes with it. -/
theorem exists_of_stringBody {skip : Nat} {cs body after : List Char}
    (h : stringBody skip cs = some (body, after)) :
    ∃ raw, Quotable raw ∧ cs = cs.take skip ++ (raw ++ '"' :: after) := by
  induction cs generalizing skip body after with
  | nil => simp [stringBody] at h
  | cons c rest ih =>
    unfold stringBody at h
    split at h
    · next k =>
      obtain ⟨raw, hraw, hrest⟩ := ih h
      exact ⟨raw, hraw, by rw [List.take_succ_cons, List.cons_append, ← hrest]⟩
    · split at h
      · next hc =>
        obtain ⟨-, rfl⟩ := Prod.mk.inj (Option.some.inj h)
        exact ⟨[], .nil, by rw [hc]; rfl⟩
      · next hquote =>
        split at h
        · next hslash =>
          subst hslash
          split at h
          · next more =>
            obtain ⟨⟨u, n⟩, hu, h⟩ := Option.bind_eq_some_iff.1 h
            obtain ⟨⟨body', after'⟩, hbody, h⟩ := Option.map_eq_some_iff.1 h
            obtain ⟨-, rfl⟩ := Prod.mk.inj h
            obtain ⟨raw, hraw, hrest⟩ := ih hbody
            refine ⟨'\\' :: 'u' :: (more.take n ++ raw), (quotable_unit hu).append hraw, ?_⟩
            rw [List.take_succ_cons, List.cons_append, List.cons.injEq] at hrest
            simp [← hrest.2]
          · next e tail hne =>
            obtain ⟨u, hu, h⟩ := Option.bind_eq_some_iff.1 h
            obtain ⟨⟨body', after'⟩, hbody, h⟩ := Option.map_eq_some_iff.1 h
            obtain ⟨-, rfl⟩ := Prod.mk.inj h
            obtain ⟨raw, hraw, hrest⟩ := ih hbody
            refine ⟨'\\' :: e :: raw, .escape (by rw [hu]; rfl) hraw, ?_⟩
            rw [hrest]
            rfl
          · cases h
        · next hslash =>
          split at h
          · cases h
          · next hlow =>
            obtain ⟨⟨body', after'⟩, hbody, h⟩ := Option.map_eq_some_iff.1 h
            obtain ⟨-, rfl⟩ := Prod.mk.inj h
            obtain ⟨raw, hraw, hrest⟩ := ih hbody
            refine ⟨c :: raw, .plain hquote hslash (Nat.le_of_not_lt hlow) hraw, ?_⟩
            rw [hrest]
            rfl

theorem stringBody_skip (taken rest : List Char) :
    stringBody taken.length (taken ++ rest) = stringBody 0 rest := by
  induction taken with
  | nil => rfl
  | cons c taken ih => rw [List.length_cons, List.cons_append, stringBody, ih]

/-- A unit takes its four digits, and the unit behind it where the two stand for one character. -/
theorem exists_unit {hex raw : List Char} (hlength : hex.length = 4)
    (hhex : (hexValue? hex).isSome = true) (hraw : Quotable raw) :
    ∃ u taken rest, raw = taken ++ rest ∧ Quotable rest ∧
      ∀ after, unit? (hex ++ (taken ++ (rest ++ '"' :: after))) = some (u, (hex ++ taken).length) := by
  obtain ⟨high, hhigh⟩ := Option.isSome_iff_exists.1 hhex
  have htake {hex : List Char} (h : hex.length = 4) (rest : List Char) : (hex ++ rest).take 4 = hex :=
    List.take_left' h
  have hdrop (rest : List Char) : (hex ++ rest).drop 4 = rest := List.drop_left' hlength
  have hlong {hex : List Char} (h : hex.length = 4) (rest : List Char) : ¬ (hex ++ rest).length < 4 := by
    rw [List.length_append]
    omega
  by_cases hsurrogate : (0xD800 ≤ high && high < 0xE000) = true
  -- a surrogate: what it is depends on whether a unit stands behind it, and on which one
  · by_cases hnext : ∃ hex' rest, raw = '\\' :: 'u' :: (hex' ++ rest) ∧ hex'.length = 4 ∧
        (hexValue? hex').isSome = true ∧ Quotable rest
    · obtain ⟨hex', rest, rfl, hlength', hhex', hrest⟩ := hnext
      obtain ⟨low, hlow⟩ := Option.isSome_iff_exists.1 hhex'
      by_cases hpair : (high < 0xDC00 && 0xDC00 ≤ low && low < 0xE000) = true
      · refine ⟨Char.ofNat (0x10000 + (high - 0xD800) * 0x400 + (low - 0xDC00)), '\\' :: 'u' :: hex', rest,
          rfl, hrest, fun after => ?_⟩
        simp only [unit?, if_neg (hlong hlength _), htake hlength, hhigh, Option.map_some,
          if_pos hsurrogate, hdrop, List.cons_append, if_neg (hlong hlength' _), htake hlength', hlow,
          if_pos hpair]
        simp [hlength, hlength']
      · refine ⟨'\uFFFD', [], _, rfl, hraw, fun after => ?_⟩
        simp only [unit?, if_neg (hlong hlength _), htake hlength, hhigh, Option.map_some,
          if_pos hsurrogate, hdrop, List.nil_append, List.cons_append, List.append_assoc,
          if_neg (hlong hlength' _), htake hlength', hlow, if_neg hpair]
        simp [hlength]
    · refine ⟨'\uFFFD', [], raw, rfl, hraw, fun after => ?_⟩
      have hother : ∀ rest, raw ++ '"' :: after ≠ '\\' :: 'u' :: rest := by
        intro rest he
        cases hraw with
        | nil => cases he
        | plain _ hslash => exact hslash (List.cons.inj he).1
        | escape hescape =>
          obtain ⟨-, he⟩ := List.cons.inj he
          rw [(List.cons.inj he).1] at hescape
          cases hescape
        | unit hlength' hhex' hrest => exact hnext ⟨_, _, rfl, hlength', hhex', hrest⟩
      simp only [unit?, if_neg (hlong hlength _), htake hlength, hhigh, Option.map_some, if_pos hsurrogate,
        hdrop, List.nil_append]
      simp [hlength]
  · refine ⟨Char.ofNat high, [], raw, rfl, hraw, fun after => ?_⟩
    simp only [unit?, if_neg (hlong hlength _), htake hlength, hhigh, Option.map_some, if_neg hsurrogate]
    simp [hlength]

/-- The reader finds the end of what may stand in a string, whatever follows. -/
theorem exists_stringBody {raw : List Char} (h : Quotable raw) :
    ∃ body, ∀ after, stringBody 0 (raw ++ '"' :: after) = some (body, after) := by
  induction hn : raw.length using Nat.strong_induction_on generalizing raw with
  | _ n ih =>
    cases h with
    | nil => exact ⟨[], fun after => by simp [stringBody]⟩
    | @plain c cs hquote hslash hc h =>
      obtain ⟨body, hbody⟩ := ih cs.length (by rw [← hn, List.length_cons]; omega) h rfl
      exact ⟨c :: body, fun after => by simp [stringBody, hquote, hslash, Nat.not_lt.2 hc, hbody]⟩
    | @escape e cs he h =>
      obtain ⟨body, hbody⟩ := ih cs.length (by rw [← hn, List.length_cons, List.length_cons]; omega) h rfl
      obtain ⟨u, hu⟩ := Option.isSome_iff_exists.1 he
      -- the reader looks for a unit first
      have hunit : e = 'u' → False := by
        rintro rfl
        cases hu
      exact ⟨u :: body, fun after => by simp [stringBody, hu, hbody]⟩
    | @unit hex cs hlength hhex h =>
      obtain ⟨u, taken, rest, rfl, hrest, hu⟩ := exists_unit hlength hhex h
      have hshort : rest.length < n := by
        rw [← hn]
        simp only [List.length_cons, List.length_append]
        omega
      obtain ⟨body, hbody⟩ := ih rest.length hshort hrest rfl
      refine ⟨u :: body, fun after => ?_⟩
      have hskip := stringBody_skip (hex ++ taken) (rest ++ '"' :: after)
      rw [List.length_append, List.append_assoc, hbody] at hskip
      rw [List.cons_append, List.cons_append, List.append_assoc, List.append_assoc]
      simp [stringBody, hu, hskip]

/-! ## Numbers and words -/

/-- The characters that numbers and words consist of. -/
def isAtomChar (c : Char) : Bool := c.isAlphanum || c == '+' || c == '-' || c == '.'

/-- Whether a token is a number or a word. -/
def Token.isAtom : Token → Bool
  | .null | .bool _ | .whole .. | .decimal .. | .infinite _ | .nan => true
  | _ => false

theorem isAtomChar_of_isAsciiDigit {c : Char} (h : isAsciiDigit c = true) : isAtomChar c = true := by
  have hc : 48 ≤ c.toNat ∧ c.toNat ≤ 57 := toNat_between h
  have hdigit : c.isDigit = true := by
    rw [Char.isDigit, Bool.and_eq_true, decide_eq_true_eq, decide_eq_true_eq]
    exact ⟨UInt32.le_iff_toNat_le.2 hc.1, UInt32.le_iff_toNat_le.2 hc.2⟩
  simp [isAtomChar, Char.isAlphanum, hdigit]

theorem digits_atoms (cs : List Char) :
    ∀ c ∈ cs.take (cs.takeWhile isAsciiDigit).length, isAtomChar c = true := by
  rw [← List.prefix_iff_eq_take.1 (List.takeWhile_prefix isAsciiDigit)]
  exact fun c hc => isAtomChar_of_isAsciiDigit (List.mem_takeWhile_imp hc)

theorem wholeDigits_atoms (cs : List Char) :
    ∀ c ∈ cs.take (wholeDigits cs).length, isAtomChar c = true := by
  unfold wholeDigits
  split
  · simp [isAtomChar]
  · exact digits_atoms cs

theorem fraction_atoms (cs : List Char) :
    ∀ c ∈ cs.take (if (fractionDigits cs).isEmpty then 0 else (fractionDigits cs).length + 1),
      isAtomChar c = true := by
  split
  · simp
  · next h =>
    unfold fractionDigits at h ⊢
    split
    · next rest =>
      rw [List.take_succ_cons, List.forall_mem_cons]
      exact ⟨by decide, digits_atoms rest⟩
    · simp at h

theorem exponent_atoms {cs : List Char} {e : Int} {n : Nat} (h : exponent? cs = some (e, n)) :
    ∀ c ∈ cs.take n, isAtomChar c = true := by
  unfold exponent? at h
  split at h
  · cases h
  · next c rest =>
    split at h
    · cases h
    · next hc =>
      have hmark : isAtomChar c = true := by
        obtain rfl | rfl : c = 'e' ∨ c = 'E' := by
          simpa [Classical.or_iff_not_imp_left] using hc
        all_goals decide
      have hsigned : ∀ (k : Nat) (v : Int), (∀ x ∈ rest.take k, isAtomChar x = true) →
          (if ((rest.drop k).takeWhile isAsciiDigit).isEmpty then none
            else some (v, 1 + k + ((rest.drop k).takeWhile isAsciiDigit).length)) = some (e, n) →
          ∀ x ∈ (c :: rest).take n, isAtomChar x = true := by
        intro k v hk h
        split at h
        · cases h
        · obtain ⟨-, rfl⟩ := Prod.mk.inj (Option.some.inj h)
          rw [Nat.add_assoc, Nat.add_comm, List.take_succ_cons, List.take_add, List.forall_mem_cons,
            List.forall_mem_append]
          exact ⟨hmark, hk, digits_atoms _⟩
      dsimp only at h
      split at h
      · exact hsigned 1 _ (by simp [isAtomChar]) h
      · exact hsigned 1 _ (by simp [isAtomChar]) h
      · exact hsigned 0 _ (by simp) h

/-- The characters of a number in front of its exponent. -/
theorem mantissa_atoms (cs : List Char) :
    ∀ c ∈ cs.take ((wholeDigits cs).length +
        if (fractionDigits (cs.drop (wholeDigits cs).length)).isEmpty then 0
        else (fractionDigits (cs.drop (wholeDigits cs).length)).length + 1), isAtomChar c = true := by
  rw [List.take_add, List.forall_mem_append]
  exact ⟨wholeDigits_atoms cs, fraction_atoms _⟩

theorem number_atoms {negative : Bool} {cs after : List Char} {t : Token}
    (h : number? negative cs = some (t, after)) :
    t.isAtom = true ∧ ∃ lex, lex ≠ [] ∧ (∀ c ∈ lex, isAtomChar c = true) ∧ cs = lex ++ after := by
  have hlt := number?_length h
  have hsplit : ∀ n, (∀ c ∈ cs.take n, isAtomChar c = true) → after = cs.drop n →
      ∃ lex, lex ≠ [] ∧ (∀ c ∈ lex, isAtomChar c = true) ∧ cs = lex ++ after := by
    rintro n hn rfl
    refine ⟨cs.take n, fun hnil => ?_, hn, (List.take_append_drop n cs).symm⟩
    have := List.take_append_drop n cs
    rw [hnil, List.nil_append] at this
    rw [this] at hlt
    exact Nat.lt_irrefl _ hlt
  unfold number? at h
  dsimp only at h
  split at h
  · cases h
  · have hread := mantissa_atoms cs
    split at h
    · next e n he =>
      obtain ⟨rfl, rfl⟩ := Prod.mk.inj (Option.some.inj h)
      refine ⟨rfl, hsplit _ ?_ rfl⟩
      rw [List.take_add, List.forall_mem_append]
      exact ⟨hread, exponent_atoms he⟩
    · split at h
      · next hempty =>
        obtain ⟨rfl, rfl⟩ := Prod.mk.inj (Option.some.inj h)
        exact ⟨rfl, hsplit _ hread (by rw [if_pos hempty])⟩
      · next hempty =>
        obtain ⟨rfl, rfl⟩ := Prod.mk.inj (Option.some.inj h)
        exact ⟨rfl, hsplit _ hread (by rw [if_neg hempty])⟩

theorem word_atoms {w : List Char × Token} (h : w ∈ wordTokens) :
    w.2.isAtom = true ∧ w.1 ≠ [] ∧ ∀ c ∈ w.1, isAtomChar c = true := by
  have hwords : ∀ w ∈ wordTokens, w.2.isAtom = true ∧ w.1 ≠ [] ∧ w.1.all isAtomChar = true := by decide
  obtain ⟨ht, hne, hlex⟩ := hwords w h
  exact ⟨ht, hne, List.all_eq_true.1 hlex⟩

/-- What a token other than a sign takes of a text: a string with its quotes, or a number or word. -/
theorem longToken?_spec {c : Char} {rest after : List Char} {t : Token}
    (h : longToken? c rest = some (t, after)) :
    (∃ raw s, Quotable raw ∧ t = .str s ∧ c :: rest = '"' :: (raw ++ '"' :: after)) ∨
      (t.isAtom = true ∧ ∃ lex, (∀ d ∈ c :: lex, isAtomChar d = true) ∧ rest = lex ++ after) := by
  unfold longToken? at h
  split at h
  · next hc =>
    obtain ⟨⟨body, after⟩, hbody, h⟩ := Option.map_eq_some_iff.1 h
    obtain ⟨rfl, rfl⟩ := Prod.mk.inj h
    obtain ⟨raw, hraw, hrest⟩ := exists_of_stringBody hbody
    exact .inl ⟨raw, body, hraw, rfl, by rw [hc, hrest]; rfl⟩
  · right
    split at h
    · next hc =>
      rcases Option.or_eq_some_iff.1 h with h | ⟨-, h⟩
      · obtain ⟨ht, lex, -, hlex, hrest⟩ := number_atoms h
        refine ⟨ht, lex, ?_, hrest⟩
        rw [hc, List.forall_mem_cons]
        exact ⟨by decide, hlex⟩
      · obtain ⟨after, ha, h⟩ := Option.map_eq_some_iff.1 h
        obtain ⟨rfl, rfl⟩ := Prod.mk.inj h
        refine ⟨rfl, "Infinity".toList, ?_, after?_eq_some_iff.1 ha⟩
        rw [hc]
        exact List.all_eq_true.1 rfl
    · have hcut {lex : List Char} (hne : lex ≠ []) (hlex : ∀ d ∈ lex, isAtomChar d = true)
          (hrest : c :: rest = lex ++ after) :
          ∃ lex, (∀ d ∈ c :: lex, isAtomChar d = true) ∧ rest = lex ++ after := by
        obtain ⟨d, lex, rfl⟩ := List.exists_cons_of_ne_nil hne
        obtain ⟨rfl, htail⟩ := List.cons.inj hrest
        exact ⟨lex, hlex, htail⟩
      split at h
      · obtain ⟨ht, lex, hne, hlex, hrest⟩ := number_atoms h
        exact ⟨ht, hcut hne hlex hrest⟩
      · obtain ⟨w, hw, h⟩ := List.exists_of_findSome?_eq_some h
        obtain ⟨after, ha, h⟩ := Option.map_eq_some_iff.1 h
        obtain ⟨rfl, rfl⟩ := Prod.mk.inj h
        obtain ⟨ht, hne, hlex⟩ := word_atoms hw
        exact ⟨ht, hcut hne hlex (after?_eq_some_iff.1 ha)⟩

/-! ## Texts -/

/-- A text with the tokens it is written as. -/
inductive Written : List Char → List Token → Prop
  | nil : Written [] []
  | space {c : Char} {cs : List Char} {ts : List Token} (hc : isSpace c = true) (h : Written cs ts) :
      Written (c :: cs) ts
  | sign {c : Char} {t : Token} {cs : List Char} {ts : List Token} (hc : punctuation? c = some t)
      (h : Written cs ts) : Written (c :: cs) (t :: ts)
  | string {raw s cs : List Char} {ts : List Token} (hraw : Quotable raw) (h : Written cs ts) :
      Written ('"' :: (raw ++ '"' :: cs)) (.str s :: ts)
  | atom {lex : List Char} {t : Token} {cs : List Char} {ts : List Token} (hne : lex ≠ [])
      (hlex : ∀ c ∈ lex, isAtomChar c = true) (ht : t.isAtom = true) (h : Written cs ts) :
      Written (lex ++ cs) (t :: ts)

theorem Written.of_longToken {c : Char} {rest after : List Char} {t : Token} {ts : List Token}
    (h : longToken? c rest = some (t, after)) (hafter : Written after ts) :
    Written (c :: rest) (t :: ts) := by
  rcases longToken?_spec h with ⟨raw, s, hraw, rfl, hrest⟩ | ⟨ht, lex, hlex, hrest⟩
  · rw [hrest]
    exact .string hraw hafter
  · rw [hrest, ← List.cons_append]
    exact .atom (List.cons_ne_nil _ _) hlex ht hafter

theorem Written.of_nextToken {c : Char} {rest : List Char} {ts : List Token}
    (h : (nextToken c rest).1 ≠ .bad) (hafter : Written (nextToken c rest).2 ts) :
    Written (c :: rest) ((nextToken c rest).1 :: ts) := by
  unfold nextToken at h hafter ⊢
  split
  · next t ht =>
    rw [ht] at hafter
    exact .sign ht hafter
  · next hnone =>
    simp only [hnone] at h hafter
    cases hlong : longToken? c rest with
    | none => simp [hlong] at h
    | some r =>
      rw [hlong] at hafter
      exact .of_longToken hlong hafter

/-- A text of which every token is one is written as its tokens. -/
theorem written_tokens {cs : List Char} (h : .bad ∉ tokens cs) : Written cs (tokens cs) := by
  fun_induction tokens cs with
  | case1 => exact .nil
  | case2 c rest hc ih => exact .space hc (ih h)
  | case3 c rest hc next ih =>
    rw [List.mem_cons, not_or] at h
    exact .of_nextToken (Ne.symm h.1) (ih h.2)

theorem feed_bad (s : State) : s.feed .bad = .error .malformed := by
  unfold State.feed
  split <;> simp [State.value, State.key, State.close, scalar?]

theorem foldlM_cons_iff {t : Token} {ts : List Token} {s s' : State} :
    (t :: ts).foldlM State.feed s = .ok s' ↔
      ∃ next, s.feed t = .ok next ∧ ts.foldlM State.feed next = .ok s' := by
  rw [List.foldlM_cons]
  cases s.feed t <;> simp [bind, Except.bind]

theorem not_bad_of_foldlM {ts : List Token} {s s' : State} (h : ts.foldlM State.feed s = .ok s') :
    .bad ∉ ts := by
  induction ts generalizing s with
  | nil => simp
  | cons t ts ih =>
    obtain ⟨next, hfeed, h⟩ := foldlM_cons_iff.1 h
    rw [List.mem_cons, not_or]
    refine ⟨?_, ih h⟩
    rintro rfl
    rw [feed_bad] at hfeed
    cases hfeed

theorem read_eq_ok_iff {cs : List Char} {v : Json} :
    read cs = .ok v ↔ ∃ s, (tokens cs).foldlM State.feed .start = .ok s ∧ s.result = some v := by
  unfold read
  cases (tokens cs).foldlM State.feed .start with
  | error e => simp [Except.bind]
  | ok s => cases hs : s.result <;> simp [Except.bind, State.finish, hs]

theorem read_nil : read [] = .error .malformed := by
  rw [read, tokens]
  rfl

theorem written_of_read {cs : List Char} {v : Json} (h : read cs = .ok v) : Written cs (tokens cs) := by
  obtain ⟨s, hs, -⟩ := read_eq_ok_iff.1 h
  exact written_tokens (not_bad_of_foldlM hs)

theorem Written.isSpace_of_nil {cs : List Char} (h : Written cs []) : ∀ c ∈ cs, isSpace c = true := by
  generalize hts : ([] : List Token) = ts at h
  induction h with
  | nil => simp
  | space hc _ ih => simpa [hc] using ih hts
  | sign => cases hts
  | string => cases hts
  | atom => cases hts

/-- A character that stands in strings only. -/
structure Foreign (c : Char) : Prop where
  space : isSpace c = false
  sign : punctuation? c = none
  quote : c ≠ '"'
  atom : isAtomChar c = false

/-- The string that a foreign character stands in ends behind it, on the same line. -/
theorem Written.quote_behind {cs : List Char} {ts : List Token} (h : Written cs ts) {c : Char}
    (hc : Foreign c) {front back : List Char} (he : cs = front ++ c :: back) :
    ∃ inner after, back = inner ++ '"' :: after ∧ ∀ d ∈ inner, 32 ≤ d.toNat := by
  induction h generalizing front with
  | nil => simp at he
  | space hd _ ih =>
    cases front with
    | nil => exact absurd hd (by rw [(List.cons.inj he).1, hc.space]; simp)
    | cons d front => exact ih (List.cons.inj he).2
  | sign hd _ ih =>
    cases front with
    | nil => rw [(List.cons.inj he).1, hc.sign] at hd; cases hd
    | cons d front => exact ih (List.cons.inj he).2
  | string hraw _ ih =>
    cases front with
    | nil => exact absurd (List.cons.inj he).1.symm hc.quote
    | cons d front =>
      rcases List.append_eq_append_iff.1 (List.cons.inj he).2 with ⟨gap, -, he⟩ | ⟨gap, hsplit, he⟩
      · cases gap with
        | nil => exact absurd (List.cons.inj he).1.symm hc.quote
        | cons d gap => exact ih (List.cons.inj he).2
      · cases gap with
        | nil => exact absurd (List.cons.inj he).1 hc.quote
        | cons d gap =>
          refine ⟨gap, _, (List.cons.inj he).2, fun x hx => hraw.no_control x ?_⟩
          simp [hsplit, hx]
  | @atom lex t rest ts hne hlex _ _ ih =>
    rcases List.append_eq_append_iff.1 he with ⟨gap, -, he⟩ | ⟨gap, hsplit, he⟩
    · exact ih he
    · cases gap with
      | nil => exact ih (show rest = [] ++ c :: back from he.symm)
      | cons d gap =>
        have hatom := hlex c (by rw [hsplit, (List.cons.inj he).1]; simp)
        rw [hc.atom] at hatom
        cases hatom

end Codemod.Json
