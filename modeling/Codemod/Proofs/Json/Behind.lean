import Codemod.Proofs.Json.Alike

/-! Texts that go on behind a value, or behind a first token that is no bracket. Nothing is read there any
more, so a whole number with too many digits is met only in front of it. -/
namespace Codemod.Json
open Text

/-! ## Tokens of a text that goes on -/

theorem nextToken_isSuffix (c : Char) (cs : List Char) : (nextToken c cs).2 <:+ cs := by
  unfold nextToken
  split
  · exact List.suffix_rfl
  · cases hlong : longToken? c cs with
    | none => exact List.nil_suffix
    | some r =>
      rcases longToken?_spec hlong with ⟨raw, s, -, -, hcs⟩ | ⟨-, lex, -, hcs⟩
      · exact ⟨raw ++ ['"'], by rw [(List.cons.inj hcs).2]; simp⟩
      · exact ⟨lex, hcs.symm⟩

/-- What a number or word ends with stands in it, so a text that ends in another way is longer. -/
theorem longToken?_append_of_getLast {c : Char} {cs after : List Char} {t : Token}
    (h : longToken? c cs = some (t, after)) (hlast : ∀ d ∈ (c :: cs).getLast?, isAtomChar d = false)
    (rest : List Char) : longToken? c (cs ++ rest) = some (t, after ++ rest) := by
  by_cases hc : c = '"'
  · rw [hc] at h ⊢
    exact longToken?_quote_append h rest
  · rcases List.eq_nil_or_concat cs with rfl | ⟨front, q, rfl⟩
    · rcases longToken?_spec h with ⟨_, _, -, -, hquote⟩ | ⟨-, _, hatoms, -⟩
      · exact absurd (List.cons.inj hquote).1 hc
      · have hatom : isAtomChar c = true := hatoms c (by simp)
        rw [hlast c rfl] at hatom
        cases hatom
    · rw [List.concat_eq_append] at h hlast ⊢
      have hq : isAtomChar q = false := hlast q (by rw [← List.cons_append, List.getLast?_concat]; rfl)
      have hcut := longToken?_append hq hc front []
      rw [h] at hcut
      obtain ⟨⟨t, after⟩, hfront, heq⟩ := Option.map_eq_some_iff.1 hcut.symm
      obtain ⟨rfl, rfl⟩ := Prod.mk.inj heq
      rw [List.append_assoc, List.append_assoc]
      exact longToken?_append_of_some hq hfront rest

/-- A text is read by itself, if it ends with a character that ends its last token. -/
theorem tokens_append_of_getLast {cs : List Char} (h : .bad ∉ tokens cs)
    (hlast : ∀ c ∈ cs.getLast?, isAtomChar c = false) (rest : List Char) :
    tokens (cs ++ rest) = tokens cs ++ tokens rest := by
  fun_induction tokens cs with
  | case1 => rfl
  | case2 c cs hc ih =>
    rw [List.cons_append, tokens, if_pos hc]
    exact ih h fun d hd => hlast d (by simp [List.getLast?_cons, Option.mem_def.1 hd])
  | case3 c cs hc next ih =>
    rw [List.mem_cons, not_or] at h
    have hnext : nextToken c (cs ++ rest) = (next.1, next.2 ++ rest) :=
      nextToken_append_of_longToken? (Ne.symm h.1) fun _ _ hlong =>
        longToken?_append_of_getLast hlong hlast rest
    have hlast' : ∀ d ∈ next.2.getLast?, isAtomChar d = false := by
      intro d hd
      obtain ⟨taken, htaken⟩ := nextToken_isSuffix c cs
      apply hlast
      rw [← htaken, ← List.cons_append, List.getLast?_append]
      simp [next, Option.mem_def.1 hd]
    rw [List.cons_append, tokens_cons (by simpa using hc), hnext, ih h.2 hlast']
    rfl

/-! ## Reading on behind a value -/

theorem State.Underway.run {s s' : State} {ts : List Token} (hs : s.Underway)
    (h : ts.foldlM feed s = .ok s') : s'.Underway := by
  induction ts generalizing s with
  | nil =>
    cases h
    exact hs
  | cons t ts ih =>
    obtain ⟨next, hfeed, hrun⟩ := foldlM_cons_iff.1 h
    have hopen : s.stack ≠ [] := by
      intro hnil
      rw [feed_done hnil (hs.expect hnil)] at hfeed
      cases hfeed
    exact ih (feed_spec hfeed hs hopen).2 hrun

/-- Behind a value the reader takes nothing. -/
theorem State.finish_of_done {s : State} (hstack : s.stack = []) (hexpect : s.expect = .next)
    (ts : List Token) : (ts.foldlM feed s).bind finish ≠ .error .tooManyDigits := by
  cases ts with
  | nil =>
    change s.finish ≠ _
    unfold finish
    split <;> simp
  | cons t ts =>
    rw [List.foldlM_cons, feed_done hstack hexpect]
    rintro ⟨⟩

theorem exists_done_of_read {cs : List Char} {v : Json} (h : read cs = .ok v) :
    ∃ s, (tokens cs).foldlM State.feed .start = .ok s ∧ s.stack = [] ∧ s.expect = .next := by
  obtain ⟨s, hrun, hresult⟩ := read_eq_ok_iff.1 h
  have hs : s.Underway := by
    cases hts : tokens cs with
    | nil =>
      rw [hts] at hrun
      cases hrun
      cases hresult
    | cons t ts =>
      rw [hts] at hrun
      obtain ⟨next, hfeed, hrun⟩ := foldlM_cons_iff.1 hrun
      exact (State.value_spec hfeed).2.run hrun
  have hstack : s.stack = [] := by
    by_contra hopen
    rw [hs.result hopen] at hresult
    cases hresult
  exact ⟨s, hrun, hstack, hs.expect hstack⟩

/-- Behind a value no number is read. -/
theorem read_append_ne_tooManyDigits {cs : List Char} {v : Json} (h : read cs = .ok v)
    (hlast : ∀ c ∈ cs.getLast?, isAtomChar c = false) (rest : List Char) :
    read (cs ++ rest) ≠ .error .tooManyDigits := by
  obtain ⟨s, hrun, hstack, hexpect⟩ := exists_done_of_read h
  have htokens := tokens_append_of_getLast (not_bad_of_foldlM hrun) hlast rest
  rw [read, htokens, List.foldlM_append, hrun]
  exact State.finish_of_done hstack hexpect (tokens rest)

/-! ## The first token of a text -/

/-- A whole number with more digits than are read. -/
def Token.TooLong : Token → Prop
  | .whole _ digits => digitLimit < digits.length
  | _ => False

def Token.isOpening : Token → Bool
  | .openArray | .openObject => true
  | _ => false

/-- A text that begins with no bracket is read no further than to its first token. -/
theorem read_eq_tooManyDigits_iff {cs : List Char} {t : Token} {ts : List Token}
    (htokens : tokens cs = t :: ts) (ht : t.isOpening = false) :
    read cs = .error .tooManyDigits ↔ t.TooLong := by
  have hpush (v : Json) (hfeed : State.start.feed t = .ok (State.start.push v)) :
      read cs ≠ .error .tooManyDigits := by
    rw [read, htokens, List.foldlM_cons, hfeed]
    exact State.finish_of_done rfl rfl ts
  cases t with
  | openArray | openObject => cases ht
  | closeArray | closeObject | comma | colon | bad =>
    refine iff_of_false ?_ id
    rw [read, htokens, List.foldlM_cons]
    rintro ⟨⟩
  | whole negative digits =>
    by_cases hlong : digitLimit < digits.length
    · refine iff_of_true ?_ hlong
      have hfeed : State.start.feed (.whole negative digits) = .error .tooManyDigits := by
        change (wholeNumber negative digits).map State.start.push = _
        rw [wholeNumber, if_pos hlong]
        rfl
      rw [read, htokens, List.foldlM_cons, hfeed]
      rfl
    · let n : Int := digitsValue digits
      refine iff_of_false (hpush (.int (if negative then -n else n)) ?_) hlong
      change (wholeNumber negative digits).map State.start.push = _
      rw [wholeNumber, if_neg hlong]
      rfl
  | null => exact iff_of_false (hpush _ rfl) id
  | bool b => exact iff_of_false (hpush _ rfl) id
  | str s => exact iff_of_false (hpush _ rfl) id
  | decimal negative digits exponent => exact iff_of_false (hpush _ rfl) id
  | infinite negative => exact iff_of_false (hpush _ rfl) id
  | nan => exact iff_of_false (hpush _ rfl) id

theorem nextToken_quote (cs : List Char) :
    (nextToken '"' cs).1 = .bad ∨ ∃ text, (nextToken '"' cs).1 = .str text := by
  have hsign : punctuation? '"' = none := rfl
  rw [nextToken, hsign]
  dsimp only
  rw [longToken?, if_pos rfl]
  cases stringBody 0 cs with
  | none => exact .inl rfl
  | some r => exact .inr ⟨r.1, rfl⟩

/-- What the first token of a text is does not depend on what comes behind the text, but for a string that
is closed only there. -/
theorem exists_first_append {q : Char} (hq : isAtomChar q = false) {cs : List Char} {t : Token}
    {ts : List Token} (h : tokens cs = t :: ts) (rest : List Char) :
    ∃ t' ts', tokens (cs ++ q :: rest) = t' :: ts' ∧ (t'.TooLong ↔ t.TooLong) ∧
      t'.isOpening = t.isOpening := by
  fun_induction tokens cs with
  | case1 => cases h
  | case2 c cs hc ih =>
    rw [List.cons_append, tokens, if_pos hc]
    exact ih h
  | case3 c cs hc next ih =>
    obtain ⟨rfl, -⟩ := List.cons.inj h
    refine ⟨_, _, tokens_cons (by simpa using hc) (cs ++ q :: rest), ?_⟩
    by_cases hbad : (nextToken c cs).1 = .bad
    · by_cases hquote : c = '"'
      · rw [hquote] at hbad ⊢
        simp only [next, hquote, hbad]
        rcases nextToken_quote (cs ++ q :: rest) with h | ⟨text, h⟩
        all_goals
          rw [h]
          exact ⟨Iff.rfl, rfl⟩
      · rw [nextToken_bad_append hq hquote cs rest hbad, ← hbad]
        exact ⟨Iff.rfl, rfl⟩
    · rw [nextToken_append hq cs rest hbad]
      exact ⟨Iff.rfl, rfl⟩

theorem not_isOpening_of_isAtom {t : Token} (ht : t.isAtom = true) : t.isOpening = false := by
  cases t with
  | openArray | openObject => cases ht
  | _ => rfl

theorem nextToken_isOpening {c : Char} {cs : List Char} (h : (nextToken c cs).1.isOpening = true) :
    c = '[' ∨ c = '\x7b' := by
  unfold nextToken at h
  split at h
  · next t hsign =>
    unfold punctuation? at hsign
    split at hsign <;> cases hsign
    · exact .inl rfl
    · cases h
    · exact .inr rfl
    all_goals cases h
  · cases hlong : longToken? c cs with
    | none => rw [hlong] at h; cases h
    | some r =>
      rw [hlong, Option.getD_some] at h
      rcases longToken?_spec hlong with ⟨_, _, -, ht, -⟩ | ⟨ht, -⟩
      · rw [ht] at h
        cases h
      · rw [not_isOpening_of_isAtom ht] at h
        cases h

theorem exists_opening_of_first {cs : List Char} {t : Token} {ts : List Token}
    (h : tokens cs = t :: ts) (ht : t.isOpening = true) : ∃ c ∈ cs, c = '[' ∨ c = '\x7b' := by
  fun_induction tokens cs with
  | case1 => cases h
  | case2 c cs hc ih =>
    obtain ⟨d, hd, hopen⟩ := ih h
    exact ⟨d, List.mem_cons_of_mem c hd, hopen⟩
  | case3 c cs hc next ih =>
    obtain ⟨rfl, -⟩ := List.cons.inj h
    exact ⟨c, by simp, nextToken_isOpening ht⟩

/-- A text whose first token is a whole number with more digits than are read. -/
def OpensWithLongNumber (cs : List Char) : Prop := ∃ t ∈ (tokens cs).head?, t.TooLong

theorem not_opensWithLongNumber {c : Char} (hspace : isSpace c = false) (hminus : c ≠ '-')
    (hdigit : isAsciiDigit c = false) (cs : List Char) : ¬ OpensWithLongNumber (c :: cs) := by
  rintro ⟨t, ht, hlong⟩
  rw [tokens_cons hspace] at ht
  cases ht
  unfold nextToken at hlong
  split at hlong
  · next t hsign =>
    unfold punctuation? at hsign
    split at hsign <;> cases hsign <;> exact hlong
  · cases hread : longToken? c cs with
    | none =>
      rw [hread] at hlong
      exact hlong
    | some r =>
      rw [hread] at hlong
      rw [longToken?, if_neg hminus, if_neg (show ¬ isAsciiDigit c = true by simp [hdigit])] at hread
      split at hread
      · obtain ⟨body, -, rfl⟩ := Option.map_eq_some_iff.1 hread
        exact hlong
      · obtain ⟨w, hw, hword⟩ := List.exists_of_findSome?_eq_some hread
        obtain ⟨_, -, rfl⟩ := Option.map_eq_some_iff.1 hword
        have hwords : ∀ w ∈ wordTokens, ¬ w.2.TooLong := by simp [wordTokens, Token.TooLong]
        exact hwords w hw hlong

/-- Around a value that is written in brackets or quotes, it is only in front of it that a number can have
too many digits. -/
theorem read_around_eq_tooManyDigits_iff {front core : List Char} {v : Json}
    (hfront : ∀ c ∈ front, c ≠ '[' ∧ c ≠ '\x7b') (hcore : read core = .ok v)
    (hhead : ∀ c ∈ core.head?, isAtomChar c = false)
    (hlast : ∀ c ∈ core.getLast?, isAtomChar c = false) (back : List Char) :
    read (front ++ (core ++ back)) = .error .tooManyDigits ↔ OpensWithLongNumber front := by
  have hne : core ≠ [] := by
    rintro rfl
    rw [read_nil] at hcore
    cases hcore
  obtain ⟨q, tail, rfl⟩ := List.exists_cons_of_ne_nil hne
  have hq : isAtomChar q = false := hhead q rfl
  cases hts : tokens front with
  | nil =>
    have hsame : read (front ++ (q :: tail ++ back)) = read (q :: tail ++ back) := by
      rw [read, List.cons_append, tokens_append hq (by simp [hts]), hts]
      rfl
    rw [hsame]
    refine iff_of_false (read_append_ne_tooManyDigits hcore hlast back) ?_
    simp [OpensWithLongNumber, hts]
  | cons t ts =>
    obtain ⟨t', ts', hts', hlong, hopening⟩ := exists_first_append hq hts (tail ++ back)
    have hclosed : t.isOpening = false := by
      rw [Bool.eq_false_iff]
      intro ht
      obtain ⟨c, hc, hbracket⟩ := exists_opening_of_first hts ht
      exact hbracket.elim (hfront c hc).1 (hfront c hc).2
    rw [← List.cons_append] at hts'
    rw [read_eq_tooManyDigits_iff hts' (hopening.trans hclosed), hlong]
    simp [OpensWithLongNumber, hts]

end Codemod.Json
