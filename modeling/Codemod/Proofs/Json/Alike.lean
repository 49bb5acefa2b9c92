import Codemod.Proofs.Json.Underway
import Mathlib.Data.List.Forall2

/-! Texts that differ in their strings alone. The reader takes them in the same way, token by token: what
a string says decides nothing but the value. -/
namespace Codemod.Json
open Text

/-! ## Tokens are read up to a character that stands in no number or word -/

/-- A token other than a string leaves no string behind it. -/
theorem quote_not_mem_nextToken (c : Char) {cs : List Char} (hcs : '"' ∉ cs) :
    '"' ∉ (nextToken c cs).2 := by
  unfold nextToken
  split
  · exact hcs
  · cases hlong : longToken? c cs with
    | none => simp
    | some r =>
      rcases longToken?_spec hlong with ⟨raw, s, -, -, hrest⟩ | ⟨-, lex, -, hrest⟩
      · rw [(List.cons.inj hrest).2] at hcs
        simp at hcs
      · rw [hrest, List.mem_append, not_or] at hcs
        exact hcs.2

theorem longToken?_quote_append {cs after : List Char} {t : Token}
    (h : longToken? '"' cs = some (t, after)) (rest : List Char) :
    longToken? '"' (cs ++ rest) = some (t, after ++ rest) := by
  obtain ⟨⟨body, after⟩, hbody, heq⟩ := Option.map_eq_some_iff.1 h
  obtain ⟨rfl, rfl⟩ := Prod.mk.inj heq
  obtain ⟨raw, hraw, hcs⟩ := exists_of_stringBody hbody
  obtain ⟨body', hbody'⟩ := exists_stringBody hraw
  rw [List.take_zero, List.nil_append] at hcs
  rw [hcs, hbody'] at hbody
  cases hbody
  rw [hcs, List.append_assoc, List.cons_append, longToken?, if_pos rfl, hbody']
  rfl

theorem nextToken_append_of_longToken? {c : Char} {cs rest : List Char} (h : (nextToken c cs).1 ≠ .bad)
    (hlong : ∀ t after, longToken? c cs = some (t, after) →
      longToken? c (cs ++ rest) = some (t, after ++ rest)) :
    nextToken c (cs ++ rest) = ((nextToken c cs).1, (nextToken c cs).2 ++ rest) := by
  unfold nextToken at h ⊢
  split
  · rfl
  · next hsign =>
    simp only [hsign] at h
    cases hread : longToken? c cs with
    | none => simp [hread] at h
    | some r =>
      rw [hlong r.1 r.2 hread]
      rfl

section
variable {q : Char} (hq : isAtomChar q = false)
include hq

theorem isAsciiDigit_of_not_atom : isAsciiDigit q = false := by
  rw [Bool.eq_false_iff]
  intro h
  rw [isAtomChar_of_isAsciiDigit h] at hq
  cases hq

theorem ne_of_not_atom {c : Char} (hc : isAtomChar c = true) : q ≠ c := by
  rintro rfl
  rw [hq] at hc
  cases hc

theorem takeWhile_digits_append (cs rest : List Char) :
    (cs ++ q :: rest).takeWhile isAsciiDigit = cs.takeWhile isAsciiDigit :=
  takeWhile_append_of_head cs (by simpa using isAsciiDigit_of_not_atom hq)

theorem wholeDigits_append (cs rest : List Char) : wholeDigits (cs ++ q :: rest) = wholeDigits cs := by
  have hdigits := takeWhile_digits_append hq cs rest
  unfold wholeDigits
  cases cs with
  | nil =>
    have hzero : q ≠ '0' := ne_of_not_atom hq (by decide)
    simpa [hzero] using hdigits
  | cons c cs =>
    by_cases hzero : c = '0'
    · simp [hzero]
    · simpa [hzero] using hdigits

theorem fractionDigits_append (cs rest : List Char) :
    fractionDigits (cs ++ q :: rest) = fractionDigits cs := by
  unfold fractionDigits
  cases cs with
  | nil =>
    have hpoint : q ≠ '.' := ne_of_not_atom hq (by decide)
    simp [hpoint]
  | cons c cs =>
    by_cases hpoint : c = '.'
    · simpa [hpoint] using takeWhile_digits_append hq cs rest
    · simp [hpoint]

theorem exponent?_append (cs rest : List Char) : exponent? (cs ++ q :: rest) = exponent? cs := by
  have hdigits (cs : List Char) := takeWhile_digits_append hq cs rest
  cases cs with
  | nil =>
    have hlow : q ≠ 'e' := ne_of_not_atom hq (by decide)
    have hhigh : q ≠ 'E' := ne_of_not_atom hq (by decide)
    simp [exponent?, hlow, hhigh]
  | cons e cs =>
    cases cs with
    | nil =>
      have hminus : q ≠ '-' := ne_of_not_atom hq (by decide)
      have hplus : q ≠ '+' := ne_of_not_atom hq (by decide)
      have hnone := hdigits []
      rw [List.nil_append] at hnone
      simp [exponent?, hminus, hplus, hnone]
    | cons c cs =>
      by_cases hminus : c = '-'
      · simp [exponent?, hminus, hdigits]
      · by_cases hplus : c = '+'
        · simp [exponent?, hplus, hdigits]
        · have hother := hdigits (c :: cs)
          rw [List.cons_append] at hother
          simp [exponent?, hminus, hplus, hother]

theorem drop_of_atoms {n : Nat} {cs rest : List Char}
    (h : ∀ c ∈ (cs ++ q :: rest).take n, isAtomChar c = true) :
    (cs ++ q :: rest).drop n = cs.drop n ++ q :: rest := by
  refine List.drop_append_of_le_length (Nat.not_lt.1 fun hlt => ?_)
  have hmem : q ∈ (cs ++ q :: rest).take n := by
    obtain ⟨k, rfl⟩ := Nat.exists_eq_add_of_lt hlt
    rw [Nat.add_assoc, List.take_length_add_append]
    simp
  rw [h q hmem] at hq
  cases hq

theorem number?_append (negative : Bool) (cs rest : List Char) :
    number? negative (cs ++ q :: rest) =
      (number? negative cs).map fun (t, after) => (t, after ++ q :: rest) := by
  have hwhole := drop_of_atoms hq (wholeDigits_atoms (cs ++ q :: rest))
  have hread := drop_of_atoms hq (mantissa_atoms (cs ++ q :: rest))
  rw [wholeDigits_append hq] at hwhole hread
  rw [hwhole, fractionDigits_append hq] at hread
  unfold number?
  dsimp only
  rw [wholeDigits_append hq, hwhole, fractionDigits_append hq]
  generalize (wholeDigits cs).length + (if (fractionDigits (cs.drop (wholeDigits cs).length)).isEmpty then 0
    else (fractionDigits (cs.drop (wholeDigits cs).length)).length + 1) = read at hread ⊢
  rw [hread, exponent?_append hq]
  split
  · rfl
  · cases he : exponent? (cs.drop read) with
    | none =>
      dsimp only
      split <;> rfl
    | some r =>
      have hexponent := drop_of_atoms hq (exponent_atoms (he ▸ exponent?_append hq (cs.drop read) rest))
      rw [← hread, List.drop_drop, List.drop_drop] at hexponent
      simp [hexponent]

theorem after?_append_stop {piece : List Char} (hpiece : ∀ c ∈ piece, isAtomChar c = true)
    (cs rest : List Char) : after? piece (cs ++ q :: rest) = (after? piece cs).map (· ++ q :: rest) := by
  induction piece generalizing cs with
  | nil => rfl
  | cons p piece ih =>
    rw [List.forall_mem_cons] at hpiece
    cases cs with
    | nil =>
      rw [List.nil_append, after?, after?, if_neg (ne_of_not_atom hq hpiece.1).symm]
      rfl
    | cons c cs =>
      rw [List.cons_append, after?, after?]
      split
      · exact ih hpiece.2 cs
      · rfl

theorem longToken?_append {c : Char} (hc : c ≠ '"') (cs rest : List Char) :
    longToken? c (cs ++ q :: rest) =
      (longToken? c cs).map fun (t, after) => (t, after ++ q :: rest) := by
  have hword {piece : List Char} (h : ∀ d ∈ piece, isAtomChar d = true) (cs : List Char) :=
    after?_append_stop hq h cs rest
  unfold longToken?
  rw [if_neg hc, if_neg hc]
  split
  · rw [number?_append hq, hword (List.all_eq_true.1 rfl)]
    cases number? true cs <;> cases after? "Infinity".toList cs <;> rfl
  · split
    · exact number?_append hq false (c :: cs) rest
    · rw [List.map_findSome?, ← List.head?_filterMap, ← List.head?_filterMap]
      refine congrArg List.head? (List.filterMap_congr fun w hw => ?_)
      rw [← List.cons_append, hword (word_atoms hw).2.2, Function.comp_apply, Option.map_map,
        Option.map_map]
      rfl

/-- A token that is read to its end is read whatever comes behind it. -/
theorem longToken?_append_of_some {c : Char} {cs after : List Char} {t : Token}
    (h : longToken? c cs = some (t, after)) (rest : List Char) :
    longToken? c (cs ++ q :: rest) = some (t, after ++ q :: rest) := by
  by_cases hc : c = '"'
  · rw [hc] at h ⊢
    exact longToken?_quote_append h (q :: rest)
  · rw [longToken?_append hq hc, h]
    rfl

theorem nextToken_append {c : Char} (cs rest : List Char) (h : (nextToken c cs).1 ≠ .bad) :
    nextToken c (cs ++ q :: rest) = ((nextToken c cs).1, (nextToken c cs).2 ++ q :: rest) :=
  nextToken_append_of_longToken? h fun _ _ hlong => longToken?_append_of_some hq hlong rest

theorem nextToken_bad_append {c : Char} (hc : c ≠ '"') (cs rest : List Char)
    (h : (nextToken c cs).1 = .bad) : (nextToken c (cs ++ q :: rest)).1 = .bad := by
  unfold nextToken at h ⊢
  split
  · next t hsign =>
    simp only [hsign] at h
    exact h
  · next hsign =>
    simp only [hsign] at h
    rw [longToken?_append hq hc]
    cases hlong : longToken? c cs with
    | none => rfl
    | some r => simpa [hlong] using h

/-- A text is read by itself up to a character that ends its last token. -/
theorem tokens_append {cs : List Char} (h : .bad ∉ tokens cs) (rest : List Char) :
    tokens (cs ++ q :: rest) = tokens cs ++ tokens (q :: rest) := by
  fun_induction tokens cs with
  | case1 => rfl
  | case2 c cs hc ih =>
    rw [List.cons_append, tokens, if_pos hc]
    exact ih h
  | case3 c cs hc next ih =>
    rw [List.mem_cons, not_or] at h
    rw [List.cons_append, tokens_cons (by simpa using hc), nextToken_append hq cs rest (Ne.symm h.1),
      ih h.2]
    rfl

theorem not_bad_of_append {cs rest : List Char} (hcs : '"' ∉ cs) (h : .bad ∉ tokens (cs ++ q :: rest)) :
    .bad ∉ tokens cs := by
  fun_induction tokens cs with
  | case1 => simp
  | case2 c cs hc ih =>
    rw [List.cons_append, tokens, if_pos hc] at h
    exact ih (fun hmem => hcs (List.mem_cons_of_mem c hmem)) h
  | case3 c cs hc next ih =>
    have hquote : c ≠ '"' := fun he => hcs (by simp [he])
    have hrest := quote_not_mem_nextToken c fun hmem => hcs (List.mem_cons_of_mem c hmem)
    rw [List.cons_append, tokens_cons (by simpa using hc), List.mem_cons, not_or] at h
    have hnext : next.1 ≠ .bad := fun hbad => h.1 (nextToken_bad_append hq hquote cs rest hbad).symm
    rw [nextToken_append hq cs rest hnext] at h
    rw [List.mem_cons, not_or]
    exact ⟨hnext.symm, ih hrest h.2⟩

end

/-! ## Texts alike -/

/-- Texts that differ in what their strings say, and in nothing else. -/
inductive Alike : List Char → List Char → Prop
  | plain {cs : List Char} (h : '"' ∉ cs) : Alike cs cs
  | string {front raw raw' cs ds : List Char} (hfront : '"' ∉ front) (hraw : Quotable raw)
      (hraw' : Quotable raw') (h : Alike cs ds) :
      Alike (front ++ '"' :: (raw ++ '"' :: cs)) (front ++ '"' :: (raw' ++ '"' :: ds))

theorem Alike.behind {front cs ds : List Char} (hfront : '"' ∉ front) (h : Alike cs ds) :
    Alike (front ++ cs) (front ++ ds) := by
  cases h with
  | plain h => exact .plain (by simp [hfront, h])
  | string hfront' hraw hraw' h =>
    rw [← List.append_assoc, ← List.append_assoc front]
    exact .string (by simp [hfront, hfront']) hraw hraw' h

/-- The same token, or two strings. -/
inductive Token.Alike : Token → Token → Prop
  | same (t : Token) : Alike t t
  | string (s s' : List Char) : Alike (.str s) (.str s')

theorem exists_tokens_string {raw : List Char} (h : Quotable raw) :
    ∃ s, ∀ after, tokens ('"' :: (raw ++ '"' :: after)) = .str s :: tokens after := by
  obtain ⟨s, hs⟩ := exists_stringBody h
  refine ⟨s, fun after => ?_⟩
  rw [tokens_cons rfl]
  simp [nextToken, punctuation?, longToken?, hs]

theorem Alike.tokens {cs ds : List Char} (h : Alike cs ds) (hbad : .bad ∉ tokens cs) :
    List.Forall₂ Token.Alike (tokens cs) (tokens ds) := by
  induction h with
  | plain => exact List.forall₂_same.2 fun t _ => .same t
  | @string front raw raw' cs ds hfront hraw hraw' h ih =>
    obtain ⟨s, hs⟩ := exists_tokens_string hraw
    obtain ⟨s', hs'⟩ := exists_tokens_string hraw'
    have hfront' := not_bad_of_append rfl hfront hbad
    rw [tokens_append rfl hfront', hs] at hbad ⊢
    rw [tokens_append rfl hfront', hs']
    refine List.rel_append (List.forall₂_same.2 fun t _ => .same t) (.cons (.string s s') (ih ?_))
    exact fun hmem => hbad (by simp [hmem])

/-! ## Reading texts alike -/

def isObj : Json → Bool
  | .obj _ => true
  | _ => false

/-- States that wait for the same things. -/
structure State.Alike (s s' : State) : Prop where
  closers : s'.closers = s.closers
  expect : s'.expect = s.expect
  result : s'.result.map isObj = s.result.map isObj

variable {s s' next : State} {t t' : Token}

theorem State.Alike.refl (s : State) : s.Alike s := ⟨rfl, rfl, rfl⟩

theorem exists_array_of_closers {stack outer : List Partial} {items : List Json}
    (h : stack.map Partial.closer = (Partial.array items :: outer).map Partial.closer) :
    ∃ items' outer', stack = .array items' :: outer' ∧
      outer'.map Partial.closer = outer.map Partial.closer := by
  obtain ⟨p, outer', rfl, hp, houter⟩ := List.map_eq_cons_iff.1 h
  cases p with
  | array items' => exact ⟨items', outer', rfl, houter⟩
  | object => exact absurd (show '\x7d' = ']' from hp) (by decide)

theorem exists_object_of_closers {stack outer : List Partial} {fields : List (String × Json)}
    {key : String} (h : stack.map Partial.closer = (Partial.object fields key :: outer).map Partial.closer) :
    ∃ fields' key' outer', stack = .object fields' key' :: outer' ∧
      outer'.map Partial.closer = outer.map Partial.closer := by
  obtain ⟨p, outer', rfl, hp, houter⟩ := List.map_eq_cons_iff.1 h
  cases p with
  | array => exact absurd (show ']' = '\x7d' from hp) (by decide)
  | object fields' key' => exact ⟨fields', key', outer', rfl, houter⟩

theorem State.push_alike (h : s'.closers = s.closers) {v v' : Json} (hv : v'.isObj = v.isObj) :
    (s.push v).Alike (s'.push v') := by
  obtain ⟨stack, expect, result⟩ := s
  obtain ⟨stack', expect', result'⟩ := s'
  cases stack with
  | nil =>
    obtain rfl : stack' = [] := List.map_eq_nil_iff.1 h
    exact ⟨rfl, rfl, congrArg some hv⟩
  | cons p outer =>
    cases p with
    | array items =>
      obtain ⟨items', outer', rfl, houter⟩ := exists_array_of_closers h
      exact ⟨congrArg (']' :: ·) houter, rfl, rfl⟩
    | object fields key =>
      obtain ⟨fields', key', outer', rfl, houter⟩ := exists_object_of_closers h
      exact ⟨congrArg ('\x7d' :: ·) houter, rfl, rfl⟩

theorem State.Alike.value (h : s.Alike s') (ht : t.Alike t') (hs : s.value t = .ok next) :
    ∃ next', s'.value t' = .ok next' ∧ next.Alike next' := by
  cases ht with
  | string text text' =>
    cases hs
    exact ⟨_, rfl, push_alike h.closers rfl⟩
  | same =>
    cases t with
    | openArray =>
      cases hs
      exact ⟨_, rfl, congrArg (']' :: ·) h.closers, rfl, rfl⟩
    | openObject =>
      cases hs
      exact ⟨_, rfl, congrArg ('\x7d' :: ·) h.closers, rfl, rfl⟩
    | whole negative digits =>
      change (wholeNumber negative digits).map s.push = .ok next at hs
      cases hv : wholeNumber negative digits with
      | error e => rw [hv] at hs; cases hs
      | ok v =>
        rw [hv] at hs
        cases hs
        refine ⟨s'.push v, ?_, push_alike h.closers rfl⟩
        change (wholeNumber negative digits).map s'.push = _
        rw [hv]
        rfl
    | closeArray | closeObject | comma | colon | bad => cases hs
    | _ =>
      cases hs
      exact ⟨_, rfl, push_alike h.closers rfl⟩

theorem Token.Alike.eq_of_ne_str (h : t.Alike t') {a : Token} (ha : ∀ text, a ≠ .str text) :
    t' = a ↔ t = a := by
  cases h with
  | same => rfl
  | string text text' => exact ⟨fun he => absurd he.symm (ha text'), fun he => absurd he.symm (ha text)⟩

theorem State.Alike.close (h : s.Alike s') (ht : t.Alike t') (hs : s.close t = .ok next) :
    ∃ next', s'.close t' = .ok next' ∧ next.Alike next' := by
  have hclosers := h.closers
  unfold State.close at hs ⊢
  split at hs
  · next items outer hstack =>
    cases hs
    rw [State.closers, State.closers, hstack] at hclosers
    obtain ⟨items', outer', hstack', houter⟩ := exists_array_of_closers hclosers
    rw [hstack', (ht.eq_of_ne_str (by simp)).2 rfl]
    refine ⟨_, rfl, push_alike ?_ rfl⟩
    exact houter
  · next fields key outer hstack =>
    cases hs
    rw [State.closers, State.closers, hstack] at hclosers
    obtain ⟨fields', key', outer', hstack', houter⟩ := exists_object_of_closers hclosers
    rw [hstack', (ht.eq_of_ne_str (by simp)).2 rfl]
    refine ⟨_, rfl, push_alike ?_ rfl⟩
    exact houter
  · cases hs

theorem State.Alike.key (h : s.Alike s') (ht : t.Alike t') (hs : s.key t = .ok next) :
    ∃ next', s'.key t' = .ok next' ∧ next.Alike next' := by
  have hclosers := h.closers
  unfold State.key at hs ⊢
  split at hs
  · next fields key outer name hstack =>
    cases hs
    rw [State.closers, State.closers, hstack] at hclosers
    obtain ⟨fields', key', outer', hstack', houter⟩ := exists_object_of_closers hclosers
    rw [hstack']
    cases ht <;> exact ⟨_, rfl, congrArg ('\x7d' :: ·) houter, rfl, rfl⟩
  · cases hs

/-- What a string says does not decide what is read behind it. -/
theorem State.Alike.feed (h : s.Alike s') (ht : t.Alike t') (hs : s.feed t = .ok next) :
    ∃ next', s'.feed t' = .ok next' ∧ next.Alike next' := by
  have hclosers := h.closers
  have hcolon := ht.eq_of_ne_str (a := .colon) (by simp)
  have hcomma := ht.eq_of_ne_str (a := .comma) (by simp)
  have harray := ht.eq_of_ne_str (a := .closeArray) (by simp)
  have hobject := ht.eq_of_ne_str (a := .closeObject) (by simp)
  unfold State.feed at hs ⊢
  rw [h.expect]
  simp only [hcolon, hcomma, harray, hobject]
  split at hs
  · exact h.value ht hs
  · split at hs
    · next he => rw [if_pos he]; exact h.close ht hs
    · next he => rw [if_neg he]; exact h.value ht hs
  · exact h.key ht hs
  · split at hs
    · next he => rw [if_pos he]; exact h.close ht hs
    · next he => rw [if_neg he]; exact h.key ht hs
  · split at hs
    · next he =>
      cases hs
      rw [if_pos he]
      exact ⟨_, rfl, h.closers, rfl, h.result⟩
    · cases hs
  · split at hs
    · next he =>
      rw [if_pos he]
      split at hs
      · next items outer hstack =>
        cases hs
        rw [State.closers, State.closers, hstack] at hclosers
        obtain ⟨items', outer', hstack', -⟩ := exists_array_of_closers hclosers
        rw [hstack']
        exact ⟨_, rfl, by rw [← hstack']; exact h.closers, rfl, h.result⟩
      · next fields key outer hstack =>
        cases hs
        rw [State.closers, State.closers, hstack] at hclosers
        obtain ⟨fields', key', outer', hstack', -⟩ := exists_object_of_closers hclosers
        rw [hstack']
        exact ⟨_, rfl, by rw [← hstack']; exact h.closers, rfl, h.result⟩
      · cases hs
    · next he => rw [if_neg he]; exact h.close ht hs

theorem State.Alike.run (h : s.Alike s') {ts ts' : List Token} (hts : List.Forall₂ Token.Alike ts ts')
    (hs : ts.foldlM State.feed s = .ok next) :
    ∃ next', ts'.foldlM State.feed s' = .ok next' ∧ next.Alike next' := by
  induction hts generalizing s s' with
  | nil =>
    cases hs
    exact ⟨s', rfl, h⟩
  | cons ht _ ih =>
    obtain ⟨mid, hfeed, hrun⟩ := foldlM_cons_iff.1 hs
    obtain ⟨mid', hfeed', hmid⟩ := h.feed ht hfeed
    obtain ⟨next', hrun', hnext⟩ := ih hmid hrun
    exact ⟨next', foldlM_cons_iff.2 ⟨mid', hfeed', hrun'⟩, hnext⟩

/-- A text is JSON when one is that differs from it in strings alone; objects stay objects. -/
theorem Alike.read {cs ds : List Char} (h : Alike cs ds) {v : Json} (hv : read cs = .ok v) :
    ∃ w, Json.read ds = .ok w ∧ w.isObj = v.isObj := by
  obtain ⟨s, hrun, hresult⟩ := read_eq_ok_iff.1 hv
  obtain ⟨s', hrun', hs⟩ := (State.Alike.refl .start).run (h.tokens (not_bad_of_foldlM hrun)) hrun
  have hmap := hs.result
  rw [hresult] at hmap
  obtain ⟨w, hw, hobj⟩ := Option.map_eq_some_iff.1 hmap
  exact ⟨w, read_eq_ok_iff.2 ⟨s', hrun', hw⟩, hobj⟩

theorem exists_fields {v : Json} (h : v.isObj = true) : ∃ fields, v = .obj fields := by
  cases v with
  | obj fields => exact ⟨fields, rfl⟩
  | _ => cases h

end Codemod.Json
