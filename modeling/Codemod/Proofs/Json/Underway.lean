import Codemod.Proofs.Json.Written

/-! Reading under way: what is open, what each token does to it, and how a text begins that is no JSON. -/
namespace Codemod.Json
open Text

def Partial.closer : Partial → Char
  | .array _ => ']'
  | .object .. => '}'

/-- The closing brackets that a state waits for, the next one first. -/
def State.closers (s : State) : List Char := s.stack.map Partial.closer

/-- States behind the first opening bracket: what is open has no value yet, and nothing comes behind
the value. -/
structure State.Underway (s : State) : Prop where
  result : s.stack ≠ [] → s.result = none
  expect : s.stack = [] → s.expect = .next

theorem State.push_spec (s : State) (v : Json) :
    (s.push v).closers = s.closers ∧ (s.push v).Underway := by
  obtain ⟨stack, expect, result⟩ := s
  cases stack with
  | nil => exact ⟨rfl, ⟨by simp [push], fun _ => rfl⟩⟩
  | cons p outer => cases p <;> exact ⟨rfl, ⟨fun _ => rfl, by simp [push]⟩⟩

theorem State.feed_done {s : State} (hstack : s.stack = []) (hexpect : s.expect = .next) (t : Token) :
    s.feed t = .error .malformed := by
  unfold feed
  rw [hexpect]
  dsimp only
  split
  · rw [hstack]
  · simp [close, hstack]

/-- What a token does to the closing brackets that are waited for. -/
def Token.Turns (t : Token) (before after : List Char) : Prop :=
  match t with
  | .openArray => after = ']' :: before
  | .openObject => after = '}' :: before
  | .closeArray => before = ']' :: after
  | .closeObject => before = '}' :: after
  | _ => after = before

theorem State.value_spec {s s' : State} {t : Token} (h : s.value t = .ok s') :
    t.Turns s.closers s'.closers ∧ s'.Underway := by
  cases t with
  | openArray =>
    cases h
    exact ⟨rfl, ⟨fun _ => rfl, by simp⟩⟩
  | openObject =>
    cases h
    exact ⟨rfl, ⟨fun _ => rfl, by simp⟩⟩
  | whole negative digits =>
    change (wholeNumber negative digits).map s.push = .ok s' at h
    cases hv : wholeNumber negative digits with
    | error e => rw [hv] at h; cases h
    | ok v =>
      rw [hv] at h
      cases h
      exact s.push_spec v
  | closeArray | closeObject | comma | colon | bad => cases h
  | _ =>
    cases h
    exact s.push_spec _

theorem State.close_spec {s s' : State} {t : Token} (h : s.close t = .ok s') :
    t.Turns s.closers s'.closers ∧ s'.Underway := by
  unfold close at h
  split at h
  · next items outer hstack =>
    cases h
    obtain ⟨hclosers, hunderway⟩ := push_spec ⟨outer, .next, none⟩ (.arr items.reverse)
    exact ⟨by rw [Token.Turns, hclosers, closers, closers, hstack]; rfl, hunderway⟩
  · next fields key outer hstack =>
    cases h
    obtain ⟨hclosers, hunderway⟩ := push_spec ⟨outer, .next, none⟩ (.obj fields.reverse)
    exact ⟨by rw [Token.Turns, hclosers, closers, closers, hstack]; rfl, hunderway⟩
  · cases h

theorem State.key_spec {s s' : State} {t : Token} (h : s.key t = .ok s') :
    t.Turns s.closers s'.closers ∧ s'.Underway := by
  unfold key at h
  split at h
  · next fields key outer name hstack =>
    cases h
    exact ⟨by simp [Token.Turns, closers, hstack, Partial.closer], ⟨fun _ => rfl, by simp⟩⟩
  · cases h

/-- A token read inside brackets opens one more, closes the last one, or leaves them as they are. -/
theorem State.feed_spec {s s' : State} {t : Token} (h : s.feed t = .ok s') (hs : s.Underway)
    (hopen : s.stack ≠ []) : t.Turns s.closers s'.closers ∧ s'.Underway := by
  have hnone := hs.result hopen
  unfold feed at h
  split at h
  · exact value_spec h
  · split at h
    · exact close_spec h
    · exact value_spec h
  · exact key_spec h
  · split at h
    · exact close_spec h
    · exact key_spec h
  · split at h
    · next ht =>
      cases h
      rw [ht]
      exact ⟨rfl, ⟨fun _ => hnone, fun hstack => absurd hstack hopen⟩⟩
    · cases h
  · split at h
    · next ht =>
      rw [ht]
      split at h
      · next hstack =>
        cases h
        exact ⟨rfl, ⟨fun _ => hnone, fun hempty => absurd hempty hopen⟩⟩
      · next hstack =>
        cases h
        exact ⟨rfl, ⟨fun _ => hnone, fun hempty => absurd hempty hopen⟩⟩
      · cases h
    · exact close_spec h

/-- Whether a value is written in brackets. -/
def isContainer : Json → Bool
  | .arr _ | .obj _ => true
  | _ => false

theorem scalar?_isContainer {t : Token} {v : Json} (h : scalar? t = some (.ok v)) :
    v.isContainer = false := by
  cases t with
  | whole negative digits =>
    have hwhole : wholeNumber negative digits = .ok v := Option.some.inj h
    unfold wholeNumber at hwhole
    split at hwhole <;> cases hwhole
    rfl
  | openArray | closeArray | openObject | closeObject | comma | colon | bad => cases h
  | _ =>
    cases h
    rfl

theorem State.feed_start {t : Token} (ht : t.isAtom = true ∨ ∃ text, t = .str text) :
    start.feed t = match scalar? t with
      | some v => v.map start.push
      | none => .error .malformed := by
  cases t <;> first | rfl | simp [Token.isAtom] at ht

/-- A string, a number or a word at the head of a text is its value. -/
theorem State.feed_start_scalar {t : Token} (ht : t.isAtom = true ∨ ∃ text, t = .str text) {s : State}
    (h : start.feed t = .ok s) : ∃ v, s = start.push v ∧ v.isContainer = false := by
  rw [feed_start ht] at h
  split at h
  · next r hr =>
    cases r with
    | error e => cases h
    | ok v => exact ⟨v, (Except.ok.inj h).symm, scalar?_isContainer hr⟩
  · cases h

/-- A text that is an array or object begins with its bracket. -/
theorem State.isContainer_of_run {t : Token} (ht : t.isAtom = true ∨ ∃ text, t = .str text)
    {ts : List Token} {s : State} (h : (t :: ts).foldlM feed .start = .ok s) {v : Json}
    (hresult : s.result = some v) : v.isContainer = false := by
  obtain ⟨next, hfeed, hrun⟩ := foldlM_cons_iff.1 h
  obtain ⟨w, rfl, hw⟩ := feed_start_scalar ht hfeed
  cases ts with
  | nil =>
    cases hrun
    obtain rfl := Option.some.inj hresult
    exact hw
  | cons t ts =>
    obtain ⟨_, hfeed, -⟩ := foldlM_cons_iff.1 hrun
    rw [feed_done rfl rfl] at hfeed
    cases hfeed

theorem State.stack_ne_nil {s s' : State} (h : s'.closers = s.closers) (hs : s.stack ≠ []) :
    s'.stack ≠ [] := by
  intro hnil
  apply hs
  simpa [closers, hnil] using h.symm

/-! ## Texts that are not JSON by how they begin -/

theorem tokens_cons {c : Char} (hc : isSpace c = false) (cs : List Char) :
    tokens (c :: cs) = (nextToken c cs).1 :: tokens (nextToken c cs).2 := by
  rw [tokens, if_neg (by simp [hc])]

theorem read_of_bad {c : Char} {cs : List Char} (hc : isSpace c = false)
    (h : (nextToken c cs).1 = .bad) : read (c :: cs) = .error .malformed := by
  have htokens : tokens (c :: cs) = .bad :: tokens (nextToken c cs).2 := by
    rw [tokens_cons hc, h]
  rw [read, htokens, List.foldlM_cons, feed_bad]
  rfl

theorem nextToken_backtick (cs : List Char) : nextToken '`' cs = (.bad, []) := by
  simp [nextToken, punctuation?, longToken?, isAsciiDigit, wordTokens, after?]

theorem scalar?_word {w : List Char × Token} (h : w ∈ wordTokens) : ∃ v, scalar? w.2 = some (.ok v) := by
  simp only [wordTokens, List.mem_cons, List.not_mem_nil, or_false] at h
  rcases h with rfl | rfl | rfl | rfl | rfl | rfl <;> exact ⟨_, rfl⟩

theorem nextToken_of_isAlpha {c : Char} (hc : c.isAlpha = true) (cs : List Char) :
    (nextToken c cs).1 = .bad ∨ ∃ w ∈ wordTokens, (nextToken c cs).1 = w.2 := by
  have hsign : punctuation? c = none := by
    unfold punctuation?
    split <;> first | rfl | exact absurd hc (by decide)
  have hdigit : isAsciiDigit c = false := isDigit_of_isAlpha hc
  rw [nextToken, hsign]
  dsimp only
  rw [longToken?, if_neg (ne_of_isAlpha hc rfl), if_neg (ne_of_isAlpha hc rfl), hdigit]
  cases hword : wordTokens.findSome? fun w => (after? w.1 (c :: cs)).map ((w.2, ·)) with
  | none => exact .inl (by rfl)
  | some r =>
    obtain ⟨w, hw, h⟩ := List.exists_of_findSome?_eq_some hword
    obtain ⟨_, -, rfl⟩ := Option.map_eq_some_iff.1 h
    exact .inr ⟨w, hw, rfl⟩

/-- A text of one number or word holds nothing else but spaces. -/
theorem Written.of_atom {cs : List Char} {t : Token} (h : Written cs [t]) (ht : t.isAtom = true) :
    ∀ c ∈ cs, isSpace c = true ∨ isAtomChar c = true := by
  generalize hts : [t] = ts at h
  induction h with
  | nil => cases hts
  | space hc _ ih =>
    rw [List.forall_mem_cons]
    exact ⟨.inl hc, ih hts⟩
  | sign hc =>
    obtain ⟨rfl, -⟩ := List.cons.inj hts
    unfold punctuation? at hc
    split at hc <;> cases hc <;> cases ht
  | string =>
    obtain ⟨rfl, -⟩ := List.cons.inj hts
    cases ht
  | atom _ hlex _ hcs =>
    obtain ⟨-, rfl⟩ := List.cons.inj hts
    rw [List.forall_mem_append]
    exact ⟨fun c hc => .inr (hlex c hc), fun c hc => .inl (hcs.isSpace_of_nil c hc)⟩

/-- A text that begins with a letter is a word, if it is JSON at all. -/
theorem read_of_isAlpha {c d : Char} {cs : List Char} (hc : c.isAlpha = true) (hd : d ∈ cs)
    (hspace : isSpace d = false) (hatom : isAtomChar d = false) :
    read (c :: cs) = .error .malformed := by
  have hc' : isSpace c = false := by
    simp [isSpace, ne_of_isAlpha hc (d := ' ') rfl, ne_of_isAlpha hc (d := '\t') rfl,
      ne_of_isAlpha hc (d := '\n') rfl, ne_of_isAlpha hc (d := '\r') rfl]
  rcases nextToken_of_isAlpha hc cs with hbad | ⟨w, hw, ht⟩
  · exact read_of_bad hc' hbad
  · have htokens : tokens (c :: cs) = w.2 :: tokens (nextToken c cs).2 := by
      rw [tokens_cons hc', ht]
    obtain ⟨v, hv⟩ := scalar?_word hw
    have hstart : State.start.feed w.2 = .ok (State.start.push v) := by
      rw [State.feed_start (.inl (word_atoms hw).1), hv]
      rfl
    cases hrest : tokens (nextToken c cs).2 with
    | nil =>
      rw [hrest] at htokens
      have hwritten : Written (c :: cs) [w.2] := by
        rw [← htokens]
        refine written_tokens ?_
        rw [htokens, List.mem_singleton]
        intro hbad
        have := (word_atoms hw).1
        rw [← hbad] at this
        cases this
      rcases hwritten.of_atom (word_atoms hw).1 d (List.mem_cons_of_mem c hd) with h | h
      · rw [hspace] at h; cases h
      · rw [hatom] at h; cases h
    | cons t ts =>
      rw [read, htokens, hrest, List.foldlM_cons, hstart]
      show ((t :: ts).foldlM State.feed (State.start.push v)).bind State.finish = _
      rw [List.foldlM_cons, State.feed_done rfl rfl]
      rfl

end Codemod.Json
