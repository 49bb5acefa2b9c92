import Codemod.Proofs.Json.Underway
import Codemod.Proofs.Reply.Commas

/-! The search for brackets in an answer finds the object or array that is written there, whatever
stands around it: the closing brackets it waits for are those of what the reader has open. -/
namespace Codemod.Reply
open Text Json

/-! ## The search -/

/-- A character that the search passes over outside strings. -/
structure Passed (c : Char) : Prop where
  opening : closingOf? c = none
  closing : isClosing c = false
  quote : c ≠ '"'

theorem passed_of_isSpace {c : Char} (h : isSpace c = true) : Passed c := by
  simp only [isSpace, Bool.or_eq_true, beq_iff_eq] at h
  rcases h with ((rfl | rfl) | rfl) | rfl <;> exact ⟨rfl, rfl, by decide⟩

theorem closingOf?_eq_none_iff {c : Char} : closingOf? c = none ↔ c ≠ '[' ∧ c ≠ '\x7b' := by
  unfold closingOf?
  by_cases hcurly : c = '\x7b'
  · simp [hcurly]
  · by_cases hsquare : c = '['
    · simp [hsquare]
    · simp [hcurly, hsquare]

theorem closingOf?_eq_some {c close : Char} (h : closingOf? c = some close) :
    c = '\x7b' ∧ close = '\x7d' ∨ c = '[' ∧ close = ']' := by
  unfold closingOf? at h
  split at h
  · next hc => exact .inl ⟨eq_of_beq hc, (Option.some.inj h).symm⟩
  · split at h
    · next hc => exact .inr ⟨eq_of_beq hc, (Option.some.inj h).symm⟩
    · cases h

theorem isClosing_of_closingOf? {c close : Char} (h : closingOf? c = some close) :
    isClosing close = true := by
  rcases closingOf?_eq_some h with ⟨-, rfl⟩ | ⟨-, rfl⟩ <;> rfl

theorem passed_of_isAtomChar {c : Char} (h : isAtomChar c = true) : Passed c := by
  have hne {d : Char} (hd : isAtomChar d = false) : c ≠ d := by
    rintro rfl
    rw [hd] at h
    cases h
  refine ⟨closingOf?_eq_none_iff.2 ⟨hne rfl, hne rfl⟩, ?_, hne rfl⟩
  rw [Bool.eq_false_iff]
  intro hclosing
  rcases eq_of_isClosing hclosing with hc | hc
  · exact hne rfl hc
  · exact hne rfl hc

/-- A character ends the search, or leaves it to what follows. -/
theorem balanced?_cons (open' : List Char) (inside : Inside) (c : Char) :
    (∃ after inside', ((∀ d ∈ open', isClosing d = true) → ∀ d ∈ after, isClosing d = true) ∧
        ∀ cs, balanced? open' inside (c :: cs) = (balanced? after inside' cs).map (c :: ·)) ∨
      open' = [c] ∧ ∀ cs, balanced? open' inside (c :: cs) = some [c] := by
  cases inside with
  | escape => exact .inl ⟨open', .string, id, fun _ => rfl⟩
  | string => exact .inl ⟨open', _, id, fun _ => rfl⟩
  | nothing =>
    by_cases hquote : c = '"'
    · exact .inl ⟨open', .string, id, fun cs => by simp [balanced?, hquote]⟩
    · cases hclose : closingOf? c with
      | some close =>
        refine .inl ⟨close :: open', .nothing, fun hopen => ?_, fun cs => ?_⟩
        · exact List.forall_mem_cons.2 ⟨isClosing_of_closingOf? hclose, hopen⟩
        · simp [balanced?, hquote, hclose]
      | none =>
        by_cases hhead : open'.head? = some c
        · by_cases hone : open'.length = 1
          · obtain ⟨d, rfl⟩ := List.length_eq_one_iff.1 hone
            obtain rfl := Option.some.inj hhead
            exact .inr ⟨rfl, fun cs => by simp [balanced?, hquote, hclose]⟩
          · refine .inl ⟨open'.tail, .nothing, fun hopen d hd => hopen d (List.mem_of_mem_tail hd), fun cs => ?_⟩
            simp [balanced?, hquote, hclose, hhead, hone]
        · exact .inl ⟨open', .nothing, id, fun cs => by simp [balanced?, hquote, hclose, hhead]⟩

section
variable {open' : List Char} (hopen : ∀ c ∈ open', isClosing c = true)
include hopen

theorem balanced_pass {c : Char} (hc : Passed c) (cs : List Char) :
    balanced? open' .nothing (c :: cs) = (balanced? open' .nothing cs).map (c :: ·) := by
  have hhead : (open'.head? == some c) = false := by
    rw [beq_eq_false_iff_ne]
    intro he
    have hclosing := hopen c (List.mem_of_mem_head? he)
    rw [hc.closing] at hclosing
    cases hclosing
  simp [balanced?, hc.opening, hc.quote, hhead]

theorem balanced_passes {lex : List Char} (hlex : ∀ c ∈ lex, Passed c) (cs : List Char) :
    balanced? open' .nothing (lex ++ cs) = (balanced? open' .nothing cs).map (lex ++ ·) := by
  induction lex with
  | nil => simp
  | cons c lex ih =>
    rw [List.forall_mem_cons] at hlex
    rw [List.cons_append, balanced_pass hopen hlex.1, ih hlex.2, Option.map_map]
    rfl

end

theorem balanced_letters {lex : List Char} (hlex : ∀ c ∈ lex, c ≠ '"' ∧ c ≠ '\\')
    (open' cs : List Char) :
    balanced? open' .string (lex ++ cs) = (balanced? open' .string cs).map (lex ++ ·) := by
  induction lex with
  | nil => simp
  | cons c lex ih =>
    rw [List.forall_mem_cons] at hlex
    simp [balanced?, hlex.1, ih hlex.2, Function.comp_def]

theorem balanced_quotable {raw : List Char} (h : Quotable raw) (open' cs : List Char) :
    balanced? open' .string (raw ++ '"' :: cs) =
      (balanced? open' .nothing cs).map (raw ++ '"' :: ·) := by
  induction h with
  | nil => simp [balanced?]
  | plain hquote hslash _ _ ih => simp [balanced?, hquote, hslash, ih, Function.comp_def]
  | escape _ _ ih => simp [balanced?, ih, Function.comp_def]
  | unit _ hhex _ ih =>
    have hlex := balanced_letters (fun c hc =>
      ⟨ne_of_hexDigit (hexDigits_of_hexValue hhex c hc) rfl,
        ne_of_hexDigit (hexDigits_of_hexValue hhex c hc) rfl⟩) open'
    simp [balanced?, hlex, ih, Function.comp_def]

theorem balanced_open {c close : Char} (hc : closingOf? c = some close) (open' cs : List Char) :
    balanced? open' .nothing (c :: cs) = (balanced? (close :: open') .nothing cs).map (c :: ·) := by
  have hquote : c ≠ '"' := by
    rintro rfl
    cases hc
  simp [balanced?, hquote, hc]

theorem closing_eq {c : Char} (hc : isClosing c = true) : closingOf? c = none ∧ c ≠ '"' := by
  obtain rfl | rfl := eq_of_isClosing hc
  all_goals decide

theorem opening_eq {c : Char} (h : (closingOf? c).isSome = true) :
    isSpace c = false ∧ isAtomChar c = false ∧ c.isAlpha = false ∧ isBlank c = false := by
  obtain ⟨close, hclose⟩ := Option.isSome_iff_exists.1 h
  rcases closingOf?_eq_some hclose with ⟨rfl, -⟩ | ⟨rfl, -⟩
  all_goals decide

theorem balanced_last {c : Char} (hc : isClosing c = true) (cs : List Char) :
    balanced? [c] .nothing (c :: cs) = some [c] := by
  simp [balanced?, closing_eq hc]

theorem balanced_close {c : Char} (hc : isClosing c = true) {open' : List Char} (hne : open' ≠ [])
    (cs : List Char) :
    balanced? (c :: open') .nothing (c :: cs) = (balanced? open' .nothing cs).map (c :: ·) := by
  simp [balanced?, closing_eq hc, hne]

/-- A sign opens a bracket, closes one, or is passed over. -/
theorem sign_turns {c : Char} {t : Token} (hc : punctuation? c = some t) {before after : List Char}
    (h : t.Turns before after) :
    (∃ close, closingOf? c = some close ∧ after = close :: before) ∨
      (isClosing c = true ∧ before = c :: after) ∨ (Passed c ∧ after = before) := by
  unfold punctuation? at hc
  split at hc <;> cases hc
  · exact .inl ⟨']', rfl, h⟩
  · exact .inr (.inl ⟨rfl, h⟩)
  · exact .inl ⟨'\x7d', rfl, h⟩
  · exact .inr (.inl ⟨rfl, h⟩)
  · exact .inr (.inr ⟨⟨rfl, rfl, by decide⟩, h⟩)
  · exact .inr (.inr ⟨⟨rfl, rfl, by decide⟩, h⟩)

theorem isClosing_closers (s : State) : ∀ c ∈ s.closers, isClosing c = true := by
  intro c hc
  obtain ⟨p, -, rfl⟩ := List.mem_map.1 hc
  cases p <;> rfl

/-- The rest of a text that is read inside brackets, up to where the last of them is closed. -/
theorem exists_balanced {cs : List Char} {ts : List Token} (h : Written cs ts) {s s' : State}
    (hs : s.Underway) (hstack : s.stack ≠ []) (hrun : ts.foldlM State.feed s = .ok s')
    (hresult : s'.result.isSome = true) :
    ∃ core rest, cs = core ++ rest ∧ (∀ c ∈ rest, isSpace c = true) ∧
      ∀ post, balanced? s.closers .nothing (core ++ post) = some core := by
  induction h generalizing s with
  | nil =>
    cases hrun
    rw [hs.result hstack] at hresult
    cases hresult
  | @space c cs ts hc _ ih =>
    obtain ⟨core, rest, rfl, hrest, hcore⟩ := ih hs hstack hrun
    refine ⟨c :: core, rest, rfl, hrest, fun post => ?_⟩
    rw [List.cons_append, balanced_pass (isClosing_closers s) (passed_of_isSpace hc), hcore]
    rfl
  | @sign c t cs ts hc hcs ih =>
    obtain ⟨next, hfeed, hrun⟩ := foldlM_cons_iff.1 hrun
    obtain ⟨hturns, hnext⟩ := State.feed_spec hfeed hs hstack
    rcases sign_turns hc hturns with ⟨close, hclose, hclosers⟩ | ⟨hclosing, hclosers⟩ | ⟨hpass, hclosers⟩
    · have hne : next.stack ≠ [] := fun hnil => by simp [State.closers, hnil] at hclosers
      obtain ⟨core, rest, rfl, hrest, hcore⟩ := ih hnext hne hrun
      refine ⟨c :: core, rest, rfl, hrest, fun post => ?_⟩
      rw [List.cons_append, balanced_open hclose, ← hclosers, hcore]
      rfl
    · by_cases hnil : next.stack = []
      · have hnone : next.closers = [] := by rw [State.closers, hnil]; rfl
        rw [hclosers, hnone]
        refine ⟨[c], cs, rfl, ?_, fun post => balanced_last hclosing post⟩
        cases ts with
        | nil => exact hcs.isSpace_of_nil
        | cons t ts =>
          obtain ⟨_, hfeed, -⟩ := foldlM_cons_iff.1 hrun
          rw [State.feed_done hnil (hnext.expect hnil)] at hfeed
          cases hfeed
      · obtain ⟨core, rest, rfl, hrest, hcore⟩ := ih hnext hnil hrun
        refine ⟨c :: core, rest, rfl, hrest, fun post => ?_⟩
        have hne : next.closers ≠ [] := by simpa [State.closers] using hnil
        rw [hclosers, List.cons_append, balanced_close hclosing hne, hcore]
        rfl
    · obtain ⟨core, rest, rfl, hrest, hcore⟩ := ih hnext (State.stack_ne_nil hclosers hstack) hrun
      refine ⟨c :: core, rest, rfl, hrest, fun post => ?_⟩
      rw [hclosers] at hcore
      rw [List.cons_append, balanced_pass (isClosing_closers s) hpass, hcore]
      rfl
  | @string raw text cs ts hraw _ ih =>
    obtain ⟨next, hfeed, hrun⟩ := foldlM_cons_iff.1 hrun
    obtain ⟨hturns, hnext⟩ := State.feed_spec hfeed hs hstack
    have hclosers : next.closers = s.closers := hturns
    obtain ⟨core, rest, rfl, hrest, hcore⟩ := ih hnext (State.stack_ne_nil hclosers hstack) hrun
    refine ⟨'"' :: (raw ++ '"' :: core), rest, by simp, hrest, fun post => ?_⟩
    rw [hclosers] at hcore
    simp [balanced?, balanced_quotable hraw, hcore]
  | @atom lex t cs ts _ hlex ht _ ih =>
    obtain ⟨next, hfeed, hrun⟩ := foldlM_cons_iff.1 hrun
    obtain ⟨hturns, hnext⟩ := State.feed_spec hfeed hs hstack
    have hclosers : next.closers = s.closers := by
      cases t <;> first | exact hturns | cases ht
    obtain ⟨core, rest, rfl, hrest, hcore⟩ := ih hnext (State.stack_ne_nil hclosers hstack) hrun
    refine ⟨lex ++ core, rest, by simp, hrest, fun post => ?_⟩
    rw [hclosers] at hcore
    have hpass : ∀ c ∈ lex, Passed c := fun c hc => passed_of_isAtomChar (hlex c hc)
    rw [List.append_assoc, balanced_passes (isClosing_closers s) hpass, hcore]
    rfl

/-- The first sign of a text opens a bracket. -/
theorem feed_start_sign {c : Char} {t : Token} (hc : punctuation? c = some t) {s : State}
    (h : State.start.feed t = .ok s) :
    ∃ close, closingOf? c = some close ∧ s.closers = [close] ∧ s.Underway := by
  unfold punctuation? at hc
  split at hc <;> cases hc <;> cases h
  · exact ⟨']', rfl, rfl, ⟨fun _ => rfl, by simp⟩⟩
  · exact ⟨'\x7d', rfl, rfl, ⟨fun _ => rfl, by simp⟩⟩

theorem bracketed_append {front : List Char} (h : ∀ c ∈ front, closingOf? c = none) (cs : List Char) :
    bracketed? (front ++ cs) = bracketed? cs := by
  induction front with
  | nil => rfl
  | cons c front ih =>
    rw [List.forall_mem_cons] at h
    rw [List.cons_append, bracketed?, h.1, ih h.2]

theorem exists_bracketed_of_sign {c : Char} {t : Token} (hc : punctuation? c = some t) {cs : List Char}
    {ts : List Token} (h : Written cs ts) {s : State} (hrun : (t :: ts).foldlM State.feed .start = .ok s)
    (hresult : s.result.isSome = true) :
    ∃ core rest, c :: cs = core ++ rest ∧ (∀ c ∈ rest, isSpace c = true) ∧
      ∀ post, bracketed? (core ++ post) = some core := by
  obtain ⟨next, hfeed, hrun⟩ := foldlM_cons_iff.1 hrun
  obtain ⟨close, hclose, hclosers, hnext⟩ := feed_start_sign hc hfeed
  have hne : next.stack ≠ [] := fun hnil => by simp [State.closers, hnil] at hclosers
  obtain ⟨core, rest, rfl, hrest, hcore⟩ := exists_balanced h hnext hne hrun hresult
  refine ⟨c :: core, rest, rfl, hrest, fun post => ?_⟩
  rw [hclosers] at hcore
  rw [List.cons_append, bracketed?, hclose]
  simp [hcore]

/-- A text that begins with a bracket and is JSON is what the search finds, but for spaces behind it. -/
theorem exists_bracketed_of_opening {c : Char} (hc : (closingOf? c).isSome = true) {cs : List Char}
    {v : Json} (h : Json.read (c :: cs) = .ok v) : ∃ part, bracketed? (c :: cs) = some part := by
  obtain ⟨s, hrun, hresult⟩ := read_eq_ok_iff.1 h
  have hwritten := written_of_read h
  generalize tokens (c :: cs) = ts at hwritten hrun
  have hpass : ¬ Passed c := fun hp => by rw [hp.opening] at hc; cases hc
  generalize hcs : c :: cs = text at hwritten ⊢
  cases hwritten with
  | nil => cases hcs
  | space hspace => cases hcs; exact absurd (passed_of_isSpace hspace) hpass
  | sign hsign htail =>
    obtain ⟨core, rest, hsplit, -, hcore⟩ :=
      exists_bracketed_of_sign hsign htail hrun (by rw [hresult]; rfl)
    exact ⟨core, by rw [hsplit, hcore]⟩
  | string => cases hcs; cases hc
  | atom hne hlex =>
    obtain ⟨d, lex, rfl⟩ := List.exists_cons_of_ne_nil hne
    cases hcs
    exact absurd (passed_of_isAtomChar (hlex c (by simp))) hpass

theorem exists_bracketed_of_run {cs : List Char} {ts : List Token} (h : Written cs ts) {s : State}
    {v : Json} (hv : v.isContainer = true) (hrun : ts.foldlM State.feed .start = .ok s)
    (hresult : s.result = some v) :
    ∃ lead core rest, cs = lead ++ (core ++ rest) ∧ (∀ c ∈ lead, isSpace c = true) ∧
      (∀ c ∈ rest, isSpace c = true) ∧ ∀ post, bracketed? (core ++ post) = some core := by
  have hscalar {t : Token} {ts : List Token} (ht : t.isAtom = true ∨ ∃ text, t = .str text) :
      (t :: ts).foldlM State.feed .start ≠ .ok s := by
    intro hrun
    rw [State.isContainer_of_run ht hrun hresult] at hv
    cases hv
  induction h with
  | nil => cases hrun; cases hresult
  | @space c cs ts hc _ ih =>
    obtain ⟨lead, core, rest, rfl, hlead, hrest, hcore⟩ := ih hrun
    exact ⟨c :: lead, core, rest, rfl, by simpa [hc] using hlead, hrest, hcore⟩
  | sign hc hcs =>
    obtain ⟨core, rest, hsplit, hrest, hcore⟩ :=
      exists_bracketed_of_sign hc hcs hrun (by rw [hresult]; rfl)
    exact ⟨[], core, rest, hsplit, by simp, hrest, hcore⟩
  | string => exact absurd hrun (hscalar (.inr ⟨_, rfl⟩))
  | atom _ _ ht => exact absurd hrun (hscalar (.inl ht))

theorem exists_last_of_balanced? {open' cs part : List Char} {inside : Inside}
    (hopen : ∀ c ∈ open', isClosing c = true) (h : balanced? open' inside cs = some part) :
    ∃ inner c, part = inner ++ [c] ∧ isClosing c = true := by
  induction cs generalizing open' inside part with
  | nil => cases h
  | cons c cs ih =>
    rcases balanced?_cons open' inside c with ⟨after, inside', hafter, hstep⟩ | ⟨rfl, hlast⟩
    · rw [hstep] at h
      obtain ⟨part', hpart', rfl⟩ := Option.map_eq_some_iff.1 h
      obtain ⟨inner, d, rfl, hd⟩ := ih (hafter hopen) hpart'
      exact ⟨c :: inner, d, rfl, hd⟩
    · rw [hlast] at h
      cases h
      exact ⟨[], c, rfl, hopen c (by simp)⟩

/-- What is found begins and ends with its brackets. -/
theorem exists_ends_of_bracketed? {cs part : List Char} (h : bracketed? cs = some part) :
    ∃ c inner d, part = c :: (inner ++ [d]) ∧ (closingOf? c).isSome = true ∧ isClosing d = true := by
  induction cs with
  | nil => cases h
  | cons c cs ih =>
    unfold bracketed? at h
    split at h
    · next close hclose =>
      obtain ⟨part', hpart', rfl⟩ := Option.map_eq_some_iff.1 h
      obtain ⟨inner, d, rfl, hd⟩ :=
        exists_last_of_balanced? (List.forall_mem_singleton.2 (isClosing_of_closingOf? hclose)) hpart'
      exact ⟨c, inner, d, rfl, by rw [hclose]; rfl, hd⟩
    · exact ih h

theorem trim_of_bracketed? {cs part : List Char} (h : bracketed? cs = some part) : trim part = part := by
  obtain ⟨c, inner, d, rfl, hc, hd⟩ := exists_ends_of_bracketed? h
  apply trim_eq_self
  · rintro _ ⟨⟩
    exact (opening_eq hc).2.2.2
  · intro e he
    rw [← List.cons_append, List.getLast?_concat] at he
    cases he
    exact isBlank_of_closing hd

/-- An array or object is found wherever it stands, if no bracket opens in front of it. Spaces around it
are no part of it. -/
theorem bracketed_around {core : List Char} {v : Json} (h : Json.read core = .ok v)
    (hv : v.isContainer = true) {front : List Char} (hfront : ∀ c ∈ front, closingOf? c = none)
    (back : List Char) : bracketed? (front ++ (core ++ back)) = some (trim core) := by
  obtain ⟨s, hrun, hresult⟩ := read_eq_ok_iff.1 h
  obtain ⟨lead, part, rest, rfl, hlead, hrest, hpart⟩ :=
    exists_bracketed_of_run (written_of_read h) hv hrun hresult
  have hcut : trim (lead ++ (part ++ rest)) = part := by
    have htrim := trim_of_bracketed? (hpart [])
    obtain ⟨c, inner, d, rfl, -, -⟩ := exists_ends_of_bracketed? (hpart [])
    have hne : trim (c :: (inner ++ [d])) ≠ [] := by simp [htrim]
    rw [trim, trimLeft_blanks_append fun c hc => isBlank_of_isSpace (hlead c hc), ← trim,
      trim_append_blanks hne fun c hc => isBlank_of_isSpace (hrest c hc), htrim]
  have hlead' : ∀ c ∈ front ++ lead, closingOf? c = none :=
    List.forall_mem_append.2 ⟨hfront, fun c hc => (passed_of_isSpace (hlead c hc)).opening⟩
  have hsplit : front ++ (lead ++ (part ++ rest) ++ back) = front ++ lead ++ (part ++ (rest ++ back)) := by
    simp only [List.append_assoc]
  rw [hcut, hsplit, bracketed_append hlead', hpart]

theorem bracketed_self {core : List Char} {v : Json} (h : Json.read core = .ok v)
    (hv : v.isContainer = true) : bracketed? core = some (trim core) := by
  have hfound : bracketed? ([] ++ (core ++ [])) = some (trim core) :=
    bracketed_around h hv (by simp) []
  rwa [List.nil_append, List.append_nil] at hfound

section
variable {answer : List Char} (hfence : fenced? (trim answer) = none)
include hfence

/-- A text in no fence is searched as it stands, if it is no JSON. -/
theorem repaired?_of_malformed (hread : Json.read (trim answer) = .error .malformed) :
    repaired? answer = .ok ((bracketed? (trim answer)).map withoutTrailingCommas) := by
  unfold repaired? withoutFence
  rw [hfence, Option.getD_none]
  dsimp only
  split
  · next hempty => rw [List.isEmpty_iff.1 hempty]; rfl
  · rw [hread]

theorem repaired?_of_tooManyDigits (hread : Json.read (trim answer) = .error .tooManyDigits) :
    repaired? answer = .error .tooManyDigits := by
  unfold repaired? withoutFence
  rw [hfence, Option.getD_none]
  dsimp only
  split
  · next hempty =>
    rw [List.isEmpty_iff.1 hempty, read_nil] at hread
    cases hread
  · rw [hread]

end

/-! ## Texts cut short -/

theorem balanced?_append {open' cs part : List Char} {inside : Inside}
    (h : balanced? open' inside cs = some part) (back : List Char) :
    balanced? open' inside (cs ++ back) = some part ∧ part.length ≤ cs.length := by
  induction cs generalizing open' inside part with
  | nil => cases h
  | cons c cs ih =>
    rw [List.cons_append]
    rcases balanced?_cons open' inside c with ⟨after, inside', -, hstep⟩ | ⟨-, hlast⟩
    · rw [hstep] at h ⊢
      obtain ⟨inner, hinner, rfl⟩ := Option.map_eq_some_iff.1 h
      obtain ⟨happend, hlength⟩ := ih hinner
      exact ⟨by rw [happend]; rfl, Nat.succ_le_succ hlength⟩
    · rw [hlast] at h ⊢
      cases h
      simp

/-- What is found in a text does not depend on what comes behind it. -/
theorem bracketed?_append {cs part : List Char} (h : bracketed? cs = some part) (back : List Char) :
    bracketed? (cs ++ back) = some part ∧ part.length ≤ cs.length := by
  induction cs with
  | nil => cases h
  | cons c cs ih =>
    rw [List.cons_append]
    unfold bracketed? at h ⊢
    split at h
    · obtain ⟨inner, hinner, rfl⟩ := Option.map_eq_some_iff.1 h
      obtain ⟨happend, hlength⟩ := balanced?_append hinner back
      exact ⟨by rw [happend]; rfl, Nat.succ_le_succ hlength⟩
    · obtain ⟨happend, hlength⟩ := ih h
      exact ⟨happend, Nat.le_succ_of_le hlength⟩

end Codemod.Reply
