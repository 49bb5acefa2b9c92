import Codemod.Literal.Reader
import Codemod.Proofs.Text.Lines
import Codemod.Proofs.Text.Span

/-! Texts that are no literals by how they open. What stands first outside all brackets is valued first,
so a text whose first part has no value has none, however it goes on. -/
namespace Codemod.Literal
open Text

/-- An expression without a value that no text behind it can give one. -/
inductive Expr.Dead : Expr → Prop
  | other : Dead .other
  | word {name : List Char} (h : name ≠ "set".toList) : Dead (.word name)

inductive Piece.Dead : Piece → Prop
  | other : Dead .other
  | operand {e : Expr} (h : e.Dead) : Dead (.operand e)

theorem Expr.Dead.signedNumber_eq {e : Expr} (h : e.Dead) : e.signedNumber = .error .notLiteral := by
  cases h <;> rfl

theorem Expr.Dead.value_eq {e : Expr} (h : e.Dead) : e.value = .error .notLiteral := by
  cases h <;> rfl

theorem Expr.Dead.applied {e : Expr} (h : e.Dead) (f : Frame) : (applied f [.operand e]).Dead := by
  unfold Literal.applied
  split
  · next name _ _ _ hlast =>
    obtain rfl : e = .word name := Piece.operand.inj (List.cons.inj hlast).1
    cases h with
    | word hname =>
      rw [beq_eq_false_iff_ne.2 hname]
      exact .other
  · exact .other

theorem Expr.Dead.joinTexts? {e text joined : Expr} (h : e.Dead)
    (he : Literal.joinTexts? e text = some joined) : joined.Dead := by
  unfold Literal.joinTexts? at he
  split at he
  · cases h
  · cases h
  · cases he
  · cases he
  · cases he
    exact .other

/-- Pieces that open with one without a value have none together. -/
theorem value_exprOf {pieces : List Piece} {p : Piece} (h : pieces.getLast? = some p) (hp : p.Dead) :
    (exprOf pieces).value = .error .notLiteral := by
  unfold exprOf
  split
  · cases h
    cases hp with
    | operand he => exact he.value_eq
  · cases h
    cases hp
  · cases h
    cases hp with
    | operand he => rw [Expr.value, he.signedNumber_eq]; rfl
  · cases h
    cases hp
  · rfl

/-- A bracket, or the outside of all, whose first part has no value. -/
structure Frame.Spoiled (f : Frame) : Prop where
  kind : f.kind = .top
  first : (f.items = [] ∧ ∃ p, f.pieces.getLast? = some p ∧ p.Dead) ∨
    ∃ e, f.items.getLast? = some e ∧ e.value = .error .notLiteral

/-- The outside of all brackets. -/
def State.bottom (s : State) : Frame := s.outer.getLast?.getD s.frame

def State.Spoiled (s : State) : Prop := s.bottom.Spoiled

variable {f : Frame} {s s' : State}

theorem Frame.Spoiled.add (h : f.Spoiled) (pieces : List Piece) (open'' : Nat) :
    Frame.Spoiled { f with pieces := pieces ++ f.pieces, open' := open'' } where
  kind := h.kind
  first := by
    rcases h.first with ⟨hitems, p, hp, hdead⟩ | hitems
    · exact .inl ⟨hitems, p, by simp [List.getLast?_append, hp], hdead⟩
    · exact .inr hitems

/-- The last operand may change as long as it stays without a value. -/
theorem Frame.Spoiled.replaceLast (h : f.Spoiled) {e : Expr}
    (he : ∀ d, f.pieces = [.operand d] → d.Dead → e.Dead) : (f.replaceLast e).Spoiled := by
  unfold Frame.replaceLast
  split
  · next d rest hpieces =>
    refine ⟨h.kind, ?_⟩
    rcases h.first with ⟨hitems, p, hp, hdead⟩ | hitems
    · refine .inl ⟨hitems, ?_⟩
      rw [hpieces] at hp
      cases rest with
      | nil =>
        cases hp
        cases hdead with
        | operand hd => exact ⟨_, rfl, .operand (he d hpieces hd)⟩
      | cons q rest => exact ⟨p, by simpa using hp, hdead⟩
    · exact .inr hitems
  · exact h.add [.operand e] f.open'

theorem Frame.Spoiled.finishItem? (h : f.Spoiled) {f' : Frame} (hf : f.finishItem? = some f') :
    f'.Spoiled := by
  unfold Frame.finishItem? at hf
  dsimp only at hf
  split at hf
  · cases hf
  · split at hf
    · next hkind _ => rw [h.kind] at hkind; cases hkind
    · next hkind _ => rw [h.kind] at hkind; cases hkind
    · cases hf
      refine ⟨h.kind, .inr ?_⟩
      rcases h.first with ⟨hitems, p, hp, hdead⟩ | ⟨e, he, hvalue⟩
      · exact ⟨exprOf f.pieces, by rw [hitems]; rfl, value_exprOf hp hdead⟩
      · exact ⟨e, by simp [List.getLast?_cons, he], hvalue⟩

/-! ## One token -/

theorem State.Spoiled.of_frame (h : s.Spoiled) (houter : s'.outer = s.outer)
    (hframe : s.frame.Spoiled → s'.frame.Spoiled) : s'.Spoiled := by
  unfold Spoiled bottom at h ⊢
  rw [houter]
  cases hlast : s.outer.getLast? with
  | none => rw [hlast] at h; exact hframe h
  | some f => rwa [hlast] at h

theorem State.Spoiled.of_outer (h : s.Spoiled) {outer f' : Frame} {rest : List Frame} {phase : Phase}
    (houter : s.outer = outer :: rest) (hframe : outer.Spoiled → f'.Spoiled) :
    State.Spoiled ⟨f', rest, phase⟩ := by
  unfold Spoiled bottom at h ⊢
  rw [houter, List.getLast?_cons] at h
  cases hlast : rest.getLast? with
  | none => rw [hlast] at h; exact hframe h
  | some f => rw [hlast] at h; exact h

theorem State.Spoiled.with (h : s.Spoiled) (pieces : List Piece) (phase : Phase) :
    (s.with pieces phase).Spoiled :=
  h.of_frame rfl fun hf => hf.add pieces s.frame.open'

theorem State.Spoiled.openBracket (h : s.Spoiled) {kind : Kind} (hs : s.openBracket kind = some s') :
    s'.Spoiled := by
  unfold State.openBracket at hs
  split at hs
  · cases hs
  · cases hs
    unfold Spoiled bottom at h ⊢
    rw [List.getLast?_cons]
    exact h

theorem State.Spoiled.closeBracket (h : s.Spoiled) {c : Char} (hs : s.closeBracket c = some s') :
    s'.Spoiled := by
  unfold State.closeBracket at hs
  split at hs
  · cases hs
  · next outer rest houter =>
    split at hs
    · cases hs
    · obtain ⟨f, hf, hs⟩ := Option.bind_eq_some_iff.1 hs
      split at hs
      · cases hs
        refine h.of_outer houter fun ho => ho.replaceLast fun d hd hdead => ?_
        rw [hd]
        exact hdead.applied f
      · split at hs
        · cases hs
        · cases hs
          exact h.of_outer houter fun ho => ho.replaceLast fun _ _ _ => .other
      · obtain ⟨e, -, rfl⟩ := Option.map_eq_some_iff.1 hs
        exact h.of_outer houter fun ho => ho.add [.operand e] outer.open'

theorem State.Spoiled.comma (h : s.Spoiled) (hs : s.comma = some s') : s'.Spoiled := by
  unfold State.comma at hs
  split at hs
  · obtain ⟨f, hf, rfl⟩ := Option.map_eq_some_iff.1 hs
    refine h.of_frame rfl fun hframe => ?_
    have := hframe.finishItem? hf
    exact ⟨this.kind, this.first⟩
  · cases hs

theorem State.Spoiled.colon (h : s.Spoiled) (hs : s.colon = some s') : s'.Spoiled := by
  unfold State.colon at hs
  split at hs
  · next hkind _ =>
    split at hs
    · cases hs
    · cases hs
      exact h.of_frame rfl fun hframe => absurd hkind (by rw [hframe.kind]; decide)
  · next hkind _ =>
    cases hs
    exact h.of_frame rfl fun hframe => absurd hkind (by rw [hframe.kind]; decide)
  · next hkind _ =>
    cases hs
    exact h.of_frame rfl fun hframe => absurd hkind (by rw [hframe.kind]; decide)
  · cases hs

theorem State.Spoiled.spread (h : s.Spoiled) {double : Bool} (hs : s.spread double = some s') :
    s'.Spoiled := by
  unfold State.spread at hs
  split at hs
  · next hkind =>
    split at hs
    · cases hs
      exact h.of_frame rfl fun hframe => absurd hkind (by rw [hframe.kind]; decide)
    · cases hs
  · cases hs; exact h.with _ _
  · cases hs
  · cases hs
  · cases hs; exact h.with _ _

theorem State.Spoiled.signBehind (h : s.Spoiled) {sign : List Char} (hs : s.signBehind sign = some s') :
    s'.Spoiled := by
  unfold State.signBehind at hs
  split at hs
  · exact h.openBracket hs
  · exact h.openBracket hs
  · cases hs; exact h.of_frame rfl id
  · cases hs; exact h.with _ _
  · cases hs; exact h.with _ _
  · split at hs
    · cases hs; exact h.with _ _
    · cases hs
  · split at hs
    · cases hs; exact h.with _ _
    · cases hs
  · split at hs
    · cases hs; exact h.with _ _
    · cases hs

theorem State.Spoiled.signAhead (h : s.Spoiled) {sign : List Char} (hs : s.signAhead sign = some s') :
    s'.Spoiled := by
  unfold State.signAhead at hs
  split at hs
  · exact h.openBracket hs
  · exact h.openBracket hs
  · exact h.openBracket hs
  · cases hs; exact h.with _ _
  · cases hs; exact h.with _ _
  · cases hs; exact h.with _ _
  · cases hs; exact h.with _ _
  · split at hs
    · exact h.spread hs
    · cases hs
  · split at hs
    · exact h.spread hs
    · cases hs
  · cases hs

theorem State.Spoiled.feedSign (h : s.Spoiled) {sign : List Char} (hs : s.feedSign sign = some s') :
    s'.Spoiled := by
  unfold State.feedSign at hs
  split at hs
  · exact h.comma hs
  · exact h.colon hs
  · split at hs
    · exact h.closeBracket hs
    · split at hs
      · exact h.signBehind hs
      · exact h.signAhead hs
      · exact h.signAhead hs
      · cases hs
  · split at hs
    · exact h.signBehind hs
    · exact h.signAhead hs
    · exact h.signAhead hs
    · cases hs

theorem State.Spoiled.wordAhead (h : s.Spoiled) {loose : Bool} {name : List Char}
    (hs : s.wordAhead loose name = some s') : s'.Spoiled := by
  unfold State.wordAhead at hs
  split at hs
  · cases hs; exact h.with _ _
  · split at hs
    · split at hs
      · cases hs; exact h.with _ _
      · cases hs
    · split at hs
      · cases hs; exact h.with _ _
      · split at hs
        · cases hs
        · cases hs; exact h.with _ _

theorem State.Spoiled.wordBehind (h : s.Spoiled) {name : List Char}
    (hs : s.wordBehind name = some s') : s'.Spoiled := by
  unfold State.wordBehind at hs
  split at hs
  · cases hs; exact h.with _ _
  · cases hs; exact h.with _ _
  · cases hs; exact h.with _ _
  · cases hs; exact h.with _ _
  · cases hs; exact h.with _ _
  · cases hs; exact h.of_frame rfl fun hframe => hframe.add [.other] _
  · split at hs
    · cases hs
    · cases hs; exact h.of_frame rfl fun hframe => hframe.add [.other] _
  · cases hs

theorem State.Spoiled.feedWord (h : s.Spoiled) {name : List Char} (hs : s.feedWord name = some s') :
    s'.Spoiled := by
  unfold State.feedWord at hs
  split at hs
  · exact h.wordAhead hs
  · exact h.wordAhead hs
  · exact h.wordBehind hs
  · split at hs
    · cases hs
    · cases hs
      exact h.of_frame rfl fun hframe => hframe.replaceLast fun _ _ _ => .other
  · split at hs
    · cases hs; exact h.of_frame rfl id
    · cases hs
  · cases hs

theorem State.Spoiled.feedText (h : s.Spoiled) {e : Expr} (hs : s.feedText e = some s') :
    s'.Spoiled := by
  unfold State.feedText at hs
  split at hs
  · cases hs; exact h.with _ _
  · cases hs; exact h.with _ _
  · next hpieces =>
    obtain ⟨e', he, rfl⟩ := Option.map_eq_some_iff.1 hs
    refine h.of_frame rfl fun hframe => hframe.replaceLast fun d hd hdead => ?_
    rw [hpieces] at hd
    cases hd
    exact hdead.joinTexts? he
  · cases hs

theorem State.Spoiled.lineEnd (h : s.Spoiled) (hs : s.lineEnd = some s') : s'.Spoiled := by
  unfold State.lineEnd at hs
  split at hs
  · split at hs
    · cases hs; exact h
    · split at hs
      · cases hs; exact h.of_frame rfl id
      · cases hs
  · obtain ⟨f, hf, rfl⟩ := Option.map_eq_some_iff.1 hs
    exact h.of_frame rfl fun hframe => hframe.finishItem? hf
  · cases hs; exact h
  · cases hs

theorem State.outer_lineEnd (hs : s.lineEnd = some s') : s'.outer = s.outer := by
  unfold State.lineEnd at hs
  split at hs
  · split at hs
    · cases hs; rfl
    · split at hs
      · cases hs; rfl
      · cases hs
  · obtain ⟨f, -, rfl⟩ := Option.map_eq_some_iff.1 hs
    rfl
  · cases hs; rfl
  · cases hs

/-- What has no value keeps having none. -/
theorem State.Spoiled.feed (h : s.Spoiled) {t : Token} (hs : s.feed t = some s') : s'.Spoiled := by
  unfold State.feed at hs
  split at hs
  · exact h.feedWord hs
  · split at hs
    · cases hs; exact h.with _ _
    · cases hs; exact h.with _ _
    · cases hs
  · exact h.feedText hs
  · exact h.feedText hs
  · exact h.feedSign hs
  · split at hs
    · exact h.lineEnd hs
    · cases hs; exact h
  · split at hs
    · cases hs
    · cases hs; exact h
  · cases hs

/-- What is read in the end has no value. -/
theorem State.Spoiled.finish (h : s.Spoiled) {e : Expr} (he : s.finish = some e) :
    e.value = .error .notLiteral := by
  unfold State.finish at he
  split at he
  · cases he
  · next houter =>
    obtain ⟨s', hs', he⟩ := Option.bind_eq_some_iff.1 he
    have hbottom : s'.bottom = s'.frame := by
      have hnil : s.outer = [] := by simpa using houter
      rw [State.bottom, State.outer_lineEnd hs', hnil]
      rfl
    have hspoiled : s'.frame.Spoiled := hbottom ▸ h.lineEnd hs'
    have hvalues : ∀ e items, Expr.value e = .error .notLiteral →
        (Expr.tuple (e :: items)).value = .error .notLiteral := by
      intro e items hvalue
      rw [Expr.value, Expr.values, hvalue]
      rfl
    rcases hspoiled.first with ⟨hitems, -⟩ | ⟨first, hfirst, hvalue⟩
    · rw [hitems] at he
      cases he
    · split at he
      · cases he
      · next hitems =>
        rw [hitems] at hfirst
        cases hfirst
        cases he
        split
        · exact hvalues _ _ hvalue
        · exact hvalue
      · cases he
        obtain ⟨front, hfront⟩ := List.getLast?_eq_some_iff.1 hfirst
        rw [hfront, List.reverse_concat]
        exact hvalues _ _ hvalue

/-! ## Texts -/

theorem State.Spoiled.run {ts : List Token} (h : s.Spoiled) (hs : ts.foldlM State.feed s = some s') :
    s'.Spoiled := by
  induction ts generalizing s with
  | nil => cases hs; exact h
  | cons t ts ih =>
    rw [List.foldlM_cons] at hs
    obtain ⟨next, hnext, hs⟩ := Option.bind_eq_some_iff.1 hs
    exact ih (h.feed hnext) hs

theorem constant?_eq_none {name : List Char}
    (h : name ∉ ["None".toList, "True".toList, "False".toList, "set".toList]) :
    constant? name = none := by
  have hne : ∀ text : String, String.ofList name = text → name = text.toList := by
    rintro text rfl
    simp
  unfold constant?
  split
  · next he => simp [hne _ he] at h
  · next he => simp [hne _ he] at h
  · next he => simp [hne _ he] at h
  · rfl

theorem spoiled_of_word {name : List Char}
    (h : name ∉ ["None".toList, "True".toList, "False".toList, "set".toList])
    (hs : State.start.feed (.word name) = some s) : s.Spoiled := by
  have hopen : ∀ p : Piece, p.Dead → ∀ phase, (State.start.with [p] phase).Spoiled := fun p hp phase =>
    ⟨rfl, .inl ⟨rfl, p, rfl, hp⟩⟩
  change State.start.wordAhead true name = some s at hs
  unfold State.wordAhead at hs
  rw [constant?_eq_none h] at hs
  dsimp only at hs
  split at hs
  · cases hs; exact hopen _ .other _
  · split at hs
    · cases hs; exact hopen _ .other _
    · split at hs
      · cases hs
      · cases hs
        refine hopen _ (.operand (.word ?_)) _
        rintro rfl
        simp at h

/-- A text that opens with a word, and the word is no literal and begins none. -/
structure Opening (word rest : List Char) : Prop where
  letter : ∃ c ∈ word.head?, c.isAlpha = true
  run : ∀ c ∈ word, continuesWord c = true
  ends : ∀ c ∈ rest.head?, continuesWord c = false ∧ isQuoteMark c = false
  unvalued : word ∉ ["None".toList, "True".toList, "False".toList, "set".toList]

theorem head?_unifyLineEnds {cs : List Char} {p : Char → Prop} (hcs : ∀ c ∈ cs.head?, p c) (hp : p '\n') :
    ∀ c ∈ (unifyLineEnds cs).head?, p c := by
  unfold unifyLineEnds
  split
  · simp
  · simpa using hp
  · split
    · simpa using hp
    · simpa using hcs

theorem Opening.unified {word rest : List Char} (h : Opening word rest) :
    Opening word (unifyLineEnds rest) where
  letter := h.letter
  run := h.run
  ends := head?_unifyLineEnds h.ends (by decide)
  unvalued := h.unvalued

theorem Opening.wordToken_eq {word rest : List Char} (h : Opening word rest) :
    wordToken (word ++ rest) = (if word.all isWord then .word word else .bad, word.length) := by
  have hname : (word ++ rest).takeWhile continuesWord = word :=
    takeWhile_span h.run fun c hc => (h.ends c hc).1
  have hquote : rest.head?.any isQuoteMark = false := by
    rw [Option.any_eq_false]
    exact fun c hc => by simp [(h.ends c hc).2]
  unfold wordToken
  simp only [hname, List.drop_left, hquote]
  rfl

theorem tokenAt_of_isAlpha {c : Char} (hc : c.isAlpha = true) (cs : List Char) :
    tokenAt (c :: cs) = wordToken (c :: cs) := by
  have hquote : isQuoteMark c = false := by
    simp [isQuoteMark, ne_of_isAlpha hc (d := '\'') rfl, ne_of_isAlpha hc (d := '"') rfl]
  simp [tokenAt, isDigit_of_isAlpha hc, ne_of_isAlpha hc (d := '.') rfl, hquote, startsWord, hc]

theorem tokensFrom_of_isAlpha {c : Char} (hc : c.isAlpha = true) (cs : List Char) :
    tokensFrom .start (c :: cs) = (wordToken (c :: cs)).1 ::
      tokensFrom ⟨(wordToken (c :: cs)).2 - 1, false, 0, false⟩ cs := by
  have hblank : isInnerBlank c = false := by
    simp [isInnerBlank, ne_of_isAlpha hc (d := ' ') rfl, ne_of_isAlpha hc (d := '\t') rfl,
      ne_of_isAlpha hc (d := '\x0c') rfl]
  simp [tokensFrom, Cursor.start, ne_of_isAlpha hc (d := '\n') rfl, hblank,
    ne_of_isAlpha hc (d := '#') rfl, ne_of_isAlpha hc (d := '\\') rfl, tokenAt_of_isAlpha hc]

theorem Opening.exists_tokens {word rest : List Char} (h : Opening word rest) :
    ∃ t ts, tokens (word ++ rest) = t :: ts ∧ (t = .bad ∨ t = .word word) := by
  unfold tokens
  split
  · exact ⟨.bad, [], rfl, .inl rfl⟩
  · have hreturn : '\r' ∉ word := fun hmem => absurd (h.run _ hmem) (by decide)
    have htoken := h.unified.wordToken_eq
    obtain ⟨c, hc, halpha⟩ := h.letter
    obtain ⟨tail, rfl⟩ := List.head?_eq_some_iff.1 hc
    rw [unifyLineEnds_append hreturn, List.cons_append, tokensFrom_of_isAlpha halpha,
      ← List.cons_append, htoken]
    refine ⟨_, _, rfl, ?_⟩
    split
    · exact .inr rfl
    · exact .inl rfl

/-- Such a text is no literal, however it goes on. -/
theorem Opening.parse?_eq {word rest : List Char} (h : Opening word rest) :
    parse? (word ++ rest) = .ok none := by
  have hread : ∀ e, read? (word ++ rest) = some e → e.value = .error .notLiteral := by
    intro e he
    have hdrop : (word ++ rest).dropWhile (fun c => c == ' ' || c == '\t') = word ++ rest := by
      obtain ⟨c, hc, halpha⟩ := h.letter
      obtain ⟨tail, rfl⟩ := List.head?_eq_some_iff.1 hc
      simp [ne_of_isAlpha halpha (d := ' ') rfl, ne_of_isAlpha halpha (d := '\t') rfl]
    obtain ⟨t, ts, htokens, ht⟩ := h.exists_tokens
    rw [read?, hdrop, htokens, List.foldlM_cons] at he
    obtain ⟨s, hs, hfinish⟩ := Option.bind_eq_some_iff.1 he
    obtain ⟨first, hfirst, hrun⟩ := Option.bind_eq_some_iff.1 hs
    rcases ht with rfl | rfl
    · cases hfirst
    · exact ((spoiled_of_word h.unvalued hfirst).run hrun).finish hfinish
  unfold parse?
  cases hexpr : read? (word ++ rest) with
  | none => rfl
  | some e => simp [hread e hexpr]

theorem tokenAt_backtick (cs : List Char) : tokenAt ('`' :: cs) = (.bad, 1) := by
  have hlong : longSigns.find? (·.isPrefixOf ('`' :: cs)) = none := by
    simp [longSigns]
  have hsign : signToken ('`' :: cs) = (.bad, 1) := by
    rw [signToken, hlong]
    rfl
  rw [tokenAt, ← hsign]
  rfl

/-- No literal begins with a backtick. -/
theorem parse?_backtick (cs : List Char) : parse? ('`' :: cs) = .ok none := by
  have htokens : ∃ ts, tokens ('`' :: cs) = .bad :: ts := by
    unfold tokens
    split
    · exact ⟨[], rfl⟩
    · rw [← List.singleton_append, unifyLineEnds_append (by decide), List.singleton_append]
      simp [tokensFrom, Cursor.start, isInnerBlank, tokenAt_backtick]
  obtain ⟨ts, hts⟩ := htokens
  have hdrop : ('`' :: cs).dropWhile (fun c => c == ' ' || c == '\t') = '`' :: cs := rfl
  have hread : read? ('`' :: cs) = none := by
    rw [read?, hdrop, hts]
    rfl
  rw [parse?, hread]
  rfl

end Codemod.Literal
