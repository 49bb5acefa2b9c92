import Codemod.Proofs.Source.TagAt

/-! Pieces that the reader passes over as it passes over a name: they open and close nothing, in code as in any
literal or comment, and they hold no quote and no line end. -/
namespace Codemod.Source
open Text

/-! ## Frames -/

/-- What can be open: only the innermost frame hides a character, and literals are in quotes. -/
structure Formed (frames : List Frame) : Prop where
  second : Frame.second ∉ frames.tail
  quotes : ∀ quote, .quoted quote ∈ frames → isQuote quote = true

theorem formed_nil : Formed [] := ⟨by simp, by simp⟩

theorem Formed.tail {frame : Frame} {outer : List Frame} (h : Formed (frame :: outer)) : Formed outer :=
  ⟨fun hm => h.second (List.mem_of_mem_tail hm), fun quote hm => h.quotes quote (by simp [hm])⟩

theorem Formed.cons {frame inner : Frame} {outer : List Frame} (h : Formed (frame :: outer))
    (hframe : frame ≠ .second) (hinner : ∀ quote, inner ≠ .quoted quote) : Formed (inner :: frame :: outer) where
  second := by
    rintro (_ | ⟨_, hm⟩)
    · exact hframe rfl
    · exact h.second hm
  quotes quote hm := by
    rcases List.mem_cons.1 hm with heq | hm
    · exact absurd heq.symm (hinner quote)
    · exact h.quotes quote hm

theorem Formed.inertFrames {outer : List Frame} (h : Formed outer) (houter : Frame.second ∉ outer) (c : Char)
    (rest : List Char) : Formed (inertFrames c rest ++ outer) := by
  unfold Source.inertFrames quoteFrames
  split
  · split
    · exact ⟨by simpa using houter, by simpa using h.quotes⟩
    · exact ⟨by simpa using houter, by simpa using h.quotes⟩
    · exact h
  · split
    · next hquote =>
      split
      · refine ⟨by simpa using houter, fun quote hm => ?_⟩
        rcases List.mem_cons.1 hm with heq | hm
        · cases heq
          exact hquote
        · exact h.quotes quote hm
      · exact h
    · split
      · exact ⟨by simpa using houter, by simpa using h.quotes⟩
      · exact h

theorem Formed.of_step {frames next : List Frame} {c : Char} {rest : List Char} (h : Formed frames)
    (hstep : step frames c rest = some next) : Formed next := by
  unfold step at hstep
  split at hstep
  · cases hstep
    simpa using formed_nil.inertFrames (by simp) c rest
  · cases hstep
    exact h.tail
  · cases hstep
    split_ifs
    · exact h.cons (by simp) (by simp)
    · exact h.tail
    · exact h
  · cases hstep
    split_ifs
    · exact h.cons (by simp) (by simp)
    · exact (h.cons (by simp) (by simp)).cons (by simp) (by simp)
    · exact h.tail
    · exact h
  · cases hstep
    split_ifs
    · exact h.tail
    · exact h
  · cases hstep
    split_ifs
    · exact ⟨h.second, fun quote hm => h.quotes quote (by simpa using hm)⟩
    · exact h
  · split at hstep
    · obtain ⟨-, rfl⟩ := (Option.ite_none_right_eq_some.1 hstep).imp_right Option.some_inj.1
      exact h.tail
    · split at hstep
      · cases hstep
        exact h.cons (by simp) (by simp)
      · cases hstep
        exact h.inertFrames (by simpa using h.second) c rest

/-- The frames behind a character that the innermost one may hide. -/
def unhide : List Frame → List Frame
  | .second :: outer => outer
  | frames => frames

theorem unhide_of_head? {frames : List Frame} (h : frames.head? ≠ some .second) : unhide frames = frames := by
  unfold unhide
  split
  · exact absurd rfl h
  · rfl

theorem Formed.unhide {frames : List Frame} (h : Formed frames) : Formed (unhide frames) := by
  unfold Source.unhide
  split
  · exact h.tail
  · exact h

/-! ## Mute pieces -/

/-- The piece is passed over as a name is, whatever is open and whether or not its first character is hidden:
it opens and closes nothing. -/
structure Mute (piece rest : List Char) : Prop where
  head : ∃ c ∈ piece.head?, isNameStart c = true
  calm : ∀ quote, isQuote quote = true → ∀ c ∈ piece, Calm quote c
  passes : ∀ {frames : List Frame} {rest' : List Char}, Formed frames → frames.head? ≠ some .second →
    (rest'.head? = some '{' → rest.head? = some '{') →
      Passes frames frames piece rest' ∧ Passes frames frames piece.tail rest'

theorem Mute.ne_nil {piece rest : List Char} (h : Mute piece rest) : piece ≠ [] := by
  rintro rfl
  obtain ⟨c, hc, -⟩ := h.head
  cases hc

theorem Mute.passes_unhide {piece rest rest' : List Char} (h : Mute piece rest) {frames : List Frame}
    (hframes : Formed frames) (hrest : rest'.head? = some '{' → rest.head? = some '{') :
    Passes frames (unhide frames) piece rest' := by
  by_cases hsecond : frames.head? = some .second
  · obtain ⟨outer, rfl⟩ := List.head?_eq_some_iff.1 hsecond
    obtain ⟨c, tail, rfl⟩ := List.exists_cons_of_ne_nil h.ne_nil
    have hfirst : Passes (.second :: outer) outer [c] (tail ++ rest') :=
      passes_char rfl (.inl (List.cons_ne_nil _ _))
    have houter : outer.head? ≠ some .second := fun hm => hframes.second (List.mem_of_mem_head? hm)
    exact hfirst.append (h.passes hframes.tail houter hrest).2
  · rw [unhide_of_head? hsecond]
    exact (h.passes hframes hsecond hrest).1

/-! ## What mute pieces are made of -/

/-- A character that stands in names, around them and between tags. -/
def isQuiet (c : Char) : Bool :=
  isAttributeChar c || (isBlank c && c != '\n') || c == '=' || c == '<' || c == '>'

theorem ne_of_isQuiet {c d : Char} (h : isQuiet c = true) (hd : isQuiet d = false) : c ≠ d := by
  rintro rfl
  rw [h] at hd
  cases hd

theorem inertFrames_of_isQuiet {c : Char} (h : isQuiet c = true) (rest : List Char) :
    inertFrames c rest = [] := by
  have hslash : c ≠ '/' := ne_of_isQuiet h (by decide)
  have hsingle : c ≠ '\'' := ne_of_isQuiet h (by decide)
  have hdouble : c ≠ '"' := ne_of_isQuiet h (by decide)
  have htick : c ≠ '`' := ne_of_isQuiet h (by decide)
  simp [inertFrames, quoteFrames, isQuote, hslash, hsingle, hdouble, htick]

theorem isBracket_of_isQuiet {c : Char} (h : isQuiet c = true) : isBracket c = false := by
  refine isBracket_eq_false fun hm => ?_
  have hloud : ∀ d ∈ ['(', ')', '[', ']', '{', '}'], isQuiet d = false :=
    List.all_iff_forall_prop.1 (by decide)
  exact ne_of_isQuiet h (hloud c hm) rfl

theorem calm_of_isQuiet {quote c : Char} (hquote : isQuote quote = true) (h : isQuiet c = true) :
    Calm quote c := by
  refine ⟨ne_of_isQuiet h ?_, ne_of_isQuiet h (by decide), ne_of_isQuiet h (by decide)⟩
  rcases eq_of_isQuote hquote with rfl | rfl <;> decide

/-- A character that no frame looks at leaves open what is open. -/
theorem step_self {frames : List Frame} (hframes : Formed frames) (hhead : frames.head? ≠ some .second)
    {c : Char} {rest : List Char} (hc : c ∉ ['\\', '`', '\n', '*']) (hquote : isQuote c = false)
    (hdollar : c = '$' → rest.head? ≠ some '{') (hcode : inertFrames c rest = [])
    (hbracket : isBracket c = false ∨ ∀ closer, frames.head? ≠ some (.bracket closer)) :
    step frames c rest = some frames := by
  simp only [List.mem_cons, List.not_mem_nil, or_false, not_or] at hc
  obtain ⟨hslash, htick, hfeed, hstar⟩ := hc
  unfold step
  split
  · rw [hcode]
  · exact absurd rfl hhead
  · next quote outer =>
    have hne : c ≠ quote := by
      rintro rfl
      rw [hframes.quotes c (by simp)] at hquote
      cases hquote
    simp [hslash, hne]
  · have hopens : (c = '$' && rest.head? == some '{') = false := by
      by_contra h
      simp only [Bool.not_eq_false, Bool.and_eq_true, decide_eq_true_eq, beq_iff_eq] at h
      exact hdollar h.1 h.2
    simp [hslash, htick, hopens]
  · simp [hfeed]
  · simp [hstar]
  · next closer outer =>
    obtain ⟨hopen, hclose⟩ : closer? c = none ∧ isCloser c = false := by
      simpa [isBracket] using hbracket.resolve_right fun h => h closer rfl
    simp [hopen, hclose, hcode]

theorem step_of_isQuiet {frames : List Frame} (hframes : Formed frames)
    (hhead : frames.head? ≠ some .second) {c : Char} {rest : List Char} (hc : isQuiet c = true)
    (hdollar : c = '$' → rest.head? ≠ some '{') : step frames c rest = some frames := by
  refine step_self hframes hhead (fun hm => ?_) ?_ hdollar (inertFrames_of_isQuiet hc rest)
    (.inl (isBracket_of_isQuiet hc))
  · have hloud : ∀ d ∈ ['\\', '`', '\n', '*'], isQuiet d = false :=
      List.all_iff_forall_prop.1 (by decide)
    exact ne_of_isQuiet hc (hloud c hm) rfl
  · by_contra hquote
    have hcalm := calm_of_isQuiet (by simpa using hquote) hc
    exact hcalm.1 rfl

/-- Quiet characters are passed over; a dollar sign in front of a brace would open a part of a template. -/
theorem passes_of_isQuiet {frames : List Frame} (hframes : Formed frames)
    (hhead : frames.head? ≠ some .second) {cs rest : List Char} (hcs : ∀ c ∈ cs, isQuiet c = true)
    (hlast : cs.getLast? = some '$' → rest.head? ≠ some '{') : Passes frames frames cs rest := by
  induction cs with
  | nil => exact passes_nil frames rest
  | cons c cs ih =>
    have hdollar : c = '$' → (cs ++ rest).head? ≠ some '{' := by
      rintro rfl
      cases cs with
      | nil => exact hlast rfl
      | cons d cs =>
        intro hd
        exact ne_of_isQuiet (hcs d (by simp)) (by decide) (Option.some_inj.1 hd)
    have hfirst : Passes frames frames [c] (cs ++ rest) :=
      passes_char (step_of_isQuiet hframes hhead (hcs c (by simp)) hdollar)
        (.inr (isBracket_of_isQuiet (hcs c (by simp))))
    refine hfirst.append (ih (fun d hd => hcs d (by simp [hd])) fun hd => hlast ?_)
    rw [List.getLast?_cons, hd]
    rfl

/-- A pair of braces is passed over with what it holds. -/
theorem passes_braces {inner rest : List Char} (hinner : ∀ {frames : List Frame}, Formed frames →
      frames.head? ≠ some .second → Passes frames frames inner ('}' :: rest))
    {frames : List Frame} (hframes : Formed frames) (hhead : frames.head? ≠ some .second) :
    Passes frames frames ('{' :: (inner ++ ['}'])) rest := by
  have hplain (hcode : frames ≠ []) (hbracket : ∀ closer, frames.head? ≠ some (.bracket closer)) :
      Passes frames frames ('{' :: (inner ++ ['}'])) rest := by
    have hbrace (c : Char) (hc : c = '{' ∨ c = '}') (cs : List Char) : Passes frames frames [c] cs := by
      refine passes_char ?_ (.inl hcode)
      rcases hc with rfl | rfl
      · exact step_self hframes hhead (by decide) (by decide) (by simp) rfl (.inr hbracket)
      · exact step_self hframes hhead (by decide) (by decide) (by simp) rfl (.inr hbracket)
    exact (hbrace '{' (.inl rfl) _).append ((hinner hframes hhead).append (hbrace '}' (.inr rfl) rest))
  match frames with
  | [] =>
    refine neutral_braced ?_
    have hextent := (hinner formed_nil (by simp)).extent ['}'] (by simp)
    rw [List.append_assoc, List.singleton_append, List.length_append]
    refine hextent.trans ?_
    have hclose : extent? ([] ++ bracketFrames ['}']) ('}' :: rest) = some 1 := rfl
    rw [hclose, Option.map_some, List.length_singleton, Nat.add_comm]
  | .bracket closer :: outer =>
    have hopens : Passes (.bracket closer :: outer) (.bracket '}' :: .bracket closer :: outer) ['{']
        (inner ++ ['}'] ++ rest) := passes_char rfl (.inl (List.cons_ne_nil _ _))
    have hends : Passes (.bracket '}' :: .bracket closer :: outer) (.bracket closer :: outer) ['}'] rest :=
      passes_char rfl (.inl (List.cons_ne_nil _ _))
    exact hopens.append ((hinner (hframes.cons (by simp) (by simp)) (by simp)).append hends)
  | .second :: outer => exact absurd rfl hhead
  | .quoted _ :: outer => exact hplain (by simp) (by simp)
  | .template :: outer => exact hplain (by simp) (by simp)
  | .lineComment :: outer => exact hplain (by simp) (by simp)
  | .blockComment :: outer => exact hplain (by simp) (by simp)

theorem isQuiet_of_isAttributeChar {c : Char} (h : isAttributeChar c = true) : isQuiet c = true := by
  simp [isQuiet, h]

theorem isQuiet_of_isBlank {c : Char} (h : isBlank c = true) (hfeed : c ≠ '\n') : isQuiet c = true := by
  simp [isQuiet, h, hfeed]

/-- A name is mute, unless it ends with a dollar sign in front of a brace. -/
theorem mute_of_name {name rest : List Char} (hhead : ∃ c ∈ name.head?, isNameStart c = true)
    (hname : ∀ c ∈ name, isAttributeChar c = true) (hrest : rest.head? ≠ some '{') : Mute name rest where
  head := hhead
  calm quote hquote c hc := calm_of_isAttributeChar hquote (hname c hc)
  passes hframes hfirst hnext := by
    have hquiet : ∀ c ∈ name, isQuiet c = true := fun c hc => isQuiet_of_isAttributeChar (hname c hc)
    exact ⟨passes_of_isQuiet hframes hfirst hquiet fun _ h => hrest (hnext h),
      passes_of_isQuiet hframes hfirst (fun c hc => hquiet c (List.mem_of_mem_tail hc)) fun _ h =>
        hrest (hnext h)⟩

/-- A label with a pair of braces behind it is mute when what it holds is passed over. -/
theorem mute_braced {label inner : List Char} (hhead : ∃ c ∈ label.head?, isNameStart c = true)
    (hlabel : ∀ c ∈ label, isQuiet c = true) (hlast : label.getLast? ≠ some '$')
    (hcalm : ∀ quote, isQuote quote = true → ∀ c ∈ inner, Calm quote c)
    (hinner : ∀ {frames : List Frame} {rest : List Char}, Formed frames → frames.head? ≠ some .second →
      Passes frames frames inner ('}' :: rest)) (rest : List Char) :
    Mute (label ++ '{' :: (inner ++ ['}'])) rest where
  head := by
    obtain ⟨c, hc, hstart⟩ := hhead
    obtain ⟨tail, rfl⟩ := List.head?_eq_some_iff.1 hc
    exact ⟨c, rfl, hstart⟩
  calm quote hquote c hc := by
    have hbrace : ∀ d ∈ ['{', '}'], Calm quote d := by
      rcases eq_of_isQuote hquote with rfl | rfl <;> simp [Calm]
    simp only [List.mem_append, List.mem_cons, List.not_mem_nil, or_false] at hc
    rcases hc with hc | rfl | hc | rfl
    · exact calm_of_isQuiet hquote (hlabel c hc)
    · exact hbrace _ (by simp)
    · exact hcalm quote hquote c hc
    · exact hbrace _ (by simp)
  passes {frames rest'} hframes hfirst _ := by
    obtain ⟨c, hc, -⟩ := hhead
    obtain ⟨tail, rfl⟩ := List.head?_eq_some_iff.1 hc
    have hbraces : Passes frames frames ('{' :: (inner ++ ['}'])) rest' :=
      passes_braces (fun h h' => hinner h h') hframes hfirst
    refine ⟨?_, ?_⟩
    · exact (passes_of_isQuiet hframes hfirst hlabel fun h => absurd h hlast).append hbraces
    · refine (passes_of_isQuiet hframes hfirst (fun d hd => hlabel d (by simp [hd])) fun h => ?_).append
        hbraces
      refine absurd ?_ hlast
      rw [List.getLast?_cons, h]
      rfl

end Codemod.Source
