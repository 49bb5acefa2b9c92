import Codemod.Proofs.Source.Item
import Codemod.Proofs.Source.LineStart

/-! Comments in a text whose blanks are run together. A comment with an end of its own stays what it is,
but a line comment loses the line feed that ended it and takes in all that follows. -/
namespace Codemod.Source
open Text

/-! ## Reading a text without literals -/

/-- A character that opens no literal. -/
def Unquoted (c : Char) : Prop := isQuote c = false ∧ c ≠ '`'

instance (c : Char) : Decidable (Unquoted c) := inferInstanceAs (Decidable (_ ∧ _))

/-- What can be open in a text without literals. -/
inductive Comments : List Frame → Prop
  | code : Comments []
  | line : Comments [.lineComment]
  | block : Comments [.blockComment]
  | entering : Comments [.second, .blockComment]
  | leaving : Comments [.second]

/-- The two texts begin alike, as far as a comment can depend on it. -/
def AlikeAhead (rest rest' : List Char) : Prop :=
  ∀ c, c = '/' ∨ c = '*' → (rest.head? = some c ↔ rest'.head? = some c)

/-- No comment begins or ends across the beginning of the text. -/
def Aloof (rest : List Char) : Prop := ∀ c ∈ rest.head?, c ≠ '/' ∧ c ≠ '*'

theorem AlikeAhead.of_aloof {rest rest' : List Char} (h : Aloof rest) (h' : Aloof rest') :
    AlikeAhead rest rest' := by
  have hno {cs : List Char} (h : Aloof cs) {c : Char} (hc : c = '/' ∨ c = '*') : cs.head? ≠ some c := by
    intro hhead
    obtain ⟨hslash, hstar⟩ := h c hhead
    exact hc.elim hslash hstar
  exact fun c hc => iff_of_false (hno h hc) (hno h' hc)

theorem alikeAhead_cons (c : Char) (rest rest' : List Char) : AlikeAhead (c :: rest) (c :: rest') :=
  fun _ _ => Iff.rfl

theorem AlikeAhead.append {rest rest' : List Char} (h : AlikeAhead rest rest') (cs : List Char) :
    AlikeAhead (cs ++ rest) (cs ++ rest') := by
  cases cs with
  | nil => exact h
  | cons c cs => exact alikeAhead_cons c _ _

theorem aloof_of_isBlank {c : Char} (h : isBlank c = true) (rest : List Char) : Aloof (c :: rest) := by
  rintro d hd
  obtain rfl : c = d := by simpa using hd
  constructor <;> (rintro rfl; revert h; decide)

theorem Aloof.blanks_append {rest : List Char} (h : Aloof rest) {gap : List Char}
    (hgap : ∀ c ∈ gap, isBlank c = true) : Aloof (gap ++ rest) := by
  cases gap with
  | nil => exact h
  | cons c gap => exact aloof_of_isBlank (hgap c (by simp)) _

theorem inertFrames_unquoted {c : Char} (h : Unquoted c) (rest : List Char) : inertFrames c rest =
    if c = '/' ∧ rest.head? = some '/' then [.lineComment]
    else if c = '/' ∧ rest.head? = some '*' then [.second, .blockComment] else [] := by
  have hquote : quoteFrames c rest = [] := by simp [quoteFrames, h.1, h.2]
  by_cases hc : c = '/'
  · subst hc
    unfold inertFrames
    cases rest with
    | nil => simp
    | cons d rest =>
      by_cases hslash : d = '/'
      · subst hslash
        rfl
      · by_cases hstar : d = '*'
        · subst hstar
          rfl
        · simp [hslash, hstar]
  · simp [inertFrames, hc, hquote]

/-- Whether something is open, told by the character in front and the next one. -/
theorem step_unquoted {frames : List Frame} (hframes : Comments frames) {c : Char} (hc : Unquoted c)
    {rest rest' : List Char} (h : AlikeAhead rest rest') :
    ∃ next, Comments next ∧ step frames c rest = some next ∧ step frames c rest' = some next := by
  have hslash := h '/' (.inl rfl)
  have hstar := h '*' (.inr rfl)
  cases hframes with
  | code =>
    refine ⟨inertFrames c rest, ?_, rfl, ?_⟩
    · rw [inertFrames_unquoted hc]
      split
      · exact .line
      · split
        · exact .entering
        · exact .code
    · rw [step, inertFrames_unquoted hc rest', inertFrames_unquoted hc rest]
      simp only [hslash, hstar]
  | line =>
    by_cases hfeed : c = '\n'
    · exact ⟨[], .code, by simp [step, hfeed], by simp [step, hfeed]⟩
    · exact ⟨[.lineComment], .line, by simp [step, hfeed], by simp [step, hfeed]⟩
  | block =>
    by_cases hends : c = '*' ∧ rest.head? = some '/'
    · refine ⟨[.second], .leaving, ?_, ?_⟩
      · simp [step, hends.1, hends.2]
      · simp [step, hends.1, hslash.1 hends.2]
    · have hends' : ¬ (c = '*' ∧ rest'.head? = some '/') := by rwa [← hslash]
      refine ⟨[.blockComment], .block, ?_, ?_⟩
      · rw [step, if_neg (by simpa using hends)]
      · rw [step, if_neg (by simpa using hends')]
  | entering => exact ⟨[.blockComment], .block, rfl, rfl⟩
  | leaving => exact ⟨[], .code, rfl, rfl⟩

/-- What is open behind a text without literals depends on the beginning of what follows. -/
theorem framesAfter_unquoted {cs : List Char} (hcs : ∀ c ∈ cs, Unquoted c) {frames : List Frame}
    (hframes : Comments frames) {rest rest' : List Char} (h : AlikeAhead rest rest') :
    ∃ next, Comments next ∧ framesAfter frames cs rest = some next ∧
      framesAfter frames cs rest' = some next := by
  induction cs generalizing frames with
  | nil => exact ⟨frames, hframes, rfl, rfl⟩
  | cons c cs ih =>
    obtain ⟨next, hnext, hstep, hstep'⟩ := step_unquoted hframes (hcs c (by simp)) (h.append cs)
    obtain ⟨last, hlast, hread, hread'⟩ := ih (fun d hd => hcs d (by simp [hd])) hnext
    refine ⟨last, hlast, ?_, ?_⟩
    · rw [framesAfter, hstep, Option.bind_some, hread]
    · rw [framesAfter, hstep', Option.bind_some, hread']

theorem framesAfter_eq_of_alike {cs : List Char} (hcs : ∀ c ∈ cs, Unquoted c) {rest rest' : List Char}
    (h : AlikeAhead rest rest') : framesAfter [] cs rest = framesAfter [] cs rest' := by
  obtain ⟨next, -, hread, hread'⟩ := framesAfter_unquoted hcs .code h
  rw [hread, hread']

theorem framesAfter_concat (frames : List Frame) (cs : List Char) (c : Char) (rest : List Char) :
    framesAfter frames (cs ++ [c]) rest =
      (framesAfter frames cs (c :: rest)).bind fun next => step next c rest := by
  rw [framesAfter_append]
  simp [framesAfter]

/-- Where the next character belongs to what has just been read, it is one of two. -/
theorem not_aloof_of_second {frames next : List Frame} (hframes : Comments frames) {c : Char}
    (hc : Unquoted c) {rest : List Char} (h : step frames c rest = some next)
    (hsecond : next.head? = some .second) : ¬ Aloof rest := by
  have hhead {d : Char} (hd : d = '/' ∨ d = '*') (hrest : rest.head? = some d) : ¬ Aloof rest := by
    intro hfar
    obtain ⟨hslash, hstar⟩ := hfar d hrest
    exact hd.elim hslash hstar
  cases hframes with
  | code =>
    rw [step, inertFrames_unquoted hc] at h
    split at h
    · cases h
      cases hsecond
    · split at h
      · next hstar => exact hhead (.inr rfl) hstar.2
      · cases h
        cases hsecond
  | line =>
    rw [step] at h
    split at h <;> (cases h; cases hsecond)
  | block =>
    rw [step] at h
    split at h
    · next hslash =>
      rw [Bool.and_eq_true, beq_iff_eq] at hslash
      exact hhead (.inl rfl) hslash.2
    · cases h
      cases hsecond
  | entering =>
    cases h
    cases hsecond
  | leaving =>
    cases h
    cases hsecond

/-- A line comment is opened in code, by two slashes. -/
theorem of_step_line {frames : List Frame} (hframes : Comments frames) (hne : frames ≠ [.lineComment])
    {c : Char} (hc : Unquoted c) {rest : List Char} (h : step frames c rest = some [.lineComment]) :
    frames = [] ∧ c = '/' ∧ rest.head? = some '/' := by
  cases hframes with
  | code =>
    rw [step, inertFrames_unquoted hc] at h
    split at h
    · next hslash => exact ⟨rfl, hslash⟩
    · split at h <;> cases h
  | line => exact absurd rfl hne
  | block =>
    rw [step] at h
    split at h <;> cases h
  | entering => cases h
  | leaving => cases h

theorem unquoted_of_isBlank {c : Char} (h : isBlank c = true) : Unquoted c := by
  refine forall_isBlank (p := Unquoted) ?_ h
  unfold Unquoted
  decide +kernel

/-- A blank opens nothing and ends at most a line comment. -/
theorem step_blank {frames : List Frame} (hframes : frames = [] ∨ frames = [.blockComment]) {c : Char}
    (hc : isBlank c = true) (rest : List Char) : step frames c rest = some frames := by
  have hne : c ≠ '/' ∧ c ≠ '*' := aloof_of_isBlank hc [] c rfl
  rcases hframes with rfl | rfl
  · rw [step, inertFrames_unquoted (unquoted_of_isBlank hc)]
    simp [hne.1]
  · simp [step, hne.2]

/-! ## Running blanks together -/

/-- One more character; a blank is written as a space, but not behind another one. -/
def collapse (done : List Char) (c : Char) : List Char :=
  if !isBlank c then done ++ [c]
  else if done.isEmpty || done.getLast? == some ' ' then done else done ++ [' ']

/-- The text with each run of blanks as one space, and none at its beginning. -/
def collapsed (cs : List Char) : List Char := cs.foldl collapse []

theorem collapse_char (done : List Char) {c : Char} (hc : isBlank c = false) :
    collapse done c = done ++ [c] := by simp [collapse, hc]

theorem collapse_blank (done : List Char) {c : Char} (hc : isBlank c = true) :
    (collapse done c = done ∧ (done = [] ∨ done.getLast? = some ' ')) ∨
      collapse done c = done ++ [' '] := by
  unfold collapse
  simp only [hc, Bool.not_true, Bool.false_eq_true, if_false]
  split
  · next h => exact .inl ⟨rfl, by simpa using h⟩
  · exact .inr rfl

theorem collapsed_concat (cs : List Char) {c : Char} (hc : isBlank c = false) :
    collapsed (cs ++ [c]) = collapsed cs ++ [c] := by
  rw [collapsed, List.foldl_concat, ← collapsed, collapse_char _ hc]

theorem collapsed_concat_blank (cs : List Char) {c : Char} (hc : isBlank c = true) :
    (collapsed (cs ++ [c]) = collapsed cs ∧ (collapsed cs = [] ∨ (collapsed cs).getLast? = some ' ')) ∨
      collapsed (cs ++ [c]) = collapsed cs ++ [' '] := by
  rw [collapsed, List.foldl_concat, ← collapsed]
  exact collapse_blank _ hc

/-- What is written of a text stays when the text goes on. -/
theorem collapsed_isPrefix (cs ds : List Char) : collapsed cs <+: collapsed (cs ++ ds) := by
  induction ds using List.reverseRecOn with
  | nil => simp
  | append_singleton ds d ih =>
    rw [← List.append_assoc]
    by_cases hd : isBlank d = true
    · rcases collapsed_concat_blank (cs ++ ds) hd with ⟨heq, -⟩ | heq
      · rwa [heq]
      · rw [heq]
        exact ih.trans (List.prefix_append _ _)
    · rw [collapsed_concat _ (by simpa using hd)]
      exact ih.trans (List.prefix_append _ _)

/-- A character that is no blank is written, and what is written behind it begins as its text goes on. -/
theorem exists_collapsed_cons (u : List Char) {c : Char} (hc : isBlank c = false) (v : List Char) :
    ∃ z, collapsed (u ++ c :: v) = collapsed u ++ c :: z ∧
      ∀ rest rest', AlikeAhead rest rest' → AlikeAhead (v ++ rest) (z ++ rest') := by
  have hwritten := collapsed_concat u hc
  cases v with
  | nil => exact ⟨[], hwritten, fun _ _ h => h⟩
  | cons e v =>
    obtain ⟨z, hz⟩ := collapsed_isPrefix (u ++ [c] ++ [e]) v
    have hsplit : u ++ c :: e :: v = u ++ [c] ++ [e] ++ v := by simp
    by_cases he : isBlank e = true
    · have hspace : collapsed (u ++ [c] ++ [e]) = collapsed u ++ [c] ++ [' '] := by
        rcases collapsed_concat_blank (u ++ [c]) he with ⟨-, hend⟩ | heq
        · rw [hwritten] at hend
          obtain rfl : c = ' ' := by simpa using hend
          exact absurd hc (by decide)
        · rw [heq, hwritten]
      refine ⟨' ' :: z, ?_, fun rest rest' _ => ?_⟩
      · rw [hsplit, ← hz, hspace]
        simp
      · exact .of_aloof (aloof_of_isBlank he _) (aloof_of_isBlank isBlank_space _)
    · refine ⟨e :: z, ?_, fun rest rest' _ => alikeAhead_cons e _ _⟩
      rw [hsplit, ← hz, collapsed_concat _ (by simpa using he), hwritten]
      simp

theorem mem_of_mem_collapsed {cs : List Char} {c : Char} (h : c ∈ collapsed cs) : c = ' ' ∨ c ∈ cs := by
  induction cs using List.reverseRecOn with
  | nil => cases h
  | append_singleton cs d ih =>
    by_cases hd : isBlank d = true
    · rcases collapsed_concat_blank cs hd with ⟨heq, -⟩ | heq
      · rw [heq] at h
        exact (ih h).imp_right fun hm => by simp [hm]
      · rw [heq, List.mem_append, List.mem_singleton] at h
        rcases h with h | h
        · exact (ih h).imp_right fun hm => by simp [hm]
        · exact .inl h
    · rw [collapsed_concat _ (by simpa using hd), List.mem_append, List.mem_singleton] at h
      rcases h with h | rfl
      · exact (ih h).imp_right fun hm => by simp [hm]
      · exact .inr (by simp)

theorem spaced_cons_cons (c : Char) (w : List Char) (ws : List (List Char)) :
    spaced ((c :: w) :: ws) = c :: spaced (w :: ws) := joinWith_cons_cons [' '] w c ws

/-- Behind a word and behind a space, the words that follow are written with one space in front. -/
theorem foldl_collapse (cs : List Char) :
    (∀ done c, isBlank c = false → ∃ gap, (gap = [] ∨ gap = [' ']) ∧
      cs.foldl collapse (done ++ [c]) =
        done ++ (spaced ((c :: (openWord cs).1) :: (openWord cs).2) ++ gap)) ∧
    ∀ done, done = [] ∨ done.getLast? = some ' ' → ∃ gap, (gap = [] ∨ gap = [' ']) ∧
      (words cs = [] → gap = []) ∧ cs.foldl collapse done = done ++ (spaced (words cs) ++ gap) := by
  induction cs with
  | nil => exact ⟨fun done c _ => ⟨[], .inl rfl, by simp [openWord]⟩,
      fun done _ => ⟨[], .inl rfl, fun _ => rfl, by simp [spaced, joinWith]⟩⟩
  | cons d cs ih =>
    obtain ⟨ihWord, ihSpace⟩ := ih
    by_cases hd : isBlank d = true
    · refine ⟨fun done c hc => ?_, fun done hdone => ?_⟩
      · have hadd : collapse (done ++ [c]) d = (done ++ [c]) ++ [' '] := by
          rcases collapse_blank (done ++ [c]) hd with ⟨-, hend⟩ | heq
          · obtain rfl : c = ' ' := by simpa using hend
            exact absurd hc (by decide)
          · exact heq
        obtain ⟨gap, hgap, hnil, heq⟩ := ihSpace (done ++ [c] ++ [' ']) (.inr List.getLast?_concat)
        rw [List.foldl_cons, hadd, heq, openWord_blank hd]
        by_cases hwords : words cs = []
        · rw [hnil hwords, hwords]
          exact ⟨[' '], .inr rfl, by simp [spaced, joinWith]⟩
        · rw [spaced_cons [c] hwords]
          exact ⟨gap, hgap, by simp⟩
      · have hstay : collapse done d = done := by
          simp only [collapse, hd, Bool.not_true, Bool.false_eq_true, if_false]
          exact if_pos (by simpa using hdone)
        rw [List.foldl_cons, hstay, words_blank hd]
        exact ihSpace done hdone
    · have hd' : isBlank d = false := by simpa using hd
      have hopen : openWord (d :: cs) = (d :: (openWord cs).1, (openWord cs).2) :=
        openWord_append (List.forall_mem_singleton.2 hd') cs
      refine ⟨fun done c hc => ?_, fun done _ => ?_⟩
      · obtain ⟨gap, hgap, heq⟩ := ihWord (done ++ [c]) d hd'
        refine ⟨gap, hgap, ?_⟩
        rw [List.foldl_cons, collapse_char _ hd', heq, hopen, spaced_cons_cons c]
        simp
      · obtain ⟨gap, hgap, heq⟩ := ihWord done d hd'
        have hwords : words (d :: cs) = (d :: (openWord cs).1) :: (openWord cs).2 := by
          rw [words_eq, hopen]
          rfl
        refine ⟨gap, hgap, fun hnil => ?_, ?_⟩
        · rw [hwords] at hnil
          cases hnil
        · rw [List.foldl_cons, collapse_char _ hd', heq, hwords]

/-- The text with its blanks run together is its words, up to a space at the end. -/
theorem collapsed_eq (cs : List Char) :
    ∃ gap, (gap = [] ∨ gap = [' ']) ∧ collapsed cs = spaced (words cs) ++ gap := by
  obtain ⟨gap, hgap, -, heq⟩ := (foldl_collapse cs).2 [] (.inl rfl)
  exact ⟨gap, hgap, heq⟩

theorem unquoted_collapsed {cs : List Char} (h : ∀ c ∈ cs, Unquoted c) {c : Char}
    (hc : c ∈ collapsed cs) : Unquoted c := by
  rcases mem_of_mem_collapsed hc with rfl | hc
  · exact unquoted_of_isBlank isBlank_space
  · exact h c hc

/-! ## Line comments that lose their end -/

/-- A line comment begins in the text, read from code on. -/
def OpensLine (cs : List Char) : Prop :=
  ∃ front rest, cs = front ++ '/' :: '/' :: rest ∧ framesAfter [] front ('/' :: '/' :: rest) = some []

theorem OpensLine.append {cs : List Char} (h : OpensLine cs) (hcs : ∀ c ∈ cs, Unquoted c) (ds : List Char) :
    OpensLine (cs ++ ds) := by
  obtain ⟨front, rest, rfl, hfront⟩ := h
  refine ⟨front, rest ++ ds, by simp, ?_⟩
  rw [← hfront]
  exact framesAfter_eq_of_alike (fun c hc => hcs c (by simp [hc])) (alikeAhead_cons _ _ _)

/-- A line comment that begins with the last character has had its first one in front of that. -/
theorem opensLine_concat {cs : List Char} {c : Char} (h : OpensLine (cs ++ [c])) (hcs : ∀ d ∈ cs, Unquoted d) :
    OpensLine cs ∨ c = '/' ∧ ∀ rest, framesAfter [] cs ('/' :: rest) = some [.lineComment] := by
  obtain ⟨front, rest, heq, hfront⟩ := h
  rcases List.eq_nil_or_concat rest with rfl | ⟨init, d, rfl⟩
  · have hsplit : cs ++ [c] = (front ++ ['/']) ++ ['/'] := by simpa using heq
    obtain ⟨rfl, hc⟩ := List.append_inj' hsplit rfl
    refine .inr ⟨by simpa using hc, fun rest => ?_⟩
    have hread : framesAfter [] front ('/' :: '/' :: rest) = some [] := by
      rw [← hfront]
      exact framesAfter_eq_of_alike (fun d hd => hcs d (by simp [hd])) (alikeAhead_cons _ _ _)
    rw [framesAfter_append]
    simp only [List.cons_append, List.nil_append]
    rw [hread]
    rfl
  · have hsplit : cs ++ [c] = (front ++ '/' :: '/' :: init) ++ [d] := by simpa using heq
    obtain ⟨rfl, -⟩ := List.append_inj' hsplit rfl
    refine .inl ⟨front, init, rfl, ?_⟩
    rw [← hfront]
    exact framesAfter_eq_of_alike (fun e he => hcs e (by simp [he])) (alikeAhead_cons _ _ _)

/-- What is open behind a text, and behind the same text with its blanks run together. -/
structure Kept (cs rest : List Char) (frames frames' : List Frame) : Prop where
  comments : Comments frames
  swallowed : OpensLine cs → frames' = [.lineComment]
  same : ¬ OpensLine cs → frames' = frames
  /-- A line comment that does not begin in the text begins with its last character. -/
  begins : ¬ OpensLine cs → frames = [.lineComment] → rest.head? = some '/' ∧
    ∃ front, cs = front ++ ['/'] ∧ framesAfter [] front ('/' :: rest) = some []
  second : frames.head? = some .second → ¬ Aloof rest

/-- In front of a blank nothing is open by half. -/
theorem Kept.settled {cs : List Char} {c : Char} {rest : List Char} {frames frames' : List Frame}
    (h : Kept cs (c :: rest) frames frames') (hc : isBlank c = true) (hline : ¬ OpensLine cs) :
    frames = [] ∨ frames = [.blockComment] := by
  have hsecond : frames.head? ≠ some .second := fun hm => h.second hm (aloof_of_isBlank hc rest)
  cases h.comments with
  | code => exact .inl rfl
  | line =>
    obtain rfl : c = '/' := by simpa using (h.begins hline rfl).1
    revert hc
    decide
  | block => exact .inr rfl
  | entering => exact absurd rfl hsecond
  | leaving => exact absurd rfl hsecond

section

variable {cs : List Char} {d : Char} {rest rest' : List Char} {frames frames' next : List Frame}

/-- A blank is read as a space in its place. -/
theorem Kept.step_space (h : Kept cs (d :: rest) frames frames') (hd : isBlank d = true) :
    step frames' ' ' rest' = some frames' := by
  by_cases hline : OpensLine cs
  · rw [h.swallowed hline]
    rfl
  · rw [h.same hline]
    exact step_blank (h.settled hd hline) isBlank_space rest'

variable (hcs : ∀ c ∈ cs, Unquoted c)
include hcs

theorem Kept.blank (h : Kept cs (d :: rest) frames frames') (hd : isBlank d = true)
    (hstep : step frames d rest = some next) : Kept (cs ++ [d]) rest next frames' := by
  have hd' := unquoted_of_isBlank hd
  have hstay (hline : ¬ OpensLine (cs ++ [d])) : next = frames ∧ ¬ OpensLine cs := by
    have hline' : ¬ OpensLine cs := fun hm => hline (hm.append hcs [d])
    rw [step_blank (h.settled hd hline') hd] at hstep
    exact ⟨(Option.some.inj hstep).symm, hline'⟩
  obtain ⟨next', hnext, heq, -⟩ := step_unquoted h.comments hd' (fun c _ => Iff.rfl : AlikeAhead rest rest)
  obtain rfl : next' = next := Option.some.inj (heq.symm.trans hstep)
  refine ⟨hnext, fun hline => ?_, fun hline => ?_, fun hline hcomment => ?_,
    not_aloof_of_second h.comments hd' hstep⟩
  · rcases opensLine_concat hline hcs with hline | ⟨rfl, -⟩
    · exact h.swallowed hline
    · exact absurd hd (by decide)
  · rw [h.same (hstay hline).2, (hstay hline).1]
  · have hsettled := h.settled hd (hstay hline).2
    rw [← (hstay hline).1, hcomment] at hsettled
    simp at hsettled

/-- A character that is no blank is read alike in both texts, except in a line comment. -/
theorem Kept.char (h : Kept cs (d :: rest) frames frames') (hd : Unquoted d) (hfeed : d ≠ '\n')
    (hread : framesAfter [] cs (d :: rest) = some frames) (halike : AlikeAhead rest rest') :
    ∃ next next', step frames d rest = some next ∧ step frames' d rest' = some next' ∧
      Kept (cs ++ [d]) rest next next' := by
  obtain ⟨next, hnext, hstep, hstep'⟩ := step_unquoted h.comments hd halike
  have hsecond := not_aloof_of_second h.comments hd hstep
  by_cases hline : OpensLine cs
  · have hall := hline.append hcs [d]
    refine ⟨next, [.lineComment], hstep, ?_, hnext, fun _ => rfl, fun hno => absurd hall hno,
      fun hno => absurd hall hno, hsecond⟩
    rw [h.swallowed hline]
    simp [step, hfeed]
  rw [← h.same hline] at hstep'
  refine ⟨next, next, hstep, hstep', ?_⟩
  by_cases hbegins : frames = [.lineComment]
  · -- the second slash
    obtain ⟨hhead, front, rfl, hfront⟩ := h.begins hline hbegins
    obtain rfl : d = '/' := by simpa using hhead
    have hall : OpensLine (front ++ ['/'] ++ ['/']) := by
      refine ⟨front, [], by simp, ?_⟩
      rw [← hfront]
      exact framesAfter_eq_of_alike (fun c hc => hcs c (by simp [hc])) (alikeAhead_cons _ _ _)
    have hnextLine : next = [.lineComment] := by
      rw [hbegins] at hstep
      simpa [step] using hstep.symm
    exact ⟨hnext, fun _ => hnextLine, fun _ => rfl, fun hno => absurd hall hno, hsecond⟩
  · have hno : ¬ OpensLine (cs ++ [d]) := by
      intro hm
      rcases opensLine_concat hm hcs with hm | ⟨rfl, hopened⟩
      · exact hline hm
      · rw [hopened rest] at hread
        exact hbegins (Option.some.inj hread).symm
    refine ⟨hnext, fun hm => absurd hm hno, fun _ => rfl, fun _ heq => ?_, hsecond⟩
    obtain ⟨rfl, rfl, hhead⟩ := of_step_line h.comments hbegins hd (heq ▸ hstep)
    exact ⟨hhead, cs, rfl, hread⟩

/-- What follows a space makes no difference to what is open behind it. -/
theorem framesAfter_space (hend : cs = [] ∨ cs.getLast? = some ' ') (rest rest' : List Char) :
    framesAfter [] cs rest = framesAfter [] cs rest' := by
  rcases hend with rfl | hend
  · rfl
  · obtain ⟨front, rfl⟩ := List.getLast?_eq_some_iff.1 hend
    have hfront : ∀ c ∈ front, Unquoted c := fun c hc => hcs c (by simp [hc])
    obtain ⟨next, hnext, hread, hread'⟩ := framesAfter_unquoted hfront .code (alikeAhead_cons ' ' rest rest')
    rw [framesAfter_concat, framesAfter_concat, hread, hread', Option.bind_some, Option.bind_some]
    cases hnext <;> rfl

omit hcs

/-- Running the blanks together keeps what is open, up to the first line comment. -/
theorem exists_kept (hcs : ∀ c ∈ cs, Unquoted c) (h : AlikeAhead rest rest') : ∃ frames frames',
    framesAfter [] cs rest = some frames ∧ framesAfter [] (collapsed cs) rest' = some frames' ∧
      Kept cs rest frames frames' := by
  induction cs using List.reverseRecOn generalizing rest rest' with
  | nil =>
    refine ⟨[], [], rfl, rfl, .code, ?_, fun _ => rfl, fun _ => nofun, nofun⟩
    rintro ⟨front, rest, heq, -⟩
    simp at heq
  | append_singleton cs d ih =>
    have hcs' : ∀ c ∈ cs, Unquoted c := fun c hc => hcs c (by simp [hc])
    have hd' : Unquoted d := hcs d (by simp)
    by_cases hd : isBlank d = true
    · have hblank : AlikeAhead (d :: rest) (' ' :: rest') :=
        .of_aloof (aloof_of_isBlank hd _) (aloof_of_isBlank isBlank_space _)
      obtain ⟨frames, frames', hread, hread', hkept⟩ := ih hcs' hblank
      obtain ⟨next, -, hstep, -⟩ := step_unquoted hkept.comments hd' h
      refine ⟨next, frames', by rw [framesAfter_concat, hread, Option.bind_some, hstep], ?_,
        hkept.blank hcs' hd hstep⟩
      rcases collapsed_concat_blank cs hd with ⟨heq, hend⟩ | heq
      · rw [heq, ← hread']
        exact framesAfter_space (fun c hc => unquoted_collapsed hcs' hc) hend _ _
      · rw [heq, framesAfter_concat, hread', Option.bind_some, hkept.step_space hd]
    · obtain ⟨frames, frames', hread, hread', hkept⟩ := ih hcs' (alikeAhead_cons d rest rest')
      have hfeed : d ≠ '\n' := by
        rintro rfl
        exact hd (by decide)
      obtain ⟨next, next', hstep, hstep', hnext⟩ := hkept.char hcs' hd' hfeed hread h
      refine ⟨next, next', by rw [framesAfter_concat, hread, Option.bind_some, hstep], ?_, hnext⟩
      rw [collapsed_concat cs (by simpa using hd), framesAfter_concat, hread', Option.bind_some, hstep']

end

end Codemod.Source
