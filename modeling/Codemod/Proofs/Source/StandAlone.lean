import Codemod.Proofs.Source.Arguments
import Codemod.Proofs.Source.LiveCalls

/-! Arguments that are taken out of their list. One that ends in code is read alike wherever it is put; one that ends
in a line comment has lost the line feed behind it, and takes in what follows on its line. -/
namespace Codemod.Source
open Text

/-! ## A list in front of other texts -/

variable {rest rest' : List Char} {frames frames' mid : List Frame} {brackets brackets' stack : List Char}
  {readings readings' before after : List Reading} {r : Reading} {c : Char}

theorem Reads.append (h : Reads (readings'.map Reading.char ++ rest) frames brackets readings mid stack)
    (h' : Reads rest mid stack readings' frames' brackets') :
    Reads rest frames brackets (readings ++ readings') frames' brackets' := by
  induction h with
  | done => exact h'
  | next hstep hpairs _ ih =>
    refine .next ?_ hpairs (ih h')
    rwa [List.append_eq, List.map_append, List.append_assoc]

/-- Each quote that stands in code closes on its line. -/
def QuotesClose (rest : List Char) (readings : List Reading) : Prop :=
  ∀ before r after, readings = before ++ r :: after → isQuote r.char = true → inCode r.frames = true →
    closesOnLine r.char (after.map Reading.char ++ rest) = true

theorem QuotesClose.left (h : QuotesClose rest (readings ++ readings')) :
    QuotesClose (readings'.map Reading.char ++ rest) readings := by
  rintro before r after rfl hquote hcode
  have hcloses := h before r (after ++ readings') (by simp) hquote hcode
  rwa [List.map_append, List.append_assoc] at hcloses

theorem QuotesClose.right (h : QuotesClose rest (readings ++ readings')) : QuotesClose rest readings' := by
  rintro before r after rfl hquote hcode
  exact h (readings ++ before) r after (by simp) hquote hcode

theorem QuotesClose.tail (h : QuotesClose rest (r :: readings)) : QuotesClose rest readings :=
  QuotesClose.right (show QuotesClose rest ([r] ++ readings) from h)

theorem Detached.blanks_append (h : Detached rest) {gap : List Char} (hgap : ∀ c ∈ gap, isBlank c = true) :
    Detached (gap ++ rest) where
  aloof := h.aloof.blanks_append hgap
  head := by
    cases gap with
    | nil => exact h.head
    | cons c gap =>
      rintro ⟨⟩
      exact absurd (hgap '{' (by simp)) (by decide)

/-- A list that ends in code or in a comment is read alike in front of all detached texts. -/
theorem Reads.transfer (h : Reads rest frames brackets readings frames' brackets') (hends : EndsPlain frames')
    (halone : CommentsAlone frames) (hquotes : QuotesClose rest readings) (hne : rest ≠ []) (hrest : Detached rest)
    (hrest' : Detached rest') : Reads rest' frames brackets readings frames' brackets' := by
  induction h with
  | done => exact .done
  | @next _ _ _ _ _ _ c readings hstep hpairs hlater ih =>
    have hstep' := step_of_detached hstep hlater.framesAfter_eq hends halone hne hrest hrest' fun hquote hcode _ =>
      hquotes [] _ readings rfl hquote hcode
    exact .next hstep' hpairs (ih hends (halone.of_step hstep) hquotes.tail)

theorem Reads.formed (h : Reads rest frames brackets readings frames' brackets') (hframes : Formed frames) :
    Formed frames' := by
  induction h with
  | done => exact hframes
  | next hstep _ _ ih => exact ih (hframes.of_step hstep)

theorem Reads.commentsAlone (h : Reads rest frames brackets readings frames' brackets')
    (hframes : CommentsAlone frames) : CommentsAlone frames' := by
  induction h with
  | done => exact hframes
  | next hstep _ _ ih => exact ih (hframes.of_step hstep)

/-! ## Blanks around an argument -/

theorem ne_of_isBlank (h : isBlank c = true) {d : Char} (hd : isBlank d = false) : c ≠ d := by
  rintro rfl
  rw [h] at hd
  cases hd

theorem isBracket_of_isBlank (h : isBlank c = true) : isBracket c = false := by
  by_cases hfeed : c = '\n'
  · rw [hfeed]
    decide
  · exact isBracket_of_isQuiet (isQuiet_of_isBlank h hfeed)

/-- Blanks are brackets nowhere. -/
theorem Reads.blanks_brackets (h : Reads rest frames brackets readings frames' brackets')
    (hblank : ∀ r ∈ readings, isBlank r.char = true) : brackets' = brackets := by
  induction h with
  | done => rfl
  | @next frames _ _ brackets _ _ c _ _ hpairs _ ih =>
    have hc : isBlank c = true := hblank ⟨frames, brackets, c⟩ (by simp)
    rw [liveBracket?_of_not_isBracket (isBracket_of_isBlank hc)] at hpairs
    rw [ih fun r hr => hblank r (by simp [hr])]
    exact (Option.some_inj.1 hpairs).symm

/-- Blanks in code end in code. -/
theorem Reads.blanks_code (h : Reads rest frames brackets readings frames' brackets') (hframes : frames = [])
    (hblank : ∀ r ∈ readings, isBlank r.char = true) : frames' = [] := by
  induction h with
  | done => exact hframes
  | @next _ _ _ brackets _ _ c _ hstep _ _ ih =>
    subst hframes
    have hc : isBlank c = true := hblank ⟨[], brackets, c⟩ (by simp)
    rw [step, inertFrames_of_isBlank hc] at hstep
    exact ih (Option.some_inj.1 hstep).symm fun r hr => hblank r (by simp [hr])

/-- Only a line comment is left by a blank. -/
theorem eq_of_step_blank (hblank : isBlank c = true) (hformed : Formed frames) (halone : CommentsAlone frames)
    (hsecond : frames ≠ [.second]) (hstep : step frames c rest = some frames')
    (hnext : frames' = [] ∨ frames' = [.lineComment]) : frames = [] ∨ frames = [.lineComment] := by
  -- elsewhere the frames stay, and there are others
  have hstay {frame : Frame} {outer : List Frame} (hframe : frame ≠ .lineComment)
      (h : step (frame :: outer) c rest = some (frame :: outer))
      (hstep : step (frame :: outer) c rest = some frames') : False := by
    obtain rfl := Option.some_inj.1 (h.symm.trans hstep)
    simp_all
  have hslash : c ≠ '\\' := ne_of_isBlank hblank (by decide)
  match frames with
  | [] => exact .inl rfl
  | .second :: outer =>
    obtain rfl := Option.some_inj.1 hstep
    rcases hnext with rfl | rfl
    · exact absurd rfl hsecond
    · cases halone rfl
  | .quoted quote :: outer =>
    have hquote : c ≠ quote := ne_of_isBlank hblank (by
      have := hformed.quotes quote (by simp)
      unfold isQuote at this
      simp only [Bool.or_eq_true, beq_iff_eq] at this
      rcases this with rfl | rfl <;> decide)
    exact (hstay (by simp) (by simp [step, hslash, hquote]) hstep).elim
  | .template :: outer =>
    have hdollar : c ≠ '$' := ne_of_isBlank hblank (by decide)
    have htick : c ≠ '`' := ne_of_isBlank hblank (by decide)
    exact (hstay (by simp) (by simp [step, hslash, hdollar, htick]) hstep).elim
  | .lineComment :: outer =>
    simp only [step, Option.some_inj] at hstep
    split_ifs at hstep
    · subst hstep
      rcases hnext with rfl | rfl
      · exact .inr rfl
      · cases halone rfl
    · subst hstep
      exact hnext
  | .blockComment :: outer =>
    have hstar : c ≠ '*' := ne_of_isBlank hblank (by decide)
    exact (hstay (by simp) (by simp [step, hstar]) hstep).elim
  | .bracket closer :: outer =>
    obtain ⟨hopen, hcloser⟩ : closer? c = none ∧ isCloser c = false := by
      simpa [isBracket] using isBracket_of_isBlank hblank
    exact (hstay (by simp) (by simp [step, hopen, hcloser, inertFrames_of_isBlank hblank]) hstep).elim

/-- Where a list is read to, no comment is about to end when something else follows. -/
theorem Reads.ne_second (h : Reads rest frames brackets readings frames' brackets') (hformed : Formed frames)
    (hne : frames = [.second] → readings ≠ []) (hrest : Aloof rest) : frames' ≠ [.second] := by
  induction h with
  | done => exact fun h => hne h rfl
  | @next _ _ _ _ _ _ _ readings hstep _ _ ih =>
    refine ih (hformed.of_step hstep) ?_
    rintro rfl rfl
    exact (hrest '/' (head?_of_step_second hformed hstep)).1 rfl

/-- What ends in code behind blanks ends in code or in a line comment in front of them. -/
theorem Reads.eq_of_blanks (h : Reads rest frames brackets readings frames' brackets') (hends : frames' = [])
    (hformed : Formed frames) (halone : CommentsAlone frames) (hsecond : frames ≠ [.second]) (hrest : Aloof rest)
    (hblank : ∀ r ∈ readings, isBlank r.char = true) : frames = [] ∨ frames = [.lineComment] := by
  induction h with
  | done => exact .inl hends
  | @next frames frames' _ brackets _ _ c readings hstep _ _ ih =>
    have hc : isBlank c = true := hblank ⟨frames, brackets, c⟩ (by simp)
    have hlater : ∀ r ∈ readings, isBlank r.char = true := fun r hr => hblank r (by simp [hr])
    have hblanks : Aloof (readings.map Reading.char ++ rest) :=
      hrest.blanks_append fun d hd => by
        obtain ⟨r, hr, rfl⟩ := List.mem_map.1 hd
        exact hlater r hr
    have hsecond' : frames' ≠ [.second] := by
      rintro rfl
      exact (hblanks '/' (head?_of_step_second hformed hstep)).1 rfl
    exact eq_of_step_blank hc hformed halone hsecond hstep
      (ih hends (hformed.of_step hstep) (halone.of_step hstep) hsecond' hlater)

/-! ## Arguments on their own -/

/-- The text is read from code to code with its brackets paired, in front of all that can follow it in a list, and the
splitter takes it for one argument. -/
structure StandsAlone (a : List Char) (readings : List Reading) : Prop where
  text_eq : a = readings.map Reading.char
  trimmed : trim a = a
  ne_nil : a ≠ []
  reads : ∀ {rest}, rest ≠ [] → Detached rest → Reads rest [] [] readings [] []
  whole : ∀ r ∈ readings, r.cuts = false
  harmless : ∀ r ∈ readings, inComment r.frames = true → Harmless r.char

/-- The text ends in a line comment. -/
def RunsOn (a : List Char) : Prop :=
  ∀ {rest}, rest ≠ [] → Detached rest → framesAfter [] a rest = some [.lineComment]

/-- The text stands alone as an argument, or runs on behind itself. -/
def Argument (a : List Char) : Prop := (∃ readings, StandsAlone a readings) ∨ RunsOn a

/-- The argument ends in a line comment. -/
def EndsInComment (a : List Char) : Prop := framesAfter [] a [')'] = some [.lineComment]

instance (a : List Char) : Decidable (EndsInComment a) := inferInstanceAs (Decidable (_ = _))

theorem StandsAlone.framesAfter_eq {a : List Char} (h : StandsAlone a readings) (hne : rest ≠ [])
    (hrest : Detached rest) : framesAfter [] a rest = some [] := by
  rw [h.text_eq]
  exact (h.reads hne hrest).framesAfter_eq

theorem StandsAlone.not_endsInComment {a : List Char} (h : StandsAlone a readings) : ¬ EndsInComment a := by
  rw [EndsInComment, h.framesAfter_eq (by simp) (detached_of_closing [])]
  simp

theorem RunsOn.endsInComment {a : List Char} (h : RunsOn a) : EndsInComment a :=
  h (List.cons_ne_nil _ _) (detached_of_closing [])

theorem Argument.runsOn_iff {a : List Char} (h : Argument a) : RunsOn a ↔ EndsInComment a := by
  refine ⟨RunsOn.endsInComment, fun hends => h.resolve_left ?_⟩
  rintro ⟨readings, halone⟩
  exact halone.not_endsInComment hends

/-! ## The arguments of a list -/

/-- A list as the splitter should see it: no comma of a comment separates arguments, its comments hold nothing else
the splitter looks at, and its quotes close. -/
structure Legible (rest : List Char) (readings : List Reading) : Prop where
  separates : ∀ r ∈ readings, r.cuts = true → r.separates = true
  harmless : ∀ r ∈ readings, inComment r.frames = true → Harmless r.char
  quotes : QuotesClose rest readings

theorem Legible.left (h : Legible rest (readings ++ readings')) :
    Legible (readings'.map Reading.char ++ rest) readings where
  separates r hr := h.separates r (by simp [hr])
  harmless r hr := h.harmless r (by simp [hr])
  quotes := h.quotes.left

theorem Legible.right (h : Legible rest (readings ++ readings')) : Legible rest readings' where
  separates r hr := h.separates r (by simp [hr])
  harmless r hr := h.harmless r (by simp [hr])
  quotes := h.quotes.right

/-- A quote in code that opens no literal, since its line ends before it closes. -/
def isStray (text : List Char) (i : Nat) : Bool :=
  (text[i]?.any fun c => isQuote c && !closesOnLine c (text.drop (i + 1))) &&
    (framesAfter [] (text.take i) (text.drop i)).any inCode

/-- A live list whose arguments the splitter takes for what they are, and whose quotes close on their lines. -/
structure LegibleAt (text : List Char) (o c : Nat) : Prop where
  live : ¬ Covered text o
  harmless : HarmlessComments text o c
  split : splitArguments (between (o + 1) c text) = argumentsBetween text o c
  quotes : ∀ i < c, o < i → isStray text i = false

theorem ListAt.legible {text front behind : List Char} {o c : Nat} (h : ListAt text o c front behind readings)
    (hlegible : LegibleAt text o c) : Legible (')' :: behind) readings where
  separates := by
    have hsplit := hlegible.split
    rwa [h.splitArguments_eq hlegible.harmless, h.argumentsBetween_eq, argumentsCut_eq_iff] at hsplit
  harmless := h.harmless hlegible.harmless
  quotes := by
    rintro before r after rfl hquote hcode
    obtain ⟨lead, htext, hlead, hframes⟩ := h.exists_at
    have hc := h.closes
    rw [List.length_append, List.length_cons] at hc
    have hclosed := hlegible.quotes lead.length (by omega) (by omega)
    have hchar : text[lead.length]? = some r.char := by
      rw [hlead]
      exact h.getElem?_eq
    have hbehind : text.drop (lead.length + 1) = after.map Reading.char ++ ')' :: behind := by
      rw [htext, List.append_cons]
      exact List.drop_left' (by simp)
    have hopen : (framesAfter [] (text.take lead.length) (text.drop lead.length)).any inCode = true := by
      rw [htext, List.take_left, List.drop_left, hframes]
      exact hcode
    rwa [isStray, hchar, hopen, hbehind, Option.any_some, hquote, Bool.true_and, Bool.and_true,
      Bool.not_eq_false'] at hclosed

/-- A piece of a list is read from code to code, like the list. -/
structure PieceOf (rest : List Char) (piece : List Reading) : Prop where
  ne_nil : rest ≠ []
  detached : Detached rest
  legible : Legible rest piece
  reads : Reads rest [] [] piece [] []
  whole : ∀ r ∈ piece, r.cuts = false

/-- The splitter cuts a list in code, outside the brackets of the list. -/
theorem exists_pieceOf (h : Reads rest [] [] readings [] []) (hne : rest ≠ []) (hrest : Detached rest)
    (hlegible : Legible rest readings) {piece : List Reading} (hpiece : piece ∈ readings.splitOnP Reading.cuts) :
    ∃ rest', PieceOf rest' piece := by
  induction hlen : readings.length using Nat.strong_induction_on generalizing readings with | _ n ih =>
  cases hfind : readings.find? Reading.cuts with
  | none =>
    have hwhole : ∀ r ∈ readings, r.cuts = false := by simpa using hfind
    rw [List.splitOnP_eq_singleton hwhole, List.mem_singleton] at hpiece
    subst hpiece
    exact ⟨rest, hne, hrest, hlegible, h, hwhole⟩
  | some r =>
    obtain ⟨hcuts, before, after, rfl, hbefore⟩ := List.find?_eq_some_iff_append.1 hfind
    have hwhole : ∀ s ∈ before, s.cuts = false := by simpa using hbefore
    have hseparates := hlegible.separates r (by simp) hcuts
    simp only [Reading.separates, Bool.and_eq_true, beq_iff_eq, List.isEmpty_iff] at hseparates
    obtain ⟨⟨hchar, hbrackets⟩, hframes⟩ := hseparates
    have hfront := h.reads_before
    rw [hbrackets, hframes] at hfront
    rw [List.splitOnP_append_cons_of_forall_mem hwhole r hcuts, List.mem_cons] at hpiece
    rcases hpiece with rfl | hpiece
    · exact ⟨_, List.cons_ne_nil _ _, by rw [hchar]; exact detached_cons (by decide) (by decide) (by decide) _,
        hlegible.left, hfront, hwhole⟩
    · have hlater : Reads rest [] [] after [] [] := by
        obtain ⟨mid, stack, -, hlast⟩ := h.exists_cut
        cases hlast with
        | @next _ _ _ _ _ _ c _ hstep hpairs hlater =>
          obtain rfl : c = ',' := hchar
          obtain rfl : mid = [] := hframes
          obtain rfl : stack = [] := hbrackets
          obtain rfl := Option.some_inj.1 hstep
          obtain rfl := Option.some_inj.1 hpairs
          exact hlater
      have hlegible' : Legible rest after := by
        rw [List.append_cons] at hlegible
        exact hlegible.right
      have hlt : after.length < n := by
        rw [← hlen, List.length_append, List.length_cons]
        omega
      exact ih after.length hlt hlater hlegible' hpiece rfl

/-- A piece without the blanks around it is an argument. -/
theorem PieceOf.argument {piece : List Reading} (h : PieceOf rest piece) (hne : trim (piece.map Reading.char) ≠ []) :
    Argument (trim (piece.map Reading.char)) := by
  obtain ⟨left, right, hsplit, hleft, hright⟩ := exists_trim (piece.map Reading.char)
  have htrim := trim_trim (piece.map Reading.char)
  revert hsplit htrim hne
  generalize trim (piece.map Reading.char) = a
  intro hne hsplit htrim
  obtain ⟨lead, later, rfl, rfl, hlater⟩ := List.map_eq_append_iff.1 hsplit
  obtain ⟨core, tail, rfl, rfl, rfl⟩ := List.map_eq_append_iff.1 hlater
  have hblank {part : List Reading} (h : ∀ c ∈ part.map Reading.char, isBlank c = true) :
      ∀ r ∈ part, isBlank r.char = true := fun r hr => h r.char (List.mem_map_of_mem hr)
  -- the blanks in front are code, and those behind pair no bracket
  obtain ⟨mid, stack, hlead, hrest⟩ := h.reads.exists_cut
  obtain rfl := hlead.blanks_code rfl (hblank hleft)
  obtain rfl := hlead.blanks_brackets (hblank hleft)
  obtain ⟨mid, stack, hcore, htail⟩ := hrest.exists_cut
  obtain rfl := htail.blanks_brackets (hblank hright)
  have hdetached : Detached (tail.map Reading.char ++ rest) := h.detached.blanks_append hright
  have hbehind : tail.map Reading.char ++ rest ≠ [] := by simp [h.ne_nil]
  have hlegible : Legible (tail.map Reading.char ++ rest) core := h.legible.right.left
  have hmid := htail.eq_of_blanks rfl (hcore.formed formed_nil) (hcore.commentsAlone commentsAlone_nil)
    (hcore.ne_second formed_nil (by simp) hdetached.aloof) h.detached.aloof (hblank hright)
  rcases hmid with rfl | rfl
  · exact .inl ⟨core, rfl, htrim, hne, fun {_} _ hrest' => hcore.transfer (.inl rfl) commentsAlone_nil
      hlegible.quotes hbehind hdetached hrest', fun r hr => h.whole r (by simp [hr]), hlegible.harmless⟩
  · exact .inr fun {_} _ hrest' => (hcore.transfer (.inr rfl) commentsAlone_nil hlegible.quotes hbehind hdetached
      hrest').framesAfter_eq

/-- What the splitter finds in a legible list are arguments. -/
theorem argument_of_mem_argumentsCut (h : Reads rest [] [] readings [] []) (hne : rest ≠ []) (hrest : Detached rest)
    (hlegible : Legible rest readings) {a : List Char} (ha : a ∈ argumentsCut Reading.cuts readings) : Argument a := by
  obtain ⟨ha, hempty⟩ := List.mem_filter.1 ha
  obtain ⟨_, hchars, rfl⟩ := List.mem_map.1 ha
  obtain ⟨piece, hpiece, rfl⟩ := List.mem_map.1 hchars
  obtain ⟨rest', hof⟩ := exists_pieceOf h hne hrest hlegible hpiece
  exact hof.argument (by simpa using hempty)

theorem LegibleAt.argument {text : List Char} {o c : Nat} (h : LegibleAt text o c) (hopen : text[o]? = some '(')
    (hclose : closingAt? text o = some c) : ∀ a ∈ splitArguments (between (o + 1) c text), Argument a := by
  obtain ⟨front, behind, readings, hlist⟩ := exists_listAt hopen h.live hclose
  rw [hlist.splitArguments_eq h.harmless]
  exact fun a ha => argument_of_mem_argumentsCut hlist.reads (List.cons_ne_nil _ _) (detached_of_closing behind)
    (hlist.legible h) ha

/-! ## Names, and calls around arguments -/

/-- Characters outside all literals, comments and brackets. -/
def outermost (cs : List Char) : List Reading := cs.map fun c => ⟨[], [], c⟩

theorem map_char_outermost (cs : List Char) : (outermost cs).map Reading.char = cs := by
  rw [outermost, List.map_map]
  exact List.map_id cs

/-- Quiet characters are read as they come. -/
theorem reads_outermost {cs : List Char} (h : ∀ c ∈ cs, isQuiet c = true) (rest : List Char) :
    Reads rest [] [] (outermost cs) [] [] := by
  induction cs with
  | nil => exact .done
  | cons c cs ih =>
    have hc := h c (by simp)
    refine .next (congrArg some (inertFrames_of_isQuiet hc _)) ?_ (ih fun d hd => h d (by simp [hd]))
    rw [liveBracket?_of_not_isBracket (isBracket_of_isQuiet hc)]
    rfl

theorem DottedName.not_isBlank {name : List Char} (h : DottedName name) : ∀ c ∈ name, isBlank c = false := by
  intro c hc
  by_contra hblank
  have hname := h.chars c hc
  rw [continuesName_of_isBlank (by simpa using hblank)] at hname
  cases hname

theorem standsAlone_name {name : List Char} (h : DottedName name) :
    StandsAlone name (outermost name) where
  text_eq := (map_char_outermost name).symm
  trimmed := trim_eq_self (fun c hc => h.not_isBlank c (List.mem_of_mem_head? hc)) fun c hc =>
    h.not_isBlank c (List.mem_of_mem_getLast? hc)
  ne_nil := h.ne_nil
  reads _ _ := reads_outermost h.isQuiet _
  whole r hr := by
    obtain ⟨c, hc, rfl⟩ := List.mem_map.1 hr
    have hcomma : c ≠ ',' := ne_of_isQuiet (h.isQuiet c hc) (by decide)
    simp [Reading.cuts, hcomma]
  harmless r hr hcomment := by
    obtain ⟨c, -, rfl⟩ := List.mem_map.1 hr
    cases hcomment

/-- The same inside further brackets. -/
def Reading.within (outer : List Char) (r : Reading) : Reading := { r with brackets := r.brackets ++ outer }

theorem map_char_within (outer : List Char) (readings : List Reading) :
    (readings.map (Reading.within outer)).map Reading.char = readings.map Reading.char := by
  rw [List.map_map]
  rfl

theorem leftOpen_within {word left : List Char} (h : leftOpen stack word = some left) (outer : List Char) :
    leftOpen (stack ++ outer) word = some (left ++ outer) := by
  induction word generalizing stack with
  | nil =>
    obtain rfl := Option.some_inj.1 h
    rfl
  | cons c word ih =>
    unfold leftOpen at h ⊢
    split
    · next closing hopens =>
      rw [hopens] at h
      exact ih h
    · next hcloses =>
      rw [hcloses] at h
      cases stack with
      | nil => cases h
      | cons closing stack =>
        obtain ⟨hc, h⟩ := Option.ite_none_right_eq_some.1 h
        rw [List.cons_append]
        exact (if_pos hc).trans (ih h)

theorem Reads.within (h : Reads rest frames brackets readings frames' brackets') (outer : List Char) :
    Reads rest frames (brackets ++ outer) (readings.map (Reading.within outer)) frames' (brackets' ++ outer) := by
  induction h with
  | done => exact .done
  | next hstep hpairs _ ih => exact .next (by rwa [map_char_within]) (leftOpen_within hpairs outer) ih

/-- How a call of the name with the argument is read. -/
def wrappedReadings (name : List Char) (readings : List Reading) : List Reading :=
  outermost name ++ ⟨[], [], '('⟩ :: (readings.map (Reading.within [')']) ++ [⟨[], [')'], ')'⟩])

theorem StandsAlone.wrapped {name a : List Char} (h : StandsAlone a readings) (hname : DottedName name) :
    StandsAlone (name ++ '(' :: (a ++ [')'])) (wrappedReadings name readings) where
  text_eq := by
    simp only [wrappedReadings, List.map_append, List.map_cons, map_char_outermost, map_char_within, h.text_eq]
    rfl
  trimmed := by
    refine trim_eq_self (fun c hc => ?_) fun c hc => ?_
    · obtain ⟨d, cs, rfl⟩ := List.exists_cons_of_ne_nil hname.ne_nil
      obtain rfl : d = c := by simpa using hc
      exact hname.not_isBlank d (by simp)
    · rw [← List.cons_append, ← List.append_assoc, List.getLast?_concat] at hc
      obtain rfl := Option.some_inj.1 hc
      decide
  ne_nil := by simp
  reads {rest} hne hrest := by
    have hinner := (h.reads (List.cons_ne_nil ')' rest) (detached_of_closing rest)).within [')']
    have hlast : Reads rest [] [')'] [⟨[], [')'], ')'⟩] [] [] := .next rfl rfl .done
    exact (reads_outermost hname.isQuiet _).append (.next rfl rfl (hinner.append hlast))
  whole r hr := by
    simp only [wrappedReadings, List.mem_append, List.mem_cons, List.mem_map, List.not_mem_nil, or_false] at hr
    rcases hr with hr | rfl | ⟨r, -, rfl⟩ | rfl
    · exact (standsAlone_name hname).whole r hr
    · rfl
    · simp [Reading.cuts, Reading.within]
    · rfl
  harmless r hr hcomment := by
    simp only [wrappedReadings, List.mem_append, List.mem_cons, List.mem_map, List.not_mem_nil, or_false] at hr
    rcases hr with hr | rfl | ⟨r, hr, rfl⟩ | rfl
    · exact (standsAlone_name hname).harmless r hr hcomment
    · cases hcomment
    · exact h.harmless r hr hcomment
    · cases hcomment

theorem RunsOn.wrapped {name a : List Char} (h : RunsOn a) (hname : DottedName name) :
    RunsOn (name ++ '(' :: (a ++ [')'])) := by
  intro rest hne hrest
  have hfront : framesAfter [] name ('(' :: (a ++ [')']) ++ rest) = some [] :=
    (standsAlone_name hname).framesAfter_eq (by simp) (detached_cons (by decide) (by decide) (by decide) _)
  have hinner : framesAfter [] a ([')'] ++ rest) = some [.lineComment] := h (by simp) (detached_of_closing rest)
  rw [framesAfter_append, hfront, Option.bind_some, framesAfter, step, inertFrames_of_isBracket (by decide),
    Option.bind_some, framesAfter_append, hinner]
  rfl

theorem Argument.wrapped {name a : List Char} (h : Argument a) (hname : DottedName name) :
    Argument (name ++ '(' :: (a ++ [')'])) := by
  rcases h with ⟨readings, halone⟩ | hruns
  · exact .inl ⟨_, halone.wrapped hname⟩
  · exact .inr (hruns.wrapped hname)

/-! ## Edited arguments -/

/-- The values of the edits are names. -/
def NamesOnly (edits : List CallEdit) : Prop := ∀ d ∈ edits, ∀ v ∈ d.value, isMemberExpression v.toList = true

instance (edits : List CallEdit) : Decidable (NamesOnly edits) :=
  inferInstanceAs (Decidable (∀ d ∈ edits, ∀ v ∈ d.value, _))

theorem CallEdit.argument_apply {call : Call} {d : CallEdit}
    (hvalue : ∀ v ∈ d.value, isMemberExpression v.toList = true) (h : ∀ a ∈ call.arguments, Argument a) :
    ∀ a ∈ (d.apply call).arguments, Argument a := by
  intro a ha
  unfold CallEdit.apply at ha
  dsimp only at ha
  cases haction : d.action with
  | rename =>
    rw [haction] at ha
    dsimp only at ha
    split at ha <;> exact h a ha
  | insertArgument =>
    rw [haction] at ha
    dsimp only at ha
    split at ha
    · exact h a ha
    · next v hv =>
      obtain ⟨v, hvalue', rfl⟩ := Option.map_eq_some_iff.1 hv
      rcases List.mem_append.1 ha with ha | ha
      · exact h a (List.mem_of_mem_take ha)
      · rcases List.mem_cons.1 ha with rfl | ha
        · exact .inl ⟨_, standsAlone_name (dottedName_of_isMemberExpression (hvalue v hvalue'))⟩
        · exact h a (List.mem_of_mem_drop ha)
  | dropArgument =>
    rw [haction] at ha
    dsimp only at ha
    split at ha
    · exact h a (List.mem_of_mem_eraseIdx ha)
    · exact h a ha
  | wrapArgument =>
    rw [haction] at ha
    dsimp only at ha
    split at ha
    · next i c cs _ hv =>
      obtain ⟨v, hvalue', hname⟩ := Option.map_eq_some_iff.1 hv
      obtain ⟨j, hj⟩ := List.mem_iff_getElem?.1 ha
      rw [List.getElem?_modify] at hj
      obtain ⟨b, hb, rfl⟩ := Option.map_eq_some_iff.1 hj
      have hb := h b (List.mem_of_getElem? hb)
      split
      · have hwrapped := hb.wrapped (dottedName_of_isMemberExpression (hvalue v hvalue'))
        rw [hname] at hwrapped
        simpa using hwrapped
      · exact hb
    · exact h a ha

/-- Edits whose values are names make arguments of arguments. -/
theorem argument_foldl {edits : List CallEdit} (hnames : NamesOnly edits) {call : Call}
    (h : ∀ a ∈ call.arguments, Argument a) : ∀ a ∈ (edits.foldl CallEdit.apply call).arguments, Argument a := by
  induction edits generalizing call with
  | nil => exact h
  | cons d edits ih =>
    exact ih (fun d hd => hnames d (by simp [hd])) (CallEdit.argument_apply (hnames d (by simp)) h)

end Codemod.Source
