import Codemod.Proofs.Source.StandAlone

/-! Edited calls, read again. The arguments of a call that is edited are written on one line, with a comma and a space
between them. Taken apart again they are the same unless one of them ends in a line comment: that one takes in what
stands behind it, the closing parenthesis too. -/
namespace Codemod.Source
open Text

variable {rest : List Char} {frames frames' : List Frame} {brackets brackets' : List Char}
  {readings readings' : List Reading} {r : Reading} {c : Char} {args : List (List Char)}

/-! ## Joining and cutting -/

theorem argumentsCut_append_cons {p : Reading → Bool} (hr : p r = true) (readings readings' : List Reading) :
    argumentsCut p (readings ++ r :: readings') = argumentsCut p readings ++ argumentsCut p readings' := by
  simp only [argumentsCut, List.splitOnP_append_cons readings readings' hr, List.map_append, List.filter_append]

/-- A blank in front makes no difference. -/
theorem argumentsCut_blank {p : Reading → Bool} (hr : p r = false) (hblank : isBlank r.char = true)
    (readings : List Reading) : argumentsCut p (r :: readings) = argumentsCut p readings := by
  obtain ⟨piece, pieces, hpieces⟩ := List.exists_cons_of_ne_nil (List.splitOnP_ne_nil p readings)
  have htrim (cs : List Char) : trim (r.char :: cs) = trim cs :=
    congrArg trimRight (trimLeft_blanks_append (List.forall_mem_singleton.2 hblank) cs)
  rw [argumentsCut, argumentsCut, List.splitOnP_cons_eq_if_modifyHead, if_neg (by simp [hr]), hpieces]
  simp only [List.modifyHead_cons, List.map_cons, htrim]

theorem StandsAlone.argumentsCut_eq {a : List Char} (h : StandsAlone a readings) :
    argumentsCut Reading.cuts readings = [a] := by
  have hne : a.isEmpty = false := by simpa using h.ne_nil
  rw [argumentsCut, List.splitOnP_eq_singleton h.whole, List.map_singleton, List.map_singleton, ← h.text_eq, h.trimmed]
  simp [hne]

/-- The text that joins the arguments is read from code to code, and cut into them. -/
structure Joins (args : List (List Char)) (readings : List Reading) : Prop where
  text_eq : joinWith ", ".toList args = readings.map Reading.char
  reads : ∀ {rest}, rest ≠ [] → Detached rest → Reads rest [] [] readings [] []
  arguments_eq : argumentsCut Reading.cuts readings = args
  harmless : ∀ r ∈ readings, inComment r.frames = true → Harmless r.char

theorem joins_nil : Joins [] [] where
  text_eq := rfl
  reads _ _ := .done
  arguments_eq := rfl
  harmless := by simp

theorem StandsAlone.joins {a : List Char} (h : StandsAlone a readings) : Joins [a] readings where
  text_eq := (joinWith_singleton _ a).trans h.text_eq
  reads := h.reads
  arguments_eq := h.argumentsCut_eq
  harmless := h.harmless

theorem StandsAlone.joins_cons {a : List Char} (h : StandsAlone a readings) (hargs : Joins args readings')
    (hne : args ≠ []) : Joins (a :: args) (readings ++ ⟨[], [], ','⟩ :: ⟨[], [], ' '⟩ :: readings') where
  text_eq := by
    rw [joinWith_cons _ a hne, hargs.text_eq, h.text_eq, List.map_append]
    rfl
  reads {rest} hrest hdetached := by
    have hcomma := detached_cons (c := ',') (by decide) (by decide) (by decide)
      (' ' :: readings'.map Reading.char ++ rest)
    exact (h.reads (List.cons_ne_nil _ _) hcomma).append (.next rfl rfl (.next rfl rfl (hargs.reads hrest hdetached)))
  arguments_eq := by
    rw [argumentsCut_append_cons rfl, argumentsCut_blank rfl isBlank_space, h.argumentsCut_eq, hargs.arguments_eq]
    rfl
  harmless r hr hcomment := by
    simp only [List.mem_append, List.mem_cons] at hr
    rcases hr with hr | rfl | rfl | hr
    · exact h.harmless r hr hcomment
    · cases hcomment
    · cases hcomment
    · exact hargs.harmless r hr hcomment

/-- Arguments that stand alone are found again where they have been joined. -/
theorem exists_joins (h : ∀ a ∈ args, ∃ readings, StandsAlone a readings) : ∃ readings, Joins args readings := by
  induction args with
  | nil => exact ⟨[], joins_nil⟩
  | cons a args ih =>
    obtain ⟨readings, halone⟩ := h a (by simp)
    by_cases hne : args = []
    · subst hne
      exact ⟨readings, halone.joins⟩
    · obtain ⟨readings', hargs⟩ := ih fun b hb => h b (by simp [hb])
      exact ⟨_, halone.joins_cons hargs hne⟩

theorem framesAfter_lineComment {cs : List Char} (h : '\n' ∉ cs) (rest : List Char) :
    framesAfter [.lineComment] cs rest = some [.lineComment] := by
  induction cs with
  | nil => rfl
  | cons c cs ih =>
    have hc : c ≠ '\n' := fun hc => h (by simp [hc])
    rw [framesAfter, step, if_neg hc, Option.bind_some, ih fun hm => h (by simp [hm])]

/-- Behind an argument that ends in a line comment the comment goes on, up to the end of its line. -/
theorem framesAfter_joinWith (hargs : ∀ a ∈ args, Argument a)
    (hlines : args.Pairwise fun a b => EndsInComment a → '\n' ∉ b) (hends : ∃ a ∈ args, EndsInComment a)
    (hne : rest ≠ []) (hrest : Detached rest) :
    framesAfter [] (joinWith ", ".toList args) rest = some [.lineComment] := by
  induction args with
  | nil => simp at hends
  | cons a args ih =>
    have ha := hargs a (by simp)
    obtain ⟨hbehind, hlines⟩ := List.pairwise_cons.1 hlines
    by_cases hnil : args = []
    · subst hnil
      rw [joinWith_singleton]
      exact ha.runsOn_iff.2 (by simpa using hends) hne hrest
    have hcomma := detached_cons (c := ',') (by decide) (by decide) (by decide)
      (' ' :: (joinWith ", ".toList args ++ rest))
    rw [joinWith_cons _ a hnil, framesAfter_append]
    by_cases hfirst : EndsInComment a
    · have hline : '\n' ∉ ", ".toList ++ joinWith ", ".toList args := by
        intro hm
        rcases List.mem_append.1 hm with hm | hm
        · revert hm
          decide
        · rcases mem_of_mem_joinWith hm with hm | ⟨b, hb, hfeed⟩
          · revert hm
            decide
          · exact hbehind b hb hfirst hfeed
      have hopen : framesAfter [] a (", ".toList ++ joinWith ", ".toList args ++ rest) = some [.lineComment] :=
        ha.runsOn_iff.2 hfirst (List.cons_ne_nil _ _) hcomma
      rw [hopen, Option.bind_some, framesAfter_lineComment hline]
    · obtain ⟨readings, halone⟩ := ha.resolve_right (mt ha.runsOn_iff.1 hfirst)
      have hcode : framesAfter [] a (", ".toList ++ joinWith ", ".toList args ++ rest) = some [] :=
        halone.framesAfter_eq (List.cons_ne_nil _ _) hcomma
      have hlater : ∃ b ∈ args, EndsInComment b := by
        obtain ⟨b, hb, hcomment⟩ := hends
        rcases List.mem_cons.1 hb with rfl | hb
        · exact absurd hcomment hfirst
        · exact ⟨b, hb, hcomment⟩
      rw [hcode, Option.bind_some, framesAfter_append]
      exact ih (fun b hb => hargs b (by simp [hb])) hlines hlater

/-! ## Closing the list -/

/-- What pairs the brackets of a list does so inside its parentheses. -/
theorem step_bracketFrames {cs : List Char} (hstep : step frames c cs = some frames')
    (hpairs : leftOpen brackets (liveBracket? (c, markOf frames frames' c)).toList = some brackets') (outer : Char) :
    step (frames ++ bracketFrames (brackets ++ [outer])) c cs =
      some (frames' ++ bracketFrames (brackets' ++ [outer])) := by
  by_cases hframes : frames = []
  · subst hframes
    obtain rfl := Option.some_inj.1 hstep
    obtain ⟨closing, stack, hstack⟩ : ∃ closing stack, brackets ++ [outer] = closing :: stack :=
      List.exists_cons_of_ne_nil (by simp)
    by_cases hbracket : isBracket c = true
    · rw [liveBracket?_of_isBracket hbracket, Option.toList_some] at hpairs
      rw [inertFrames_of_isBracket hbracket, List.nil_append, List.nil_append, hstack, bracketFrames_cons, step]
      cases hopens : closer? c with
      | some inner =>
        have hcloser : isCloser c = false := by
          by_contra hcloser
          rw [closer?_of_isCloser (by simpa using hcloser)] at hopens
          cases hopens
        rw [leftOpen_opening hopens] at hpairs
        obtain rfl := Option.some_inj.1 hpairs
        rw [if_neg (by simp [hcloser]), List.cons_append, hstack, bracketFrames_cons, bracketFrames_cons]
      | none =>
        have hcloser : isCloser c = true := by simpa [isBracket, hopens] using hbracket
        cases brackets with
        | nil => simp [leftOpen, hopens] at hpairs
        | cons closing' brackets =>
          obtain ⟨rfl, rfl⟩ := List.cons.inj hstack
          rw [leftOpen_closing hcloser] at hpairs
          obtain ⟨hc, hpairs⟩ := Option.ite_none_right_eq_some.1 hpairs
          obtain rfl := Option.some_inj.1 hpairs
          rw [if_pos hcloser, if_pos hc]
          rfl
    · have hbracket : isBracket c = false := by simpa using hbracket
      obtain ⟨hopens, hcloser⟩ : closer? c = none ∧ isCloser c = false := by simpa [isBracket] using hbracket
      rw [liveBracket?_of_not_isBracket hbracket] at hpairs
      obtain rfl := Option.some_inj.1 hpairs
      rw [List.nil_append, hstack, bracketFrames_cons, step, if_neg (by simp [hcloser]), hopens]
  · rw [liveBracket?_eq_none hframes] at hpairs
    obtain rfl := Option.some_inj.1 hpairs
    rw [step_append hframes, hstep]
    rfl

/-- The parentheses of a list close where they do behind it. -/
theorem Reads.extent?_eq (h : Reads rest frames brackets readings frames' brackets') (outer : Char) :
    extent? (frames ++ bracketFrames (brackets ++ [outer])) (readings.map Reading.char ++ rest) =
      (extent? (frames' ++ bracketFrames (brackets' ++ [outer])) rest).map (· + readings.length) := by
  induction h with
  | done => simp
  | @next _ frames' _ _ brackets' _ c readings hstep hpairs _ ih =>
    have hne : frames' ++ bracketFrames (brackets' ++ [outer]) ≠ [] := by simp [bracketFrames]
    rw [List.map_cons, List.cons_append, extent?_cons_eq, step_bracketFrames hstep hpairs outer]
    split
    · next hnil => cases hnil
    · next hnil => exact absurd (Option.some_inj.1 hnil) hne
    · next next _ hnext =>
      obtain rfl := Option.some_inj.1 hnext
      rw [ih, Option.map_map]
      rfl

/-- A list that is read from code to code ends at its parenthesis. -/
theorem Reads.bracketExtent?_eq {behind : List Char} (h : Reads (')' :: behind) [] [] readings [] []) :
    bracketExtent? '(' (readings.map Reading.char ++ ')' :: behind) = some (readings.length + 1) := by
  have hextent := h.extent?_eq ')'
  exact hextent.trans (congrArg some (Nat.add_comm 1 _))

/-! ## Calls -/

/-- Where the parenthesis stands behind blanks. -/
def parenthesisBehind (text : List Char) (i : Nat) : Nat := i + ((text.drop i).takeWhile isBlank).length

/-- So many characters of the text are the call: they begin with its name, the last one closes its parenthesis, and
between the parentheses the splitter finds its arguments. -/
structure ReadsAs (text : List Char) (start length : Nat) (call : Call) : Prop where
  name : call.name <+: text.drop start
  opens : text[parenthesisBehind text (start + call.name.length)]? = some '('
  closes : closingAt? text (parenthesisBehind text (start + call.name.length)) = some (start + length - 1)
  arguments : splitArguments
    (between (parenthesisBehind text (start + call.name.length) + 1) (start + length - 1) text) = call.arguments

variable {text callee front gap tail : List Char}

theorem parenthesisBehind_eq (hgap : ∀ c ∈ gap, isBlank c = true) (front rest : List Char) :
    parenthesisBehind (front ++ (gap ++ '(' :: rest)) front.length = (front ++ gap).length := by
  rw [parenthesisBehind, List.drop_left, takeWhile_span hgap (by simp; decide), List.length_append]

theorem getElem?_parenthesis (front rest : List Char) : (front ++ '(' :: rest)[front.length]? = some '(' := by
  rw [List.getElem?_append_right (Nat.le_refl _), Nat.sub_self]
  rfl

theorem closingAt?_eq (front rest : List Char) :
    closingAt? (front ++ '(' :: rest) front.length = (bracketExtent? '(' rest).map (front.length + ·) := by
  have hdrop : (front ++ '(' :: rest).drop (front.length + 1) = rest := by
    rw [List.append_cons]
    exact List.drop_left' (by simp)
  rw [closingAt?, getElem?_parenthesis, Option.bind_some, hdrop]

theorem between_parentheses (front inner tail : List Char) :
    between (front.length + 1) (front.length + (inner.length + 1))
      (front ++ '(' :: (inner ++ ')' :: tail)) = inner := by
  refine Text.between_eq (List.append_cons _ _ _) ?_ ?_
  · rw [List.length_append, List.length_singleton]
  · omega

/-- What is written for a call of arguments reads as that call when none of them ends in a line comment. -/
theorem readsAs_iff {call : Call} (hgap : ∀ c ∈ gap, isBlank c = true) (hargs : ∀ a ∈ call.arguments, Argument a)
    (hlines : call.arguments.Pairwise fun a b => EndsInComment a → '\n' ∉ b) {written : List Char}
    (hwritten : written = call.name ++ (gap ++ '(' :: (joinWith ", ".toList call.arguments ++ [')']))) :
    ReadsAs (front ++ (written ++ tail)) front.length written.length call ↔
      ∀ a ∈ call.arguments, ¬ EndsInComment a := by
  obtain ⟨name, args⟩ := call
  dsimp only at hargs hlines hwritten ⊢
  generalize hinner : joinWith ", ".toList args = inner at hwritten
  have htext : front ++ (written ++ tail) = (front ++ name ++ gap) ++ '(' :: (inner ++ ')' :: tail) := by
    simp [hwritten]
  have hopening : parenthesisBehind (front ++ (written ++ tail)) (front.length + name.length) =
      (front ++ name ++ gap).length := by
    rw [htext, List.append_assoc (front ++ name), ← List.length_append]
    exact parenthesisBehind_eq hgap _ _
  have hlast : front.length + written.length - 1 = (front ++ name ++ gap).length + (inner.length + 1) := by
    simp only [hwritten, List.length_append, List.length_cons, List.length_nil]
    omega
  have hclosing := closingAt?_eq (front ++ name ++ gap) (inner ++ ')' :: tail)
  rw [← htext] at hclosing
  constructor
  · rintro ⟨-, -, hcloses, -⟩ a ha hends
    rw [hopening, hclosing, hlast] at hcloses
    have hextent : bracketExtent? '(' (inner ++ ')' :: tail) = some (inner.length + 1) := by
      obtain ⟨n, hn, hlen⟩ := Option.map_eq_some_iff.1 hcloses
      rwa [Nat.add_left_cancel hlen] at hn
    obtain ⟨readings, hreadings, hreads⟩ := exists_reads_of_bracketExtent? hextent
    have hcode := hreads.framesAfter_eq
    rw [← hreadings, ← hinner, framesAfter_joinWith hargs hlines ⟨a, ha, hends⟩ (List.cons_ne_nil _ _)
      (detached_of_closing tail)] at hcode
    cases hcode
  · intro hnone
    obtain ⟨readings, hjoins⟩ := exists_joins fun a ha => (hargs a ha).resolve_right fun h => hnone a ha h.endsInComment
    have hchars : inner = readings.map Reading.char := hinner.symm.trans hjoins.text_eq
    have hreads := hjoins.reads (List.cons_ne_nil ')' tail) (detached_of_closing tail)
    refine ⟨?_, ?_, ?_, ?_⟩
    · rw [List.drop_left, hwritten, List.append_assoc]
      exact List.prefix_append _ _
    · rw [hopening, htext, getElem?_parenthesis]
    · rw [hopening, hclosing, hlast, hchars, hreads.bracketExtent?_eq, List.length_map]
      rfl
    · rw [hopening, hlast, htext, between_parentheses, hchars, hreads.splitArguments_eq hjoins.harmless,
        hjoins.arguments_eq]

/-- The list of a call that is edited, where it stands. -/
theorem EditsCall.list_eq {calls : List CallEdit} {inner covered behind : List Char} {e : Edit}
    (h : EditsCall callee calls gap inner front covered behind e) (hsite : Site text e front covered behind) {o : Nat}
    (ho : o = parenthesisBehind text (e.start + callee.length)) :
    text[o]? = some '(' ∧ closingAt? text o = some (e.stop - 1) ∧ between (o + 1) (e.stop - 1) text = inner := by
  obtain ⟨htext, hstart, hstop⟩ := hsite
  have hsplit : text = (front ++ callee ++ gap) ++ '(' :: (inner ++ ')' :: behind) := by simp [htext, h.old]
  have hopens : o = (front ++ callee ++ gap).length := by
    rw [ho, hstart, hsplit, List.append_assoc (front ++ callee), ← List.length_append]
    exact parenthesisBehind_eq h.calls.blank _ _
  have hlast : e.stop - 1 = o + (inner.length + 1) := by
    simp only [hstop, hstart, h.old, hopens, List.length_append, List.length_cons, List.length_nil]
    omega
  rw [hlast, hopens, hsplit]
  exact ⟨getElem?_parenthesis _ _, by rw [closingAt?_eq, h.closes]; rfl, between_parentheses _ _ _⟩

/-- What is carried out stands in the text that results where it has been moved to. -/
theorem exists_rewriteCall {calls : List CallEdit} (hcallee : callee ≠ []) {e : Edit}
    (he : e ∈ carriedOut (callEdits text callee calls)) : ∃ front tail,
      rewriteCall text callee calls = front ++ (e.text ++ tail) ∧
      moved (carriedOut (callEdits text callee calls)) e.start = front.length := by
  have hrevised := revised_callEdits text callee calls
  have hinside : ∀ d ∈ carriedOut (callEdits text callee calls), d.start < d.stop := fun d hd => by
    refine (hrevised.starts_of_covers (fun hfits => ?_) d hd).2
    obtain ⟨_, _, hfits⟩ := hfits
    exact hfits.covered_ne_nil
  obtain ⟨front, tail, hrewritten, hmoved⟩ := hrevised.replaced.exists_movedFrom hinside he 0
  rw [Nat.zero_add] at hmoved
  exact ⟨front, tail, (rewriteCall_eq_splice text hcallee calls).trans hrewritten, hmoved⟩

/-- A call that is edited so that its arguments change is written in the place it had, and reads as the edited call
there exactly when none of its arguments ends in a line comment: the line feed that ended the comment is not written.
The list has to be legible, and no later argument may bring a line feed of its own. -/
theorem rewriteCall_readsAs {text callee : List Char} {calls : List CallEdit} (hcallee : callee ≠ [])
    (hnames : NamesOnly calls) {e : Edit} (he : e ∈ carriedOut (callEdits text callee calls)) {o : Nat}
    (ho : o = parenthesisBehind text (e.start + callee.length)) (hlegible : LegibleAt text o (e.stop - 1))
    {edited : Call} (hedited : edited = editedCall callee (between (o + 1) (e.stop - 1) text) calls)
    (hchanged : edited.arguments ≠ splitArguments (between (o + 1) (e.stop - 1) text))
    (hlines : edited.arguments.Pairwise fun a b => EndsInComment a → '\n' ∉ b) :
    let rewritten := rewriteCall text callee calls
    let start := moved (carriedOut (callEdits text callee calls)) e.start
    edited.name <+: e.text ∧ e.text <+: rewritten.drop start ∧
      (ReadsAs rewritten start e.text.length edited ↔ ∀ a ∈ edited.arguments, ¬ EndsInComment a) := by
  intro rewritten start
  obtain ⟨front, covered, behind, hsite, gap, inner, hedits⟩ := exists_site_callEdit (mem_of_mem_carriedOut he)
  obtain ⟨hopening, hclosing, hbetween⟩ := hedits.list_eq hsite ho
  have hfound := hlegible.argument hopening hclosing
  rw [hbetween] at hedited hchanged hfound
  have hargs : ∀ a ∈ edited.arguments, Argument a := by
    rw [hedited]
    exact argument_foldl hnames hfound
  have hwritten : e.text = edited.name ++ (gap ++ '(' :: (joinWith ", ".toList edited.arguments ++ [')'])) := by
    rw [hedits.new, writtenArguments, ← hedited, if_neg hchanged]
  obtain ⟨front', tail, hrewritten, hmoved⟩ := exists_rewriteCall hcallee he
  have hresult : rewritten = front' ++ (e.text ++ tail) := hrewritten
  have hstart : start = front'.length := hmoved
  rw [hresult, hstart, List.drop_left]
  exact ⟨hwritten ▸ List.prefix_append _ _, List.prefix_append _ _,
    readsAs_iff hedits.calls.blank hargs hlines hwritten⟩

theorem rewriteCall_readsAs_sample :
    let calls : List CallEdit := [⟨.insertArgument, some 0, some "x"⟩, ⟨.wrapArgument, some 1, some "g"⟩]
    let text := "f(a, 'b)')".toList
    let noted := "f(a // n\n)".toList
    NamesOnly calls ∧ LegibleAt text 1 9 ∧ LegibleAt noted 1 9 ∧
      ReadsAs (rewriteCall text "f".toList calls) 0 16 ⟨"f".toList, ["x", "g(a)", "'b)'"].map String.toList⟩ ∧
      ¬ ReadsAs (rewriteCall noted "f".toList calls) 0 15 ⟨"f".toList, ["x", "g(a // n)"].map String.toList⟩ := by
  intro calls text noted
  have hcallee : "f".toList ≠ [] := by decide
  have hnames : NamesOnly calls := by decide +kernel
  have hopening : 1 = parenthesisBehind text (0 + "f".toList.length) := by decide +kernel
  have hopening' : 1 = parenthesisBehind noted (0 + "f".toList.length) := by decide +kernel
  have hlegible : LegibleAt text 1 9 :=
    ⟨by decide +kernel, by decide +kernel, by decide +kernel, by decide +kernel⟩
  have hlegible' : LegibleAt noted 1 9 :=
    ⟨by decide +kernel, by decide +kernel, by decide +kernel, by decide +kernel⟩
  have hcarried (e : Edit) : carriedOut [e] = [e] := by simp [carriedOut, carriedFrom]
  have hedits : callEdits text "f".toList calls = [⟨0, 10, "f(x, g(a), 'b)')".toList⟩] := by decide +kernel
  have hedits' : callEdits noted "f".toList calls = [⟨0, 10, "f(x, g(a // n))".toList⟩] := by decide +kernel
  refine ⟨hnames, hlegible, hlegible', ?_, fun hreads => ?_⟩
  · have he : ⟨0, 10, "f(x, g(a), 'b)')".toList⟩ ∈ carriedOut (callEdits text "f".toList calls) := by
      rw [hedits, hcarried]
      simp
    have hedited : (⟨"f".toList, ["x", "g(a)", "'b)'"].map String.toList⟩ : Call) =
        editedCall "f".toList (between 2 9 text) calls := by decide +kernel
    have hreads := rewriteCall_readsAs hcallee hnames he hopening hlegible hedited (by decide +kernel)
      (by decide +kernel)
    rw [hedits, hcarried] at hreads
    exact hreads.2.2.2 (by decide +kernel)
  · have he : ⟨0, 10, "f(x, g(a // n))".toList⟩ ∈ carriedOut (callEdits noted "f".toList calls) := by
      rw [hedits', hcarried]
      simp
    have hedited : (⟨"f".toList, ["x", "g(a // n)"].map String.toList⟩ : Call) =
        editedCall "f".toList (between 2 9 noted) calls := by decide +kernel
    have hnone := rewriteCall_readsAs hcallee hnames he hopening' hlegible' hedited (by decide +kernel)
      (by decide +kernel)
    rw [hedits', hcarried] at hnone
    have hcode := hnone.2.2.1 hreads
    revert hcode
    decide +kernel

end Codemod.Source
