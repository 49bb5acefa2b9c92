import Codemod.Proofs.Source.Comment
import Codemod.Proofs.Source.InCode
import Codemod.Source.Call

/-! Argument lists. The splitter walks the text between two parentheses with a depth of its own and looks for quotes
only, while the reader tells comments too and pairs the brackets. What the splitter does is told along the reading
of the list: at each character the frames that are open and the brackets still to be closed. -/
namespace Codemod.Source
open Text

/-! ## Reading a list -/

/-- A character with the literal or comment that is open in front of it, and the brackets of the list that are. -/
structure Reading where
  frames : List Frame
  brackets : List Char
  char : Char

/-- The characters are read one after the other, with `rest` behind them: from what is open in front of the first to
what is open behind the last. A bracket that is closed is one of the list. -/
inductive Reads (rest : List Char) : List Frame → List Char → List Reading → List Frame → List Char → Prop
  | done {frames : List Frame} {brackets : List Char} : Reads rest frames brackets [] frames brackets
  | next {frames frames' frames'' : List Frame} {brackets brackets' brackets'' : List Char} {c : Char}
      {readings : List Reading} (step : step frames c (readings.map Reading.char ++ rest) = some frames')
      (pairs : leftOpen brackets (liveBracket? (c, markOf frames frames' c)).toList = some brackets')
      (later : Reads rest frames' brackets' readings frames'' brackets'') :
      Reads rest frames brackets (⟨frames, brackets, c⟩ :: readings) frames'' brackets''

variable {rest : List Char} {frames frames' frames'' : List Frame} {brackets brackets' brackets'' : List Char}
  {readings : List Reading} {c : Char}

theorem Reads.framesAfter_eq (h : Reads rest frames brackets readings frames' brackets') :
    framesAfter frames (readings.map Reading.char) rest = some frames' := by
  induction h with
  | done => rfl
  | next hstep _ _ ih => rw [List.map_cons, framesAfter, hstep, Option.bind_some, ih]

/-- Inside a list a step pairs the brackets of the list, up to the parenthesis that closes it. -/
theorem step_in_list {outer : Char} {next : List Frame} {cs : List Char}
    (h : step (frames ++ bracketFrames (brackets ++ [outer])) c cs = some next) :
    (next = [] ∧ frames = [] ∧ brackets = []) ∨ ∃ frames' brackets',
      next = frames' ++ bracketFrames (brackets' ++ [outer]) ∧ step frames c cs = some frames' ∧
      leftOpen brackets (liveBracket? (c, markOf frames frames' c)).toList = some brackets' := by
  have hword (hbracket : isBracket c = true) : liveBracket? (c, markOf [] [] c) = some c := by
    simp [liveBracket?, markOf, hbracket]
  by_cases hframes : frames = []
  · subst hframes
    obtain ⟨closing, stack, hstack⟩ : ∃ closing stack, brackets ++ [outer] = closing :: stack :=
      List.exists_cons_of_ne_nil (by simp)
    rw [List.nil_append, hstack, bracketFrames_cons, step] at h
    by_cases hcloser : isCloser c = true
    · have hbracket : isBracket c = true := by simp [isBracket, hcloser]
      rw [if_pos hcloser] at h
      obtain ⟨rfl, rfl⟩ := (Option.ite_none_right_eq_some.1 h).imp_right Option.some_inj.1
      cases brackets with
      | nil =>
        obtain ⟨-, rfl⟩ := List.cons.inj hstack
        exact .inl ⟨rfl, rfl, rfl⟩
      | cons closing' brackets =>
        obtain ⟨rfl, rfl⟩ := List.cons.inj hstack
        refine .inr ⟨[], brackets, rfl, by rw [step, inertFrames_of_isBracket hbracket], ?_⟩
        rw [hword hbracket, Option.toList_some, leftOpen_closing hcloser, if_pos rfl]
        rfl
    · rw [if_neg hcloser] at h
      cases hopen : closer? c with
      | some inner =>
        have hbracket : isBracket c = true := by simp [isBracket, hopen]
        rw [hopen] at h
        obtain rfl := Option.some_inj.1 h
        refine .inr ⟨[], inner :: brackets, ?_, by rw [step, inertFrames_of_isBracket hbracket], ?_⟩
        · rw [List.cons_append, hstack, List.nil_append, bracketFrames_cons, bracketFrames_cons]
        · rw [hword hbracket, Option.toList_some, leftOpen_opening hopen]
          rfl
      | none =>
        have hbracket : isBracket c = false := by simp [isBracket, hopen, hcloser]
        rw [hopen] at h
        obtain rfl := Option.some_inj.1 h
        refine .inr ⟨inertFrames c cs, brackets, by rw [hstack, bracketFrames_cons], rfl, ?_⟩
        rw [liveBracket?_of_not_isBracket hbracket]
        rfl
  · rw [step_append hframes] at h
    obtain ⟨next', hstep, rfl⟩ := Option.map_eq_some_iff.1 h
    refine .inr ⟨next', brackets, rfl, hstep, ?_⟩
    rw [liveBracket?_eq_none hframes]
    rfl

/-- Up to its closing parenthesis a list is read with all its brackets paired. -/
theorem exists_reads {inner behind : List Char} {closing : Char}
    (h : extent? (frames ++ bracketFrames (brackets ++ [closing])) (inner ++ closing :: behind) =
      some (inner.length + 1)) :
    ∃ readings, inner = readings.map Reading.char ∧ Reads (closing :: behind) frames brackets readings [] [] := by
  induction inner generalizing frames brackets with
  | nil =>
    obtain ⟨rfl, rfl⟩ : frames = [] ∧ brackets = [] := by
      rw [List.nil_append, extent?_cons_eq] at h
      split at h
      · cases h
      · next hstep =>
        rcases step_in_list hstep with ⟨-, hnil⟩ | ⟨_, _, heq, -⟩
        · exact hnil
        · have hne := congrArg List.length heq
          simp [bracketFrames] at hne
      · obtain ⟨n, hn, hzero⟩ := Option.map_eq_some_iff.1 h
        have := (extent?_le hn).1
        rw [List.length_nil] at hzero
        omega
    exact ⟨[], rfl, .done⟩
  | cons c inner ih =>
    rw [List.cons_append, extent?_cons_eq] at h
    split at h
    · cases h
    · have hlen := Option.some_inj.1 h
      rw [List.length_cons] at hlen
      omega
    · next next hne hstep =>
      obtain ⟨n, hn, hlen⟩ := Option.map_eq_some_iff.1 h
      obtain rfl : n = inner.length + 1 := by simpa using hlen
      rcases step_in_list hstep with ⟨hnil, -⟩ | ⟨frames', brackets', rfl, hstep', hpairs⟩
      · exact absurd hnil (by simpa using hne)
      · obtain ⟨readings, rfl, hreads⟩ := ih hn
        exact ⟨⟨frames, brackets, c⟩ :: readings, rfl, .next hstep' hpairs hreads⟩

theorem exists_reads_of_bracketExtent? {inner behind : List Char}
    (h : bracketExtent? '(' (inner ++ ')' :: behind) = some (inner.length + 1)) :
    ∃ readings, inner = readings.map Reading.char ∧ Reads (')' :: behind) [] [] readings [] [] :=
  exists_reads h

/-! ## Literals and comments of a list -/

/-- What is open is a comment. The last character of a block comment is hidden by nothing else. -/
def inComment (frames : List Frame) : Bool :=
  match frames.getLast? with
  | some .lineComment | some .blockComment | some .second => true
  | _ => false

/-- A comment is open where one was, until it ends. -/
theorem inComment_of_step (h : step frames c rest = some frames') (hopen : frames ≠ []) (hopen' : frames' ≠ []) :
    inComment frames' = inComment frames := by
  have hpop {frame : Frame} {outer : List Frame} (houter : outer ≠ []) :
      inComment outer = inComment (frame :: outer) := by
    obtain ⟨last, hlast⟩ := Option.ne_none_iff_exists'.1 (mt List.getLast?_eq_none_iff.1 houter)
    simp only [inComment, List.getLast?_cons, hlast, Option.getD_some]
  have hpush (inner : List Frame) {outer : List Frame} (houter : outer ≠ []) :
      inComment (inner ++ outer) = inComment outer := by
    rw [inComment, List.getLast?_append_of_ne_nil _ houter]
    rfl
  match frames, h with
  | .second :: outer, h =>
    obtain rfl := Option.some_inj.1 h
    exact hpop hopen'
  | .quoted quote :: outer, h =>
    simp only [step, Option.some_inj] at h
    split_ifs at h <;> subst h
    · exact hpush [_] hopen
    · exact hpop hopen'
    · rfl
  | .template :: outer, h =>
    simp only [step, Option.some_inj] at h
    split_ifs at h <;> subst h
    · exact hpush [_] hopen
    · exact hpush [_, _] hopen
    · exact hpop hopen'
    · rfl
  | .lineComment :: outer, h =>
    simp only [step, Option.some_inj] at h
    split_ifs at h <;> subst h
    · exact hpop hopen'
    · rfl
  | .blockComment :: outer, h =>
    simp only [step, Option.some_inj] at h
    split_ifs at h <;> subst h
    · by_cases houter : outer = []
      · rw [houter]
        rfl
      · exact (hpop houter).symm.trans (hpop houter)
    · rfl
  | .bracket closer :: outer, h =>
    simp only [step] at h
    split at h
    · obtain ⟨-, rfl⟩ := (Option.ite_none_right_eq_some.1 h).imp_right Option.some_inj.1
      exact hpop hopen'
    · split at h
      · obtain rfl := Option.some_inj.1 h
        exact hpush [_] hopen
      · obtain rfl := Option.some_inj.1 h
        exact hpush _ hopen

/-- A literal or comment that is opened is a comment when its first character is a slash. -/
theorem inComment_inertFrames (h : inertFrames c rest ≠ []) : inComment (inertFrames c rest) = (c == '/') := by
  unfold inertFrames quoteFrames at h ⊢
  split
  · next hslash =>
    subst hslash
    split
    · rfl
    · rfl
    · simp_all
  · next hslash =>
    have hne : (c == '/') = false := beq_eq_false_iff_ne.2 hslash
    rw [hne]
    split_ifs at h ⊢
    · rfl
    · exact absurd rfl h
    · rfl
    · exact absurd rfl h

/-- A comment is open with nothing around it and nothing in it. -/
def CommentsAlone (frames : List Frame) : Prop := inComment frames = true → Comments frames

theorem commentsAlone_nil : CommentsAlone [] := fun h => absurd h (by decide)

theorem CommentsAlone.of_step (h : CommentsAlone frames) (hstep : step frames c rest = some frames') :
    CommentsAlone frames' := by
  intro hcomment
  have hopen' : frames' ≠ [] := by
    rintro rfl
    cases hcomment
  by_cases hopen : frames = []
  · subst hopen
    obtain rfl := Option.some_inj.1 hstep
    rw [inComment_inertFrames hopen'] at hcomment
    obtain rfl := beq_iff_eq.1 hcomment
    rw [inertFrames_unquoted (by decide)]
    split_ifs
    · exact .line
    · exact .entering
    · exact .code
  · have hcomments := h ((inComment_of_step hstep hopen hopen').symm.trans hcomment)
    cases hcomments with
    | code => exact absurd rfl hopen
    | line =>
      obtain rfl := Option.some_inj.1 hstep
      split_ifs
      · exact .code
      · exact .line
    | block =>
      obtain rfl := Option.some_inj.1 hstep
      split_ifs
      · exact .leaving
      · exact .block
    | entering =>
      obtain rfl := Option.some_inj.1 hstep
      exact .block
    | leaving => exact absurd (Option.some_inj.1 hstep).symm hopen'

/-- Inside the brackets of a template no comment is open around them. -/
theorem CommentsAlone.inComment_bracket {closer : Char} {outer : List Frame}
    (h : CommentsAlone (.bracket closer :: outer)) : inComment (.bracket closer :: outer) = false := by
  by_contra hcomment
  cases h (by simpa using hcomment)

/-! ## What follows a character -/

/-- The text is aloof, and no part of a template begins across its beginning either. -/
structure Detached (rest : List Char) : Prop where
  aloof : Aloof rest
  head : rest.head? ≠ some '{'

theorem detached_nil : Detached [] := ⟨by simp [Aloof], by simp⟩

theorem detached_cons (hslash : c ≠ '/') (hstar : c ≠ '*') (hbrace : c ≠ '{') (rest : List Char) :
    Detached (c :: rest) where
  aloof := by
    rintro d ⟨⟩
    exact ⟨hslash, hstar⟩
  head := by simpa using hbrace

/-- In code a character opens the same in front of aloof texts. -/
theorem inertFrames_of_aloof {rest' : List Char} (hrest : Aloof rest) (hrest' : Aloof rest')
    (htick : c = '`' → rest'.isEmpty = rest.isEmpty)
    (hquote : isQuote c = true → closesOnLine c rest' = closesOnLine c rest) :
    inertFrames c rest' = inertFrames c rest := by
  by_cases hplain : Unquoted c
  · have halike := AlikeAhead.of_aloof hrest hrest'
    simp only [inertFrames_unquoted hplain, halike '/' (.inl rfl), halike '*' (.inr rfl)]
  · by_cases hq : isQuote c = true
    · rw [inertFrames_of_isQuote hq, inertFrames_of_isQuote hq, hquote hq]
    · obtain rfl : c = '`' := by
        by_contra ht
        exact hplain ⟨by simpa using hq, ht⟩
      simp [inertFrames, quoteFrames, isQuote, htick rfl]

/-- Literals and comments are opened here: nothing is open, or code inside a bracket. -/
def inCode : List Frame → Bool
  | [] | .bracket _ :: _ => true
  | _ => false

theorem inCode_eq_true_iff :
    inCode frames = true ↔ frames = [] ∨ ∃ closer outer, frames = .bracket closer :: outer := by
  unfold inCode
  split <;> simp_all

/-- Behind the last character nothing is open but a comment. -/
def EndsPlain (frames : List Frame) : Prop := frames = [] ∨ inComment frames = true

/-- A literal that is opened in code is open no more where nothing but a comment is. -/
theorem not_endsPlain_append {inner opened : List Frame} {frame : Frame} (halone : CommentsAlone frames)
    (hcode : inCode frames = true) (hframe : inComment [frame] = false)
    (hopened : opened = inner ++ frame :: frames) : ¬ EndsPlain opened := by
  rintro (rfl | hcomment)
  · simp at hopened
  · have hbottom : inComment opened = inComment (frame :: frames) := by
      rw [hopened, inComment, List.getLast?_append_of_ne_nil _ (List.cons_ne_nil _ _)]
      rfl
    rcases inCode_eq_true_iff.1 hcode with rfl | ⟨closer, outer, rfl⟩
    · rw [hbottom, hframe] at hcomment
      cases hcomment
    · have hsame : inComment (frame :: .bracket closer :: outer) = inComment (.bracket closer :: outer) := by
        rw [inComment, List.getLast?_cons_cons]
        rfl
      rw [hbottom, hsame, halone.inComment_bracket] at hcomment
      cases hcomment

/-- A quote opens a literal in code only. -/
theorem inCode_of_opens (hquote : isQuote c = true)
    (hopens : ∀ rest, step frames c rest = some (inertFrames c rest ++ frames)) : inCode frames = true := by
  have hne : c ≠ '\\' := by
    rintro rfl
    cases hquote
  have hstep := hopens [c]
  rw [inertFrames_of_isQuote hquote, if_pos (by simp [closesOnLine_cons hne])] at hstep
  -- elsewhere the frames do not grow by one
  have hlen (next : List Frame) (h : step frames c [c] = some next) : next.length = frames.length + 1 := by
    rw [hstep] at h
    rw [← Option.some_inj.1 h]
    rfl
  match frames with
  | [] => rfl
  | .bracket _ :: _ => rfl
  | .second :: outer =>
    have := hlen _ rfl
    rw [List.length_cons] at this
    omega
  | .quoted quote :: outer =>
    have := hlen _ rfl
    rw [if_neg hne] at this
    split_ifs at this <;> simp only [List.length_cons] at this <;> omega
  | .template :: outer =>
    have := hlen _ rfl
    rw [if_neg hne] at this
    split_ifs at this <;> simp only [List.length_cons] at this <;> omega
  | .lineComment :: outer =>
    have := hlen _ rfl
    split_ifs at this <;> simp only [List.length_cons] at this <;> omega
  | .blockComment :: outer =>
    have := hlen _ rfl
    split_ifs at this <;> simp only [List.length_cons] at this <;> omega

/-- A step sees the same in front of another detached text, when the literals that are opened end before. -/
theorem step_of_detached {cs rest' : List Char} {ends : List Frame} (hstep : step frames c (cs ++ rest) = some frames')
    (hreads : framesAfter frames' cs rest = some ends) (hends : EndsPlain ends) (halone : CommentsAlone frames)
    (hne : rest ≠ []) (hrest : Detached rest) (hrest' : Detached rest')
    (hplain : isQuote c = true → inCode frames = true → closesOnLine c (cs ++ rest') = true →
      closesOnLine c (cs ++ rest) = true) : step frames c (cs ++ rest') = some frames' := by
  have hcloses (hquote : isQuote c = true)
      (hopens : ∀ rest, step frames c rest = some (inertFrames c rest ++ frames)) :
      closesOnLine c (cs ++ rest') = closesOnLine c (cs ++ rest) := by
    have hcode := inCode_of_opens hquote hopens
    refine Bool.eq_iff_iff.2 ⟨hplain hquote hcode, fun hc => ?_⟩
    cases hkept : closesOnLine c cs with
    | true => exact closesOnLine_append_of_closes hquote hkept _
    | false =>
      rw [hopens, inertFrames_of_isQuote hquote, if_pos hc] at hstep
      obtain rfl := Option.some_inj.1 hstep
      obtain ⟨inner, hinner⟩ := framesAfter_quoted_open hkept hc frames
      have heq : ends = inner ++ .quoted c :: frames := Option.some_inj.1 (hreads.symm.trans hinner)
      exact absurd hends (not_endsPlain_append halone hcode rfl heq)
  cases cs with
  | cons d cs =>
    rw [← hstep]
    exact step_congr (fun _ => alikeHead_of_head? rfl) hcloses
  | nil =>
    obtain rfl : frames' = ends := Option.some_inj.1 hreads
    have hinert (hopens : ∀ rest, step frames c rest = some (inertFrames c rest ++ frames))
        (hcode : inCode frames = true) : step frames c rest' = step frames c rest := by
      rw [hopens, hopens, inertFrames_of_aloof hrest.aloof hrest'.aloof _ fun hquote => hcloses hquote hopens]
      rintro rfl
      -- a template would be open at the end
      rw [List.nil_append, hopens] at hstep
      have htick : inertFrames '`' rest = [.template] := by simp [inertFrames, quoteFrames, isQuote, hne]
      rw [htick] at hstep
      have hopened : frames' = [] ++ .template :: frames := (Option.some_inj.1 hstep).symm
      exact absurd hends (not_endsPlain_append halone hcode rfl hopened)
    rw [List.nil_append] at hstep ⊢
    rw [← hstep]
    have hbrace {cs : List Char} (h : Detached cs) : (cs.head? == some '{') = false := beq_eq_false_iff_ne.2 h.head
    have hslash {cs : List Char} (h : Detached cs) : (cs.head? == some '/') = false :=
      beq_eq_false_iff_ne.2 fun heq => (h.aloof '/' heq).1 rfl
    cases frames with
    | nil => exact hinert (fun _ => by rw [List.append_nil]; rfl) rfl
    | cons frame outer =>
      cases frame with
      | second => rfl
      | quoted => rfl
      | template => simp only [step, hbrace hrest, hbrace hrest']
      | lineComment => rfl
      | blockComment => simp only [step, hslash hrest, hslash hrest']
      | bracket closer =>
        by_cases hbracket : isBracket c = true
        · simp only [step, inertFrames_of_isBracket hbracket]
        · obtain ⟨hopen, hcloser⟩ : closer? c = none ∧ isCloser c = false := by simpa [isBracket] using hbracket
          exact hinert (fun _ => by simp [step, hopen, hcloser]) rfl

/-! ## The splitter -/

theorem argumentPieces_ne_nil (depth : Int) (frames : List Frame) (cs : List Char) :
    argumentPieces depth frames cs ≠ [] := by
  cases cs with
  | nil => exact List.cons_ne_nil _ _
  | cons c cs =>
    unfold argumentPieces
    dsimp only
    split
    · split
      · split_ifs
        · split <;> exact List.cons_ne_nil _ _
        · split <;> exact List.cons_ne_nil _ _
        · exact List.cons_ne_nil _ _
        · split <;> exact List.cons_ne_nil _ _
      · split <;> exact List.cons_ne_nil _ _
    · split
      · exact List.cons_ne_nil _ _
      · split <;> exact List.cons_ne_nil _ _

theorem argumentPieces_cons (depth : Int) (frames : List Frame) (c : Char) (cs : List Char) :
    argumentPieces depth frames (c :: cs) =
      if frames.isEmpty then
        match quoteFrames c cs with
        | [] =>
          if (closer? c).isSome then (argumentPieces (depth + 1) [] cs).modifyHead (c :: ·)
          else if isCloser c then (argumentPieces (depth - 1) [] cs).modifyHead (c :: ·)
          else if c = ',' && depth = 0 then [] :: argumentPieces depth [] cs
          else (argumentPieces depth [] cs).modifyHead (c :: ·)
        | inner => (argumentPieces depth inner cs).modifyHead (c :: ·)
      else
        match step frames c cs with
        | none => [c :: cs]
        | some next => (argumentPieces depth next cs).modifyHead (c :: ·) := by
  have hpieces (depth : Int) (frames : List Frame) : ∃ p ps, argumentPieces depth frames cs = p :: ps :=
    List.exists_cons_of_ne_nil (argumentPieces_ne_nil depth frames cs)
  rw [argumentPieces]
  dsimp only
  split
  · cases quoteFrames c cs with
    | nil =>
      dsimp only
      split_ifs
      · obtain ⟨p, ps, hps⟩ := hpieces (depth + 1) []
        rw [hps]
        rfl
      · obtain ⟨p, ps, hps⟩ := hpieces (depth - 1) []
        rw [hps]
        rfl
      · rfl
      · obtain ⟨p, ps, hps⟩ := hpieces depth []
        rw [hps]
        rfl
    | cons frame inner =>
      obtain ⟨p, ps, hps⟩ := hpieces depth (frame :: inner)
      dsimp only
      rw [hps]
      rfl
  · cases step frames c cs with
    | none => rfl
    | some next =>
      obtain ⟨p, ps, hps⟩ := hpieces depth next
      dsimp only
      rw [hps]
      rfl

section

variable {cs : List Char}

theorem quoteFrames_of_isBracket (h : isBracket c = true) (cs : List Char) : quoteFrames c cs = [] := by
  have hinert := inertFrames_of_isBracket h cs
  unfold inertFrames at hinert
  split at hinert
  · next hslash =>
    rw [hslash] at h
    cases h
  · exact hinert

theorem inertFrames_of_ne_slash (h : c ≠ '/') (cs : List Char) : inertFrames c cs = quoteFrames c cs := if_neg h

/-- In code the splitter counts the brackets. -/
theorem argumentPieces_open {closing : Char} (h : closer? c = some closing) (depth : Int) (cs : List Char) :
    argumentPieces depth [] (c :: cs) = (argumentPieces (depth + 1) [] cs).modifyHead (c :: ·) := by
  have hbracket : isBracket c = true := by simp [isBracket, h]
  simp only [argumentPieces_cons, List.isEmpty_nil, if_true, quoteFrames_of_isBracket hbracket, h, Option.isSome_some]

theorem argumentPieces_close (h : isCloser c = true) (depth : Int) (cs : List Char) :
    argumentPieces depth [] (c :: cs) = (argumentPieces (depth - 1) [] cs).modifyHead (c :: ·) := by
  have hbracket : isBracket c = true := by simp [isBracket, h]
  simp only [argumentPieces_cons, List.isEmpty_nil, if_true, quoteFrames_of_isBracket hbracket,
    closer?_of_isCloser h, h, Option.isSome_none, Bool.false_eq_true, if_false]

/-- Other characters are kept, the commas between the arguments apart. -/
theorem argumentPieces_plain (hquote : quoteFrames c cs = []) (hbracket : isBracket c = false) (depth : Int) :
    argumentPieces depth [] (c :: cs) = if c = ',' && depth = 0 then [] :: argumentPieces depth [] cs
      else (argumentPieces depth [] cs).modifyHead (c :: ·) := by
  obtain ⟨hopen, hcloser⟩ : closer? c = none ∧ isCloser c = false := by simpa [isBracket] using hbracket
  simp only [argumentPieces_cons, List.isEmpty_nil, if_true, hquote, hopen, hcloser, Option.isSome_none,
    Bool.false_eq_true, if_false]

/-- The splitter goes into literals that a quote opens. -/
theorem argumentPieces_quote (hquote : quoteFrames c cs ≠ []) (depth : Int) :
    argumentPieces depth [] (c :: cs) = (argumentPieces depth (quoteFrames c cs) cs).modifyHead (c :: ·) := by
  rw [argumentPieces_cons]
  split
  · split
    · next hnil => exact absurd hnil hquote
    · rfl
  · next hno => exact absurd rfl hno

/-- In a literal the splitter takes the steps of the reader. -/
theorem argumentPieces_step (hopen : frames ≠ []) (h : step frames c cs = some frames') (depth : Int) :
    argumentPieces depth frames (c :: cs) = (argumentPieces depth frames' cs).modifyHead (c :: ·) := by
  rw [argumentPieces_cons, if_neg (by simpa using hopen), h]

end

/-- What the splitter has open: it does not know comments. -/
def seen (frames : List Frame) : List Frame := if inComment frames then [] else frames

/-- A comma between the arguments. -/
def Reading.separates (r : Reading) : Bool := r.char == ',' && r.brackets.isEmpty && r.frames.isEmpty

/-- A comma at which the splitter cuts: one in a comment does not count as literal. -/
def Reading.cuts (r : Reading) : Bool := r.char == ',' && r.brackets.isEmpty && (seen r.frames).isEmpty

/-- A character that the splitter does not look at. -/
def Harmless (c : Char) : Prop := isBracket c = false ∧ Unquoted c

instance (c : Char) : Decidable (Harmless c) := inferInstanceAs (Decidable (_ ∧ _))

theorem quoteFrames_of_harmless (h : Harmless c) (cs : List Char) : quoteFrames c cs = [] := by
  simp [quoteFrames, h.2.1, h.2.2]

/-- In front of `cs` the splitter takes the character as the reader does, to the literal and the brackets that are
open behind it. -/
def SplitsAt (r : Reading) (frames' : List Frame) (brackets' cs : List Char) : Prop :=
  argumentPieces r.brackets.length (seen r.frames) (r.char :: cs) =
    if r.cuts then [] :: argumentPieces brackets'.length (seen frames') cs
    else (argumentPieces brackets'.length (seen frames') cs).modifyHead (r.char :: ·)

section

variable {cs : List Char}

theorem splitsAt_plain (hseen : seen frames = []) (hseen' : seen frames' = []) (hquote : quoteFrames c cs = [])
    (hbracket : isBracket c = false) : SplitsAt ⟨frames, brackets, c⟩ frames' brackets cs := by
  rw [SplitsAt, hseen', Reading.cuts, hseen, argumentPieces_plain hquote hbracket]
  congr 1
  simp

/-- A comment is passed over as code, in which its characters do nothing. -/
theorem splitsAt_comment (hstep : step frames c cs = some frames') (hcomment : inComment frames = true)
    (hharmless : Harmless c) : SplitsAt ⟨frames, brackets, c⟩ frames' brackets cs := by
  have hopen : frames ≠ [] := by
    rintro rfl
    cases hcomment
  refine splitsAt_plain (if_pos hcomment) ?_ (quoteFrames_of_harmless hharmless cs) hharmless.1
  by_cases hclosed : frames' = []
  · rw [hclosed]
    rfl
  · exact if_pos ((inComment_of_step hstep hopen hclosed).trans hcomment)

/-- In a literal both take the same steps. -/
theorem splitsAt_literal (hstep : step frames c cs = some frames') (hopen : frames ≠ [])
    (hcomment : inComment frames = false) : SplitsAt ⟨frames, brackets, c⟩ frames' brackets cs := by
  have hseen : seen frames = frames := if_neg (by simp [hcomment])
  have hseen' : seen frames' = frames' := by
    by_cases hclosed : frames' = []
    · rw [hclosed]
      rfl
    · exact if_neg (by simp [inComment_of_step hstep hopen hclosed, hcomment])
  have hcuts : Reading.cuts ⟨frames, brackets, c⟩ = false := by simp [Reading.cuts, hseen, hopen]
  rw [SplitsAt, hcuts, hseen, hseen', argumentPieces_step hopen hstep]
  rfl

/-- Brackets of the list are counted as the reader pairs them. -/
theorem splitsAt_bracket (hbracket : isBracket c = true) (hpairs : leftOpen brackets [c] = some brackets') :
    SplitsAt ⟨[], brackets, c⟩ [] brackets' cs := by
  have hcuts : Reading.cuts ⟨[], brackets, c⟩ = false := by
    have hcomma : c ≠ ',' := by
      rintro rfl
      cases hbracket
    simp [Reading.cuts, hcomma]
  have hseen : seen [] = [] := rfl
  rw [SplitsAt, hcuts, hseen]
  cases hopens : closer? c with
  | some closing =>
    rw [leftOpen_opening hopens] at hpairs
    obtain rfl := Option.some_inj.1 hpairs
    rw [argumentPieces_open hopens, List.length_cons, Int.natCast_add, Int.natCast_one]
    rfl
  | none =>
    have hcloser : isCloser c = true := by simpa [isBracket, hopens] using hbracket
    cases brackets with
    | nil => simp [leftOpen, hopens] at hpairs
    | cons closing brackets =>
      rw [leftOpen_closing hcloser] at hpairs
      obtain rfl := Option.some_inj.1 (Option.ite_none_right_eq_some.1 hpairs).2
      rw [argumentPieces_close hcloser, List.length_cons, Int.natCast_add, Int.natCast_one, Int.add_sub_cancel]
      rfl

/-- In code other characters open what they open to the reader, but for comments. -/
theorem splitsAt_code (hbracket : isBracket c = false) :
    SplitsAt ⟨[], brackets, c⟩ (inertFrames c cs) brackets cs := by
  by_cases hquote : quoteFrames c cs = []
  · refine splitsAt_plain rfl ?_ hquote hbracket
    by_cases hslash : c = '/'
    · subst hslash
      by_cases hnone : inertFrames '/' cs = []
      · rw [hnone]
        rfl
      · exact if_pos (inComment_inertFrames hnone)
    · rw [inertFrames_of_ne_slash hslash, hquote]
      rfl
  · have hslash : c ≠ '/' := by
      rintro rfl
      exact hquote rfl
    have hcomma : c ≠ ',' := by
      rintro rfl
      exact hquote rfl
    have hinert := inertFrames_of_ne_slash hslash cs
    have hseen' : seen (inertFrames c cs) = quoteFrames c cs := by
      have hcomment : inComment (inertFrames c cs) = false := by
        rw [inComment_inertFrames (by rwa [hinert])]
        exact beq_eq_false_iff_ne.2 hslash
      rw [seen, if_neg (by simp [hcomment]), hinert]
    have hcuts : Reading.cuts ⟨[], brackets, c⟩ = false := by simp [Reading.cuts, hcomma]
    have hseen : seen [] = [] := rfl
    rw [SplitsAt, hcuts, hseen, hseen', argumentPieces_quote hquote]
    rfl

/-- The splitter goes along with the reader, where comments hold nothing it looks at. -/
theorem splitsAt_of_step (hstep : step frames c cs = some frames')
    (hpairs : leftOpen brackets (liveBracket? (c, markOf frames frames' c)).toList = some brackets')
    (hharmless : inComment frames = true → Harmless c) : SplitsAt ⟨frames, brackets, c⟩ frames' brackets' cs := by
  have hkept (hword : liveBracket? (c, markOf frames frames' c) = none) : brackets = brackets' := by
    rw [hword] at hpairs
    exact Option.some_inj.1 hpairs
  by_cases hopen : frames = []
  · subst hopen
    obtain rfl := Option.some_inj.1 hstep
    by_cases hbracket : isBracket c = true
    · rw [liveBracket?_of_isBracket hbracket] at hpairs
      rw [inertFrames_of_isBracket hbracket]
      exact splitsAt_bracket hbracket hpairs
    · have hbracket : isBracket c = false := by simpa using hbracket
      obtain rfl := hkept (liveBracket?_of_not_isBracket hbracket _)
      exact splitsAt_code hbracket
  · obtain rfl := hkept (liveBracket?_eq_none hopen c)
    cases hcomment : inComment frames with
    | true => exact splitsAt_comment hstep hcomment (hharmless hcomment)
    | false => exact splitsAt_literal hstep hopen hcomment

end

/-- Up to the end of a list whose comments hold nothing it looks at, the splitter cuts at all commas that are in no
literal and in no brackets of the list. -/
theorem Reads.argumentPieces_eq (h : Reads rest frames brackets readings [] []) (halone : CommentsAlone frames)
    (hne : rest ≠ []) (hrest : Detached rest)
    (hcomments : ∀ r ∈ readings, inComment r.frames = true → Harmless r.char) :
    argumentPieces brackets.length (seen frames) (readings.map Reading.char) =
      (readings.splitOnP Reading.cuts).map (·.map Reading.char) := by
  generalize hends : ([] : List Frame) = ends at h
  generalize hlast : ([] : List Char) = last at h
  induction h with
  | done =>
    subst hends hlast
    rfl
  | @next frames frames' _ brackets brackets' _ c readings hstep hpairs hlater ih =>
    subst hends hlast
    have hrecurse := ih (halone.of_step hstep) (fun r hr => hcomments r (by simp [hr])) rfl rfl
    have hstep' : step frames c (readings.map Reading.char) = some frames' := by
      have hsame := step_of_detached hstep hlater.framesAfter_eq (.inl rfl) halone hne hrest detached_nil
        fun hquote _ hc => closesOnLine_append_of_closes hquote (by rwa [List.append_nil] at hc) rest
      rwa [List.append_nil] at hsame
    have hsplits := splitsAt_of_step hstep' hpairs (hcomments ⟨frames, brackets, c⟩ (by simp))
    rw [List.map_cons, hsplits, hrecurse, List.splitOnP_cons_eq_if_modifyHead]
    split
    · rfl
    · obtain ⟨p, ps, hps⟩ := List.exists_cons_of_ne_nil (List.splitOnP_ne_nil Reading.cuts readings)
      rw [hps]
      rfl

end Codemod.Source
