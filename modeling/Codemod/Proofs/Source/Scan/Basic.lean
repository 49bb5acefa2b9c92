import Codemod.Proofs.Source.Extent

/-! Literals and brackets read by offsets. The reader of frames takes one character after the other and has
no way to fail. A program that goes by offsets has: it looks up a character, the closer of a bracket, the
innermost bracket that is open, and its two loops, one over a literal and one over brackets, call each other
where a template holds code. Here every look-up can lapse, and so does each turn of a loop and each call of
the other loop that does not go on to a greater offset: a loop that would never come to an end stands still.
Neither loop lapses on any text, and they find what the reader of frames finds. -/
namespace Codemod.Source

/-- What can go wrong with a scan. -/
inductive Lapse where
  /-- A look-up finds nothing. -/
  | missing
  /-- The next offset is no greater than the present one. -/
  | standstill

/-- A scan of a text, which may lapse. That it returns a value without a lapse is said by an equation with
`pure`. -/
abbrev Scan (α : Type) := Except Lapse α

namespace Scan

def lookUp (found : Option α) : Scan α :=
  match found with
  | some a => pure a
  | none => throw .missing

/-- What is done at the offset `there`, provided that it is further on than `here`. -/
def advance (here there : Nat) (next : here < there → Scan α) : Scan α :=
  if h : here < there then next h else throw .standstill

@[simp] theorem lookUp_some (a : α) : lookUp (some a) = pure a := rfl

theorem advance_of_lt {here there : Nat} {next : here < there → Scan α} (h : here < there) :
    advance here there next = next h := dif_pos h

/-- The marks that a literal begins with. -/
def isLiteralMark (c : Char) : Bool := isQuote c || c == '`'

theorem eq_of_isLiteralMark {c : Char} (h : isLiteralMark c = true) : c = '\'' ∨ c = '"' ∨ c = '`' := by
  rcases Bool.or_eq_true_iff.1 h with h | h
  · exact (eq_of_isQuote h).imp_right .inl
  · exact .inr (.inr (beq_iff_eq.1 h))

/-- What is neither a mark nor the beginning of a comment opens nothing. -/
theorem inertFrames_eq_nil {c : Char} {rest : List Char} (hc : isLiteralMark c = false)
    (hline : ['/', '/'].isPrefixOf (c :: rest) = false) (hblock : ['/', '*'].isPrefixOf (c :: rest) = false) :
    inertFrames c rest = [] := by
  obtain ⟨hquote, htick⟩ : isQuote c = false ∧ c ≠ '`' := by simpa [isLiteralMark] using hc
  by_cases hslash : c = '/'
  · subst hslash
    rw [isPrefixOf_pair] at hline hblock
    cases rest with
    | nil => rfl
    | cons d rest =>
      have hd : d ≠ '/' ∧ d ≠ '*' := ⟨by simpa using hline, by simpa using hblock⟩
      simp [inertFrames, hd]
  · simp [inertFrames, hslash, quoteFrames, hquote, htick]

/-! ## The two loops

Each of the four functions may be entered once at an offset before the next offset is reached: the measures
count four for an offset. -/

mutual

/-- The offset after the literal that `quote` opens at `start`, when it has been read up to `pos`. -/
def literalFrom (text : List Char) (start : Nat) (quote : Char) (pos : Nat) : Scan Nat := do
  if pos < text.length then
    let c ← lookUp text[pos]?
    if c = '\\' then advance pos (pos + 2) fun _ => literalFrom text start quote (pos + 2)
    else if quote = '`' && ['$', '{'].isPrefixOf (text.drop pos) then
      advance start (pos + 1) fun _ => do
        match ← closing text (pos + 1) with
        | none => return text.length
        | some close => advance pos (close + 1) fun _ => literalFrom text start quote (close + 1)
    else if c = quote then return pos + 1
    else if c = '\n' && quote != '`' then return start + 1
    else advance pos (pos + 1) fun _ => literalFrom text start quote (pos + 1)
  else return if quote = '`' then text.length else start + 1
termination_by 4 * (text.length - pos)

/-- The offset after the literal whose first mark stands at `start`; the mark alone when it is plain text. -/
def literalEnd (text : List Char) (start : Nat) : Scan Nat := do
  let quote ← lookUp text[start]?
  literalFrom text start quote (start + 1)
termination_by 4 * (text.length - start) + 1

/-- The offset of the bracket that closes the one at `start`, when the text has been read up to `pos` and the
brackets `expected` are still to come, the innermost first. -/
def closingFrom (text : List Char) (start : Nat) (expected : List Char) (pos : Nat) :
    Scan (Option Nat) := do
  if pos < text.length then
    let c ← lookUp text[pos]?
    if isLiteralMark c then
      advance start pos fun _ => do
        let stop ← literalEnd text pos
        advance pos stop fun _ => closingFrom text start expected stop
    else if ['/', '/'].isPrefixOf (text.drop pos) then
      match Text.find? ['\n'] (text.drop pos) with
      | none => return none
      | some i => advance pos (pos + i + 1) fun _ => closingFrom text start expected (pos + i + 1)
    else if ['/', '*'].isPrefixOf (text.drop pos) then
      match Text.find? ['*', '/'] (text.drop (pos + 2)) with
      | none => return none
      | some i => advance pos (pos + 2 + i + 2) fun _ => closingFrom text start expected (pos + 2 + i + 2)
    else if (closer? c).isSome then
      let closer ← lookUp (closer? c)
      advance pos (pos + 1) fun _ => closingFrom text start (closer :: expected) (pos + 1)
    else if isCloser c then
      let innermost ← lookUp expected.head?
      if c = innermost then
        let outer ← lookUp expected.tail?
        if outer.isEmpty then return some pos
        else advance pos (pos + 1) fun _ => closingFrom text start outer (pos + 1)
      else return none
    else advance pos (pos + 1) fun _ => closingFrom text start expected (pos + 1)
  else return none
termination_by 4 * (text.length - pos) + 2

/-- The offset of the bracket that closes the one at `start`. -/
def closing (text : List Char) (start : Nat) : Scan (Option Nat) := do
  let opening ← lookUp text[start]?
  let closer ← lookUp (closer? opening)
  closingFrom text start [closer] (start + 1)
termination_by 4 * (text.length - start) + 3

end

/-! ## What they return -/

/-- The offset after the literal whose first mark stands at `start`; the mark alone when it is plain text. -/
def literalStop (text : List Char) (start : Nat) : Nat :=
  match text.drop start with
  | [] => start
  | quote :: rest =>
    match quoteFrames quote rest with
    | [] => start + 1
    | frames => ((extent? frames rest).map (start + 1 + ·)).getD text.length

/-- What the two loops return from offset `pos` on. -/
structure ReadsFrom (text : List Char) (pos : Nat) : Prop where
  quoted {start : Nat} {quote : Char} (hquote : isQuote quote = true) : literalFrom text start quote pos =
    pure (((quotedExtent? quote (text.drop pos)).map (pos + ·)).getD (start + 1))
  template {start : Nat} (hstart : start ≤ pos) : literalFrom text start '`' pos =
    pure (((extent? [.template] (text.drop pos)).map (pos + ·)).getD text.length)
  brackets {start : Nat} {stack : List Char} (hstart : start < pos) (hstack : stack ≠ []) :
    closingFrom text start stack pos =
      pure ((extent? (bracketFrames stack) (text.drop pos)).map (pos - 1 + ·))

variable {text rest : List Char} {start pos : Nat} {c : Char}

theorem lt_length_of_drop (h : text.drop pos = c :: rest) : pos < text.length := by
  have hlen := congrArg List.length h
  rw [List.length_drop, List.length_cons] at hlen
  omega

theorem getElem?_of_drop (h : text.drop pos = c :: rest) : text[pos]? = some c := by
  rw [← Nat.add_zero pos, ← List.getElem?_drop, h]
  rfl

theorem lookUp_of_drop (h : text.drop pos = c :: rest) : lookUp text[pos]? = pure c := by
  rw [getElem?_of_drop h, lookUp_some]

/-- Where a text goes on, a loop reads its next character. -/
theorem read_of_drop {next : Char → Scan α} {done : Scan α} (h : text.drop pos = c :: rest) :
    (if pos < text.length then lookUp text[pos]? >>= next else done) = next c := by
  rw [if_pos (lt_length_of_drop h), lookUp_of_drop h, pure_bind]

/-- Behind a text a loop is done. -/
theorem read_of_end {next done : Scan α} (h : text.drop pos = []) :
    (if pos < text.length then next else done) = done :=
  if_neg (Nat.not_lt.2 (List.drop_eq_nil_iff.1 h))

theorem drop_add_of_drop (h : text.drop pos = c :: rest) (n : Nat) :
    text.drop (pos + 1 + n) = rest.drop n := by
  rw [← List.drop_drop, ← List.drop_drop, h, List.drop_one, List.tail_cons]

theorem drop_succ_of_drop (h : text.drop pos = c :: rest) : text.drop (pos + 1) = rest :=
  drop_add_of_drop h 0

theorem literalStop_of_drop (h : text.drop pos = c :: rest) (hc : quoteFrames c rest = []) :
    literalStop text pos = pos + 1 := by
  rw [literalStop, h]
  dsimp only
  rw [hc]

theorem literalStop_of_frames (h : text.drop pos = c :: rest) (hc : quoteFrames c rest ≠ []) :
    literalStop text pos = ((extent? (quoteFrames c rest) rest).map (pos + 1 + ·)).getD text.length := by
  rw [literalStop, h]
  dsimp only
  split
  · next hnil => exact absurd hnil hc
  · rfl

theorem getD_extent? (h : text.drop pos = c :: rest) (n : Option Nat) :
    (n.map (pos + 1 + ·)).getD text.length = pos + 1 + n.getD rest.length := by
  have hlen := congrArg List.length h
  rw [List.length_drop, List.length_cons] at hlen
  cases n with
  | none =>
    rw [Option.map_none, Option.getD_none, Option.getD_none]
    omega
  | some n => rfl

/-- A literal ends behind its first mark and inside the text. -/
theorem lt_literalStop (h : text.drop pos = c :: rest) :
    pos < literalStop text pos ∧ literalStop text pos ≤ text.length := by
  have hlt := lt_length_of_drop h
  by_cases hc : quoteFrames c rest = []
  · rw [literalStop_of_drop h hc]
    omega
  · rw [literalStop_of_frames h hc]
    cases hextent : extent? (quoteFrames c rest) rest with
    | none => exact ⟨hlt, Nat.le_refl _⟩
    | some n =>
      have hlen := (extent?_le hextent).2
      rw [← drop_succ_of_drop h, List.length_drop] at hlen
      rw [Option.map_some, Option.getD_some]
      omega

/-! ## Literals -/

theorem readsFrom_end (h : text.drop pos = []) : ReadsFrom text pos := by
  refine ⟨fun hquote => ?_, fun _ => ?_, fun _ _ => ?_⟩
  · rename_i quote
    have hne : quote ≠ '`' := by
      rintro rfl
      cases hquote
    rw [literalFrom, read_of_end h, if_neg hne, h]
    rfl
  · rw [literalFrom, read_of_end h, h]
    rfl
  · rw [closingFrom, read_of_end h, h]
    rfl

theorem literalEnd_of_reads (h : text.drop pos = c :: rest) (hc : isLiteralMark c = true)
    (later : ReadsFrom text (pos + 1)) : literalEnd text pos = pure (literalStop text pos) := by
  rw [literalEnd, lookUp_of_drop h, pure_bind]
  by_cases hquote : isQuote c = true
  · rw [later.quoted hquote, drop_succ_of_drop h]
    by_cases hcloses : closesOnLine c rest = true
    · have hframes : quoteFrames c rest = [.quoted c] := by rw [quoteFrames, if_pos hquote, if_pos hcloses]
      obtain ⟨n, hn⟩ := Option.isSome_iff_exists.1 (isSome_quotedExtent? hquote hcloses)
      have hextent : extent? [.quoted c] rest = some n := by rwa [quotedExtent?, if_pos hcloses] at hn
      rw [literalStop_of_frames h (by simp [hframes]), hframes, hn, hextent]
      rfl
    · have hframes : quoteFrames c rest = [] := by rw [quoteFrames, if_pos hquote, if_neg hcloses]
      rw [literalStop_of_drop h hframes, quotedExtent?, if_neg hcloses]
      rfl
  · obtain rfl : c = '`' := by simpa [isLiteralMark, hquote] using hc
    rw [later.template (by omega), drop_succ_of_drop h]
    cases rest with
    | nil =>
      have hlen := List.drop_eq_nil_iff.1 (drop_succ_of_drop h)
      have hlt := lt_length_of_drop h
      rw [literalStop_of_drop h rfl, extent?, Option.map_none, Option.getD_none,
        show text.length = pos + 1 by omega]
    | cons d rest =>
      have hframes : quoteFrames '`' (d :: rest) = [.template] := rfl
      rw [literalStop_of_frames h (by simp [hframes]), hframes]

theorem closing_of_reads (h : text.drop pos = c :: rest) {closer : Char} (hc : closer? c = some closer)
    (later : ReadsFrom text (pos + 1)) : closing text pos = pure ((bracketExtent? c rest).map (pos + ·)) := by
  rw [closing, lookUp_of_drop h, pure_bind, hc, lookUp_some, pure_bind,
    later.brackets (by omega) (by simp), drop_succ_of_drop h, bracketExtent?, hc]
  rfl

/-- An extent counted from further on. -/
theorem map_map_add (n : Option Nat) (pos k : Nat) : (n.map (· + k)).map (pos + ·) = n.map (pos + k + ·) := by
  rw [Option.map_map]
  congr 1
  funext m
  rw [Function.comp_apply]
  omega

section
variable (h : text.drop pos = c :: rest) (later : ∀ p, pos < p → ReadsFrom text p)
include h later

theorem literalFrom_quoted {quote : Char} (hquote : isQuote quote = true) :
    literalFrom text start quote pos =
      pure (((quotedExtent? quote (text.drop pos)).map (pos + ·)).getD (start + 1)) := by
  have hne : quote ≠ '`' := by
    rintro rfl
    cases hquote
  rw [literalFrom, read_of_drop h, h]
  by_cases hslash : c = '\\'
  · rw [if_pos hslash, hslash, advance_of_lt (by omega), (later (pos + 2) (by omega)).quoted hquote,
      quotedExtent?_backslash hquote, map_map_add, drop_add_of_drop h 1]
  rw [if_neg hslash, if_neg (by simp [hne])]
  by_cases hc : c = quote
  · rw [if_pos hc, hc, quotedExtent?_quote hquote]
    rfl
  rw [if_neg hc]
  by_cases hline : c = '\n'
  · rw [if_pos (by simp [hline, hne]), hline, quotedExtent?_line hquote]
    rfl
  · rw [if_neg (by simp [hline]), advance_of_lt (by omega),
      (later (pos + 1) (by omega)).quoted hquote, quotedExtent?_other hslash hc hline, map_map_add,
      drop_succ_of_drop h]

theorem literalFrom_template (hstart : start ≤ pos) : literalFrom text start '`' pos =
    pure (((extent? [.template] (text.drop pos)).map (pos + ·)).getD text.length) := by
  rw [literalFrom, read_of_drop h, h]
  by_cases hslash : c = '\\'
  · rw [if_pos hslash, hslash, advance_of_lt (by omega), (later (pos + 2) (by omega)).template (by omega),
      extent?_template_backslash, map_map_add, drop_add_of_drop h 1]
  rw [if_neg hslash]
  by_cases hcode : ['$', '{'].isPrefixOf (c :: rest) = true
  · obtain ⟨rfl, cs, rfl⟩ := exists_of_isPrefixOf_pair hcode
    rw [if_pos (by simp), advance_of_lt (by omega),
      closing_of_reads (drop_succ_of_drop h) rfl (later (pos + 1 + 1) (by omega)), pure_bind,
      extent?_template_code]
    cases hextent : bracketExtent? '{' cs with
    | none => rfl
    | some n =>
      rw [Option.map_some]
      dsimp only
      rw [advance_of_lt (by omega), (later (pos + 1 + n + 1) (by omega)).template (by omega)]
      rw [Option.bind_some, map_map_add, show pos + 1 + n + 1 = pos + (n + 2) by omega,
        show pos + (n + 2) = pos + 1 + (n + 1) by omega, drop_add_of_drop h, List.drop_succ_cons]
  rw [if_neg (by simp [hcode])]
  by_cases hc : c = '`'
  · rw [if_pos hc, hc]
    rfl
  · rw [if_neg hc, if_neg (by simp), advance_of_lt (by omega),
      (later (pos + 1) (by omega)).template (by omega),
      extent?_template_other hslash (Bool.eq_false_iff.2 hcode) hc, map_map_add, drop_succ_of_drop h]

/-! ## Brackets -/

variable {stack : List Char} (hstart : start < pos) (hstack : stack ≠ [])
include hstart hstack

/-- The loop goes on behind what has been passed over. -/
theorem closingFrom_resume (n : Nat) : closingFrom text start stack (pos + 1 + n) =
    pure (((extent? (bracketFrames stack) (rest.drop n)).map (· + (n + 1))).map (pos - 1 + ·)) := by
  rw [(later _ (by omega)).brackets (by omega) hstack, drop_add_of_drop h, map_map_add,
    show pos + 1 + n - 1 = pos - 1 + (n + 1) by omega]

theorem closingFrom_literal (hc : isLiteralMark c = true) : closingFrom text start stack pos =
    pure ((extent? (bracketFrames stack) (c :: rest)).map (pos - 1 + ·)) := by
  have hstop := lt_literalStop h
  have hmark : isBracket c = false ∧ inertFrames c rest = quoteFrames c rest := by
    rcases eq_of_isLiteralMark hc with rfl | rfl | rfl <;> exact ⟨by decide, rfl⟩
  rw [closingFrom, read_of_drop h, if_pos hc, advance_of_lt hstart,
    literalEnd_of_reads h hc (later (pos + 1) (by omega)), pure_bind, advance_of_lt hstop.1]
  by_cases hframes : quoteFrames c rest = []
  · rw [literalStop_of_drop h hframes, extent?_plain hstack hmark.1 (hmark.2.trans hframes)]
    exact closingFrom_resume h later hstart hstack 0
  · rw [extent?_passed hstack hmark.1 hmark.2 hframes]
    cases hextent : extent? (quoteFrames c rest) rest with
    | none =>
      rw [(later _ hstop.1).brackets (by omega) hstack, literalStop_of_frames h hframes, hextent,
        Option.map_none, Option.getD_none, List.drop_length]
      rfl
    | some n =>
      rw [literalStop_of_frames h hframes, hextent]
      exact closingFrom_resume h later hstart hstack n

theorem closingFrom_comment (hc : isLiteralMark c = false)
    (hcomment : ['/', '/'].isPrefixOf (c :: rest) = true ∨ ['/', '*'].isPrefixOf (c :: rest) = true) :
    closingFrom text start stack pos =
      pure ((extent? (bracketFrames stack) (c :: rest)).map (pos - 1 + ·)) := by
  have hmark : ¬ isLiteralMark c = true := by simp [hc]
  rw [closingFrom, read_of_drop h, if_neg hmark, h]
  rcases hcomment with hline | hblock
  · rw [if_pos hline]
    obtain ⟨rfl, cs, rfl⟩ := exists_of_isPrefixOf_pair hline
    have hfind : Text.find? ['\n'] ('/' :: '/' :: cs) = (Text.find? ['\n'] ('/' :: cs)).map (· + 1) := rfl
    have hinert : inertFrames '/' ('/' :: cs) = [.lineComment] := rfl
    rw [extent?_passed hstack (by decide) hinert (by simp), extent?_lineComment, hfind]
    cases Text.find? ['\n'] ('/' :: cs) with
    | none => rfl
    | some j =>
      rw [Option.map_some]
      dsimp only
      rw [advance_of_lt (by omega), show pos + (j + 1) + 1 = pos + 1 + (j + 1) by omega]
      exact closingFrom_resume h later hstart hstack (j + 1)
  · obtain ⟨rfl, cs, rfl⟩ := exists_of_isPrefixOf_pair hblock
    have hinert : inertFrames '/' ('*' :: cs) = [.second, .blockComment] := rfl
    have hsecond : step [.second, .blockComment] '*' cs = some [.blockComment] := rfl
    rw [if_neg (by simp), if_pos hblock, drop_succ_of_drop (drop_succ_of_drop h),
      extent?_passed hstack (by decide) hinert (by simp), extent?_of_step hsecond (by simp), extent?_blockComment]
    cases Text.find? ['*', '/'] cs with
    | none => rfl
    | some j =>
      dsimp only
      rw [advance_of_lt (by omega), show pos + 2 + j + 2 = pos + 1 + (j + 2 + 1) by omega]
      exact closingFrom_resume h later hstart hstack (j + 2 + 1)

theorem closingFrom_code (hc : isLiteralMark c = false) (hline : ['/', '/'].isPrefixOf (c :: rest) = false)
    (hblock : ['/', '*'].isPrefixOf (c :: rest) = false) : closingFrom text start stack pos =
      pure ((extent? (bracketFrames stack) (c :: rest)).map (pos - 1 + ·)) := by
  rw [closingFrom, read_of_drop h, if_neg (by simp [hc]), h, if_neg (by simp [hline]), if_neg (by simp [hblock])]
  cases hopen : closer? c with
  | some closer =>
    rw [Option.isSome_some, if_pos rfl, lookUp_some, pure_bind, advance_of_lt (by omega),
      extent?_opening hopen rest hstack]
    exact closingFrom_resume h later hstart (List.cons_ne_nil closer stack) 0
  | none =>
    rw [if_neg (by simp)]
    by_cases hcloser : isCloser c = true
    · obtain ⟨innermost, outer, rfl⟩ := List.exists_cons_of_ne_nil hstack
      rw [if_pos hcloser, extent?_closer hcloser, List.head?_cons, lookUp_some, pure_bind]
      by_cases heq : c = innermost
      · rw [if_pos heq, if_pos heq, List.tail?_cons, lookUp_some, pure_bind]
        by_cases houter : outer = []
        · rw [if_pos (by simp [houter]), if_pos houter, Option.map_some, Nat.sub_add_cancel (by omega)]
        · rw [if_neg (by simpa using houter), if_neg houter, advance_of_lt (by omega)]
          exact closingFrom_resume h later hstart houter 0
      · rw [if_neg heq, if_neg heq]
        rfl
    · have hbracket : isBracket c = false := by simp [isBracket, hopen, hcloser]
      rw [if_neg hcloser, advance_of_lt (by omega),
        extent?_plain hstack hbracket (inertFrames_eq_nil hc hline hblock)]
      exact closingFrom_resume h later hstart hstack 0

end

/-- Both loops return, from every offset on. -/
theorem readsFrom (text : List Char) (pos : Nat) : ReadsFrom text pos := by
  -- a literal and a bracket are read on at a greater offset, so what is left of the text gets shorter
  induction hn : text.length - pos using Nat.strong_induction_on generalizing pos with
  | _ n ih =>
    cases h : text.drop pos with
    | nil => exact readsFrom_end h
    | cons c rest =>
      have hlen := lt_length_of_drop h
      have later (p : Nat) (hp : pos < p) : ReadsFrom text p := ih (text.length - p) (by omega) p rfl
      refine ⟨literalFrom_quoted h later, literalFrom_template h later, fun hstart hstack => ?_⟩
      rw [h]
      by_cases hc : isLiteralMark c = true
      · exact closingFrom_literal h later hstart hstack hc
      by_cases hcomment : ['/', '/'].isPrefixOf (c :: rest) = true ∨ ['/', '*'].isPrefixOf (c :: rest) = true
      · exact closingFrom_comment h later hstart hstack (by simpa using hc) hcomment
      · obtain ⟨hline, hblock⟩ := not_or.1 hcomment
        exact closingFrom_code h later hstart hstack (Bool.eq_false_iff.2 hc) (Bool.eq_false_iff.2 hline)
          (Bool.eq_false_iff.2 hblock)

end Scan
end Codemod.Source
