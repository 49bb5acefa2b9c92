import Codemod.Proofs.Source.Neutral

/-! How far literals, comments and the code of a template reach, told by their first characters. A reader
that goes by offsets meets just these cases. -/
namespace Codemod.Source

theorem extent?_append_eq {frames outer : List Frame} (hframes : frames ≠ []) (houter : outer ≠ [])
    (cs : List Char) : extent? (frames ++ outer) cs =
      (extent? frames cs).bind fun n => (extent? outer (cs.drop n)).map (· + n) := by
  cases hextent : extent? frames cs with
  | some n => exact (extent?_append hextent hframes outer).2 houter
  | none =>
    induction cs generalizing frames with
    | nil => rfl
    | cons c cs ih =>
      rw [extent?] at hextent ⊢
      rw [step_append hframes]
      cases hstep : step frames c cs with
      | none => rfl
      | some next =>
        rw [hstep] at hextent
        cases next with
        | nil => cases hextent
        | cons frame next =>
          have hnext := Option.map_eq_none_iff.1 hextent
          rw [Option.map_some, List.cons_append]
          dsimp only
          rw [← List.cons_append, ih (List.cons_ne_nil _ _) hnext]
          rfl

theorem isPrefixOf_pair (a b c : Char) (cs : List Char) :
    [a, b].isPrefixOf (c :: cs) = (decide (c = a) && cs.head? == some b) := by
  rw [Bool.eq_iff_iff]
  cases cs with
  | nil => simp [List.isPrefixOf]
  | cons d cs => simp [List.isPrefixOf, @eq_comm Char a c, @eq_comm Char b d]

theorem exists_of_isPrefixOf_pair {a b c : Char} {cs : List Char} (h : [a, b].isPrefixOf (c :: cs) = true) :
    c = a ∧ ∃ rest, cs = b :: rest := by
  obtain ⟨rfl, hhead⟩ : c = a ∧ cs.head? = some b := by simpa [isPrefixOf_pair] using h
  exact ⟨rfl, List.head?_eq_some_iff.1 hhead⟩

/-- A line comment reaches to the end of its line, or to that of the text. -/
theorem extent?_lineComment (cs : List Char) :
    extent? [.lineComment] cs = (Text.find? ['\n'] cs).map (· + 1) := by
  induction cs with
  | nil => rfl
  | cons c cs ih =>
    by_cases hc : c = '\n'
    · subst hc
      rfl
    · have hstep : step [.lineComment] c cs = some [.lineComment] := by simp [step, hc]
      have hbegins : ['\n'].isPrefixOf (c :: cs) = false := by
        simp [List.isPrefixOf, Ne.symm hc]
      rw [extent?_of_step hstep (by simp), ih, Text.find?, hbegins]
      rfl

theorem extent?_blockComment (cs : List Char) :
    extent? [.blockComment] cs = (Text.find? ['*', '/'] cs).map (· + 2) := by
  induction cs with
  | nil => rfl
  | cons c cs ih =>
    by_cases hc : ['*', '/'].isPrefixOf (c :: cs) = true
    · obtain ⟨rest, heq⟩ := List.isPrefixOf_iff_prefix.1 hc
      obtain ⟨rfl, rfl⟩ := List.cons.inj heq
      rfl
    · have hclose : ¬ (decide (c = '*') && cs.head? == some '/') = true := by rwa [← isPrefixOf_pair]
      have hstep : step [.blockComment] c cs = some [.blockComment] := by rw [step, if_neg hclose]
      rw [extent?_of_step hstep (by simp), ih, Text.find?, if_neg hc, Option.map_map, Option.map_map]
      rfl

/-! ## Literals on one line -/

/-- How far a literal in single or double quotes reaches, when it closes on its line. -/
def quotedExtent? (quote : Char) (cs : List Char) : Option Nat :=
  if closesOnLine quote cs then extent? [.quoted quote] cs else none

section
variable {quote : Char} (hquote : isQuote quote = true)
include hquote

theorem quotedExtent?_backslash (cs : List Char) :
    quotedExtent? quote ('\\' :: cs) = (quotedExtent? quote (cs.drop 1)).map (· + 2) := by
  rw [quotedExtent?, quotedExtent?, closesOnLine_backslash hquote]
  split
  · cases cs with
    | nil => rfl
    | cons c cs =>
      have hslash (cs : List Char) : step [.quoted quote] '\\' cs = some [.second, .quoted quote] := rfl
      have hsecond (cs : List Char) : step [.second, .quoted quote] c cs = some [.quoted quote] := rfl
      rw [extent?_of_step (hslash _) (by simp), extent?_of_step (hsecond _) (by simp), Option.map_map]
      rfl
  · rfl

theorem quotedExtent?_quote (cs : List Char) : quotedExtent? quote (quote :: cs) = some 1 := by
  have hslash : quote ≠ '\\' := by
    rintro rfl
    cases hquote
  rw [quotedExtent?, closesOnLine_cons hslash]
  simp [extent?, step, hslash]

theorem quotedExtent?_line (cs : List Char) : quotedExtent? quote ('\n' :: cs) = none := by
  have hline : quote ≠ '\n' := by
    rintro rfl
    cases hquote
  rw [quotedExtent?, closesOnLine_cons (by decide)]
  simp [Ne.symm hline]

omit hquote in
theorem quotedExtent?_other {c : Char} (hslash : c ≠ '\\') (hc : c ≠ quote) (hline : c ≠ '\n')
    (cs : List Char) : quotedExtent? quote (c :: cs) = (quotedExtent? quote cs).map (· + 1) := by
  have hstep : step [.quoted quote] c cs = some [.quoted quote] := by simp [step, hslash, hc]
  have hcloses : closesOnLine quote (c :: cs) = closesOnLine quote cs := by
    rw [closesOnLine_cons hslash, beq_false_of_ne hc, bne_iff_ne.2 hline, Bool.false_or, Bool.true_and]
  rw [quotedExtent?, quotedExtent?, hcloses, extent?_of_step hstep (by simp)]
  split <;> rfl

/-- A literal that closes on its line has an end. -/
theorem isSome_quotedExtent? {cs : List Char} (h : closesOnLine quote cs = true) :
    (quotedExtent? quote cs).isSome = true := by
  induction cs using closesOnLine.induct with
  | case1 => cases h
  | case2 d cs ih =>
    rw [quotedExtent?_backslash hquote, Option.isSome_map]
    exact ih h
  | case3 c cs hno ih =>
    by_cases hc : c = quote
    · rw [hc, quotedExtent?_quote hquote]
      rfl
    · by_cases hslash : c = '\\'
      · subst hslash
        rw [closesOnLine_backslash hquote] at h
        rw [quotedExtent?_backslash hquote, Option.isSome_map]
        cases cs with
        | nil => cases h
        | cons d cs => exact absurd rfl (hno d cs rfl)
      · have hrest : c ≠ '\n' ∧ closesOnLine quote cs = true := by
          simpa [closesOnLine_cons hslash, hc] using h
        rw [quotedExtent?_other hslash hc hrest.1, Option.isSome_map]
        exact ih hrest.2

end

/-! ## Templates -/

theorem extent?_template_backslash (cs : List Char) :
    extent? [.template] ('\\' :: cs) = (extent? [.template] (cs.drop 1)).map (· + 2) := by
  cases cs with
  | nil => rfl
  | cons c cs =>
    have hslash (cs : List Char) : step [.template] '\\' cs = some [.second, .template] := rfl
    have hsecond (cs : List Char) : step [.second, .template] c cs = some [.template] := rfl
    rw [extent?_of_step (hslash _) (by simp), extent?_of_step (hsecond _) (by simp), Option.map_map]
    rfl

/-- The code that a template holds reaches to its brace, and the template goes on behind it. -/
theorem extent?_template_code (cs : List Char) : extent? [.template] ('$' :: '{' :: cs) =
    (bracketExtent? '{' cs).bind fun n => (extent? [.template] (cs.drop n)).map (· + (n + 2)) := by
  have hdollar (cs : List Char) : step [.template] '$' ('{' :: cs) =
      some [.second, .bracket '}', .template] := rfl
  have hsecond (cs : List Char) : step [.second, .bracket '}', .template] '{' cs =
      some ([.bracket '}'] ++ [.template]) := rfl
  rw [extent?_of_step (hdollar _) (by simp), extent?_of_step (hsecond _) (by simp),
    extent?_append_eq (by simp) (by simp), Option.map_map, Option.map_bind]
  refine congrArg ((extent? [.bracket '}'] cs).bind ·) (funext fun n => ?_)
  rw [Function.comp_apply, Option.map_map]
  rfl

theorem extent?_template_other {c : Char} {cs : List Char} (hslash : c ≠ '\\')
    (hcode : ['$', '{'].isPrefixOf (c :: cs) = false) (hc : c ≠ '`') :
    extent? [.template] (c :: cs) = (extent? [.template] cs).map (· + 1) := by
  rw [isPrefixOf_pair] at hcode
  have hstep : step [.template] c cs = some [.template] := by 
    rw [step, if_neg hslash, hcode, if_neg Bool.false_ne_true, if_neg hc]
  exact extent?_of_step hstep (by simp)

/-! ## Under brackets -/

section
variable {stack : List Char} (hstack : stack ≠ []) {c : Char} {rest : List Char}
include hstack

/-- What a character opens under brackets. -/
theorem extent?_opens (hc : isBracket c = false) : extent? (bracketFrames stack) (c :: rest) =
    (extent? (inertFrames c rest ++ bracketFrames stack) rest).map (· + 1) := by
  obtain ⟨closing, outer, rfl⟩ := List.exists_cons_of_ne_nil hstack
  obtain ⟨hopen, hcloser⟩ : closer? c = none ∧ isCloser c = false := by simpa [isBracket] using hc
  have hstep : step (bracketFrames (closing :: outer)) c rest =
      some (inertFrames c rest ++ bracketFrames (closing :: outer)) := by
    simp [bracketFrames, step, hopen, hcloser]
  exact extent?_of_step hstep (by simp [bracketFrames])

theorem extent?_plain (hc : isBracket c = false) (hinert : inertFrames c rest = []) :
    extent? (bracketFrames stack) (c :: rest) = (extent? (bracketFrames stack) rest).map (· + 1) := by
  rw [extent?_opens hstack hc, hinert, List.nil_append]

/-- A literal or a comment is passed over. -/
theorem extent?_passed (hc : isBracket c = false) {frames : List Frame} (hinert : inertFrames c rest = frames)
    (hframes : frames ≠ []) : extent? (bracketFrames stack) (c :: rest) =
      (extent? frames rest).bind fun n => (extent? (bracketFrames stack) (rest.drop n)).map (· + (n + 1)) := by
  rw [extent?_opens hstack hc, hinert,
    extent?_append_eq hframes (mt bracketFrames_eq_nil_iff.1 hstack), Option.map_bind]
  refine congrArg ((extent? frames rest).bind ·) (funext fun n => ?_)
  rw [Function.comp_apply, Option.map_map]
  rfl

end

theorem extent?_opening {stack : List Char} {c closer : Char} (hc : closer? c = some closer) (rest : List Char)
    (hstack : stack ≠ []) : extent? (bracketFrames stack) (c :: rest) =
      (extent? (bracketFrames (closer :: stack)) rest).map (· + 1) := by
  obtain ⟨closing, outer, rfl⟩ := List.exists_cons_of_ne_nil hstack
  have hcloser : isCloser c = false := by
    by_contra hcloser
    rw [closer?_of_isCloser (by simpa using hcloser)] at hc
    cases hc
  have hstep : step (bracketFrames (closing :: outer)) c rest =
      some (bracketFrames (closer :: closing :: outer)) := by
    simp [bracketFrames, step, hc, hcloser]
  exact extent?_of_step hstep (by simp [bracketFrames])

theorem extent?_closer {c : Char} (hc : isCloser c = true) (closing : Char) (outer rest : List Char) :
    extent? (bracketFrames (closing :: outer)) (c :: rest) =
      if c = closing then
        if outer = [] then some 1 else (extent? (bracketFrames outer) rest).map (· + 1)
      else none := by
  have hstep : step (bracketFrames (closing :: outer)) c rest =
      if c = closing then some (bracketFrames outer) else none := if_pos hc
  by_cases heq : c = closing
  · rw [if_pos heq] at hstep ⊢
    by_cases houter : outer = []
    · subst houter
      rw [extent?, hstep]
      rfl
    · rw [if_neg houter, extent?_of_step hstep (mt bracketFrames_eq_nil_iff.1 houter)]
  · rw [if_neg heq] at hstep ⊢
    rw [extent?, hstep]

end Codemod.Source
