import Codemod.Proofs.Source.Inert

/-! Reading up to the beginning of a line. What a character opens can depend on the rest of its line, but
not on the lines behind, unless a backslash carries the line on. So the frames that are open at the
beginning of a line depend on what stands in front of it alone. -/
namespace Codemod.Source

/-- Nothing, or lines that end, the last of them not in a backslash. -/
def Lined (cs : List Char) : Prop := cs = [] ∨ ∃ line, cs = line ++ ['\n'] ∧ line.getLast? ≠ some '\\'

theorem getLast?_ne_of_cons {c : Char} {cs : List Char} (h : (c :: cs).getLast? ≠ some '\\') :
    cs.getLast? ≠ some '\\' := by
  cases cs with
  | nil => exact nofun
  | cons d cs => simpa using h

theorem closesOnLine_line {quote : Char} {line : List Char} (h : line.getLast? ≠ some '\\')
    (tail tail' : List Char) :
    closesOnLine quote (line ++ '\n' :: tail) = closesOnLine quote (line ++ '\n' :: tail') := by
  induction line using closesOnLine.induct with
  | case1 => simp [closesOnLine]
  | case2 d cs ih =>
    simp only [List.cons_append, closesOnLine]
    exact ih (getLast?_ne_of_cons (getLast?_ne_of_cons h))
  | case3 c cs hescaped ih =>
    have hc : c = '\\' → False := by
      rintro rfl
      cases cs with
      | nil => exact h rfl
      | cons d cs => exact hescaped d cs rfl rfl
    have hread (tail : List Char) : closesOnLine quote (c :: cs ++ '\n' :: tail) =
        (c == quote || (c != '\n' && closesOnLine quote (cs ++ '\n' :: tail))) := by
      rw [List.cons_append, closesOnLine]
      exact fun _ _ heq _ => hc heq
    rw [hread, hread, ih (getLast?_ne_of_cons h)]

/-- What a character opens depends on the rest of its line. -/
theorem step_line {c : Char} {line : List Char} (h : line.getLast? ≠ some '\\') (frames : List Frame)
    (tail tail' : List Char) :
    step frames c (line ++ '\n' :: tail) = step frames c (line ++ '\n' :: tail') := by
  have hhead : (line ++ '\n' :: tail).head? = (line ++ '\n' :: tail').head? := by cases line <;> rfl
  have hquote : quoteFrames c (line ++ '\n' :: tail) = quoteFrames c (line ++ '\n' :: tail') := by
    unfold quoteFrames
    rw [closesOnLine_line h tail tail']
    cases line <;> rfl
  have hinert : inertFrames c (line ++ '\n' :: tail) = inertFrames c (line ++ '\n' :: tail') := by
    unfold inertFrames
    rw [hquote]
    cases line with
    | nil => rfl
    | cons d line =>
      by_cases hslash : d = '/'
      · subst hslash
        rfl
      · by_cases hstar : d = '*'
        · subst hstar
          rfl
        · simp [hslash, hstar]
  unfold step
  rw [hhead, hinert]

theorem step_line_feed (frames : List Frame) (tail tail' : List Char) :
    step frames '\n' tail = step frames '\n' tail' := by
  have hinert (tail : List Char) : inertFrames '\n' tail = [] := rfl
  cases frames with
  | nil => rfl
  | cons frame outer => cases frame <;> rfl

/-- The frames at the beginning of a line depend on the lines in front of it. -/
theorem framesAfter_lined {cs : List Char} (h : Lined cs) (frames : List Frame) (tail tail' : List Char) :
    framesAfter frames cs tail = framesAfter frames cs tail' := by
  rcases h with rfl | ⟨line, rfl, hline⟩
  · rfl
  · induction line generalizing frames with
    | nil =>
      simp only [List.nil_append, framesAfter]
      rw [step_line_feed frames tail tail']
    | cons c line ih =>
      simp only [List.cons_append, framesAfter, List.append_assoc, List.nil_append]
      rw [step_line (getLast?_ne_of_cons hline) frames tail tail']
      exact congrArg _ (funext fun next => ih next (getLast?_ne_of_cons hline))

/-! ## Code at the beginning of a line -/

/-- No literal or comment is open behind the text. -/
def EndsInCode (front : List Char) : Prop := framesAfter [] front [] = some []

instance (front : List Char) : Decidable (EndsInCode front) :=
  inferInstanceAs (Decidable (framesAfter [] front [] = some []))

/-- Reading the text from code on leads to code again, whatever follows. -/
def ReadsOver (cs : List Char) : Prop := ∀ tail, framesAfter [] cs tail = some []

/-- No line of the text is carried on by a backslash, the last one included. -/
def WholeLines (text : List Char) : Prop := ¬ ['\\', '\n'] <:+: text ++ ['\n']

theorem endsInCode_iff {front : List Char} (h : Lined front) (tail : List Char) :
    framesAfter [] front tail = some [] ↔ EndsInCode front := by
  rw [framesAfter_lined h [] tail [], EndsInCode]

/-- Behind what reads over, the same lines lead to code. -/
theorem endsInCode_behind_iff {front cs between : List Char} (hfront : Lined front)
    (hcode : EndsInCode front) (hcs : ReadsOver cs) (hbetween : Lined between) (tail : List Char) :
    framesAfter [] (front ++ (cs ++ between)) tail = some [] ↔ EndsInCode between := by
  rw [framesAfter_append, (endsInCode_iff hfront _).2 hcode, Option.bind_some, framesAfter_append, hcs,
    Option.bind_some, endsInCode_iff hbetween]

theorem lined_of_isInfix {text cs : List Char} (h : WholeLines text) (hcs : cs <:+: text ++ ['\n'])
    (hend : cs = [] ∨ cs.getLast? = some '\n') : Lined cs := by
  rcases hend with rfl | hend
  · exact .inl rfl
  · obtain ⟨line, rfl⟩ := List.getLast?_eq_some_iff.1 hend
    refine .inr ⟨line, rfl, fun hline => h ?_⟩
    obtain ⟨init, rfl⟩ := List.getLast?_eq_some_iff.1 hline
    refine List.IsInfix.trans ⟨init, [], ?_⟩ hcs
    simp

/-- What stands behind something ends as the whole does. -/
theorem getLast?_behind {cs ds : List Char} (h : cs ++ ds = [] ∨ (cs ++ ds).getLast? = some '\n') :
    ds = [] ∨ ds.getLast? = some '\n' := by
  rcases List.eq_nil_or_concat ds with rfl | ⟨init, c, rfl⟩
  · exact .inl rfl
  · rw [List.concat_eq_append, ← List.append_assoc, List.getLast?_concat] at h
    rw [List.concat_eq_append, List.getLast?_concat]
    exact .inr (h.resolve_left (by simp))

end Codemod.Source
