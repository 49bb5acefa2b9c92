import Codemod.Proofs.Source.Nesting
import Codemod.Proofs.Source.Renamed

/-! Pieces of code that leave no trace: behind them the reader has open what it had open in front of them,
whatever brackets these are. A name is such a piece, a closed literal, and all that a pair of brackets
holds. -/
namespace Codemod.Source
open Text

/-! ## Reading under brackets -/

theorem bracketFrames_cons (closing : Char) (stack : List Char) :
    bracketFrames (closing :: stack) = .bracket closing :: bracketFrames stack := rfl

theorem bracketFrames_eq_nil_iff {stack : List Char} : bracketFrames stack = [] ↔ stack = [] :=
  List.map_eq_nil_iff

/-- A step under brackets is the step without them, but for the brackets themselves. -/
theorem step_brackets {frames next : List Frame} {stack : List Char} {c : Char} {rest : List Char}
    (h : step (frames ++ bracketFrames stack) c rest = some next) :
    ∃ frames' stack', step frames c rest = some frames' ∧ next = frames' ++ bracketFrames stack' ∧
      (stack ≠ [] → stack' = [] → frames' = []) := by
  by_cases hframes : frames = []
  · subst hframes
    rw [List.nil_append] at h
    cases stack with
    | nil =>
      refine ⟨inertFrames c rest, [], rfl, ?_, fun hne => absurd rfl hne⟩
      rw [bracketFrames, List.map_nil, List.append_nil]
      exact (Option.some_inj.1 h).symm
    | cons closing outer =>
      rw [bracketFrames_cons, step] at h
      by_cases hcloser : isCloser c = true
      · have hinert : inertFrames c rest = [] := inertFrames_of_isBracket (by simp [isBracket, hcloser]) rest
        rw [if_pos hcloser] at h
        obtain ⟨-, rfl⟩ := (Option.ite_none_right_eq_some.1 h).imp_right Option.some_inj.1
        exact ⟨[], outer, by rw [step, hinert], rfl, fun _ _ => rfl⟩
      · rw [if_neg hcloser] at h
        cases hopen : closer? c with
        | some inner =>
          have hinert : inertFrames c rest = [] := inertFrames_of_isBracket (by simp [isBracket, hopen]) rest
          rw [hopen] at h
          obtain rfl := Option.some_inj.1 h
          exact ⟨[], inner :: closing :: outer, by rw [step, hinert], rfl, fun _ _ => rfl⟩
        | none =>
          rw [hopen] at h
          obtain rfl := Option.some_inj.1 h
          exact ⟨inertFrames c rest, closing :: outer, rfl, rfl, fun _ hnil => absurd hnil (List.cons_ne_nil _ _)⟩
  · rw [step_append hframes] at h
    obtain ⟨frames', hstep, rfl⟩ := Option.map_eq_some_iff.1 h
    exact ⟨frames', stack, hstep, rfl, fun hne hnil => absurd hnil hne⟩

theorem framesAfter_brackets {cs rest : List Char} {frames next : List Frame} {stack : List Char}
    (h : framesAfter (frames ++ bracketFrames stack) cs rest = some next) :
    ∃ frames' stack', framesAfter frames cs rest = some frames' ∧
      next = frames' ++ bracketFrames stack' := by
  induction cs generalizing frames stack with
  | nil => exact ⟨frames, stack, rfl, (Option.some_inj.1 h).symm⟩
  | cons c cs ih =>
    rw [framesAfter] at h
    obtain ⟨mid, hmid, hnext⟩ := Option.bind_eq_some_iff.1 h
    obtain ⟨frames', stack', hstep, rfl, -⟩ := step_brackets hmid
    obtain ⟨frames'', stack'', hlast, rfl⟩ := ih hnext
    exact ⟨frames'', stack'', by rw [framesAfter, hstep, Option.bind_some, hlast], rfl⟩

/-- Where a step sees the same, it does so under brackets. -/
theorem step_brackets_eq {frames : List Frame} {c : Char} {rest rest' : List Char}
    (h : step frames c rest' = step frames c rest) (stack : List Char) :
    step (frames ++ bracketFrames stack) c rest' = step (frames ++ bracketFrames stack) c rest := by
  by_cases hframes : frames = []
  · subst hframes
    have hinert : inertFrames c rest' = inertFrames c rest := Option.some_inj.1 h
    cases stack with
    | nil => exact h
    | cons closing outer =>
      rw [List.nil_append, bracketFrames_cons, step, step, hinert]
  · rw [step_append hframes, step_append hframes, h]

/-! ## Where open frames end -/

/-- Up to the end of what is open, the frames are those that are open and something inside them. -/
theorem extent?_append {frames : List Frame} {cs : List Char} {n : Nat} (h : extent? frames cs = some n)
    (hframes : frames ≠ []) (outer : List Frame) :
    framesAfter (frames ++ outer) (cs.take n) (cs.drop n) = some outer ∧
      (outer ≠ [] → extent? (frames ++ outer) cs = (extent? outer (cs.drop n)).map (· + n)) := by
  induction cs generalizing frames n with
  | nil => cases h
  | cons c cs ih =>
    unfold extent? at h
    cases hstep : step frames c cs with
    | none => simp [hstep] at h
    | some next =>
      have hstep' : step (frames ++ outer) c cs = some (next ++ outer) := by
        rw [step_append hframes, hstep, Option.map_some]
      rw [hstep] at h
      cases next with
      | nil =>
        obtain rfl : 1 = n := Option.some_inj.1 h
        refine ⟨?_, fun houter => ?_⟩
        · simp [framesAfter, hstep']
        · cases outer with
          | nil => exact absurd rfl houter
          | cons frame outer => simp [extent?, hstep']
      | cons frame next =>
        obtain ⟨m, hm, rfl⟩ := Option.map_eq_some_iff.1 h
        obtain ⟨hreads, hpasses⟩ := ih hm (List.cons_ne_nil _ _)
        rw [List.take_succ_cons, List.drop_succ_cons]
        refine ⟨?_, fun houter => ?_⟩
        · rw [framesAfter, List.take_append_drop, hstep', Option.bind_some, hreads]
        · have hextent : extent? (frames ++ outer) (c :: cs) =
              (extent? (frame :: next ++ outer) cs).map (· + 1) := by
            simp [extent?, hstep']
          rw [hextent, hpasses houter, Option.map_map]
          rfl

/-! ## Pieces that are passed over -/

/-- Where `rest` follows, the piece takes the reader from the first frames to the others, whatever brackets
are open around them, and closes none of these. -/
structure Passes (frames next : List Frame) (piece rest : List Char) : Prop where
  reads : ∀ stack, framesAfter (frames ++ bracketFrames stack) piece rest = some (next ++ bracketFrames stack)
  extent : ∀ stack, stack ≠ [] → extent? (frames ++ bracketFrames stack) (piece ++ rest) =
    (extent? (next ++ bracketFrames stack) rest).map (· + piece.length)

/-- The piece is read in code without a trace: whatever brackets are open in front of it are open behind
it. -/
def Neutral (piece rest : List Char) : Prop := Passes [] [] piece rest

theorem passes_nil (frames : List Frame) (rest : List Char) : Passes frames frames [] rest :=
  ⟨fun _ => rfl, fun stack _ => by simp⟩

theorem Passes.append {frames mid next : List Frame} {piece piece' rest : List Char}
    (h : Passes frames mid piece (piece' ++ rest)) (h' : Passes mid next piece' rest) :
    Passes frames next (piece ++ piece') rest where
  reads stack := by rw [framesAfter_append, h.reads, Option.bind_some, h'.reads]
  extent stack hstack := by
    rw [List.append_assoc, h.extent stack hstack, h'.extent stack hstack, Option.map_map,
      List.length_append]
    congr 1
    funext n
    exact (Nat.add_assoc n _ _).trans (congrArg (n + ·) (Nat.add_comm _ _))

theorem Passes.framesAfter_eq {frames next : List Frame} {piece rest : List Char}
    (h : Passes frames next piece rest) : framesAfter frames piece rest = some next := by
  have hreads := h.reads []
  rwa [bracketFrames, List.map_nil, List.append_nil, List.append_nil] at hreads

theorem neutral_nil (rest : List Char) : Neutral [] rest := passes_nil [] rest

theorem Neutral.append {piece piece' rest : List Char} (h : Neutral piece (piece' ++ rest))
    (h' : Neutral piece' rest) : Neutral (piece ++ piece') rest := Passes.append h h'

theorem Neutral.reads_code {piece rest : List Char} (h : Neutral piece rest) :
    framesAfter [] piece rest = some [] := Passes.framesAfter_eq h

theorem extent?_of_step {frames next : List Frame} {c : Char} {rest : List Char}
    (h : step frames c rest = some next) (hnext : next ≠ []) :
    extent? frames (c :: rest) = (extent? next rest).map (· + 1) := by
  cases next with
  | nil => exact absurd rfl hnext
  | cons frame next => simp [extent?, h]

/-- A character that is no bracket does under brackets what it does without them, and so does any character
inside something. -/
theorem passes_char {frames next : List Frame} {c : Char} {rest : List Char}
    (h : step frames c rest = some next) (hc : frames ≠ [] ∨ isBracket c = false) :
    Passes frames next [c] rest := by
  have hstep (stack : List Char) :
      step (frames ++ bracketFrames stack) c rest = some (next ++ bracketFrames stack) := by
    by_cases hframes : frames = []
    · subst hframes
      obtain ⟨hopen, hcloser⟩ : closer? c = none ∧ isCloser c = false := by
        simpa [isBracket] using hc.resolve_left (fun hne => hne rfl)
      obtain rfl : inertFrames c rest = next := Option.some_inj.1 h
      cases stack with
      | nil => simp [bracketFrames, step]
      | cons closing outer => simp [bracketFrames, step, hopen, hcloser]
    · rw [step_append hframes, h, Option.map_some]
  refine ⟨fun stack => by simp [framesAfter, hstep], fun stack hstack => ?_⟩
  refine extent?_of_step (hstep stack) fun hnil => hstack ?_
  exact bracketFrames_eq_nil_iff.1 (List.append_eq_nil_iff.1 hnil).2

theorem neutral_plain {cs rest : List Char} (h : Plain cs rest) (hcs : ∀ c ∈ cs, isBracket c = false) :
    Neutral cs rest := by
  induction cs with
  | nil => exact neutral_nil rest
  | cons c cs ih =>
    have hfirst : Neutral [c] (cs ++ rest) :=
      passes_char (congrArg some h.1) (.inr (hcs c (by simp)))
    exact hfirst.append (ih h.2 fun d hd => hcs d (by simp [hd]))

/-- A quoted literal that closes on its line ends with its second quote. -/
theorem framesAfter_quoted {quote : Char} {body : List Char} (hbody : quote ∉ body)
    (h : closesOnLine quote (body ++ [quote]) = true) (hquote : isQuote quote = true) (outer : List Frame)
    (rest : List Char) :
    framesAfter (.quoted quote :: outer) (body ++ [quote]) rest = some outer ∧
      (outer ≠ [] → extent? (.quoted quote :: outer) (body ++ quote :: rest) =
        (extent? outer rest).map (· + (body.length + 1))) := by
  have hslash : quote ≠ '\\' := by
    rintro rfl
    cases hquote
  -- the induction follows `closesOnLine`, which takes a backslash and what it hides in one step
  induction body using closesOnLine.induct with
  | case1 =>
    have hstep (cs : List Char) : step (.quoted quote :: outer) quote cs = some outer := by
      simp [step, hslash]
    exact ⟨by simp [framesAfter, hstep], fun houter => extent?_of_step (hstep _) houter⟩
  | case2 d body ih =>
    have hd : d ≠ quote := fun hd => hbody (by simp [hd])
    obtain ⟨hreads, hpasses⟩ := ih (fun hm => hbody (by simp [hm])) h
    have hstep (cs : List Char) : step (.quoted quote :: outer) '\\' cs =
        some (.second :: .quoted quote :: outer) := rfl
    have hsecond (cs : List Char) : step (.second :: .quoted quote :: outer) d cs =
        some (.quoted quote :: outer) := rfl
    refine ⟨?_, fun houter => ?_⟩
    · simp only [List.cons_append, framesAfter, hstep, hsecond, Option.bind_some, hreads]
    · rw [List.cons_append, List.cons_append, extent?_of_step (hstep _) (List.cons_ne_nil _ _),
        extent?_of_step (hsecond _) (List.cons_ne_nil _ _), hpasses houter, Option.map_map, Option.map_map]
      rfl
  | case3 d body hno ih =>
    have hd : d ≠ quote := fun hd => hbody (by simp [hd])
    have hd' : d ≠ '\\' := by
      rintro rfl
      cases body with
      | nil => simp [closesOnLine] at h
      | cons e body => exact hno e body rfl rfl
    rw [List.cons_append, closesOnLine_cons hd'] at h
    obtain ⟨-, hrest⟩ : d ≠ '\n' ∧ closesOnLine quote (body ++ [quote]) = true := by
      simpa [hd] using h
    obtain ⟨hreads, hpasses⟩ := ih (fun hm => hbody (by simp [hm])) hrest
    have hstep (cs : List Char) : step (.quoted quote :: outer) d cs = some (.quoted quote :: outer) := by
      simp [step, hd, hd']
    refine ⟨?_, fun houter => ?_⟩
    · simp only [List.cons_append, framesAfter, hstep, Option.bind_some, hreads]
    · rw [List.cons_append, extent?_of_step (hstep _) (List.cons_ne_nil _ _), hpasses houter, Option.map_map]
      rfl

/-- A literal that closes does so whatever follows. -/
theorem closesOnLine_append_of_closes {quote : Char} (hquote : isQuote quote = true) {cs : List Char}
    (h : closesOnLine quote cs = true) (rest : List Char) : closesOnLine quote (cs ++ rest) = true := by
  induction cs using closesOnLine.induct with
  | case1 => cases h
  | case2 d cs ih => exact ih h
  | case3 c cs hno ih =>
    by_cases hc : c = '\\'
    · subst hc
      cases cs with
      | nil =>
        rw [closesOnLine_backslash hquote] at h
        cases h
      | cons d cs => exact absurd rfl (hno d cs rfl)
    · rw [closesOnLine_cons hc] at h
      rw [List.cons_append, closesOnLine_cons hc]
      rcases Bool.or_eq_true_iff.1 h with h | h
      · rw [h, Bool.true_or]
      · obtain ⟨hline, hrest⟩ := Bool.and_eq_true_iff.1 h
        rw [hline, ih hrest, Bool.true_and, Bool.or_true]

theorem eq_of_isQuote {quote : Char} (h : isQuote quote = true) : quote = '\'' ∨ quote = '"' :=
  (Bool.or_eq_true_iff.1 h).imp beq_iff_eq.1 beq_iff_eq.1

/-- A quote opens a literal in code exactly when that closes on its line. -/
theorem inertFrames_of_isQuote {quote : Char} (h : isQuote quote = true) (rest : List Char) :
    inertFrames quote rest = if closesOnLine quote rest then [.quoted quote] else [] := by
  have hslash : quote ≠ '/' := by
    rintro rfl
    cases h
  simp only [inertFrames, hslash, if_false, quoteFrames, h, if_true]

theorem neutral_quoted {quote : Char} (hquote : isQuote quote = true) {body : List Char}
    (hbody : quote ∉ body) (h : closesOnLine quote (body ++ [quote]) = true) (rest : List Char) :
    Neutral (quote :: (body ++ [quote])) rest := by
  have hinert : inertFrames quote ((body ++ [quote]) ++ rest) = [.quoted quote] := by
    rw [inertFrames_of_isQuote hquote, if_pos (closesOnLine_append_of_closes hquote h rest)]
  have hbracket : isBracket quote = false := by
    rcases eq_of_isQuote hquote with rfl | rfl <;> decide
  have hopens : Passes [] [.quoted quote] [quote] ((body ++ [quote]) ++ rest) :=
    passes_char (congrArg some hinert) (.inr hbracket)
  have hends : Passes [.quoted quote] [] (body ++ [quote]) rest := by
    refine ⟨fun stack => (framesAfter_quoted hbody h hquote _ rest).1, fun stack hstack => ?_⟩
    rw [List.append_assoc, List.singleton_append, List.length_append]
    exact (framesAfter_quoted hbody h hquote _ rest).2 (mt bracketFrames_eq_nil_iff.1 hstack)
  exact hopens.append hends

/-- A pair of braces with all that it holds. -/
theorem neutral_braced {inner rest : List Char}
    (h : bracketExtent? '{' (inner ++ rest) = some inner.length) : Neutral ('{' :: inner) rest := by
  have hextent : extent? (bracketFrames ['}']) (inner ++ rest) = some inner.length := h
  have hbracket : isBracket '{' = true := by decide
  have hopens (stack : List Char) : framesAfter (bracketFrames ('}' :: stack)) inner rest =
      some (bracketFrames stack) ∧ (stack ≠ [] → extent? (bracketFrames ('}' :: stack)) (inner ++ rest) =
        (extent? (bracketFrames stack) rest).map (· + inner.length)) := by
    obtain ⟨hreads, hpasses⟩ := extent?_append hextent (by simp [bracketFrames]) (bracketFrames stack)
    rw [List.take_left, List.drop_left] at hreads
    rw [List.drop_left] at hpasses
    exact ⟨hreads, fun hne => hpasses (mt bracketFrames_eq_nil_iff.1 hne)⟩
  have hstep (closing : Char) (outer cs : List Char) : step (bracketFrames (closing :: outer)) '{' cs =
      some (bracketFrames ('}' :: closing :: outer)) := rfl
  have hreads (stack : List Char) :
      framesAfter (bracketFrames stack) ('{' :: inner) rest = some (bracketFrames stack) := by
    cases stack with
    | nil =>
      -- outside all brackets the braces are not kept in mind, but what they hold is read the same way
      obtain ⟨frames, stack, hframes, heq⟩ := framesAfter_brackets
        (show framesAfter ([] ++ bracketFrames ['}']) inner rest = some [] from (hopens []).1)
      obtain rfl : frames = [] := (List.append_eq_nil_iff.1 heq.symm).1
      exact hframes
    | cons closing outer => rw [framesAfter, hstep, Option.bind_some, (hopens (closing :: outer)).1]
  refine ⟨hreads, fun stack hstack => ?_⟩
  obtain ⟨closing, outer, rfl⟩ := List.exists_cons_of_ne_nil hstack
  rw [List.nil_append, List.cons_append, extent?_of_step (hstep closing outer _) (by simp [bracketFrames]),
    (hopens _).2 hstack, Option.map_map]
  rfl

end Codemod.Source
