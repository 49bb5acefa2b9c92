import Codemod.Proofs.Source.Inert
import Mathlib.Data.Nat.Find
import Mathlib.Order.Bounds.Basic

/-! The bracket matcher finds what the nesting of brackets says. The matcher and the marks of a text are
two runs of one reader, the matcher with its open brackets below the frames that the marks are made
from; so the brackets it counts are the live ones, and it stops where they first close. -/
namespace Codemod.Source

def isBracket (c : Char) : Bool := (closer? c).isSome || isCloser c

/-- Properly nested brackets. -/
inductive Nested : List Char → Prop where
  | nil : Nested []
  | wrap {opening closing : Char} {inner rest : List Char} : closer? opening = some closing →
      Nested inner → Nested rest → Nested (opening :: inner ++ closing :: rest)

/-- The live brackets of a text from offset `low` to `high`, both included. -/
def liveBrackets (text : List Char) (low high : Nat) : List Char :=
  (List.range' low (high + 1 - low)).filterMap fun i =>
    if Covered text i then none else text[i]?.filter isBracket

/-- The live brackets from `low` to `high` are properly nested, and the last of them closes at
`high`. -/
structure Closes (text : List Char) (low high : Nat) : Prop where
  above : low < high
  live : ¬ Covered text high
  closer : ∃ c, text[high]? = some c ∧ isCloser c = true
  nested : Nested (liveBrackets text low high)

/-- The offset of the bracket that the matcher pairs with the one at offset `o`. -/
def closingAt? (text : List Char) (o : Nat) : Option Nat :=
  text[o]?.bind fun c => (bracketExtent? c (text.drop (o + 1))).map (o + ·)

/-! ## Words of brackets -/

theorem isCloser_of_closer? {opening closing : Char} (h : closer? opening = some closing) :
    isCloser closing = true := by
  unfold closer? at h
  split at h <;> cases h <;> rfl

theorem closer?_of_isCloser {c : Char} (h : isCloser c = true) : closer? c = none := by
  simp only [isCloser, Bool.or_eq_true, beq_iff_eq] at h
  rcases h with (h | h) | h <;> subst h <;> rfl

/-- What is left to close after a word of brackets, innermost first; none when a bracket is closed
that is not the innermost one. -/
def leftOpen (stack : List Char) : List Char → Option (List Char)
  | [] => some stack
  | c :: word =>
    match closer? c with
    | some closing => leftOpen (closing :: stack) word
    | none =>
      match stack with
      | [] => none
      | closing :: outer => if c = closing then leftOpen outer word else none

theorem leftOpen_opening {opening closing : Char} (h : closer? opening = some closing)
    (stack word : List Char) :
    leftOpen stack (opening :: word) = leftOpen (closing :: stack) word := by
  simp [leftOpen, h]

theorem leftOpen_closing {c : Char} (h : isCloser c = true) (closing : Char)
    (stack word : List Char) :
    leftOpen (closing :: stack) (c :: word) = if c = closing then leftOpen stack word else none := by
  simp [leftOpen, closer?_of_isCloser h]

theorem leftOpen_append (stack first second : List Char) :
    leftOpen stack (first ++ second) = (leftOpen stack first).bind fun s => leftOpen s second := by
  induction first generalizing stack with
  | nil => rfl
  | cons c first ih =>
    simp only [List.cons_append, leftOpen]
    split
    · exact ih _
    · split
      · rfl
      · split
        · exact ih _
        · rfl

/-- A properly nested word leaves what is open as it was. -/
theorem leftOpen_of_nested {word : List Char} (h : Nested word) (stack rest : List Char) :
    leftOpen stack (word ++ rest) = leftOpen stack rest := by
  induction h generalizing stack rest with
  | nil => rfl
  | @wrap opening closing inner outer hc _ _ hinner houter =>
    rw [List.append_assoc, List.cons_append, List.cons_append, leftOpen_opening hc, hinner,
      leftOpen_closing (isCloser_of_closer? hc), if_pos rfl, houter]

/-- A word that closes the brackets of the stack one after the other, with nested words between. -/
def Unwinds : (stack word : List Char) → Prop
  | [], word => Nested word
  | closing :: stack, word => ∃ inner rest,
      word = inner ++ closing :: rest ∧ Nested inner ∧ Unwinds stack rest

theorem unwinds_opening {opening closing : Char} (h : closer? opening = some closing)
    {stack word : List Char} (hw : Unwinds (closing :: stack) word) :
    Unwinds stack (opening :: word) := by
  obtain ⟨inner, rest, rfl, hinner, hrest⟩ := hw
  cases stack with
  | nil => exact .wrap h hinner hrest
  | cons next stack =>
    obtain ⟨middle, last, rfl, hmiddle, hlast⟩ := hrest
    exact ⟨opening :: inner ++ closing :: middle, last, by simp, .wrap h hinner hmiddle, hlast⟩

theorem unwinds_of_leftOpen {stack word : List Char} (h : leftOpen stack word = some []) :
    Unwinds stack word := by
  induction word generalizing stack with
  | nil =>
    obtain rfl : stack = [] := by simpa [leftOpen] using h
    exact .nil
  | cons c word ih =>
    cases hc : closer? c with
    | some closing =>
      rw [leftOpen_opening hc] at h
      exact unwinds_opening hc (ih h)
    | none =>
      cases stack with
      | nil => simp [leftOpen, hc] at h
      | cons closing outer =>
        simp only [leftOpen, hc] at h
        split at h
        · next heq => exact ⟨[], word, by simp [heq], .nil, ih h⟩
        · cases h

theorem nested_iff {word : List Char} : Nested word ↔ leftOpen [] word = some [] := by
  constructor
  · intro h
    have hopen := leftOpen_of_nested h [] []
    rwa [List.append_nil] at hopen
  · intro h
    exact unwinds_of_leftOpen h

/-! ## The matcher against the marks -/

/-- The bracket a character stands for, when it is live. -/
def liveBracket? (p : Char × Mark) : Option Char :=
  if p.2 = .live && isBracket p.1 then some p.1 else none

/-- The live brackets of characters with their marks. -/
def bracketWord (cs : List Char) (marks : List Mark) : List Char :=
  (cs.zip marks).filterMap liveBracket?

theorem bracketWord_cons (c : Char) (cs : List Char) (m : Mark) (marks : List Mark) :
    bracketWord (c :: cs) (m :: marks) = (liveBracket? (c, m)).toList ++ bracketWord cs marks := by
  simp only [bracketWord, List.zip_cons_cons, List.filterMap_cons]
  cases liveBracket? (c, m) <;> rfl

theorem bracketWord_insides (cs rest : List Char) :
    bracketWord cs (rest.map fun _ => Mark.inside) = [] := by
  refine List.filterMap_eq_nil_iff.2 fun p hp => ?_
  obtain ⟨_, h⟩ := List.of_mem_zip hp
  simp only [List.mem_map] at h
  obtain ⟨_, _, h⟩ := h
  simp [liveBracket?, ← h]

/-- The brackets of a stack as frames. -/
def bracketFrames (stack : List Char) : List Frame := stack.map .bracket

/-- Inside a literal or comment the brackets further out play no part. -/
theorem step_append {frames : List Frame} (h : frames ≠ []) (outer : List Frame) (c : Char)
    (rest : List Char) :
    step (frames ++ outer) c rest = (step frames c rest).map (· ++ outer) := by
  cases frames with
  | nil => exact absurd rfl h
  | cons frame frames =>
    cases frame <;> simp only [List.cons_append, step, Option.map_some]
    case bracket closer =>
      split
      · split <;> rfl
      · split
        · rfl
        · simp
    all_goals (split <;> (try split) <;> (try split) <;> rfl)

theorem inertFrames_of_isBracket {c : Char} (h : isBracket c = true) (rest : List Char) :
    inertFrames c rest = [] := by
  have hc : c = '(' ∨ c = '[' ∨ c = '{' ∨ c = ')' ∨ c = ']' ∨ c = '}' := by
    unfold isBracket closer? isCloser at h
    split at h <;> simp_all
    tauto
  rcases hc with rfl | rfl | rfl | rfl | rfl | rfl <;> simp [inertFrames, quoteFrames, isQuote]

/-- While a frame of the marks is open, a character is no live bracket. -/
theorem liveBracket?_eq_none {frames next : List Frame} (h : frames ≠ []) (c : Char) :
    liveBracket? (c, markOf frames next c) = none := by
  by_cases hlive : markOf frames next c = .live
  · rcases markOf_eq_live_iff.1 hlive with ⟨hnil, -⟩ | ⟨-, rfl⟩
    · exact absurd hnil h
    · simp [liveBracket?, isBracket, closer?, isCloser]
  · simp [liveBracket?, hlive]

/-- Where no frame is open a character is a live bracket when it is a bracket at all. -/
theorem liveBracket?_of_isBracket {c : Char} (h : isBracket c = true) (rest : List Char) :
    liveBracket? (c, markOf [] (inertFrames c rest) c) = some c := by
  simp [liveBracket?, markOf, inertFrames_of_isBracket h, h]

theorem liveBracket?_of_not_isBracket {c : Char} (h : isBracket c = false) (m : Mark) :
    liveBracket? (c, m) = none := by
  simp [liveBracket?, h]

/-- The word of live brackets first closes the stack after `n` characters. -/
def FirstCloses (stack cs : List Char) (marks : List Mark) (n : Nat) : Prop :=
  leftOpen stack (bracketWord (cs.take n) marks) = some [] ∧
    ∀ m < n, leftOpen stack (bracketWord (cs.take m) marks) ≠ some []

theorem not_firstCloses_zero {stack : List Char} (h : stack ≠ []) (cs : List Char)
    (marks : List Mark) : ¬ FirstCloses stack cs marks 0 := by
  intro hf
  exact h (by simpa [bracketWord, leftOpen] using hf.1)

/-- One character further: it is the first to close the stack when the rest is for what it leaves. -/
theorem firstCloses_succ {stack next : List Char} {c : Char} {cs : List Char} {m : Mark}
    {marks : List Mark} {n : Nat} (h : stack ≠ [])
    (hnext : leftOpen stack (liveBracket? (c, m)).toList = some next) :
    FirstCloses stack (c :: cs) (m :: marks) (n + 1) ↔ FirstCloses next cs marks n := by
  have hword (k : Nat) : leftOpen stack (bracketWord ((c :: cs).take (k + 1)) (m :: marks)) =
      leftOpen next (bracketWord (cs.take k) marks) := by
    rw [List.take_succ_cons, bracketWord_cons, leftOpen_append, hnext, Option.bind_some]
  constructor
  · intro hf
    refine ⟨hword n ▸ hf.1, fun k hk => ?_⟩
    rw [← hword]
    exact hf.2 (k + 1) (by omega)
  · intro hf
    refine ⟨(hword n).symm ▸ hf.1, fun k hk => ?_⟩
    cases k with
    | zero => simpa [bracketWord, leftOpen] using h
    | succ k =>
      rw [hword]
      exact hf.2 k (by omega)

/-- A reader that goes on with what the live brackets leave open goes on with the matcher. -/
theorem extent?_cons_iff {frames next : List Frame} {stack left : List Char} {c : Char}
    {rest : List Char} {m : Mark} {marks : List Mark} (h : stack ≠ [])
    (hleft : leftOpen stack (liveBracket? (c, m)).toList = some left)
    (hstep : step frames c rest = some next) (hnext : next ≠ [])
    (ih : ∀ n, extent? next rest = some n ↔ FirstCloses left rest marks n) (n : Nat) :
    extent? frames (c :: rest) = some n ↔ FirstCloses stack (c :: rest) (m :: marks) n := by
  have hextent : extent? frames (c :: rest) = (extent? next rest).map (· + 1) := by
    cases next with
    | nil => exact absurd rfl hnext
    | cons frame next => simp [extent?, hstep]
  rw [hextent]
  cases n with
  | zero =>
    simp only [Option.map_eq_some_iff, Nat.add_eq_zero_iff, Nat.one_ne_zero, and_false, exists_const,
      false_iff]
    exact not_firstCloses_zero h _ _
  | succ n =>
    rw [firstCloses_succ h hleft, ← ih n]
    simp

theorem extent?_last_iff {frames : List Frame} {stack : List Char} {c : Char} {rest : List Char}
    {m : Mark} {marks : List Mark} (h : stack ≠ [])
    (hleft : leftOpen stack (liveBracket? (c, m)).toList = some [])
    (hstep : step frames c rest = some []) (n : Nat) :
    extent? frames (c :: rest) = some n ↔ FirstCloses stack (c :: rest) (m :: marks) n := by
  have hextent : extent? frames (c :: rest) = some 1 := by simp [extent?, hstep]
  have hword (k : Nat) : leftOpen stack (bracketWord ((c :: rest).take (k + 1)) (m :: marks)) =
      leftOpen [] (bracketWord (rest.take k) marks) := by
    rw [List.take_succ_cons, bracketWord_cons, leftOpen_append, hleft, Option.bind_some]
  have hone : leftOpen stack (bracketWord ((c :: rest).take 1) (m :: marks)) = some [] := hword 0
  rw [hextent, Option.some_inj]
  constructor
  · rintro rfl
    refine ⟨hone, fun k hk => ?_⟩
    obtain rfl : k = 0 := by omega
    simpa [bracketWord, leftOpen] using h
  · intro hf
    have hzero : n ≠ 0 := by
      rintro rfl
      exact not_firstCloses_zero h _ _ hf
    by_contra hn
    exact hf.2 1 (by omega) hone

theorem extent?_stuck_iff {frames : List Frame} {stack : List Char} {c : Char} {rest : List Char}
    {m : Mark} {marks : List Mark} (h : stack ≠ [])
    (hleft : leftOpen stack (liveBracket? (c, m)).toList = none)
    (hstep : step frames c rest = none) (n : Nat) :
    extent? frames (c :: rest) = some n ↔ FirstCloses stack (c :: rest) (m :: marks) n := by
  have hextent : extent? frames (c :: rest) = none := by simp [extent?, hstep]
  rw [hextent]
  refine iff_of_false (by simp) fun hf => ?_
  cases n with
  | zero => exact not_firstCloses_zero h _ _ hf
  | succ n =>
    have hclosed := hf.1
    rw [List.take_succ_cons, bracketWord_cons, leftOpen_append, hleft] at hclosed
    cases hclosed

/-- The matcher on `rest`, whatever it has open, stops where the live brackets close that. -/
def Agrees (rest : List Char) : Prop :=
  ∀ (frames : List Frame) {stack : List Char}, stack ≠ [] → ∀ n,
    extent? (frames ++ bracketFrames stack) rest = some n ↔
      FirstCloses stack rest (marksFrom frames rest) n

theorem extent?_closer_iff {c closing : Char} {outer rest : List Char} (hcloser : isCloser c = true)
    (ih : Agrees rest) (n : Nat) :
    extent? (bracketFrames (closing :: outer)) (c :: rest) = some n ↔
      FirstCloses (closing :: outer) (c :: rest) (marksFrom [] (c :: rest)) n := by
  have hb : isBracket c = true := by simp [isBracket, hcloser]
  have hleft : leftOpen (closing :: outer)
      (liveBracket? (c, markOf [] (inertFrames c rest) c)).toList =
        if c = closing then some outer else none := by
    rw [liveBracket?_of_isBracket hb, Option.toList_some, leftOpen_closing hcloser]
    rfl
  have hmarks : marksFrom [] (c :: rest) =
      markOf [] (inertFrames c rest) c :: marksFrom [] rest := by
    rw [marksFrom, step, inertFrames_of_isBracket hb]
  have hopen : closing :: outer ≠ [] := List.cons_ne_nil _ _
  have hstep : step (bracketFrames (closing :: outer)) c rest =
      if c = closing then some (bracketFrames outer) else none := if_pos hcloser
  rw [hmarks]
  by_cases hc : c = closing
  · rw [if_pos hc] at hleft hstep
    cases outer with
    | nil => exact extent?_last_iff hopen hleft hstep n
    | cons next outer =>
      have hrest := ih [] (List.cons_ne_nil next outer)
      exact extent?_cons_iff hopen hleft hstep (by simp [bracketFrames]) hrest n
  · rw [if_neg hc] at hleft hstep
    exact extent?_stuck_iff hopen hleft hstep n

theorem extent?_code_iff {c closing : Char} {outer rest : List Char} (hcloser : isCloser c = false)
    (ih : Agrees rest) (n : Nat) :
    extent? (bracketFrames (closing :: outer)) (c :: rest) = some n ↔
      FirstCloses (closing :: outer) (c :: rest) (marksFrom [] (c :: rest)) n := by
  have hmarks : marksFrom [] (c :: rest) =
      markOf [] (inertFrames c rest) c :: marksFrom (inertFrames c rest) rest := rfl
  have hopen : closing :: outer ≠ [] := List.cons_ne_nil _ _
  rw [hmarks]
  cases hc : closer? c with
  | some inner =>
    have hb : isBracket c = true := by simp [isBracket, hc]
    have hleft : leftOpen (closing :: outer)
        (liveBracket? (c, markOf [] (inertFrames c rest) c)).toList =
          some (inner :: closing :: outer) := by
      rw [liveBracket?_of_isBracket hb, Option.toList_some, leftOpen_opening hc]
      rfl
    have hstep : step (bracketFrames (closing :: outer)) c rest =
        some (bracketFrames (inner :: closing :: outer)) := by
      simp [step, hcloser, hc, bracketFrames]
    have hrest := ih [] (List.cons_ne_nil inner (closing :: outer))
    rw [inertFrames_of_isBracket hb] at hleft ⊢
    exact extent?_cons_iff hopen hleft hstep (by simp [bracketFrames]) hrest n
  | none =>
    have hb : isBracket c = false := by simp [isBracket, hc, hcloser]
    have hleft : leftOpen (closing :: outer)
        (liveBracket? (c, markOf [] (inertFrames c rest) c)).toList = some (closing :: outer) := by
      rw [liveBracket?_of_not_isBracket hb]
      rfl
    have hstep : step (bracketFrames (closing :: outer)) c rest =
        some (inertFrames c rest ++ bracketFrames (closing :: outer)) := by
      simp [step, hcloser, hc, bracketFrames]
    exact extent?_cons_iff hopen hleft hstep (by simp [bracketFrames]) (ih _ hopen) n

/-- Frames of a literal or comment move the same way in both runs, and no character under them is a
live bracket. -/
theorem extent?_inert_iff {frames : List Frame} {stack : List Char} {c : Char} {rest : List Char}
    (hframes : frames ≠ []) (h : stack ≠ []) (ih : Agrees rest) (n : Nat) :
    extent? (frames ++ bracketFrames stack) (c :: rest) = some n ↔
      FirstCloses stack (c :: rest) (marksFrom frames (c :: rest)) n := by
  have happend := step_append hframes (bracketFrames stack) c rest
  unfold marksFrom
  cases hstep : step frames c rest with
  | some next =>
    rw [hstep, Option.map_some] at happend
    refine extent?_cons_iff h ?_ happend (by simp [bracketFrames, h]) (ih next h) n
    rw [liveBracket?_eq_none hframes]
    rfl
  | none =>
    rw [hstep] at happend
    have hword (k : Nat) : bracketWord ((c :: rest).take k)
        (.inside :: rest.map fun _ => .inside) = [] :=
      bracketWord_insides _ (c :: rest)
    have hnone : extent? (frames ++ bracketFrames stack) (c :: rest) = none := by
      simp [extent?, happend]
    rw [hnone]
    refine iff_of_false (by simp) fun hf => h ?_
    have hopen := hf.1
    rw [hword] at hopen
    simpa [leftOpen] using hopen

theorem agrees (cs : List Char) : Agrees cs := by
  induction cs with
  | nil =>
    intro frames stack h n
    have hopen : leftOpen stack [] ≠ some [] := by simpa [leftOpen] using h
    simp [extent?, FirstCloses, bracketWord, hopen]
  | cons c rest ih =>
    intro frames stack h n
    by_cases hframes : frames = []
    · obtain ⟨closing, outer, rfl⟩ := List.exists_cons_of_ne_nil h
      subst hframes
      cases hcloser : isCloser c with
      | true => exact extent?_closer_iff hcloser ih n
      | false => exact extent?_code_iff hcloser ih n
    · exact extent?_inert_iff hframes h ih n

/-! ## Brackets of a text -/

theorem range'_filterMap {α β : Type} (l : List α) (g : α → Option β) (start k : Nat) :
    (List.range' start k).filterMap (fun i => l[i]?.bind g) = ((l.drop start).take k).filterMap g := by
  induction k generalizing start with
  | zero => simp
  | succ k ih =>
    rw [List.range'_succ, List.filterMap_cons, ih]
    cases hi : l[start]? with
    | none =>
      have hlen : l.length ≤ start := List.getElem?_eq_none_iff.1 hi
      simp [List.drop_eq_nil_of_le hlen, List.drop_eq_nil_of_le (Nat.le_succ_of_le hlen)]
    | some x =>
      obtain ⟨hlt, rfl⟩ := List.getElem?_eq_some_iff.1 hi
      rw [List.drop_eq_getElem_cons hlt, List.take_succ_cons, List.filterMap_cons]
      rfl

theorem zip_take_left {α β : Type} (l : List α) (m : List β) (k : Nat) :
    (l.take k).zip m = (l.zip m).take k := by
  induction k generalizing l m with
  | zero => simp
  | succ k ih =>
    cases l with
    | nil => simp
    | cons x l =>
      cases m with
      | nil => simp
      | cons y m => simp [ih]

/-- The live brackets between two offsets, read off the characters with their marks. -/
theorem liveBrackets_eq (text : List Char) (low high : Nat) :
    liveBrackets text low high =
      bracketWord ((text.drop low).take (high + 1 - low)) ((marks text).drop low) := by
  have hpick (i : Nat) : (if Covered text i then none else text[i]?.filter isBracket) =
      ((text.zip (marks text))[i]?).bind liveBracket? := by
    by_cases hi : i < text.length
    · have hm : i < (marks text).length := by simpa using hi
      have hz : i < (text.zip (marks text)).length := by simpa using hi
      have hlive := not_covered_iff hi
      rw [List.getElem?_eq_getElem hm] at hlive
      rw [List.getElem?_eq_getElem hz, List.getElem_zip, List.getElem?_eq_getElem hi]
      by_cases hc : Covered text i
      · have hmark : (marks text)[i] ≠ .live := fun h => hlive.2 (congrArg some h) hc
        simp [hc, liveBracket?, hmark]
      · have hmark : (marks text)[i] = .live := Option.some_inj.1 (hlive.1 hc)
        by_cases hb : isBracket text[i] <;> simp [hc, liveBracket?, hmark, hb]
    · have hout : text.length ≤ i := Nat.le_of_not_lt hi
      have hz : (text.zip (marks text)).length ≤ i := by simpa using hout
      simp [List.getElem?_eq_none hout, List.getElem?_eq_none hz]
  unfold liveBrackets
  simp only [hpick]
  rw [range'_filterMap, bracketWord, zip_take_left]
  simp only [List.zip_eq_zipWith, List.drop_zipWith]

theorem leftOpen_opening_ne_nil {stack word : List Char} {c closing : Char}
    (h : closer? c = some closing) : leftOpen stack (word ++ [c]) ≠ some [] := by
  intro heq
  rw [leftOpen_append] at heq
  obtain ⟨s, -, hs⟩ := Option.bind_eq_some_iff.1 heq
  rw [leftOpen_opening h] at hs
  simp [leftOpen] at hs

theorem bracketWord_take_succ (cs : List Char) (marks : List Mark) (n : Nat) :
    bracketWord (cs.take (n + 1)) marks = bracketWord (cs.take n) marks ++
      (((cs.zip marks)[n]?).bind liveBracket?).toList := by
  unfold bracketWord
  rw [zip_take_left, zip_take_left, List.take_add_one, List.filterMap_append]
  cases (cs.zip marks)[n]? with
  | none => rfl
  | some p =>
    simp only [Option.toList_some, List.filterMap_cons, List.filterMap_nil, Option.bind_some]
    cases liveBracket? p <;> rfl

/-- The character at which the stack is first closed is a live closing bracket. -/
theorem closer_of_firstCloses {stack cs : List Char} {marks : List Mark} {n : Nat}
    (h : FirstCloses stack cs marks (n + 1)) :
    ∃ c, cs[n]? = some c ∧ marks[n]? = some .live ∧ isCloser c = true := by
  have hnow := h.1
  have hbefore := h.2 n (by omega)
  rw [bracketWord_take_succ] at hnow
  cases hp : ((cs.zip marks)[n]?).bind liveBracket? with
  | none => simp [hp] at hnow; exact absurd hnow hbefore
  | some b =>
    obtain ⟨⟨c, m⟩, hzip, hlive⟩ := Option.bind_eq_some_iff.1 hp
    obtain ⟨hc, hm⟩ := List.getElem?_zip_eq_some.1 hzip
    simp only [liveBracket?, Option.ite_none_right_eq_some, Bool.and_eq_true, decide_eq_true_eq,
      Option.some_inj] at hlive
    obtain ⟨⟨rfl, hbracket⟩, rfl⟩ := hlive
    refine ⟨c, hc, hm, ?_⟩
    rw [hp, Option.toList_some] at hnow
    cases hopen : closer? c with
    | some closing => exact absurd hnow (leftOpen_opening_ne_nil hopen)
    | none => simpa [isBracket, hopen] using hbracket

/-! ## From one live bracket -/

section
variable {text : List Char} {o : Nat} {c closing : Char}

/-- After a live bracket the text is marked as if it began there. -/
theorem drop_marks_of_opening (hc : text[o]? = some c) (hopens : closer? c = some closing)
    (hlive : ¬ Covered text o) :
    (marks text).drop o = .live :: marksFrom [] (text.drop (o + 1)) := by
  obtain ⟨ho, rfl⟩ := List.getElem?_eq_some_iff.1 hc
  have hline : text[o] ≠ '\n' := by
    intro h
    rw [h] at hopens
    cases hopens
  have hb : isBracket text[o] = true := by simp [isBracket, hopens]
  have htext : text.take o ++ text[o] :: text.drop (o + 1) = text := by
    rw [← List.drop_eq_getElem_cons ho, List.take_append_drop]
  have hlen : (text.take o).length = o := by simp; omega
  have hat : ¬ Covered (text.take o ++ text[o] :: text.drop (o + 1)) (text.take o).length := by
    rwa [htext, hlen]
  have hmarks := drop_marks_of_live hline (inertFrames_of_isBracket hb _) hat
  rw [htext, hlen] at hmarks
  rw [hmarks, marksFrom, step, inertFrames_of_isBracket hb]
  rfl

theorem nested_liveBrackets_iff (hc : text[o]? = some c) (hopens : closer? c = some closing)
    (hlive : ¬ Covered text o) (n : Nat) :
    Nested (liveBrackets text o (o + n)) ↔
      leftOpen [closing] (bracketWord ((text.drop (o + 1)).take n)
        (marksFrom [] (text.drop (o + 1)))) = some [] := by
  have hb : isBracket c = true := by simp [isBracket, hopens]
  have hdrop : text.drop o = c :: text.drop (o + 1) := by
    obtain ⟨ho, rfl⟩ := List.getElem?_eq_some_iff.1 hc
    exact List.drop_eq_getElem_cons ho
  have hword : liveBracket? (c, .live) = some c := by simp [liveBracket?, hb]
  rw [nested_iff, liveBrackets_eq, drop_marks_of_opening hc hopens hlive, hdrop,
    show o + n + 1 - o = n + 1 by omega, List.take_succ_cons, bracketWord_cons, hword,
    Option.toList_some, List.singleton_append, leftOpen_opening hopens]

theorem closingAt?_eq_some_iff (hc : text[o]? = some c) (hopens : closer? c = some closing)
    (k : Nat) :
    closingAt? text o = some k ↔ ∃ n, k = o + n ∧
      FirstCloses [closing] (text.drop (o + 1)) (marksFrom [] (text.drop (o + 1))) n := by
  have hextent (n : Nat) := agrees (text.drop (o + 1)) [] (List.cons_ne_nil closing []) n
  have hmatch : closingAt? text o =
      (extent? ([] ++ bracketFrames [closing]) (text.drop (o + 1))).map (o + ·) := by
    rw [closingAt?, hc, Option.bind_some, bracketExtent?, hopens]
    rfl
  rw [hmatch, Option.map_eq_some_iff]
  constructor
  · rintro ⟨n, hn, rfl⟩
    exact ⟨n, rfl, (hextent n).1 hn⟩
  · rintro ⟨n, rfl, hn⟩
    exact ⟨n, (hextent n).2 hn, rfl⟩

theorem closes_of_firstCloses (hc : text[o]? = some c) (hopens : closer? c = some closing)
    (hlive : ¬ Covered text o) {n : Nat}
    (h : FirstCloses [closing] (text.drop (o + 1)) (marksFrom [] (text.drop (o + 1))) n) :
    Closes text o (o + n) := by
  cases n with
  | zero => exact absurd h (not_firstCloses_zero (by simp) _ _)
  | succ n =>
    obtain ⟨b, hb, hmark, hcloser⟩ := closer_of_firstCloses h
    have hat : text[o + (n + 1)]? = some b := by
      rw [List.getElem?_drop] at hb
      rwa [show o + (n + 1) = o + 1 + n by omega]
    have hlast : (marks text)[o + (n + 1)]? = some .live := by
      rw [← List.getElem?_drop, drop_marks_of_opening hc hopens hlive]
      exact hmark
    have hin : o + (n + 1) < text.length := (List.getElem?_eq_some_iff.1 hat).1
    exact ⟨by omega, (not_covered_iff hin).2 hlast, ⟨b, hat, hcloser⟩,
      (nested_liveBrackets_iff hc hopens hlive _).2 h.1⟩

/-- When brackets close at all, the matcher finds where they first do. -/
theorem exists_firstCloses (hc : text[o]? = some c) (hopens : closer? c = some closing)
    (hlive : ¬ Covered text o) {k : Nat} (h : Closes text o k) :
    ∃ n, o + n ≤ k ∧
      FirstCloses [closing] (text.drop (o + 1)) (marksFrom [] (text.drop (o + 1))) n := by
  have habove := h.above
  have hk : leftOpen [closing] (bracketWord ((text.drop (o + 1)).take (k - o))
      (marksFrom [] (text.drop (o + 1)))) = some [] := by
    refine (nested_liveBrackets_iff hc hopens hlive _).1 ?_
    rw [show o + (k - o) = k by omega]
    exact h.nested
  have hsome : ∃ n, leftOpen [closing] (bracketWord ((text.drop (o + 1)).take n)
      (marksFrom [] (text.drop (o + 1)))) = some [] := ⟨k - o, hk⟩
  have hle : Nat.find hsome ≤ k - o := Nat.find_min' hsome hk
  exact ⟨Nat.find hsome, by omega, Nat.find_spec hsome, fun m hm => Nat.find_min hsome hm⟩

/-- The bracket that the matcher pairs with a live opening one is the first at which the live brackets
between them are properly nested; it finds none when there is none. No literal or comment reaches
across either of the two. -/
theorem closingAt?_pairs_live_brackets (hc : text[o]? = some c) (hopens : (closer? c).isSome)
    (hlive : ¬ Covered text o) :
    (∀ k, closingAt? text o = some k ↔ IsLeast {k | Closes text o k} k) ∧
      (closingAt? text o = none ↔ ∀ k, ¬ Closes text o k) ∧
      ∀ k, closingAt? text o = some k → ∀ r ∈ inertRanges text,
        (o < r.1 ∧ r.2 ≤ k) ∨ r.2 ≤ o ∨ k < r.1 := by
  obtain ⟨closing, hopens⟩ := Option.isSome_iff_exists.1 hopens
  have hfound {k : Nat} (h : Closes text o k) : ∃ j ≤ k, closingAt? text o = some j := by
    obtain ⟨n, hn, hfirst⟩ := exists_firstCloses hc hopens hlive h
    exact ⟨o + n, hn, (closingAt?_eq_some_iff hc hopens _).2 ⟨n, rfl, hfirst⟩⟩
  have hcloses {k : Nat} (h : closingAt? text o = some k) : Closes text o k := by
    obtain ⟨n, rfl, hfirst⟩ := (closingAt?_eq_some_iff hc hopens k).1 h
    exact closes_of_firstCloses hc hopens hlive hfirst
  refine ⟨fun k => ⟨fun h => ⟨hcloses h, ?_⟩, fun h => ?_⟩, ⟨fun h k hk => ?_, fun h => ?_⟩, ?_⟩
  · intro j hj
    obtain ⟨i, hi, hat⟩ := hfound hj
    obtain rfl : i = k := Option.some_inj.1 (hat.symm.trans h)
    exact hi
  · obtain ⟨j, hj, hat⟩ := hfound h.1
    have hle : k ≤ j := h.2 (hcloses hat)
    rwa [show k = j by omega]
  · obtain ⟨j, -, hat⟩ := hfound hk
    rw [h] at hat
    cases hat
  · by_contra hne
    obtain ⟨k, hk⟩ := Option.ne_none_iff_exists'.1 hne
    exact h k (hcloses hk)
  · intro k hk r hr
    -- Neither end lies in the range, so the range lies on one side of each.
    have hlow : ¬ (r.1 ≤ o ∧ o < r.2) := fun h => hlive ⟨r, hr, h⟩
    have hhigh : ¬ (r.1 ≤ k ∧ k < r.2) := fun h => (hcloses hk).live ⟨r, hr, h⟩
    have habove := (hcloses hk).above
    omega

theorem closingAt?_pairs_live_brackets_sample :
    let text := "f(\x7b a: `$\x7bb[')']\x7d`, /* \x7d */ c: 'it' \x7d) // it's )".toList
    text[1]? = some '(' ∧ ¬ Covered text 1 ∧ IsLeast {k | Closes text 1 k} 37 := by
  intro text
  have hc : text[1]? = some '(' := by decide
  have hlive : ¬ Covered text 1 := by decide +kernel
  have hat : closingAt? text 1 = some 37 := by decide +kernel
  exact ⟨hc, hlive, ((closingAt?_pairs_live_brackets hc rfl hlive).1 37).1 hat⟩

end

end Codemod.Source
