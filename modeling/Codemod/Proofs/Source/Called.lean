import Codemod.Proofs.Source.TagAt
import Codemod.Source.Call

/-! The calls of a name in a text: where the name is called and not declared, up to the closing parenthesis. What
stands in front of an opening parenthesis does not matter to the calls behind it. -/
namespace Codemod.Source
open Text

/-! ## Names -/

/-- A character that goes on with a name, so that none is called behind it. -/
def continuesName (c : Char) : Bool := isIdentifier c || c == '.'

/-- A name, or names joined by dots. -/
structure DottedName (name : List Char) : Prop where
  start : ∃ c ∈ name.head?, isNameStart c = true
  chars : ∀ c ∈ name, continuesName c = true

theorem isAttributeChar_of_continuesName {c : Char} (h : continuesName c = true) : isAttributeChar c = true := by
  rcases Bool.or_eq_true_iff.1 h with h | h
  · simp [isAttributeChar, h]
  · simp [isAttributeChar, h]

theorem dottedName_of_isMemberExpression {name : List Char} (h : isMemberExpression name = true) :
    DottedName name where
  start := by
    cases name with
    | nil =>
      revert h
      decide
    | cons c cs =>
      refine ⟨c, rfl, ?_⟩
      unfold isMemberExpression pieces at h
      split at h
      · simp_all
      · next p ps heq =>
        split_ifs at h <;> simp_all
  chars c hc := by
    rcases mem_or_mem_pieces (· == '.') hc with hdot | ⟨piece, hpiece, hc⟩
    · simpa [continuesName] using .inr (beq_iff_eq.1 hdot)
    · have hname := List.all_eq_true.1 h piece hpiece
      cases piece with
      | nil => cases hc
      | cons d rest =>
        obtain ⟨hd, hrest⟩ := Bool.and_eq_true_iff.1 hname
        rcases List.mem_cons.1 hc with rfl | hc
        · simp [continuesName, isIdentifier_of_isNameStart hd]
        · simp [continuesName, List.all_eq_true.1 hrest c hc]

theorem DottedName.ne_nil {name : List Char} (h : DottedName name) : name ≠ [] := by
  rintro rfl
  obtain ⟨c, hc, -⟩ := h.start
  cases hc

theorem continuesName_of_isBlank {c : Char} (h : isBlank c = true) : continuesName c = false := by
  by_contra hc
  have hchar := isAttributeChar_of_continuesName (by simpa using hc)
  rw [isAttributeChar_of_isBlank h] at hchar
  cases hchar

/-- Blanks with an opening parenthesis behind them. -/
theorem head?_continuesName_eq_false {gap : List Char} (hgap : ∀ c ∈ gap, isBlank c = true) (rest : List Char) :
    ∀ c ∈ (gap ++ '(' :: rest).head?, continuesName c = false := by
  cases gap with
  | nil =>
    rintro c ⟨⟩
    decide
  | cons b gap =>
    rintro c ⟨⟩
    exact continuesName_of_isBlank (hgap b (by simp))

/-- No name begins in the blanks, nor with the parenthesis. -/
theorem isNameStart_of_mem_opening {gap : List Char} (hgap : ∀ c ∈ gap, isBlank c = true) :
    ∀ c ∈ gap ++ ['('], isNameStart c = false := by
  intro c hc
  rcases List.mem_append.1 hc with hc | hc
  · exact isNameStart_of_isBlank (hgap c hc)
  · rw [List.mem_singleton.1 hc]
    decide

/-! ## Places -/

/-- The name is read where it stands behind no name and an opening parenthesis follows. -/
theorem calledName_eq_some_iff {name cs gap : List Char} {behind : Option Char} {n : Nat} :
    calledName name behind cs = some (gap, n) ↔ behind.any continuesName = false ∧
      n = name.length + gap.length + 1 ∧ (∀ c ∈ gap, isBlank c = true) ∧
      ∃ rest, cs = name ++ (gap ++ '(' :: rest) := by
  have hany : (behind.any fun c => isIdentifier c || c == '.') = behind.any continuesName := rfl
  rw [calledName, hany]
  cases hbehind : behind.any continuesName with
  | true => simp
  | false =>
    simp only [Bool.false_eq_true, if_false, true_and]
    constructor
    · intro h
      split at h
      · cases h
      · next rest hafter =>
        obtain ⟨hhead, heq⟩ := Option.ite_none_right_eq_some.1 h
        obtain ⟨rfl, rfl⟩ := Prod.mk.inj (Option.some_inj.1 heq)
        rw [drop_length_takeWhile] at hhead
        obtain ⟨more, hmore⟩ := List.head?_eq_some_iff.1 (beq_iff_eq.1 hhead)
        refine ⟨rfl, fun c hc => List.mem_takeWhile_imp hc, more, ?_⟩
        rw [← hmore, List.takeWhile_append_dropWhile]
        exact after?_eq_some_iff.1 hafter
    · rintro ⟨rfl, hgap, rest, rfl⟩
      have hafter : after? name (name ++ (gap ++ '(' :: rest)) = some (gap ++ '(' :: rest) :=
        after?_eq_some_iff.2 rfl
      have htake : (gap ++ '(' :: rest).takeWhile isBlank = gap :=
        takeWhile_span hgap (by rintro c ⟨⟩; decide)
      rw [hafter]
      dsimp only
      rw [htake, List.drop_left]
      rfl

/-- Behind a part of a name no name is called, nor in the blanks behind it. -/
theorem alone_calledName {name : List Char} (hname : DottedName name) : Alone (calledName name) := by
  intro behind cs gap n h
  obtain ⟨-, rfl, hgap, rest, rfl⟩ := calledName_eq_some_iff.1 h
  refine ⟨by omega, by simp only [List.length_append, List.length_cons]; omega, fun k hk hlt => ?_⟩
  by_contra hsome
  obtain ⟨⟨gap', n'⟩, hread⟩ := Option.ne_none_iff_exists'.1 hsome
  obtain ⟨hbehind, -, -, rest', heq⟩ := calledName_eq_some_iff.1 hread
  by_cases hinside : k ≤ name.length
  · -- the character in front is one of the name
    have hne : name.take k ≠ [] := by
      intro hnil
      have := congrArg List.length hnil
      rw [List.length_take, List.length_nil] at this
      have := List.length_pos_of_ne_nil hname.ne_nil
      omega
    obtain ⟨c, hc⟩ := Option.ne_none_iff_exists'.1 (mt List.getLast?_eq_none_iff.1 hne)
    rw [List.take_append_of_le_length hinside, lastOr, hc, Option.some_or, Option.any_some,
      hname.chars c (List.mem_of_mem_take (List.mem_of_getLast? hc))] at hbehind
    cases hbehind
  · -- no name begins with a blank or a parenthesis
    obtain ⟨c, hc, hstart⟩ := hname.start
    obtain ⟨tail, rfl⟩ := List.head?_eq_some_iff.1 hc
    have hget : ((c :: tail) ++ (gap ++ '(' :: rest))[k]? = some c := by
      rw [← Nat.add_zero k, ← List.getElem?_drop, heq]
      rfl
    have hmem : c ∈ gap ++ ['('] := by
      have hsplit : (c :: tail) ++ (gap ++ '(' :: rest) = (c :: tail) ++ ((gap ++ ['(']) ++ rest) := by simp
      rw [hsplit, List.getElem?_append_right (by omega), List.getElem?_append_left
        (by simp only [List.length_append, List.length_singleton]; omega)] at hget
      exact List.mem_of_getElem? hget
    rw [isNameStart_of_mem_opening hgap c hmem] at hstart
    cases hstart

/-! ## Declarations -/

/-- What stands in front of an opening parenthesis does not matter to a word behind it. -/
theorem functionWordBehind_append {cs : List Char} (h : '(' ∈ cs) (used : Nat) (rest : List Char) :
    functionWordBehind used (cs ++ rest) = functionWordBehind used cs := by
  have hword : '(' ∉ "noitcnuf".toList := by decide
  rw [functionWordBehind, functionWordBehind, after?_append ⟨'(', h, hword⟩]
  cases hafter : after? "noitcnuf".toList cs with
  | none => rfl
  | some more =>
    have hmore : '(' ∈ more := by
      rw [after?_eq_some_iff.1 hafter] at h
      exact (List.mem_append.1 h).resolve_left hword
    obtain ⟨c, more, rfl⟩ := List.exists_cons_of_ne_nil (List.ne_nil_of_mem hmore)
    rfl

theorem declaresFunction_append (front behind : List Char) :
    declaresFunction (front ++ '(' :: behind) = declaresFunction ('(' :: behind) := by
  have hblank : isBlank '(' = false := by decide
  have hdrop {cs : List Char} (h : '(' ∈ cs) : '(' ∈ cs.dropWhile isBlank := by
    have hsplit := List.takeWhile_append_dropWhile (p := isBlank) (l := cs)
    rw [← hsplit] at h
    refine (List.mem_append.1 h).resolve_left fun hm => ?_
    rw [List.mem_takeWhile_imp hm] at hblank
    cases hblank
  have hreverse : (front ++ '(' :: behind).reverse = ('(' :: behind).reverse ++ front.reverse := by simp
  have hmem : '(' ∈ ('(' :: behind).reverse := by simp
  have hrest := hdrop hmem
  simp only [declaresFunction, drop_length_takeWhile]
  rw [hreverse, takeWhile_append_of_mem ⟨'(', hmem, hblank⟩, dropWhile_append_of_mem ⟨'(', hmem, hblank⟩,
    functionWordBehind_append hrest]
  generalize (('(' :: behind).reverse.takeWhile isBlank).length = used
  generalize ('(' :: behind).reverse.dropWhile isBlank = cs at hrest
  cases cs with
  | nil => cases hrest
  | cons c cs =>
    by_cases hstar : c = '*'
    · subst hstar
      have hcs : '(' ∈ cs := by simpa using hrest
      change (_ || functionWordBehind (used + 1 + ((cs ++ front.reverse).takeWhile isBlank).length)
        ((cs ++ front.reverse).dropWhile isBlank)) = _
      rw [takeWhile_append_of_mem ⟨'(', hcs, hblank⟩, dropWhile_append_of_mem ⟨'(', hcs, hblank⟩,
        functionWordBehind_append (hdrop hcs)]
      rfl
    · simp [hstar]

/-! ## Calls -/

/-- From the first character of a called name up to the one behind the closing parenthesis. -/
structure CallRange where
  start : Nat
  stop : Nat
  deriving DecidableEq, Repr

/-- The calls of a name: where it is called, and not declared, and the parenthesis closes. -/
def callRanges (text callee : List Char) : List CallRange :=
  (found (calledName callee) text).filterMap fun f =>
    if declaresFunction (text.take f.start) then none
    else (bracketExtent? '(' (text.drop f.stop)).map fun n => ⟨f.start, f.stop + n⟩

/-- Behind `front` a name is called, with these blanks in front of the opening parenthesis. -/
structure CallsBehind (front gap : List Char) : Prop where
  behind : (lastOr none front).any continuesName = false
  called : declaresFunction front = false
  blank : ∀ c ∈ gap, isBlank c = true

variable {text callee : List Char}

theorem mem_found_calledName_iff (hcallee : DottedName callee) {f : Found (List Char)} :
    f ∈ found (calledName callee) text ↔ ∃ front rest, text = front ++ (callee ++ (f.value ++ '(' :: rest)) ∧
      (lastOr none front).any continuesName = false ∧ (∀ c ∈ f.value, isBlank c = true) ∧
      f.start = front.length ∧ f.length = callee.length + f.value.length + 1 := by
  rw [found, mem_foundFrom_iff_of_alone (alone_calledName hcallee) (by simp), IsPlace]
  simp only [calledName_eq_some_iff, Nat.zero_add]
  constructor
  · rintro ⟨front, -, rfl, hstart, hbehind, hlen, hgap, rest, rfl⟩
    exact ⟨front, rest, rfl, hbehind, hgap, hstart, hlen⟩
  · rintro ⟨front, rest, rfl, hbehind, hgap, hstart, hlen⟩
    exact ⟨front, _, rfl, hstart, hbehind, hlen, hgap, rest, rfl⟩

/-- The text is cut in front of a name and behind the opening parenthesis. -/
theorem take_drop_opening {front : List Char} (callee gap rest : List Char) {f : Found (List Char)}
    (hstart : f.start = front.length) (hlen : f.length = callee.length + gap.length + 1) :
    (front ++ (callee ++ (gap ++ '(' :: rest))).take f.start = front ∧
      (front ++ (callee ++ (gap ++ '(' :: rest))).drop f.stop = rest := by
  have hsplit : front ++ (callee ++ (gap ++ '(' :: rest)) = (front ++ (callee ++ (gap ++ ['(']))) ++ rest := by
    simp
  refine ⟨by rw [hstart, List.take_left], ?_⟩
  rw [hsplit]
  refine List.drop_left' ?_
  simp only [Found.stop, hstart, hlen, List.length_append, List.length_singleton]
  omega

/-- What stands from the end of a name up to an offset further on. -/
theorem between_opening (front callee gap inner behind : List Char) :
    between (front.length + callee.length) (front.length + (callee ++ (gap ++ '(' :: inner)).length)
      (front ++ (callee ++ (gap ++ '(' :: (inner ++ behind)))) = gap ++ '(' :: inner := by
  have hsplit : front ++ (callee ++ (gap ++ '(' :: (inner ++ behind))) =
      (front ++ callee) ++ ((gap ++ '(' :: inner) ++ behind) := by simp
  refine between_eq hsplit (by rw [List.length_append]) ?_
  simp only [List.length_append, List.length_cons]
  omega

theorem mem_callRanges_iff (hcallee : DottedName callee) {c : CallRange} :
    c ∈ callRanges text callee ↔ ∃ front gap inner behind,
      text = front ++ (callee ++ (gap ++ '(' :: (inner ++ behind))) ∧ CallsBehind front gap ∧
      bracketExtent? '(' (inner ++ behind) = some inner.length ∧
      c = ⟨front.length, front.length + (callee ++ (gap ++ '(' :: inner)).length⟩ := by
  rw [callRanges, List.mem_filterMap]
  constructor
  · rintro ⟨f, hf, hrange⟩
    obtain ⟨front, rest, rfl, hbehind, hgap, hstart, hlen⟩ := (mem_found_calledName_iff hcallee).1 hf
    obtain ⟨htake, hdrop⟩ := take_drop_opening callee f.value rest hstart hlen
    rw [htake, hdrop] at hrange
    obtain ⟨hcalled, hrange⟩ := Option.ite_none_left_eq_some.1 hrange
    obtain ⟨n, hn, rfl⟩ := Option.map_eq_some_iff.1 hrange
    have hlength : (rest.take n).length = n := List.length_take_of_le (bracketExtent?_le hn).2
    refine ⟨front, f.value, rest.take n, rest.drop n, by rw [List.take_append_drop],
      ⟨hbehind, by simpa using hcalled, hgap⟩, by rw [List.take_append_drop, hlength, hn], ?_⟩
    simp only [CallRange.mk.injEq, Found.stop, hstart, hlen, List.length_append, List.length_cons, hlength, true_and]
    omega
  · rintro ⟨front, gap, inner, behind, rfl, ⟨hbehind, hcalled, hgap⟩, hinner, rfl⟩
    refine ⟨⟨front.length, callee.length + gap.length + 1, gap⟩, (mem_found_calledName_iff hcallee).2
      ⟨front, _, rfl, hbehind, hgap, rfl, rfl⟩, ?_⟩
    obtain ⟨htake, hdrop⟩ := @take_drop_opening front callee gap (inner ++ behind) ⟨front.length, _, gap⟩ rfl rfl
    rw [htake, hdrop, hcalled, hinner]
    simp only [Bool.false_eq_true, if_false, Option.map_some, Option.some_inj, CallRange.mk.injEq, Found.stop,
      List.length_append, List.length_cons, true_and]
    omega

/-- A call begins where the name is called and the parenthesis closes. -/
theorem exists_callRange_iff (hcallee : DottedName callee) {i : Nat} :
    (∃ c ∈ callRanges text callee, c.start = i) ↔ ∃ front gap rest,
      text = front ++ (callee ++ (gap ++ '(' :: rest)) ∧ front.length = i ∧ CallsBehind front gap ∧
      (bracketExtent? '(' rest).isSome = true := by
  constructor
  · rintro ⟨c, hc, rfl⟩
    obtain ⟨front, gap, inner, behind, htext, hcalls, hinner, rfl⟩ := (mem_callRanges_iff hcallee).1 hc
    exact ⟨front, gap, inner ++ behind, htext, rfl, hcalls, by rw [hinner]; rfl⟩
  · rintro ⟨front, gap, rest, htext, rfl, hcalls, hcloses⟩
    obtain ⟨n, hn⟩ := Option.isSome_iff_exists.1 hcloses
    have hlength : (rest.take n).length = n := List.length_take_of_le (bracketExtent?_le hn).2
    refine ⟨_, (mem_callRanges_iff hcallee).2 ⟨front, gap, rest.take n, rest.drop n, ?_, hcalls, ?_, rfl⟩, rfl⟩
    · rw [List.take_append_drop, htext]
    · rw [List.take_append_drop, hlength, hn]

/-- A call is given by its place. -/
theorem eq_of_mem_callRanges (hcallee : DottedName callee) {c d : CallRange} (hc : c ∈ callRanges text callee)
    (hd : d ∈ callRanges text callee) (hstart : c.start = d.start) : c = d := by
  obtain ⟨front, gap, inner, behind, rfl, ⟨-, -, hgap⟩, hinner, rfl⟩ := (mem_callRanges_iff hcallee).1 hc
  obtain ⟨front', gap', inner', behind', htext, ⟨-, -, hgap'⟩, hinner', rfl⟩ := (mem_callRanges_iff hcallee).1 hd
  obtain ⟨rfl, hcall⟩ := List.append_inj htext hstart
  obtain ⟨rfl, hrest⟩ := span_unique hgap hgap' (by rintro c ⟨⟩; decide) (by rintro c ⟨⟩; decide)
    (List.append_cancel_left hcall)
  have hlength : inner.length = inner'.length := by
    rw [(List.cons.inj hrest).2, hinner'] at hinner
    exact (Option.some_inj.1 hinner).symm
  simp [hlength]

theorem DottedName.exists_cons {name gap rest cs : List Char} (h : DottedName name) {c : Char}
    (heq : name ++ (gap ++ '(' :: rest) = c :: cs) :
    ∃ tail, name = c :: tail ∧ cs = (tail ++ (gap ++ ['('])) ++ rest := by
  obtain ⟨d, tail, rfl⟩ := List.exists_cons_of_ne_nil h.ne_nil
  obtain ⟨rfl, rfl⟩ := List.cons.inj heq
  exact ⟨tail, rfl, by simp⟩

/-- What stands in front of an opening parenthesis does not matter to a call behind it. -/
theorem callsBehind_append_iff (front behind : List Char) {gap : List Char} :
    CallsBehind (front ++ '(' :: behind) gap ↔ CallsBehind ('(' :: behind) gap := by
  have hlast : lastOr none (front ++ '(' :: behind) = lastOr none ('(' :: behind) := by
    rw [lastOr_append, lastOr_cons, lastOr_cons]
  have hdeclares := declaresFunction_append front behind
  constructor
  · rintro ⟨hbehind, hcalled, hgap⟩
    exact ⟨hlast ▸ hbehind, hdeclares ▸ hcalled, hgap⟩
  · rintro ⟨hbehind, hcalled, hgap⟩
    exact ⟨hlast ▸ hbehind, hdeclares ▸ hcalled, hgap⟩

/-- No name ends in front of the place where a name is called. -/
theorem CallsBehind.not_inside {name before x y gap : List Char} (h : CallsBehind (before ++ x) gap) (hx : x ≠ [])
    (hname : name = x ++ y) (hchars : ∀ c ∈ name, continuesName c = true) : False := by
  obtain ⟨c, hc⟩ := Option.ne_none_iff_exists'.1 (mt List.getLast?_eq_none_iff.1 hx)
  have hbehind := h.behind
  rw [lastOr_append, lastOr, hc, Option.some_or, Option.any_some,
    hchars c (hname ▸ List.mem_append_left y (List.mem_of_getLast? hc))] at hbehind
  cases hbehind

end Codemod.Source
