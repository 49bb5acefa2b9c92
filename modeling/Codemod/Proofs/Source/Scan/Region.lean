import Codemod.Proofs.Source.Quoted
import Codemod.Proofs.Source.Scan.Basic

/-! The ranges of literals and comments, found by offsets and searched by halves. One pass over the text
collects them, and an offset is looked up among them by binary search, which is right because they stand in
order and apart. -/
namespace Codemod.Source

/-! ## The marks of a literal or comment -/

/-- The frames of a literal or a block comment. -/
def Frame.closesInside : Frame → Bool
  | .quoted _ | .template | .blockComment | .second => true
  | .bracket _ | .lineComment => false

/-- All that is open belongs to one literal or block comment, so that its last character is inside too. -/
def ClosesInside (frames : List Frame) : Prop := ∃ inner last, frames = inner ++ [last] ∧ last.closesInside = true

theorem ClosesInside.markOf_eq {frames : List Frame} (h : ClosesInside frames) (next : List Frame) (c : Char) :
    markOf frames next c = .inside := by
  obtain ⟨inner, last, rfl, hlast⟩ := h
  unfold markOf
  split
  · next heq => simp at heq
  · next heq =>
    have hlen : inner = [] := by simpa using congrArg List.length heq
    subst hlen
    rw [(List.cons.inj heq).1] at hlast
    cases hlast
  · rfl

theorem Frame.step_singleton {last : Frame} (h : last.closesInside = true) {next : List Frame} {c : Char}
    {rest : List Char} (hstep : step [last] c rest = some next) : next = [] ∨ ClosesInside next := by
  have hinside (inner : List Frame) (last : Frame) (h : last.closesInside = true) : ClosesInside (inner ++ [last]) :=
    ⟨inner, last, rfl, h⟩
  cases last with
  | bracket => cases h
  | lineComment => cases h
  | second => exact .inl (Option.some_inj.1 hstep).symm
  | quoted quote =>
    obtain rfl := Option.some_inj.1 hstep
    split
    · exact .inr (hinside [.second] _ rfl)
    · split
      · exact .inl rfl
      · exact .inr (hinside [] _ rfl)
  | template =>
    obtain rfl := Option.some_inj.1 hstep
    split
    · exact .inr (hinside [.second] _ rfl)
    · split
      · exact .inr (hinside [.second, .bracket '}'] _ rfl)
      · split
        · exact .inl rfl
        · exact .inr (hinside [] _ rfl)
  | blockComment =>
    obtain rfl := Option.some_inj.1 hstep
    split
    · exact .inr (hinside [] .second rfl)
    · exact .inr (hinside [] _ rfl)

/-- One character further it is still open, or nothing is. -/
theorem ClosesInside.step {frames next : List Frame} {c : Char} {rest : List Char} (h : ClosesInside frames)
    (hstep : step frames c rest = some next) : next = [] ∨ ClosesInside next := by
  obtain ⟨inner, last, rfl, hlast⟩ := h
  by_cases hinner : inner = []
  · subst hinner
    exact Frame.step_singleton hlast hstep
  · rw [step_append hinner] at hstep
    obtain ⟨frames, -, rfl⟩ := Option.map_eq_some_iff.1 hstep
    exact .inr ⟨frames, last, rfl, hlast⟩

/-- A literal is opened where something follows. -/
theorem closesInside_quoteFrames {c : Char} {rest : List Char} (h : quoteFrames c rest ≠ []) :
    ClosesInside (quoteFrames c rest) ∧ 0 < (extent? (quoteFrames c rest) rest).getD rest.length := by
  have hopens : ∃ last, quoteFrames c rest = [last] ∧ last.closesInside = true ∧ rest ≠ [] := by
    unfold quoteFrames at h ⊢
    split at h
    · split at h
      · next hquote hcloses =>
        refine ⟨.quoted c, by simp [hquote, hcloses], rfl, ?_⟩
        rintro rfl
        cases hcloses
      · exact absurd rfl h
    · split at h
      · next hquote htick =>
        refine ⟨.template, by simp [hquote, htick], rfl, ?_⟩
        rintro rfl
        simp at htick
      · exact absurd rfl h
  obtain ⟨last, heq, hlast, hrest⟩ := hopens
  refine ⟨⟨[], last, heq, hlast⟩, ?_⟩
  cases hextent : extent? (quoteFrames c rest) rest with
  | none => exact List.length_pos_iff.2 hrest
  | some n => exact (extent?_le hextent).1

/-- The marks of what is open: inside as far as that reaches, and then those of code. -/
theorem marksFrom_eq {frames : List Frame} (h : ClosesInside frames) (cs : List Char) :
    marksFrom frames cs = List.replicate ((extent? frames cs).getD cs.length) .inside ++
      marksFrom [] (cs.drop ((extent? frames cs).getD cs.length)) := by
  induction cs generalizing frames with
  | nil => rfl
  | cons c cs ih =>
    rw [marksFrom, extent?]
    cases hstep : Source.step frames c cs with
    | none => simp [marksFrom, List.replicate_succ]
    | some next =>
      dsimp only
      rw [h.markOf_eq]
      cases next with
      | nil => rfl
      | cons frame next =>
        obtain hnil | hnext := h.step hstep
        · cases hnil
        · dsimp only
          rw [ih hnext]
          cases extent? (frame :: next) cs <;> rfl

/-- The line feed after a line comment is code. -/
theorem marksFrom_lineComment (cs : List Char) :
    marksFrom [.lineComment] cs = List.replicate ((Text.find? ['\n'] cs).getD cs.length) .inside ++
      marksFrom [] (cs.drop ((Text.find? ['\n'] cs).getD cs.length)) := by
  induction cs with
  | nil => rfl
  | cons c cs ih =>
    by_cases hc : c = '\n'
    · subst hc
      rfl
    · have hstep : Source.step [.lineComment] c cs = some [.lineComment] := by simp [Source.step, hc]
      have hbegins : ['\n'].isPrefixOf (c :: cs) = false := by simp [List.isPrefixOf, Ne.symm hc]
      have hfind : Text.find? ['\n'] (c :: cs) = (Text.find? ['\n'] cs).map (· + 1) := by
        rw [Text.find?, hbegins]
        rfl
      have hmark : markOf [.lineComment] [.lineComment] c = .inside := by simp [markOf, hc]
      rw [marksFrom, hstep, hfind]
      dsimp only
      rw [hmark, ih]
      cases Text.find? ['\n'] cs <;> rfl

/-! ## Ranges -/

theorem leading_insides (n : Nat) (cs : List Char) :
    leading (List.replicate n .inside ++ marksFrom [] cs) = n := by
  induction n with
  | zero => exact leading_marksFrom_nil cs
  | succ n ih => rw [List.replicate_succ, List.cons_append, leading_cons_inside, ih]

theorem go_insides (pos n : Nat) (marks : List Mark) :
    inertRanges.go pos (List.replicate n .inside ++ marks) = inertRanges.go (pos + n) marks := by
  induction n generalizing pos with
  | zero => rfl
  | succ n ih =>
    rw [List.replicate_succ, List.cons_append, inertRanges.go, ih, Nat.add_right_comm, Nat.add_assoc]
    simp

theorem pairwise_go (pos : Nat) (marks : List Mark) :
    (inertRanges.go pos marks).Pairwise fun r s => r.2 ≤ s.1 := by
  induction marks generalizing pos with
  | nil => exact .nil
  | cons m marks ih =>
    cases m with
    | live => simpa [inertRanges.go] using ih (pos + 1)
    | inside => simpa [inertRanges.go] using ih (pos + 1)
    | opening =>
      rw [inertRanges.go]
      refine .cons (fun r hr => ?_) (ih (pos + 1))
      obtain ⟨k, hstart, hmark, -⟩ := mem_go_iff.1 hr
      -- the next range begins behind the marks that are inside this one
      have hk : leading marks ≤ k := by
        by_contra hk
        rw [getElem?_of_lt_leading (by omega)] at hmark
        cases hmark
      change pos + 1 + leading marks ≤ r.1
      omega

/-- The ranges are in order and apart. -/
theorem pairwise_inertRanges (text : List Char) : (inertRanges text).Pairwise fun r s => r.2 ≤ s.1 :=
  pairwise_go 0 (marks text)

theorem lt_of_mem_inertRanges {text : List Char} {r : Nat × Nat} (h : r ∈ inertRanges text) :
    r.1 < r.2 ∧ r.2 ≤ text.length := by
  obtain ⟨hmark, hstop⟩ := mem_inertRanges_iff.1 h
  have hstart := (List.getElem?_eq_some_iff.1 hmark).1
  have hlen := (List.takeWhile_prefix (· == Mark.inside) (l := (marks text).drop (r.1 + 1))).length_le
  rw [length_marks] at hstart
  rw [List.length_drop, length_marks] at hlen
  rw [leading] at hstop
  omega

/-- The ranges of a text from offset `pos` on, when nothing is open there. -/
def rangesFrom (text : List Char) (pos : Nat) : List (Nat × Nat) :=
  inertRanges.go pos (marksFrom [] (text.drop pos))

section
variable {text rest : List Char} {pos : Nat} {c : Char} (h : text.drop pos = c :: rest)
include h

theorem rangesFrom_plain (hc : inertFrames c rest = []) : rangesFrom text pos = rangesFrom text (pos + 1) := by
  have hmarks : marksFrom [] (c :: rest) = .live :: marksFrom [] rest := by
    rw [marksFrom, step, hc]
    rfl
  rw [rangesFrom, rangesFrom, h, hmarks, Scan.drop_succ_of_drop h, inertRanges.go]
  simp

/-- What is opened makes one range, as long as the marks of it are inside. -/
theorem rangesFrom_opening {frames : List Frame} (hc : inertFrames c rest = frames) (hframes : frames ≠ [])
    {n : Nat} (hmarks : marksFrom frames rest = List.replicate n .inside ++ marksFrom [] (rest.drop n)) :
    rangesFrom text pos = (pos, pos + 1 + n) :: rangesFrom text (pos + 1 + n) := by
  have hopening : marksFrom [] (c :: rest) = .opening :: marksFrom frames rest := by
    rw [marksFrom, step, hc]
    simp [markOf, hframes]
  have hlen := leading_insides n (rest.drop n)
  rw [rangesFrom, rangesFrom, h, hopening, hmarks, inertRanges.go, go_insides, Scan.drop_add_of_drop h]
  rw [leading] at hlen
  rw [hlen]

end

namespace Scan

/-- The ranges from `pos` on, put behind those found before. -/
def regionsFrom (text : List Char) (regions : List (Nat × Nat)) (pos : Nat) : Scan (List (Nat × Nat)) := do
  if pos < text.length then
    let c ← lookUp text[pos]?
    if isLiteralMark c then
      let stop ← literalEnd text pos
      advance pos stop fun _ => regionsFrom text (if pos + 1 < stop then regions ++ [(pos, stop)] else regions) stop
    else if ['/', '/'].isPrefixOf (text.drop pos) then
      let stop := ((Text.find? ['\n'] (text.drop pos)).map (pos + ·)).getD text.length
      advance pos stop fun _ => regionsFrom text (regions ++ [(pos, stop)]) stop
    else if ['/', '*'].isPrefixOf (text.drop pos) then
      let stop := ((Text.find? ['*', '/'] (text.drop (pos + 2))).map (pos + 2 + · + 2)).getD text.length
      advance pos stop fun _ => regionsFrom text (regions ++ [(pos, stop)]) stop
    else advance pos (pos + 1) fun _ => regionsFrom text regions (pos + 1)
  else return regions
termination_by text.length - pos

def regions (text : List Char) : Scan (List (Nat × Nat)) := regionsFrom text [] 0

section
variable {text rest : List Char} {pos : Nat} {c : Char} (h : text.drop pos = c :: rest)
  (later : ∀ found {p}, pos < p → regionsFrom text found p = pure (found ++ rangesFrom text p))
  (found : List (Nat × Nat))
include h later

/-- A range has been put behind the others, and the pass goes on behind it. -/
theorem regionsFrom_range {frames : List Frame} (hc : inertFrames c rest = frames) (hframes : frames ≠ [])
    {n : Nat} (hmarks : marksFrom frames rest = List.replicate n .inside ++ marksFrom [] (rest.drop n)) :
    regionsFrom text (found ++ [(pos, pos + 1 + n)]) (pos + 1 + n) = pure (found ++ rangesFrom text pos) := by
  rw [later _ (by omega), rangesFrom_opening h hc hframes hmarks, List.append_assoc, List.singleton_append]

theorem regionsFrom_literal (hc : isLiteralMark c = true) :
    regionsFrom text found pos = pure (found ++ rangesFrom text pos) := by
  have hstop := lt_literalStop h
  have hinert : inertFrames c rest = quoteFrames c rest := by
    rcases eq_of_isLiteralMark hc with rfl | rfl | rfl <;> rfl
  rw [regionsFrom, read_of_drop h, if_pos hc, literalEnd_of_reads h hc (readsFrom text _), pure_bind,
    advance_of_lt hstop.1]
  by_cases hframes : quoteFrames c rest = []
  · rw [literalStop_of_drop h hframes, if_neg (Nat.lt_irrefl _), later _ (by omega),
      rangesFrom_plain h (hinert.trans hframes)]
  · obtain ⟨hinside, hlen⟩ := closesInside_quoteFrames hframes
    rw [literalStop_of_frames h hframes, getD_extent? h, if_pos (by omega)]
    exact regionsFrom_range h later found hinert hframes (marksFrom_eq hinside rest)

theorem regionsFrom_comment (hc : isLiteralMark c = false)
    (hcomment : ['/', '/'].isPrefixOf (c :: rest) = true ∨ ['/', '*'].isPrefixOf (c :: rest) = true) :
    regionsFrom text found pos = pure (found ++ rangesFrom text pos) := by
  have hmark : ¬ isLiteralMark c = true := by simp [hc]
  rw [regionsFrom, read_of_drop h, if_neg hmark, h]
  rcases hcomment with hline | hblock
  · rw [if_pos hline]
    obtain ⟨rfl, cs, rfl⟩ := exists_of_isPrefixOf_pair hline
    have hinert : inertFrames '/' ('/' :: cs) = [.lineComment] := rfl
    have hstop : ((Text.find? ['\n'] ('/' :: '/' :: cs)).map (pos + ·)).getD text.length =
        pos + 1 + (Text.find? ['\n'] ('/' :: cs)).getD ('/' :: cs).length := by
      rw [← getD_extent? h]
      exact congrArg (Option.getD · text.length) (map_map_add (Text.find? ['\n'] ('/' :: cs)) pos 1)
    rw [hstop]
    dsimp only
    rw [advance_of_lt (by omega)]
    exact regionsFrom_range h later found hinert (by simp) (marksFrom_lineComment _)
  · obtain ⟨rfl, cs, rfl⟩ := exists_of_isPrefixOf_pair hblock
    have hinert : inertFrames '/' ('*' :: cs) = [.second, .blockComment] := rfl
    have hsecond : step [.second, .blockComment] '*' cs = some [.blockComment] := rfl
    have hstop : ((Text.find? ['*', '/'] cs).map (pos + 2 + · + 2)).getD text.length =
        pos + 1 + (extent? [.second, .blockComment] ('*' :: cs)).getD ('*' :: cs).length := by
      rw [← getD_extent? h, extent?_of_step hsecond (by simp), extent?_blockComment, Option.map_map, Option.map_map]
      congr 2
      funext n
      simp only [Function.comp_apply]
      omega
    rw [if_neg (by simp), if_pos hblock, drop_succ_of_drop (drop_succ_of_drop h), hstop]
    dsimp only
    rw [advance_of_lt (by omega)]
    exact regionsFrom_range h later found hinert (by simp) (marksFrom_eq ⟨[.second], .blockComment, rfl, rfl⟩ _)

end

/-- The pass over a text collects its ranges. -/
theorem regionsFrom_eq (text : List Char) (found : List (Nat × Nat)) (pos : Nat) :
    regionsFrom text found pos = pure (found ++ rangesFrom text pos) := by
  induction hn : text.length - pos using Nat.strong_induction_on generalizing pos found with
  | _ n ih =>
    cases h : text.drop pos with
    | nil =>
      rw [regionsFrom, read_of_end h, rangesFrom, h]
      simp [marksFrom, inertRanges.go]
    | cons c rest =>
      have hlen := lt_length_of_drop h
      have later (found : List (Nat × Nat)) {p : Nat} (hp : pos < p) :
          regionsFrom text found p = pure (found ++ rangesFrom text p) :=
        ih (text.length - p) (by omega) found p rfl
      by_cases hc : isLiteralMark c = true
      · exact regionsFrom_literal h later found hc
      by_cases hcomment : ['/', '/'].isPrefixOf (c :: rest) = true ∨ ['/', '*'].isPrefixOf (c :: rest) = true
      · exact regionsFrom_comment h later found (Bool.eq_false_iff.2 hc) hcomment
      · obtain ⟨hline, hblock⟩ := not_or.1 hcomment
        have hplain := inertFrames_eq_nil (Bool.eq_false_iff.2 hc) (Bool.eq_false_iff.2 hline)
          (Bool.eq_false_iff.2 hblock)
        rw [regionsFrom, read_of_drop h, if_neg hc, h, if_neg hline,
          if_neg hblock, advance_of_lt (by omega), later found (by omega), rangesFrom_plain h hplain]

theorem regions_eq (text : List Char) : regions text = pure (inertRanges text) := regionsFrom_eq text [] 0

/-! ## Binary search -/

/-- How many regions begin at `index` or before it, when it is at least `low` and at most `high`. -/
def slotFrom (regions : List (Nat × Nat)) (index low high : Nat) : Scan Nat := do
  if low < high then
    let middle := (low + high) / 2
    let region ← lookUp regions[middle]?
    if index < region.1 then advance middle high fun _ => slotFrom regions index low middle
    else advance low (middle + 1) fun _ => slotFrom regions index (middle + 1) high
  else return low
termination_by high - low

/-- Whether the offset lies in one of the regions. -/
def isInertAt (regions : List (Nat × Nat)) (index : Nat) : Scan Bool := do
  let slot ← slotFrom regions index 0 regions.length
  if slot = 0 then return false
  else
    let region ← lookUp regions[slot - 1]?
    return region.1 ≤ index && index < region.2

/-- The regions in front of `low` begin at `index` or before it, and those from `high` on behind it. -/
structure Narrows (regions : List (Nat × Nat)) (index low high : Nat) : Prop where
  le : low ≤ high
  le_length : high ≤ regions.length
  before : ∀ k (hk : k < regions.length), k < low → regions[k].1 ≤ index
  behind : ∀ k (hk : k < regions.length), high ≤ k → index < regions[k].1

section
variable {regions : List (Nat × Nat)} {index low high : Nat}

/-- Each half that is kept still holds the place. -/
theorem Narrows.step (h : Narrows regions index low high) (hsorted : regions.Pairwise fun r s => r.1 < s.1)
    {k : Nat} (hk : k < regions.length) (hlow : low ≤ k) (hhigh : k < high) :
    (index < regions[k].1 → Narrows regions index low k) ∧
      (regions[k].1 ≤ index → Narrows regions index (k + 1) high) := by
  have hmono {i j : Nat} (hj : j < regions.length) (hij : i ≤ j) : regions[i].1 ≤ regions[j].1 := by
    rcases Nat.lt_or_eq_of_le hij with hlt | rfl
    · exact Nat.le_of_lt (List.pairwise_iff_getElem.1 hsorted i j (by omega) hj hlt)
    · exact Nat.le_refl _
  refine ⟨fun hless => ⟨hlow, by omega, h.before, fun j hj hkj => ?_⟩,
    fun hmore => ⟨hhigh, h.le_length, fun j hj hjk => ?_, h.behind⟩⟩
  · exact Nat.lt_of_lt_of_le hless (hmono hj hkj)
  · exact Nat.le_trans (hmono hk (by omega)) hmore

/-- The search ends at the one place where the regions change from those that begin in time to those that do
not. -/
theorem exists_slotFrom_eq (h : Narrows regions index low high)
    (hsorted : regions.Pairwise fun r s => r.1 < s.1) :
    ∃ slot, slotFrom regions index low high = pure slot ∧ Narrows regions index slot slot := by
  induction hn : high - low using Nat.strong_induction_on generalizing low high with
  | _ n ih =>
    rw [slotFrom]
    by_cases hlow : low < high
    · have hmiddle : (low + high) / 2 < regions.length := by
        have := h.le_length
        omega
      obtain ⟨hless, hmore⟩ := h.step hsorted hmiddle (by omega) (by omega)
      rw [if_pos hlow]
      dsimp only
      rw [List.getElem?_eq_getElem hmiddle, lookUp_some, pure_bind]
      by_cases hindex : index < regions[(low + high) / 2].1
      · rw [if_pos hindex, advance_of_lt (by omega)]
        exact ih _ (by omega) (hless hindex) rfl
      · rw [if_neg hindex, advance_of_lt (by omega)]
        exact ih _ (by omega) (hmore (Nat.le_of_not_lt hindex)) rfl
    · obtain rfl : low = high := Nat.le_antisymm h.le (Nat.le_of_not_lt hlow)
      exact ⟨low, if_neg hlow, h⟩

/-- Among regions that stand in order and apart the search finds the one that holds the offset. -/
theorem isInertAt_eq (hne : ∀ r ∈ regions, r.1 < r.2) (hapart : regions.Pairwise fun r s => r.2 ≤ s.1)
    (index : Nat) : isInertAt regions index = pure (decide (∃ r ∈ regions, r.1 ≤ index ∧ index < r.2)) := by
  have hsorted : regions.Pairwise fun r s => r.1 < s.1 :=
    hapart.imp_of_mem fun hr _ hle => Nat.lt_of_lt_of_le (hne _ hr) hle
  have hall : Narrows regions index 0 regions.length :=
    ⟨Nat.zero_le _, Nat.le_refl _, fun k _ hk => absurd hk (Nat.not_lt_zero k), fun k hk hle => by omega⟩
  obtain ⟨slot, hslot, hplace⟩ := exists_slotFrom_eq hall hsorted
  rw [isInertAt, hslot, pure_bind]
  cases slot with
  | zero =>
    have hnone : ¬ ∃ r ∈ regions, r.1 ≤ index ∧ index < r.2 := by
      rintro ⟨r, hr, hle, -⟩
      obtain ⟨k, hk, rfl⟩ := List.mem_iff_getElem.1 hr
      have := hplace.behind k hk (Nat.zero_le k)
      omega
    rw [if_pos rfl, decide_eq_false hnone]
  | succ k =>
    have hk : k < regions.length := hplace.le_length
    have hfirst := hplace.before k hk (Nat.lt_succ_self k)
    have honly : (∃ r ∈ regions, r.1 ≤ index ∧ index < r.2) ↔ index < regions[k].2 := by
      refine ⟨?_, fun hlt => ⟨regions[k], List.getElem_mem hk, hfirst, hlt⟩⟩
      rintro ⟨r, hr, hle, hlt⟩
      obtain ⟨j, hj, rfl⟩ := List.mem_iff_getElem.1 hr
      rcases Nat.lt_trichotomy j k with hjk | rfl | hjk
      · have := List.pairwise_iff_getElem.1 hapart j k hj hk hjk
        omega
      · exact hlt
      · have := hplace.behind j hj hjk
        omega
    rw [if_neg (Nat.succ_ne_zero k), Nat.add_sub_cancel, List.getElem?_eq_getElem hk, lookUp_some, pure_bind]
    simp [honly, hfirst]

end

theorem isInertAt_inertRanges (text : List Char) (index : Nat) :
    isInertAt (inertRanges text) index = pure (decide (Covered text index)) :=
  isInertAt_eq (fun _ hr => (lt_of_mem_inertRanges hr).1) (pairwise_inertRanges text) index

end Scan
end Codemod.Source
