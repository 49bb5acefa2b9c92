import Codemod.Proofs.Source.Scan.Region

/-! The ranges of literals and comments as an index of a text. Each of them holds something and begins with what
opens a literal or a comment, they stand in order and apart, and a quotation mark that none of them holds is one
whose literal does not close on its line. So a search by halves finds for every offset whether a range holds it. -/
namespace Codemod.Source

/-! ## Literals on one line -/

/-- What may stand between the marks of a literal on one line. A backslash hides the character behind it. -/
inductive LiteralBody (mark : Char) : List Char → Prop
  | nil : LiteralBody mark []
  | hidden (c : Char) {body : List Char} (h : LiteralBody mark body) : LiteralBody mark ('\\' :: c :: body)
  | plain {c : Char} {body : List Char} (hc : Calm mark c) (h : LiteralBody mark body) :
      LiteralBody mark (c :: body)

/-- The literal that a mark opens in front of a text closes on its line. -/
def ClosesOnLine (mark : Char) (cs : List Char) : Prop :=
  ∃ body rest, LiteralBody mark body ∧ cs = body ++ mark :: rest

section
variable {quote : Char} (hquote : isQuote quote = true)
include hquote

theorem closesOnLine_of_body {body : List Char} (h : LiteralBody quote body) (rest : List Char) :
    closesOnLine quote (body ++ quote :: rest) = true := by
  induction h with
  | nil =>
    have hslash : quote ≠ '\\' := by
      rintro rfl
      cases hquote
    simp [closesOnLine_cons hslash]
  | hidden c _ ih => exact ih
  | plain hc _ ih => simp [closesOnLine_cons hc.2.2, hc.2.1, ih]

theorem exists_body_of_closesOnLine {cs : List Char} (h : closesOnLine quote cs = true) : ClosesOnLine quote cs := by
  induction cs using closesOnLine.induct with
  | case1 => cases h
  | case2 d cs ih =>
    obtain ⟨body, rest, hbody, rfl⟩ := ih h
    exact ⟨'\\' :: d :: body, rest, hbody.hidden d, rfl⟩
  | case3 c cs hno ih =>
    by_cases hslash : c = '\\'
    · subst hslash
      rw [closesOnLine_backslash hquote] at h
      cases cs with
      | nil => cases h
      | cons d cs => exact absurd rfl (hno d cs rfl)
    · rw [closesOnLine_cons hslash] at h
      by_cases hc : c = quote
      · subst hc
        exact ⟨[], cs, .nil, rfl⟩
      · obtain ⟨hline, hrest⟩ : c ≠ '\n' ∧ closesOnLine quote cs = true := by simpa [hc] using h
        obtain ⟨body, rest, hbody, rfl⟩ := ih hrest
        exact ⟨c :: body, rest, .plain ⟨hc, hline, hslash⟩ hbody, rfl⟩

theorem closesOnLine_iff {cs : List Char} : closesOnLine quote cs = true ↔ ClosesOnLine quote cs := by
  constructor
  · exact exists_body_of_closesOnLine hquote
  · rintro ⟨body, rest, hbody, rfl⟩
    exact closesOnLine_of_body hquote hbody rest

end

namespace Scan

/-! ## What stands at a range -/

/-- A text that begins with a literal or a comment. -/
def BeginsInert (cs : List Char) : Prop :=
  (∃ mark rest, isLiteralMark mark = true ∧ cs = mark :: rest) ∨ "//".toList <+: cs ∨ "/*".toList <+: cs

variable {front rest : List Char} {c : Char}

theorem beginsInert_of_inertFrames (h : inertFrames c rest ≠ []) : BeginsInert (c :: rest) := by
  by_contra hno
  obtain ⟨hmark, hcomment⟩ := not_or.1 hno
  obtain ⟨hline, hblock⟩ := not_or.1 hcomment
  apply h
  apply inertFrames_eq_nil
  · rw [Bool.eq_false_iff]
    intro hc
    exact hmark ⟨c, rest, hc, rfl⟩
  · rw [Bool.eq_false_iff, Ne, List.isPrefixOf_iff_prefix]
    exact hline
  · rw [Bool.eq_false_iff, Ne, List.isPrefixOf_iff_prefix]
    exact hblock

/-- A mark opens where nothing is open and its character opens something. -/
theorem opens_of_opening (h : (marks (front ++ c :: rest))[front.length]? = some .opening) :
    inertFrames c rest ≠ [] := by
  rw [getElem?_marks_append] at h
  cases hframes : framesAfter [] front (c :: rest) with
  | none =>
    rw [hframes] at h
    cases h
  | some frames =>
    rw [hframes] at h
    dsimp only at h
    rw [marksFrom] at h
    cases hstep : step frames c rest with
    | none =>
      rw [hstep] at h
      cases h
    | some next =>
      rw [hstep] at h
      have hmark : markOf frames next c = .opening := Option.some_inj.1 h
      unfold markOf at hmark
      split at hmark
      · -- nothing is open in front, so what is open behind is what the character opens
        obtain rfl := Option.some_inj.1 hstep
        intro hnil
        rw [hnil] at hmark
        cases hmark
      · split at hmark <;> cases hmark
      · cases hmark

theorem beginsInert_of_mem {text : List Char} {r : Nat × Nat} (h : r ∈ inertRanges text) :
    BeginsInert (text.drop r.1) := by
  have hopening := (mem_inertRanges_iff.1 (show (r.1, r.2) ∈ inertRanges text from h)).1
  have hlen : r.1 < text.length := by
    have := lt_of_mem_inertRanges h
    omega
  have hdrop := List.drop_eq_getElem_cons hlen
  have hsplit : text = text.take r.1 ++ text[r.1] :: text.drop (r.1 + 1) := by
    rw [← hdrop, List.take_append_drop]
  have hfront : (text.take r.1).length = r.1 := List.length_take_of_le (Nat.le_of_lt hlen)
  have hmark : (marks (text.take r.1 ++ text[r.1] :: text.drop (r.1 + 1)))[(text.take r.1).length]? =
      some .opening := by
    rw [← hsplit, hfront]
    exact hopening
  rw [hdrop]
  exact beginsInert_of_inertFrames (opens_of_opening hmark)

/-- A quotation mark that no range holds opens nothing, so its literal does not close on its line. -/
theorem not_closesOnLine_of_not_covered (hc : isLiteralMark c = true)
    (h : ¬ Covered (front ++ c :: rest) front.length) : ¬ ClosesOnLine c rest := by
  have hline : c ≠ '\n' := by
    rintro rfl
    cases hc
  have hopens := ((not_covered_iff_opens hline).1 h).2
  have hquotes : inertFrames c rest = quoteFrames c rest := by
    rcases eq_of_isLiteralMark hc with rfl | rfl | rfl <;> rfl
  rw [hquotes, quoteFrames] at hopens
  by_cases hquote : isQuote c = true
  · rw [if_pos hquote] at hopens
    rw [← closesOnLine_iff hquote]
    intro hcloses
    rw [if_pos hcloses] at hopens
    cases hopens
  · -- only a backtick at the end of the text opens nothing
    obtain rfl : c = '`' := by simpa [isLiteralMark, hquote] using hc
    have hend : rest = [] := by simpa [hquote] using hopens
    subst hend
    rintro ⟨body, behind, -, hnil⟩
    exact List.append_ne_nil_of_right_ne_nil body (List.cons_ne_nil _ _) hnil.symm

/-! ## The index -/

/-- Ranges that make an index of the literals and comments of a text. -/
structure Indexes (text : List Char) (ranges : List (Nat × Nat)) : Prop where
  nonempty : ∀ r ∈ ranges, r.1 < r.2
  inside : ∀ r ∈ ranges, r.2 ≤ text.length
  increasing : ranges.Pairwise fun r s => r.1 < s.1
  disjoint : ranges.Pairwise fun r s => r.2 ≤ s.1
  begins : ∀ r ∈ ranges, BeginsInert (text.drop r.1)
  unclosed : ∀ front mark rest, text = front ++ mark :: rest → isLiteralMark mark = true →
    (∀ r ∈ ranges, ¬ (r.1 ≤ front.length ∧ front.length < r.2)) → ¬ ClosesOnLine mark rest

theorem indexes_inertRanges (text : List Char) : Indexes text (inertRanges text) where
  nonempty _ hr := (lt_of_mem_inertRanges hr).1
  inside _ hr := (lt_of_mem_inertRanges hr).2
  increasing := by
    refine (pairwise_inertRanges text).imp_of_mem ?_
    intro r s hr _ hle
    exact Nat.lt_of_lt_of_le (lt_of_mem_inertRanges hr).1 hle
  disjoint := pairwise_inertRanges text
  begins _ hr := beginsInert_of_mem hr
  unclosed := by
    rintro front mark rest rfl hmark hoff
    apply not_closesOnLine_of_not_covered hmark
    rintro ⟨r, hr, hin⟩
    exact hoff r hr hin

/-- The pass over a text returns an index of it, and the search by halves finds for every offset whether one
of the ranges holds it. -/
theorem regions_indexes_text (text : List Char) :
    ∃ ranges, regions text = pure ranges ∧ Indexes text ranges ∧
      ∀ index, isInertAt ranges index = pure (decide (∃ r ∈ ranges, r.1 ≤ index ∧ index < r.2)) := by
  have hindexes := indexes_inertRanges text
  refine ⟨inertRanges text, regions_eq text, hindexes, ?_⟩
  intro index
  exact isInertAt_eq hindexes.nonempty hindexes.disjoint index

/-- An apostrophe, an empty literal, a comment that never ends. -/
example : inertRanges "don't\n'' /* `".toList = [(6, 8), (9, 13)] := by decide

end Scan
end Codemod.Source
