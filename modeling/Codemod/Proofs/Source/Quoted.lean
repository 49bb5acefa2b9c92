import Codemod.Proofs.Source.TagAt

/-! Quoted values as the reader of tags takes them and as the reader of literals does. A value ends at the next
quote like its first one, a literal must end on its line and a backslash hides a character of it. The two
agree on the values of a tag exactly when each of these closes on its line. -/
namespace Codemod.Source
open Text

/-! ## The range of a literal -/

theorem mem_go_iff {pos s e : Nat} {marks : List Mark} : (s, e) ∈ inertRanges.go pos marks ↔
    ∃ k, s = pos + k ∧ marks[k]? = some .opening ∧ e = s + 1 + leading (marks.drop (k + 1)) := by
  induction marks generalizing pos with
  | nil => simp [inertRanges.go]
  | cons m marks ih =>
    have hlater : (s, e) ∈ inertRanges.go (pos + 1) marks ↔ ∃ k, s = pos + (k + 1) ∧
        (m :: marks)[k + 1]? = some .opening ∧ e = s + 1 + leading ((m :: marks).drop (k + 1 + 1)) := by
      simp only [ih, List.getElem?_cons_succ, List.drop_succ_cons, Nat.add_assoc, Nat.add_comm 1]
    rw [← Nat.or_exists_add_one]
    simp only [← hlater]
    cases m with
    | opening =>
      simp only [inertRanges.go, List.mem_cons, Prod.mk.injEq]
      refine or_congr ?_ Iff.rfl
      simp only [Nat.add_zero, List.getElem?_cons_zero, true_and, Nat.zero_add, List.drop_one, List.tail_cons]
      constructor
      · rintro ⟨rfl, rfl⟩
        exact ⟨rfl, rfl⟩
      · rintro ⟨rfl, rfl⟩
        exact ⟨rfl, rfl⟩
    | live => simp [inertRanges.go]
    | inside => simp [inertRanges.go]

/-- A range begins where a mark opens and reaches as far as the marks behind it are inside. -/
theorem mem_inertRanges_iff {text : List Char} {s e : Nat} : (s, e) ∈ inertRanges text ↔
    (marks text)[s]? = some .opening ∧ e = s + 1 + leading ((marks text).drop (s + 1)) := by
  rw [inertRanges, mem_go_iff]
  simp

theorem leading_cons_inside (marks : List Mark) : leading (.inside :: marks) = leading marks + 1 := by
  simp [leading]

/-- What is code is not inside. -/
theorem leading_marksFrom_nil (cs : List Char) : leading (marksFrom [] cs) = 0 :=
  leading_eq_zero (led_marksFrom (fun _ => rfl) cs)

section
variable {quote : Char} {body rest : List Char}

theorem marksFrom_quoted_cons {next : List Frame} {d : Char} {cs : List Char}
    (h : step [.quoted quote] d cs = some next) :
    marksFrom [.quoted quote] (d :: cs) = .inside :: marksFrom next cs := by
  rw [marksFrom, h]
  rfl

theorem marksFrom_hidden (quote d : Char) (cs : List Char) :
    marksFrom [.quoted quote] ('\\' :: d :: cs) = .inside :: .inside :: marksFrom [.quoted quote] cs := by
  have hstep : step [.quoted quote] '\\' (d :: cs) = some [.second, .quoted quote] := rfl
  rw [marksFrom_quoted_cons hstep]
  rfl

/-- A literal that closes at the first quote is as long as the value. -/
theorem leading_of_closes (hquote : isQuote quote = true) (hbody : quote ∉ body)
    (h : closesOnLine quote (body ++ [quote]) = true) :
    leading (marksFrom [.quoted quote] (body ++ quote :: rest)) = body.length + 1 := by
  have hslash : quote ≠ '\\' := by
    rintro rfl
    cases hquote
  induction body using closesOnLine.induct with
  | case1 =>
    have hstep : step [.quoted quote] quote rest = some [] := by simp [step, hslash]
    rw [List.nil_append, marksFrom_quoted_cons hstep, leading_cons_inside, leading_marksFrom_nil]
    rfl
  | case2 d body ih =>
    rw [List.cons_append, List.cons_append, marksFrom_hidden, leading_cons_inside, leading_cons_inside,
      ih (fun hm => hbody (by simp [hm])) h]
    rfl
  | case3 d body hno ih =>
    have hd : d ≠ quote := fun hd => hbody (by simp [hd])
    have hd' : d ≠ '\\' := by
      rintro rfl
      cases body with
      | nil => simp [closesOnLine] at h
      | cons e body => exact hno e body rfl rfl
    rw [List.cons_append, closesOnLine_cons hd'] at h
    have hrest : d ≠ '\n' ∧ closesOnLine quote (body ++ [quote]) = true := by simpa [hd] using h
    have hstep : step [.quoted quote] d (body ++ quote :: rest) = some [.quoted quote] := by
      simp [step, hd, hd']
    rw [List.cons_append, marksFrom_quoted_cons hstep, leading_cons_inside,
      ih (fun hm => hbody (by simp [hm])) hrest.2]
    rfl

/-- A literal whose first quote is hidden goes on behind the value. -/
theorem lt_leading_of_hidden (hquote : isQuote quote = true) (hbody : quote ∉ body)
    (h : closesOnLine quote (body ++ [quote]) = false)
    (hrest : closesOnLine quote (body ++ quote :: rest) = true) :
    body.length + 1 < leading (marksFrom [.quoted quote] (body ++ quote :: rest)) := by
  have hslash : quote ≠ '\\' := by
    rintro rfl
    cases hquote
  induction body using closesOnLine.induct with
  | case1 => simp [closesOnLine_cons hslash] at h
  | case2 d body ih =>
    rw [List.cons_append, List.cons_append, marksFrom_hidden, leading_cons_inside, leading_cons_inside,
      List.length_cons, List.length_cons]
    have := ih (fun hm => hbody (by simp [hm])) h hrest
    omega
  | case3 d body hno ih =>
    have hd : d ≠ quote := fun hd => hbody (by simp [hd])
    by_cases hback : d = '\\'
    · -- the backslash is the last character of the value
      subst hback
      obtain rfl : body = [] := by
        cases body with
        | nil => rfl
        | cons e body => exact absurd rfl (hno e body rfl)
      obtain ⟨c, rest, rfl⟩ : ∃ c cs, rest = c :: cs := by
        refine List.exists_cons_of_ne_nil ?_
        rintro rfl
        cases hrest
      rw [List.cons_append, List.nil_append, marksFrom_hidden, leading_cons_inside, leading_cons_inside]
      obtain ⟨next, hnext⟩ : ∃ next, step [.quoted quote] c rest = some next := ⟨_, rfl⟩
      rw [marksFrom_quoted_cons hnext, leading_cons_inside]
      simp
    · rw [List.cons_append, closesOnLine_cons hback] at h hrest
      have hfeed : d ≠ '\n' := by
        rintro rfl
        simp [hd] at hrest
      have hshort : closesOnLine quote (body ++ [quote]) = false := by simpa [hd, hfeed] using h
      have hlong : closesOnLine quote (body ++ quote :: rest) = true := by simpa [hd, hfeed] using hrest
      have hstep : step [.quoted quote] d (body ++ quote :: rest) = some [.quoted quote] := by
        simp [step, hd, hback]
      rw [List.cons_append, marksFrom_quoted_cons hstep, leading_cons_inside, List.length_cons]
      have := ih (fun hm => hbody (by simp [hm])) hshort hlong
      omega

/-- A value that begins in code is one literal exactly when it closes on its line. -/
theorem mem_inertRanges_value_iff {front : List Char} (hquote : isQuote quote = true) (hbody : quote ∉ body)
    (hcode : framesAfter [] front (quote :: (body ++ quote :: rest)) = some []) :
    (front.length, front.length + (body.length + 2)) ∈
        inertRanges (front ++ quote :: (body ++ quote :: rest)) ↔
      closesOnLine quote (body ++ [quote]) = true := by
  have hmarks : (marks (front ++ quote :: (body ++ quote :: rest))).drop front.length =
      marksFrom [] (quote :: (body ++ quote :: rest)) := by
    rw [marks, drop_marksFrom, hcode]
  have hfirst : (marks (front ++ quote :: (body ++ quote :: rest)))[front.length]? =
      (marksFrom [] (quote :: (body ++ quote :: rest)))[0]? := by
    rw [← hmarks]
    simp
  rw [mem_inertRanges_iff, hfirst, ← List.drop_drop, hmarks]
  by_cases hlong : closesOnLine quote (body ++ quote :: rest) = true
  · have hopens : marksFrom [] (quote :: (body ++ quote :: rest)) =
        .opening :: marksFrom [.quoted quote] (body ++ quote :: rest) := by
      rw [marksFrom, step, inertFrames_of_isQuote hquote, if_pos hlong]
      rfl
    rw [hopens, List.drop_one, List.tail_cons]
    by_cases hshort : closesOnLine quote (body ++ [quote]) = true
    · rw [leading_of_closes hquote hbody hshort]
      refine iff_of_true ⟨rfl, ?_⟩ hshort
      omega
    · have hlt := lt_leading_of_hidden hquote hbody (by simpa using hshort) hlong
      refine iff_of_false (fun hrange => ?_) hshort
      have := hrange.2
      omega
  · have hshort : closesOnLine quote (body ++ [quote]) ≠ true := by
      intro hshort
      have := closesOnLine_append_of_closes hquote hshort rest
      rw [List.append_assoc] at this
      exact hlong this
    refine iff_of_false (fun hrange => ?_) hshort
    have hopens := hrange.1
    rw [marksFrom, step, inertFrames_of_isQuote hquote, if_neg hlong] at hopens
    cases hopens

end

/-! ## Quoted values of a tag -/

/-- The value of the attribute stands between quotes. -/
def Attribute.isQuoted (a : Attribute) : Bool :=
  match a.value with
  | some (c :: _) => isQuote c
  | _ => false

/-- The offset at which the value of an attribute begins, and the one behind it. -/
def Attribute.valueRange (a : Attribute) : Nat × Nat := (a.stop - (a.value.getD []).length, a.stop)

theorem Attribute.closes_of_not_isQuoted {a : Attribute} (h : a.isQuoted = false) : a.closes = true := by
  unfold isQuoted at h
  unfold closes
  split
  · next c rest hvalue =>
    rw [hvalue] at h
    rw [show isQuote c = false from h]
    rfl
  · rfl

/-- Where the values in front close on their lines, a quoted value is a literal exactly when it does so too. -/
theorem valueRange_mem_inertRanges_iff {text tag : List Char} (htag : TagName tag) {t : OpeningTag}
    (ht : t ∈ openingTags text tag) {before later : List Attribute} {a : Attribute}
    (heq : t.attributes = before ++ a :: later) (hcloses : ∀ b ∈ before, b.closes = true)
    (hquoted : a.isQuoted = true) : a.valueRange ∈ inertRanges text ↔ a.closes = true := by
  obtain ⟨front, rest, items, hat⟩ := exists_tagAt ht
  rw [hat.attributes] at heq
  obtain ⟨first, second, rfl, hfirst, hsecond⟩ := List.filterMap_eq_append_iff.1 heq
  obtain ⟨bare, item, others, rfl, hbare, hattr, -⟩ := List.filterMap_eq_cons_iff.1 hsecond
  obtain ⟨lead, body, behind, ⟨rfl, hitem, -, -⟩, -, hcode⟩ :=
    hat.exists_item htag (List.append_assoc first bare (item :: others)).symm
  have hcode' : framesAfter [] lead (body ++ behind) = some [] := by
    refine hcode fun other hother b hb => ?_
    rcases List.mem_append.1 hother with hother | hother
    · exact hcloses b (hfirst ▸ List.mem_filterMap.2 ⟨other, hother, hb⟩)
    · rw [hbare other hother] at hb
      cases hb
  cases hitem with
  | spread => cases hattr
  | flag => cases hattr; cases hquoted
  | braced => cases hattr; cases hquoted
  | @quoted gap name label value _ quote hgap hlabel hquote hvalue =>
    cases hattr
    have hneutral : Neutral (gap ++ label) (quote :: (value ++ quote :: behind)) := by
      refine neutral_of_isTagChar (fun c hc => ?_) _
      exact (List.mem_append.1 hc).elim (fun hc => isTagChar_of_isBlank (hgap c hc)) (hlabel.isTagChar c)
    have hsplit : (gap ++ (label ++ quote :: (value ++ [quote]))) ++ behind =
        (gap ++ label) ++ quote :: (value ++ quote :: behind) := by simp
    have hbefore : framesAfter [] (lead ++ (gap ++ label)) (quote :: (value ++ quote :: behind)) =
        some [] := by
      rw [hsplit] at hcode'
      rw [framesAfter_append, hcode', Option.bind_some, hneutral.reads_code]
    have hrange := mem_inertRanges_value_iff hquote hvalue hbefore
    have hvalueRange : Attribute.valueRange ⟨name, some (quote :: (value ++ [quote])),
        lead.length + gap.length, lead.length + (gap ++ (label ++ quote :: (value ++ [quote]))).length⟩ =
        ((lead ++ (gap ++ label)).length, (lead ++ (gap ++ label)).length + (value.length + 2)) := by
      simp only [Attribute.valueRange, Option.getD_some, List.length_append, List.length_cons,
        List.length_nil, Prod.mk.injEq]
      omega
    rw [hvalueRange, hsplit, ← List.append_assoc lead, hrange]
    simp [Attribute.closes, hquote]

/-- In each opening tag the quoted values are literals of the text, from quote to quote, exactly when each of
them closes on its line; and up to the first value that does not close, each one that does is such a
literal. -/
theorem quoted_values_are_literals_iff {text tag : List Char} (htag : TagName tag) {t : OpeningTag}
    (ht : t ∈ openingTags text tag) :
    ((∀ a ∈ t.attributes, a.isQuoted = true → a.valueRange ∈ inertRanges text) ↔
      ∀ a ∈ t.attributes, a.closes = true) ∧
    ∀ before a later, t.attributes = before ++ a :: later → (∀ b ∈ before, b.closes = true) →
      a.isQuoted = true → (a.valueRange ∈ inertRanges text ↔ a.closes = true) := by
  refine ⟨⟨fun hranges => ?_, fun hcloses a ha hquoted => ?_⟩,
    fun before a later heq hcloses hquoted => valueRange_mem_inertRanges_iff htag ht heq hcloses hquoted⟩
  · -- the values close one after the other
    have hprefix : ∀ before later, t.attributes = before ++ later → ∀ b ∈ before, b.closes = true := by
      intro before
      induction before using List.reverseRecOn with
      | nil => simp
      | append_singleton before a ih =>
        intro later heq b hb
        have hbefore := ih (a :: later) (by rw [heq]; simp)
        rcases List.mem_append.1 hb with hb | hb
        · exact hbefore b hb
        · obtain rfl := List.mem_singleton.1 hb
          by_cases hquoted : b.isQuoted = true
          · have hsplit : t.attributes = before ++ b :: later := heq.trans (List.append_cons before b later).symm
            exact (valueRange_mem_inertRanges_iff htag ht hsplit hbefore hquoted).1
              (hranges b (by rw [heq]; simp) hquoted)
          · exact b.closes_of_not_isQuoted (by simpa using hquoted)
    exact hprefix t.attributes [] (List.append_nil _).symm
  · obtain ⟨before, later, heq⟩ := List.append_of_mem ha
    exact (valueRange_mem_inertRanges_iff htag ht heq (fun b hb => hcloses b (by rw [heq]; simp [hb])) hquoted).2
      (hcloses a ha)

theorem quoted_values_are_literals_iff_sample :
    let text := "<A b=\"x\" c='y' />".toList
    TagName "A".toList ∧ ∃ t ∈ openingTags text "A".toList,
      t.attributes.map Attribute.valueRange = [(5, 8), (11, 14)] ∧
      ∀ a ∈ t.attributes, a.valueRange ∈ inertRanges text := by
  have htag : TagName "A".toList := ⟨by decide, List.all_iff_forall_prop.1 (by decide)⟩
  have htags : openingTags "<A b=\"x\" c='y' />".toList "A".toList = [⟨"A".toList, 0, 2, 17,
      [⟨"b".toList, some "\"x\"".toList, 3, 8⟩, ⟨"c".toList, some "'y'".toList, 9, 14⟩]⟩] := by decide +kernel
  obtain ⟨t, ht, hattributes⟩ : ∃ t ∈ openingTags "<A b=\"x\" c='y' />".toList "A".toList,
      t.attributes = [⟨"b".toList, some "\"x\"".toList, 3, 8⟩, ⟨"c".toList, some "'y'".toList, 9, 14⟩] := by
    rw [htags]
    exact ⟨_, List.mem_singleton_self _, rfl⟩
  have hquoted : ∀ a ∈ t.attributes, a.isQuoted = true := by
    rw [hattributes]
    decide
  have hcloses : ∀ a ∈ t.attributes, a.closes = true := by
    rw [hattributes]
    decide
  refine ⟨htag, t, ht, by rw [hattributes]; rfl, fun a ha => ?_⟩
  exact (quoted_values_are_literals_iff htag ht).1.2 hcloses a ha (hquoted a ha)

/-- A value that goes on in the next line is not read as a literal, and a tag in it counts. -/
example : (openingTags "<A b=\"x\n<A>\">".toList "A".toList).map OpeningTag.start = [0, 8] := by decide +kernel

end Codemod.Source
