import Codemod.Proofs.Source.Tag

/-! A text and the text with the names of its live tags written anew. The reader cannot tell the two
apart, so literals and comments stay what they are, and no live tag of the old name is left. -/
namespace Codemod.Source
open Text

/-! ## The reader does not see names -/

theorem closesOnLine_cons {quote c : Char} (hc : c ≠ '\\') (cs : List Char) :
    closesOnLine quote (c :: cs) = (c == quote || (c != '\n' && closesOnLine quote cs)) := by
  rw [closesOnLine]
  intro _ _ hslash
  exact absurd hslash hc

/-- A character that neither ends nor continues a quoted literal in a way of its own. -/
def Calm (quote c : Char) : Prop := c ≠ quote ∧ c ≠ '\n' ∧ c ≠ '\\'

theorem closesOnLine_append {quote : Char} {cs : List Char} (h : ∀ c ∈ cs, Calm quote c)
    (rest : List Char) : closesOnLine quote (cs ++ rest) = closesOnLine quote rest := by
  induction cs with
  | nil => rfl
  | cons c cs ih =>
    obtain ⟨hquote, hline, hslash⟩ := h c (by simp)
    rw [List.cons_append, closesOnLine_cons hslash, ih fun d hd => h d (by simp [hd])]
    have hq : (c == quote) = false := beq_eq_false_iff_ne.2 hquote
    have hl : (c != '\n') = true := bne_iff_ne.2 hline
    rw [hq, hl, Bool.false_or, Bool.true_and]

theorem closesOnLine_backslash {quote : Char} (h : isQuote quote = true) (cs : List Char) :
    closesOnLine quote ('\\' :: cs) = closesOnLine quote (cs.drop 1) := by
  cases cs with
  | nil =>
    have hne : ('\\' == quote) = false := by
      by_contra hne
      obtain rfl : '\\' = quote := by simpa using hne
      cases h
    simp [closesOnLine, hne]
  | cons c cs => rfl

/-- What follows is the same to one step of the reader. -/
structure SameAhead (cs cs' : List Char) : Prop where
  head : cs'.head? = cs.head?
  closes : ∀ quote, isQuote quote = true → closesOnLine quote cs' = closesOnLine quote cs

theorem inertFrames_of_sameAhead {cs cs' : List Char} (h : SameAhead cs cs') (c : Char) :
    inertFrames c cs' = inertFrames c cs := by
  have hempty : cs'.isEmpty = cs.isEmpty := by
    have hhead := h.head
    cases cs <;> cases cs' <;> simp_all
  have hquote : quoteFrames c cs' = quoteFrames c cs := by
    unfold quoteFrames
    rw [hempty]
    split
    · next hc => rw [h.closes c hc]
    · rfl
  unfold inertFrames
  split
  · have hhead := h.head
    cases cs with
    | nil =>
      obtain rfl : cs' = [] := by simpa using hhead
      rfl
    | cons d cs =>
      obtain ⟨ds, rfl⟩ : ∃ ds, cs' = d :: ds := List.head?_eq_some_iff.1 hhead
      by_cases hslash : d = '/'
      · subst hslash
        rfl
      · by_cases hstar : d = '*'
        · subst hstar
          rfl
        · simp [hslash, hstar]
  · exact hquote

theorem step_of_sameAhead {cs cs' : List Char} (h : SameAhead cs cs') (frames : List Frame)
    (c : Char) : step frames c cs' = step frames c cs := by
  unfold step
  split <;> simp only [h.head, inertFrames_of_sameAhead h]

/-! ## A text and the text with its tags renamed -/

/-- The second text is the first with the name of each live tag of `old` written `new`. The frames are
those that are open where the texts begin, and `behind` is the character in front of the first. -/
inductive Renamed (old new : List Char) :
    List Frame → Option Char → List Char → List Char → Prop where
  | nil {frames behind} : Renamed old new frames behind [] []
  | stuck {frames behind c cs} : step frames c cs = none →
      Renamed old new frames behind (c :: cs) (c :: cs)
  | keep {frames next behind c cs cs'} : step frames c cs = some next →
      (frames = [] → tagLead? old behind (c :: cs) = none) → Renamed old new next (some c) cs cs' →
      Renamed old new frames behind (c :: cs) (c :: cs')
  | tag {behind lead cs cs'} : tagLead? old behind (lead ++ (old ++ cs)) = some lead →
      Renamed old new [] (lastOr behind (lead ++ old)) cs cs' →
      Renamed old new [] behind (lead ++ (old ++ cs)) (lead ++ (new ++ cs'))

theorem calm_of_isAttributeChar {quote c : Char} (h : isQuote quote = true)
    (hc : isAttributeChar c = true) : Calm quote c := by
  refine ⟨ne_of_isAttributeChar hc ?_, ne_of_isAttributeChar hc (by decide),
    ne_of_isAttributeChar hc (by decide)⟩
  simp only [isQuote, Bool.or_eq_true, beq_iff_eq] at h
  rcases h with rfl | rfl <;> decide

theorem calm_of_lead {quote : Char} (h : isQuote quote = true) {lead : List Char}
    (hlead : lead = ['<'] ∨ lead = ['<', '/']) : ∀ c ∈ lead, Calm quote c := by
  simp only [isQuote, Bool.or_eq_true, beq_iff_eq] at h
  rcases hlead with rfl | rfl <;> rcases h with rfl | rfl <;> simp [Calm]

/-- The characters in front of a name together with the name. -/
theorem calm_of_tag {quote : Char} (h : isQuote quote = true) {lead name : List Char}
    (hlead : lead = ['<'] ∨ lead = ['<', '/']) (hname : TagName name) :
    ∀ c ∈ lead ++ name, Calm quote c := by
  intro c hc
  rcases List.mem_append.1 hc with hc | hc
  · exact calm_of_lead h hlead c hc
  · exact calm_of_isAttributeChar h (hname.chars c hc)

theorem drop_one_tag {lead name : List Char} (hlead : lead = ['<'] ∨ lead = ['<', '/'])
    (cs : List Char) : (lead ++ (name ++ cs)).drop 1 = (lead.drop 1 ++ name) ++ cs := by
  rcases hlead with rfl | rfl <;> simp

namespace Renamed

variable {old new : List Char} {frames : List Frame} {behind : Option Char} {cs cs' : List Char}

theorem stem_eq (h : Renamed old new frames behind cs cs') : stem cs' = stem cs := by
  induction h with
  | nil => rfl
  | stuck => rfl
  | keep _ _ _ ih => simp only [stem, ih]
  | tag hlead =>
    rcases (tagLead?_eq_some hlead).1 with rfl | rfl <;> simp [stem]

/-- Quoted literals close on their lines in both texts or in neither, also when a backslash hides the
first character. -/
theorem closesOnLine_eq (hold : TagName old) (hnew : TagName new)
    (h : Renamed old new frames behind cs cs') {quote : Char} (hq : isQuote quote = true) :
    closesOnLine quote cs' = closesOnLine quote cs ∧
      closesOnLine quote (cs'.drop 1) = closesOnLine quote (cs.drop 1) := by
  induction h with
  | nil => exact ⟨rfl, rfl⟩
  | stuck => exact ⟨rfl, rfl⟩
  | @keep frames next behind c cs cs' _ _ _ ih =>
    refine ⟨?_, ih.1⟩
    by_cases hc : c = '\\'
    · subst hc
      rw [closesOnLine_backslash hq, closesOnLine_backslash hq, ih.2]
    · rw [closesOnLine_cons hc, closesOnLine_cons hc, ih.1]
  | @tag behind lead cs cs' hlead _ ih =>
    have hl := (tagLead?_eq_some hlead).1
    have hold' := calm_of_tag hq hl hold
    have hnew' := calm_of_tag hq hl hnew
    constructor
    · rw [← List.append_assoc, ← List.append_assoc, closesOnLine_append hold',
        closesOnLine_append hnew', ih.1]
    · rw [drop_one_tag hl, drop_one_tag hl, closesOnLine_append, closesOnLine_append, ih.1]
      · intro c hc
        exact hold' c (List.mem_append.2 ((List.mem_append.1 hc).imp_left List.mem_of_mem_drop))
      · intro c hc
        exact hnew' c (List.mem_append.2 ((List.mem_append.1 hc).imp_left List.mem_of_mem_drop))

theorem sameAhead (hold : TagName old) (hnew : TagName new)
    (h : Renamed old new frames behind cs cs') : SameAhead cs cs' where
  head := by rw [← head?_stem, h.stem_eq, head?_stem]
  closes := fun _ hq => (h.closesOnLine_eq hold hnew hq).1

theorem step_eq (hold : TagName old) (hnew : TagName new)
    (h : Renamed old new frames behind cs cs') (open' : List Frame) (c : Char) :
    step open' c cs' = step open' c cs :=
  step_of_sameAhead (h.sameAhead hold hnew) open' c

end Renamed

/-! ## Literals and comments -/

/-- The characters of the literal or comment that is open in front of characters with their marks. -/
def openText (marked : List (Char × Mark)) : List Char :=
  (marked.takeWhile (·.2 == .inside)).map (·.1)

/-- The literals and comments among characters with their marks. -/
def inertTextsOf : List (Char × Mark) → List (List Char)
  | [] => []
  | (c, m) :: marked =>
    if m = .opening then (c :: openText marked) :: inertTextsOf marked else inertTextsOf marked

/-- The literals and comments of a text, in order. -/
def inertTexts (text : List Char) : List (List Char) :=
  (inertRanges text).map fun r => between r.1 r.2 text

theorem openText_cons (c : Char) (m : Mark) (marked : List (Char × Mark)) :
    openText ((c, m) :: marked) = if m = .inside then c :: openText marked else [] := by
  cases m <;> simp [openText]

theorem openText_zip (cs : List Char) {marks : List Mark} (h : marks.length = cs.length) :
    openText (cs.zip marks) = cs.take (leading marks) := by
  induction cs generalizing marks with
  | nil => simp [openText]
  | cons c cs ih =>
    cases marks with
    | nil => simp at h
    | cons m marks =>
      have hrest : openText (cs.zip marks) = cs.take (leading marks) := ih (by simpa using h)
      cases m <;> simp_all [openText, leading]

theorem map_go_eq {text cs : List Char} {marks : List Mark} {pos : Nat} (hcs : text.drop pos = cs)
    (h : marks.length = cs.length) :
    (inertRanges.go pos marks).map (fun r => between r.1 r.2 text) = inertTextsOf (cs.zip marks) := by
  induction marks generalizing cs pos with
  | nil => simp [inertRanges.go, inertTextsOf]
  | cons m marks ih =>
    cases cs with
    | nil => simp at h
    | cons c cs =>
      have hlen : marks.length = cs.length := by simpa using h
      have hdrop : text.drop (pos + 1) = cs := by rw [← List.drop_drop, hcs]; rfl
      have hrest := ih hdrop hlen
      cases m with
      | live => simpa [inertRanges.go, inertTextsOf] using hrest
      | inside => simpa [inertRanges.go, inertTextsOf] using hrest
      | opening =>
        have hreach : between pos (pos + 1 + leading marks) text = c :: openText (cs.zip marks) := by
          rw [between, hcs, openText_zip cs hlen, show pos + 1 + leading marks - pos =
            leading marks + 1 by omega, List.take_succ_cons]
        simp only [inertRanges.go, List.map_cons, hrest, List.zip_cons_cons, inertTextsOf, if_true]
        rw [← hreach]
        rfl

theorem inertTexts_eq (text : List Char) :
    inertTexts text = inertTextsOf (text.zip (marksFrom [] text)) :=
  map_go_eq List.drop_zero (length_marks text)

theorem inertTextsOf_live (cs : List Char) (marked : List (Char × Mark)) :
    inertTextsOf ((cs.map fun c => (c, Mark.live)) ++ marked) = inertTextsOf marked := by
  induction cs with
  | nil => rfl
  | cons c cs ih => simpa [inertTextsOf] using ih

theorem zip_marksFrom_plain {cs rest : List Char} (h : Plain cs rest) :
    (cs ++ rest).zip (marksFrom [] (cs ++ rest)) =
      (cs.map fun c => (c, Mark.live)) ++ rest.zip (marksFrom [] rest) := by
  rw [marksFrom_plain h, List.zip_append (by simp)]
  congr 1
  induction cs with
  | nil => rfl
  | cons c cs ih => simpa using ih h.2

theorem Renamed.inertTexts_eq {old new : List Char} (hold : TagName old) (hnew : TagName new)
    {frames : List Frame} {behind : Option Char} {cs cs' : List Char}
    (h : Renamed old new frames behind cs cs') :
    inertTextsOf (cs'.zip (marksFrom frames cs')) = inertTextsOf (cs.zip (marksFrom frames cs)) ∧
      openText (cs'.zip (marksFrom frames cs')) = openText (cs.zip (marksFrom frames cs)) := by
  induction h with
  | nil => exact ⟨rfl, rfl⟩
  | stuck => exact ⟨rfl, rfl⟩
  | @keep frames next behind c cs cs' hstep _ hrest ih =>
    have hstep' : step frames c cs' = some next := (hrest.step_eq hold hnew frames c).trans hstep
    simp only [marksFrom, hstep, hstep', List.zip_cons_cons, inertTextsOf, openText_cons, ih.1, ih.2,
      and_self]
  | @tag behind lead cs cs' hlead _ ih =>
    have hl := (tagLead?_eq_some hlead).1
    rw [← List.append_assoc, ← List.append_assoc, zip_marksFrom_plain (plain_tag hl hold _),
      zip_marksFrom_plain (plain_tag hl hnew _), inertTextsOf_live, inertTextsOf_live]
    refine ⟨ih.1, ?_⟩
    rcases hl with rfl | rfl <;> rfl

/-! ## Live tags -/

/-- No tag of the name begins where no frame is open. -/
def TagFree (name : List Char) : List Frame → Option Char → List Char → Prop
  | _, _, [] => True
  | frames, behind, c :: cs =>
    (frames = [] → tagLead? name behind (c :: cs) = none) ∧
      ∀ next, step frames c cs = some next → TagFree name next (some c) cs

/-- Plain characters without `<` hold no tag. -/
theorem tagFree_append {name cs rest : List Char} (h : Plain cs rest) (hlt : '<' ∉ cs)
    {behind : Option Char} (hrest : TagFree name [] (lastOr behind cs) rest) :
    TagFree name [] behind (cs ++ rest) := by
  induction cs generalizing behind with
  | nil => exact hrest
  | cons c cs ih =>
    have hc : c ≠ '<' := fun hc => hlt (by simp [hc])
    refine ⟨fun _ => tagLead?_eq_none hc _, fun next hnext => ?_⟩
    have hnil : inertFrames c (cs.append rest) = [] := h.1
    rw [step, hnil] at hnext
    cases hnext
    exact ih h.2 (fun hm => hlt (by simp [hm])) (by simpa using hrest)

/-- A tag written anew is no tag of the old name. -/
theorem tagLead?_renamed {old new lead cs : List Char} {behind : Option Char} (hold : TagName old)
    (hnew : TagName new) (hne : old ≠ new) (hlead : lead = ['<'] ∨ lead = ['<', '/'])
    (hcs : EndsName cs) : tagLead? old behind (lead ++ (new ++ cs)) = none := by
  by_contra h
  obtain ⟨other, htag⟩ := Option.ne_none_iff_exists'.1 h
  obtain ⟨hother, rest, heq, hrest⟩ := tagLead?_eq_some htag
  rcases hlead with rfl | rfl <;> rcases hother with rfl | rfl <;>
    simp only [List.cons_append, List.nil_append, List.cons.injEq, true_and] at heq
  · exact hne (name_unique hold.chars hnew.chars hrest hcs heq.symm)
  · exact hnew.append_ne_slash _ _ heq
  · exact hold.append_ne_slash _ _ heq.symm
  · exact hne (name_unique hold.chars hnew.chars hrest hcs heq.symm)

theorem Renamed.tagFree {old new : List Char} (hold : TagName old) (hnew : TagName new)
    (hne : old ≠ new) {frames : List Frame} {behind : Option Char} {cs cs' : List Char}
    (h : Renamed old new frames behind cs cs') {behind' : Option Char}
    (hb : behind' = behind ∨ cs.head? ≠ some '<') : TagFree old frames behind' cs' := by
  -- behind a renamed tag another character stands; no tag can follow there, so it does not matter
  induction h generalizing behind' with
  | nil => trivial
  | stuck hstep =>
    refine ⟨?_, fun next hnext => ?_⟩
    · rintro rfl
      simp [step] at hstep
    · rw [hstep] at hnext
      cases hnext
  | @keep frames next behind c cs cs' hstep hno hrest ih =>
    refine ⟨fun hframes => ?_, fun next' hnext => ?_⟩
    · by_cases hc : c = '<'
      · subst hc
        obtain rfl : behind' = behind := hb.resolve_right (by simp)
        rw [← tagLead?_stem hold, hrest.stem_eq, tagLead?_stem hold]
        exact hno hframes
      · exact tagLead?_eq_none hc _
    · rw [hrest.step_eq hold hnew, hstep] at hnext
      cases hnext
      exact ih (.inl rfl)
  | @tag behind lead cs cs' hlead hrest ih =>
    obtain ⟨hl, rest, heq, hend⟩ := tagLead?_eq_some hlead
    obtain rfl : cs = rest := by simpa using heq
    have hend' : EndsName cs' := hend.of_head (hrest.sameAhead hold hnew).head
    have hplain := plain_tag hl hnew cs'
    have hfree : TagFree old [] (lastOr behind' (lead ++ new)) cs' := ih (.inr hend.head?_ne)
    have hnone : tagLead? old behind' (lead ++ (new ++ cs')) = none :=
      tagLead?_renamed hold hnew hne hl hend'
    obtain ⟨body, hbody, hlt⟩ := exists_tag_body hl hnew
    rw [← List.append_assoc, hbody] at hnone ⊢
    rw [hbody] at hplain hfree
    refine ⟨fun _ => hnone, fun next hnext => ?_⟩
    cases hnext
    exact tagFree_append hplain.2 hlt (by simpa using hfree)

/-- Where no frame is open there is no tag. -/
theorem TagFree.tagLead?_eq_none {name : List Char} {frames : List Frame} {behind : Option Char}
    {before rest : List Char} (h : TagFree name frames behind (before ++ rest))
    (hframes : framesAfter frames before rest = some []) :
    tagLead? name (lastOr behind before) rest = none := by
  induction before generalizing frames behind with
  | nil =>
    cases rest with
    | nil => exact tagLead?_nil _ _
    | cons c rest => exact h.1 (by simpa [framesAfter] using hframes)
  | cons c before ih =>
    rw [framesAfter] at hframes
    obtain ⟨next, hstep, hnext⟩ := Option.bind_eq_some_iff.1 hframes
    rw [lastOr_cons]
    exact ih (h.2 next hstep) hnext

/-- A live tag stands where no frame is open. -/
theorem liveTag_iff {name before rest : List Char} :
    LiveTag name (before ++ rest) before.length ↔
      framesAfter [] before rest = some [] ∧ (tagLead? name (lastOr none before) rest).isSome := by
  have hbehind : ((before ++ rest).take before.length).getLast? = lastOr none before := by
    simp [lastOr]
  unfold LiveTag
  rw [hbehind, List.drop_left]
  refine and_congr_left fun hsome => ?_
  obtain ⟨lead, hlead⟩ := Option.isSome_iff_exists.1 hsome
  obtain ⟨tail, rfl⟩ : ∃ tail, rest = '<' :: tail := by
    obtain ⟨rfl | rfl, tail, rfl, -⟩ := tagLead?_eq_some hlead <;> exact ⟨_, rfl⟩
  exact not_covered_iff_framesAfter (by decide) rfl

theorem not_liveTag_of_tagFree {name text : List Char} (h : TagFree name [] none text) (i : Nat) :
    ¬ LiveTag name text i := by
  intro hlive
  by_cases hi : i ≤ text.length
  · have hlen : (text.take i).length = i := by simp [hi]
    have hlive' : LiveTag name (text.take i ++ text.drop i) (text.take i).length := by
      rwa [List.take_append_drop, hlen]
    obtain ⟨hframes, hsome⟩ := liveTag_iff.1 hlive'
    rw [← List.take_append_drop i text] at h
    rw [h.tagLead?_eq_none hframes] at hsome
    cases hsome
  · rw [LiveTag, List.drop_eq_nil_of_le (by omega)] at hlive
    exact absurd hlive.2 (by simp)

end Codemod.Source
