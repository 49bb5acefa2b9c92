import Codemod.Proofs.Source.CallEdits
import Codemod.Proofs.Source.Quoted
import Codemod.Proofs.Source.Splitter

/-! Arguments of a list against the literals, comments and brackets of the text. The splitter knows no comments, so a
comma in one of them separates two arguments to it unless it stands in brackets; all other commas it takes for what
they are, as long as no comment holds a bracket or a quote. -/
namespace Codemod.Source
open Text

/-! ## Comments of a text -/

/-- The offset lies in a comment. -/
def Commented (text : List Char) (i : Nat) : Prop :=
  ∃ r ∈ inertRanges text, (r.1 ≤ i ∧ i < r.2) ∧ text[r.1]? = some '/'

instance (text : List Char) (i : Nat) : Decidable (Commented text i) :=
  inferInstanceAs (Decidable (∃ r ∈ inertRanges text, (r.1 ≤ i ∧ i < r.2) ∧ text[r.1]? = some '/'))

variable {text front rest : List Char} {frames : List Frame} {c : Char}

/-- Where something is open it has been opened by a character, and all is inside from there on. -/
theorem exists_opening (h : framesAfter [] front rest = some frames) (hopen : frames ≠ []) :
    ∃ s d, front[s]? = some d ∧ (marks (front ++ rest))[s]? = some .opening ∧
      (∀ j, s < j → j < front.length → (marks (front ++ rest))[j]? = some .inside) ∧ inComment frames = (d == '/') := by
  induction front using List.reverseRecOn generalizing frames rest with
  | nil => exact absurd (Option.some_inj.1 h).symm hopen
  | append_singleton front c ih =>
    rw [framesAfter_append, List.singleton_append] at h
    obtain ⟨before, hbefore, hstep⟩ := Option.bind_eq_some_iff.1 h
    replace hstep : step before c rest = some frames := (Option.bind_fun_some _).symm.trans hstep
    have hmark : (marks (front ++ c :: rest))[front.length]? = some (markOf before frames c) := by
      rw [getElem?_marks_of_framesAfter hbefore, marksFrom, hstep]
      rfl
    rw [List.append_assoc, List.singleton_append]
    by_cases hcode : before = []
    · subst hcode
      obtain rfl := Option.some_inj.1 hstep
      refine ⟨front.length, c, by simp, ?_, fun j hlow hhigh => ?_, inComment_inertFrames hopen⟩
      · rw [hmark, markOf, if_neg (by simpa using hopen)]
      · rw [List.length_append, List.length_singleton] at hhigh
        omega
    · obtain ⟨s, d, hd, hopening, hinside, hcomment⟩ := ih hbefore hcode
      have hs := (List.getElem?_eq_some_iff.1 hd).1
      refine ⟨s, d, by rw [List.getElem?_append_left hs, hd], hopening, fun j hlow hhigh => ?_,
        (inComment_of_step hstep hcode hopen).trans hcomment⟩
      rw [List.length_append, List.length_singleton] at hhigh
      by_cases hj : j < front.length
      · exact hinside j hlow hj
      · obtain rfl : j = front.length := by omega
        rw [hmark]
        refine congrArg some ?_
        unfold markOf
        split
        · exact absurd rfl hcode
        · refine if_neg ?_
          rintro rfl
          exact hopen (Option.some_inj.1 hstep).symm
        · rfl

theorem le_leading {marks : List Mark} {n : Nat} (h : ∀ k < n, marks[k]? = some .inside) : n ≤ leading marks := by
  induction n generalizing marks with
  | zero => exact Nat.zero_le _
  | succ n ih =>
    have hfirst := h 0 (Nat.succ_pos n)
    obtain ⟨tail, rfl⟩ := List.head?_eq_some_iff.1 (List.head?_eq_getElem?.trans hfirst)
    have hrest : n ≤ leading tail := ih fun k hk => h (k + 1) (by omega)
    rw [leading_cons_inside]
    omega

/-- What stands in a range behind its first character is inside. -/
theorem getElem?_marks_of_mem_inertRanges {r : Nat × Nat} (h : r ∈ inertRanges text) {i : Nat} (hlow : r.1 < i)
    (hhigh : i < r.2) : (marks text)[i]? = some .inside := by
  obtain ⟨-, hstop⟩ := mem_inertRanges_iff.1 (show (r.1, r.2) ∈ inertRanges text from h)
  have hinside : ((marks text).drop (r.1 + 1))[i - (r.1 + 1)]? = some .inside := getElem?_of_lt_leading (by omega)
  rwa [List.getElem?_drop, Nat.add_sub_cancel' hlow] at hinside

/-- Where something is open a character is inside, the line feed behind a line comment apart. -/
theorem getElem?_marks_of_open (h : framesAfter [] front (c :: rest) = some frames) (hopen : frames ≠ [])
    (hline : c ≠ '\n') : (marks (front ++ c :: rest))[front.length]? = some .inside := by
  rw [getElem?_marks_of_framesAfter h, marksFrom]
  cases step frames c rest with
  | none => rfl
  | some next =>
    refine congrArg some ?_
    unfold markOf
    split
    · exact absurd rfl hopen
    · exact if_neg hline
    · rfl

/-- A character is in a comment when one is open in front of it, the line feed behind a line comment apart. -/
theorem commented_iff (h : framesAfter [] front (c :: rest) = some frames) (hline : c ≠ '\n') (hslash : c ≠ '/') :
    Commented (front ++ c :: rest) front.length ↔ inComment frames = true := by
  have hmark : (marks (front ++ c :: rest))[front.length]? = (marksFrom frames (c :: rest))[0]? :=
    getElem?_marks_of_framesAfter h
  have hopens {r : Nat × Nat} (hr : r ∈ inertRanges (front ++ c :: rest)) :
      (marks (front ++ c :: rest))[r.1]? = some .opening :=
    (mem_inertRanges_iff.1 (show (r.1, r.2) ∈ inertRanges (front ++ c :: rest) from hr)).1
  have hbehind {r : Nat × Nat} (hfirst : (front ++ c :: rest)[r.1]? = some '/') : r.1 ≠ front.length := by
    intro heq
    rw [heq, List.getElem?_append_right (Nat.le_refl _), Nat.sub_self] at hfirst
    exact hslash (Option.some_inj.1 hfirst)
  by_cases hopen : frames = []
  · subst hopen
    refine iff_of_false ?_ (by decide)
    rintro ⟨r, hr, ⟨hlow, hhigh⟩, hfirst⟩
    have hne := hbehind hfirst
    have hinside := getElem?_marks_of_mem_inertRanges hr (by omega) hhigh
    rw [hmark, marksFrom, step] at hinside
    exact absurd (Option.some_inj.1 hinside) (markOf_ne_inside _ _)
  · have hat := getElem?_marks_of_open h hopen hline
    obtain ⟨s, d, hd, hopening, hinside, hcomment⟩ := exists_opening h hopen
    have hs := (List.getElem?_eq_some_iff.1 hd).1
    rw [hcomment, beq_iff_eq]
    constructor
    · rintro ⟨r, hr, ⟨hlow, hhigh⟩, hfirst⟩
      have hne := hbehind hfirst
      -- both are the last character that opens in front of this one
      obtain rfl : r.1 = s := by
        rcases Nat.lt_trichotomy r.1 s with hlt | heq | hlt
        · have := getElem?_marks_of_mem_inertRanges hr hlt (by omega)
          rw [hopening] at this
          cases this
        · exact heq
        · have := hinside r.1 hlt (by omega)
          rw [hopens hr] at this
          cases this
      rw [List.getElem?_append_left hs, hd] at hfirst
      exact Option.some_inj.1 hfirst
    · rintro rfl
      refine ⟨(s, s + 1 + leading ((marks (front ++ c :: rest)).drop (s + 1))), mem_inertRanges_iff.2 ⟨hopening, rfl⟩,
        ⟨by omega, ?_⟩, by rw [List.getElem?_append_left hs, hd]⟩
      have hle : front.length - s ≤ leading ((marks (front ++ c :: rest)).drop (s + 1)) := by
        refine le_leading fun k hk => ?_
        rw [List.getElem?_drop]
        by_cases hlast : s + 1 + k = front.length
        · rw [hlast, hat]
        · exact hinside _ (by omega) (by omega)
      dsimp only
      omega

/-! ## A list in its text -/

variable {frames' : List Frame} {brackets brackets' : List Char} {before after readings : List Reading} {r : Reading}

/-- A reading can be cut anywhere. -/
theorem Reads.exists_cut (h : Reads rest frames brackets (before ++ after) frames' brackets') :
    ∃ mid stack, Reads (after.map Reading.char ++ rest) frames brackets before mid stack ∧
      Reads rest mid stack after frames' brackets' := by
  induction before generalizing frames brackets with
  | nil => exact ⟨frames, brackets, .done, h⟩
  | cons r before ih =>
    cases h with
    | next hstep hpairs hlater =>
      obtain ⟨mid, stack, hfirst, hlast⟩ := ih hlater
      rw [List.append_eq, List.map_append, List.append_assoc] at hstep
      exact ⟨mid, stack, .next hstep hpairs hfirst, hlast⟩

/-- Up to one of its characters a list is read to what is told with it. -/
theorem Reads.reads_before (h : Reads rest frames brackets (before ++ r :: after) frames' brackets') :
    Reads (r.char :: (after.map Reading.char ++ rest)) frames brackets before r.frames r.brackets := by
  obtain ⟨mid, stack, hfirst, hlast⟩ := h.exists_cut
  cases hlast
  exact hfirst

/-- The brackets that are open are those that the live brackets of the text leave open. -/
theorem Reads.leftOpen_eq (h : Reads rest frames brackets readings frames' brackets') :
    leftOpen brackets (bracketWord (readings.map Reading.char) (marksFrom frames (readings.map Reading.char ++ rest))) =
      some brackets' := by
  induction h with
  | done => rfl
  | next hstep hpairs _ ih =>
    rw [List.map_cons, List.cons_append, marksFrom, hstep]
    dsimp only
    rw [bracketWord_cons, leftOpen_append, hpairs, Option.bind_some, ih]

/-- A list between a live parenthesis and the one that closes it, as it is read. -/
structure ListAt (text : List Char) (o c : Nat) (front behind : List Char) (readings : List Reading) : Prop where
  text_eq : text = front ++ '(' :: (readings.map Reading.char ++ ')' :: behind)
  opens : o = front.length
  closes : c = o + 1 + readings.length
  live : ¬ Covered text o
  code : framesAfter [] (front ++ ['(']) (readings.map Reading.char ++ ')' :: behind) = some []
  reads : Reads (')' :: behind) [] [] readings [] []

theorem exists_listAt {o c : Nat} (hopen : text[o]? = some '(') (hlive : ¬ Covered text o)
    (hclose : closingAt? text o = some c) : ∃ front behind readings, ListAt text o c front behind readings := by
  obtain ⟨ho, hget⟩ := List.getElem?_eq_some_iff.1 hopen
  have htext : text = text.take o ++ '(' :: text.drop (o + 1) := by
    rw [← hget, ← List.drop_eq_getElem_cons ho, List.take_append_drop]
  have hlen : o = (text.take o).length := (List.length_take_of_le ho.le).symm
  rw [closingAt?, hopen, Option.bind_some] at hclose
  obtain ⟨n, hn, rfl⟩ := Option.map_eq_some_iff.1 hclose
  obtain ⟨inner, behind, hrest, rfl, -⟩ := exists_inner_of_bracketExtent? hn
  rw [hrest] at hn htext
  obtain ⟨readings, rfl, hreads⟩ := exists_reads_of_bracketExtent? hn
  refine ⟨text.take o, behind, readings, htext, hlen, by rw [List.length_map]; omega, hlive, ?_, hreads⟩
  have hlive' : ¬ Covered (text.take o ++ '(' :: (readings.map Reading.char ++ ')' :: behind))
      (text.take o).length := by
    rwa [← htext, ← hlen]
  rw [framesAfter_append, List.singleton_append, ((not_covered_iff_opens (by decide)).1 hlive').1]
  rfl

/-- Where a character of the list stands in the text. -/
theorem ListAt.exists_at {o c : Nat} {behind : List Char} (h : ListAt text o c front behind (before ++ r :: after)) :
    ∃ lead, text = lead ++ r.char :: (after.map Reading.char ++ ')' :: behind) ∧ lead.length = o + 1 + before.length ∧
      framesAfter [] lead (r.char :: (after.map Reading.char ++ ')' :: behind)) = some r.frames := by
  obtain ⟨htext, hopens, -, -, hcode, hreads⟩ := h
  rw [List.map_append, List.map_cons, List.append_assoc, List.cons_append] at htext hcode
  refine ⟨(front ++ ['(']) ++ before.map Reading.char, by simp [htext], ?_, ?_⟩
  · rw [List.length_append, List.length_append, List.length_map, hopens]
    rfl
  rw [framesAfter_append, hcode, Option.bind_some]
  exact hreads.reads_before.framesAfter_eq

theorem ListAt.getElem?_eq {o c : Nat} {behind : List Char} (h : ListAt text o c front behind (before ++ r :: after)) :
    text[o + 1 + before.length]? = some r.char := by
  obtain ⟨lead, rfl, hlead, -⟩ := h.exists_at
  rw [← hlead, List.getElem?_append_right (Nat.le_refl _), Nat.sub_self]
  rfl

theorem ListAt.exists_reading {o c i : Nat} {behind : List Char} (h : ListAt text o c front behind readings)
    (hlow : o < i) (hhigh : i < c) : ∃ before r after, readings = before ++ r :: after ∧ i = o + 1 + before.length := by
  have hk : i - (o + 1) < readings.length := by
    have := h.closes
    omega
  refine ⟨readings.take (i - (o + 1)), readings[i - (o + 1)], readings.drop (i - (o + 1) + 1), ?_, ?_⟩
  · rw [← List.drop_eq_getElem_cons hk, List.take_append_drop]
  · rw [List.length_take_of_le hk.le]
    omega

theorem ListAt.commented_iff {o c : Nat} {behind : List Char} (h : ListAt text o c front behind (before ++ r :: after))
    (hline : r.char ≠ '\n') (hslash : r.char ≠ '/') :
    Commented text (o + 1 + before.length) ↔ inComment r.frames = true := by
  obtain ⟨lead, rfl, hlead, hframes⟩ := h.exists_at
  rw [← hlead]
  exact Source.commented_iff hframes hline hslash

/-- At a comma of the list the ranges and the brackets of the text say what the reading says. -/
structure CommaAt (text : List Char) (o i : Nat) (r : Reading) : Prop where
  covered : ¬ Covered text i ↔ r.frames = []
  nested : Nested (liveBrackets text (o + 1) i) ↔ r.brackets = []

theorem ListAt.commaAt {o c : Nat} {behind : List Char} (h : ListAt text o c front behind (before ++ r :: after))
    (hcomma : r.char = ',') : CommaAt text o (o + 1 + before.length) r := by
  obtain ⟨lead, hlead, hlen, hframes⟩ := h.exists_at
  obtain ⟨htext, hopens, -, hlive, -, hreads⟩ := h
  have hbefore := hreads.reads_before
  rw [List.map_append, List.map_cons, List.append_assoc, List.cons_append] at htext
  constructor
  · rw [← hlen, hlead, not_covered_iff_opens (by simp [hcomma]), hframes, hcomma, Option.some_inj]
    exact and_iff_left rfl
  · have hmarks : (marks text).drop (o + 1) = marksFrom [] (text.drop (o + 1)) := by
      have hopen : text[o]? = some '(' := by simp [htext, hopens]
      rw [← List.drop_drop, drop_marks_of_opening hopen rfl hlive]
      rfl
    have hdrop : text.drop (o + 1) =
        before.map Reading.char ++ r.char :: (after.map Reading.char ++ ')' :: behind) := by
      rw [htext, hopens, List.append_cons]
      exact List.drop_left' (by simp)
    rw [nested_iff, liveBrackets_eq, hmarks, hdrop,
      show o + 1 + before.length + 1 - (o + 1) = before.length + 1 by omega, bracketWord_take_succ]
    generalize hm : marksFrom [] (before.map Reading.char ++ r.char :: (after.map Reading.char ++ ')' :: behind)) = ms
    -- the comma itself is no bracket
    have hnone : (((before.map Reading.char ++ r.char :: (after.map Reading.char ++ ')' :: behind)).zip
        ms)[before.length]?).bind liveBracket? = none := by
      refine Option.bind_eq_none_iff.2 fun ⟨d, m⟩ hzip => ?_
      have hd := (List.getElem?_zip_eq_some.1 hzip).1
      rw [List.getElem?_append_right (by simp), List.length_map, Nat.sub_self, List.getElem?_cons_zero] at hd
      obtain rfl := Option.some_inj.1 hd
      exact liveBracket?_of_not_isBracket (by rw [hcomma]; decide) m
    have hword := hbefore.leftOpen_eq
    rw [hm] at hword
    rw [hnone, Option.toList_none, List.append_nil, List.take_left' (by simp), hword, Option.some_inj]

/-! ## Cutting -/

instance (word : List Char) : Decidable (Nested word) := decidable_of_iff _ nested_iff.symm

/-- The comma at the offset separates two arguments of the list that opens at `o`: it is in no literal and in no
comment, and in no pair of brackets further in. -/
def Separates (text : List Char) (o i : Nat) : Prop :=
  text[i]? = some ',' ∧ ¬ Covered text i ∧ Nested (liveBrackets text (o + 1) i)

instance (text : List Char) (o i : Nat) : Decidable (Separates text o i) := inferInstanceAs (Decidable (_ ∧ _ ∧ _))

/-- What stands from offset `pos` on, cut at some of its offsets. -/
def cutWhere (p : Nat → Prop) [DecidablePred p] (pos : Nat) (cs : List Char) : List (List Char) :=
  ((cs.zipIdx pos).splitOnP fun x => p x.2).map (·.map Prod.fst)

/-- The arguments between a parenthesis and the one that closes it: what stands between the commas that separate
them, without the blanks around it. -/
def argumentsBetween (text : List Char) (o c : Nat) : List (List Char) :=
  ((cutWhere (Separates text o) (o + 1) (between (o + 1) c text)).map trim).filter (!·.isEmpty)

/-- Lists that are cut at the same places are cut alike. -/
theorem map_splitOnP_eq {α β γ : Type} {f : α → γ} {g : β → γ} {p : α → Bool} {q : β → Bool} {l : List α} {m : List β}
    (h : List.Forall₂ (fun a b => f a = g b ∧ p a = q b) l m) :
    (l.splitOnP p).map (·.map f) = (m.splitOnP q).map (·.map g) := by
  induction h with
  | nil => rfl
  | @cons a b l m hab _ ih =>
    rw [List.splitOnP_cons_eq_if_modifyHead, List.splitOnP_cons_eq_if_modifyHead, hab.2]
    split
    · rw [List.map_cons, List.map_cons, ih]
      rfl
    · obtain ⟨x, xs, hx⟩ := List.exists_cons_of_ne_nil (List.splitOnP_ne_nil p l)
      obtain ⟨y, ys, hy⟩ := List.exists_cons_of_ne_nil (List.splitOnP_ne_nil q m)
      rw [hx, hy] at ih ⊢
      obtain ⟨hhead, htail⟩ := List.cons.inj ih
      simp only [List.modifyHead_cons, List.map_cons, hab.1, hhead, htail]

theorem ListAt.between_eq {o c : Nat} {behind : List Char} (h : ListAt text o c front behind readings) :
    between (o + 1) c text = readings.map Reading.char := by
  have hsplit : text = (front ++ ['(']) ++ (readings.map Reading.char ++ ')' :: behind) := by
    rw [h.text_eq]
    simp
  exact Text.between_eq hsplit (by simp [h.opens]) (by simp [h.closes])

theorem ListAt.separates_iff {o c : Nat} {behind : List Char}
    (h : ListAt text o c front behind (before ++ r :: after)) :
    Separates text o (o + 1 + before.length) ↔ r.separates = true := by
  rw [Separates, h.getElem?_eq, Option.some_inj]
  simp only [Reading.separates, Bool.and_eq_true, beq_iff_eq, List.isEmpty_iff, and_assoc]
  refine and_congr_right fun hcomma => ?_
  have hat := h.commaAt hcomma
  rw [hat.covered, hat.nested, and_comm]

/-- The commas of the reading that separate arguments are those of the text. -/
theorem ListAt.cutWhere_eq {o c : Nat} {behind : List Char} (h : ListAt text o c front behind readings) :
    cutWhere (Separates text o) (o + 1) (between (o + 1) c text) =
      (readings.splitOnP Reading.separates).map (·.map Reading.char) := by
  rw [h.between_eq]
  refine map_splitOnP_eq (List.forall₂_iff_get.2 ⟨by simp, fun k hk hk' => ?_⟩)
  have hsplit : readings = readings.take k ++ readings[k] :: readings.drop (k + 1) := by
    rw [← List.drop_eq_getElem_cons hk', List.take_append_drop]
  have hlen : (readings.take k).length = k := List.length_take_of_le hk'.le
  rw [hsplit] at h
  have hsep := h.separates_iff
  rw [hlen] at hsep
  simp only [List.get_eq_getElem, List.getElem_zipIdx, List.getElem_map, true_and]
  exact Bool.eq_iff_iff.2 (decide_eq_true_iff.trans hsep)

/-! ## Counting commas -/

theorem count_splitOnP {p : Reading → Bool} (hp : ∀ r, p r = true → r.char = ',') (readings : List Reading) :
    ((readings.splitOnP p).map (·.map Reading.char)).flatten.count ',' + readings.countP p =
      (readings.map Reading.char).count ',' := by
  induction readings with
  | nil => rfl
  | cons r readings ih =>
    rw [List.splitOnP_cons_eq_if_modifyHead]
    split
    · next hcut =>
      rw [List.map_cons, List.map_nil, List.flatten_cons, List.nil_append, List.countP_cons_of_pos hcut, List.map_cons,
        hp r hcut, List.count_cons_self, ← ih]
      omega
    · next hkeep =>
      obtain ⟨x, xs, hx⟩ := List.exists_cons_of_ne_nil (List.splitOnP_ne_nil p readings)
      rw [hx] at ih ⊢
      rw [List.modifyHead_cons, List.countP_cons_of_neg hkeep]
      simp only [List.map_cons, List.flatten_cons, List.cons_append, List.count_cons] at ih ⊢
      omega

/-- Commas are no blanks. -/
theorem count_trimmed (pieces : List (List Char)) :
    ((pieces.map trim).filter (!·.isEmpty)).flatten.count ',' = pieces.flatten.count ',' := by
  have htrim (cs : List Char) : (trim cs).count ',' = cs.count ',' := by
    obtain ⟨left, right, hcs, hleft, hright⟩ := exists_trim cs
    have hnone {blanks : List Char} (h : ∀ c ∈ blanks, isBlank c = true) : blanks.count ',' = 0 :=
      List.count_eq_zero.2 fun hm => absurd (h _ hm) (by decide)
    conv_rhs => rw [hcs, List.count_append, List.count_append, hnone hleft, hnone hright]
    omega
  induction pieces with
  | nil => rfl
  | cons piece pieces ih =>
    rw [List.map_cons, List.filter_cons, List.flatten_cons, List.count_append, ← ih, ← htrim piece]
    split
    · rw [List.flatten_cons, List.count_append]
    · next hempty =>
      have hnil : trim piece = [] := by simpa using hempty
      rw [hnil, List.count_nil, Nat.zero_add]

theorem cuts_of_separates (h : r.separates = true) : r.cuts = true := by
  simp only [Reading.separates, Bool.and_eq_true, List.isEmpty_iff] at h
  simp only [Reading.cuts, h.1, h.2, Bool.true_and]
  rfl

/-- When as many commas are cut at as separate arguments, all that are cut at do. -/
theorem separates_of_countP_eq (h : readings.countP Reading.cuts = readings.countP Reading.separates) :
    ∀ r ∈ readings, r.cuts = true → r.separates = true := by
  have hsub : (readings.filter Reading.separates).Sublist (readings.filter Reading.cuts) :=
    List.monotone_filter_right readings fun _ => cuts_of_separates
  have hsame : readings.filter Reading.separates = readings.filter Reading.cuts :=
    hsub.eq_of_length (by rw [← List.countP_eq_length_filter, ← List.countP_eq_length_filter, h])
  intro r hr hcuts
  have hmem : r ∈ readings.filter Reading.separates := hsame ▸ List.mem_filter.2 ⟨hr, hcuts⟩
  exact (List.mem_filter.1 hmem).2

/-- What is left of the readings where some of them are cut at, without blanks. -/
def argumentsCut (p : Reading → Bool) (readings : List Reading) : List (List Char) :=
  (((readings.splitOnP p).map (·.map Reading.char)).map trim).filter (!·.isEmpty)

/-- The arguments tell at how many commas they have been cut. -/
theorem argumentsCut_eq_iff : argumentsCut Reading.cuts readings = argumentsCut Reading.separates readings ↔
    ∀ r ∈ readings, r.cuts = true → r.separates = true := by
  constructor
  · intro heq
    have hcount := congrArg (fun arguments : List (List Char) => arguments.flatten.count ',') heq
    simp only [argumentsCut, count_trimmed] at hcount
    have hcuts := count_splitOnP (p := Reading.cuts) (fun r h => by
      simp only [Reading.cuts, Bool.and_eq_true, beq_iff_eq] at h
      exact h.1.1) readings
    have hseparates := count_splitOnP (p := Reading.separates) (fun r h => by
      simp only [Reading.separates, Bool.and_eq_true, beq_iff_eq] at h
      exact h.1.1) readings
    exact separates_of_countP_eq (by omega)
  · intro hall
    have hsame : List.Forall₂ (fun r r' => r.char = r'.char ∧ r.cuts = r'.separates) readings readings :=
      List.forall₂_same.2 fun r hr => ⟨rfl, Bool.eq_iff_iff.2 ⟨hall r hr, cuts_of_separates⟩⟩
    rw [argumentsCut, argumentsCut, map_splitOnP_eq hsame]

/-! ## Arguments -/

theorem detached_of_closing (behind : List Char) : Detached (')' :: behind) :=
  detached_cons (by decide) (by decide) (by decide) behind

/-- A comment of the list in which the splitter looks at nothing but commas. -/
def HarmlessComments (text : List Char) (o c : Nat) : Prop :=
  ∀ i, o < i → i < c → Commented text i → ∀ d ∈ text[i]?, Harmless d

instance (text : List Char) (o c : Nat) : Decidable (HarmlessComments text o c) :=
  decidable_of_iff (∀ i < c, o < i → Commented text i → (text[i]?.all fun d => decide (Harmless d)) = true) <| by
    simp only [Option.all_eq_true, decide_eq_true_iff]
    exact ⟨fun h i hlow hhigh => h i hhigh hlow, fun h i hhigh hlow => h i hlow hhigh⟩

theorem ListAt.harmless {o c : Nat} {behind : List Char} (h : ListAt text o c front behind readings)
    (hcomments : HarmlessComments text o c) : ∀ r ∈ readings, inComment r.frames = true → Harmless r.char := by
  intro r hr hcomment
  obtain ⟨before, after, rfl⟩ := List.append_of_mem hr
  by_cases hline : r.char = '\n'
  · rw [hline]
    decide
  · by_cases hslash : r.char = '/'
    · rw [hslash]
      decide
    · have hc := h.closes
      rw [List.length_append, List.length_cons] at hc
      exact hcomments (o + 1 + before.length) (by omega) (by omega) ((h.commented_iff hline hslash).2 hcomment) _
        h.getElem?_eq

/-- The splitter cuts a list where its reading says. -/
theorem Reads.splitArguments_eq {behind : List Char} (h : Reads (')' :: behind) [] [] readings [] [])
    (hharmless : ∀ r ∈ readings, inComment r.frames = true → Harmless r.char) :
    splitArguments (readings.map Reading.char) = argumentsCut Reading.cuts readings := by
  have hpieces := h.argumentPieces_eq commentsAlone_nil (List.cons_ne_nil _ _) (detached_of_closing behind) hharmless
  rw [splitArguments, argumentsCut, ← hpieces]
  rfl

theorem ListAt.splitArguments_eq {o c : Nat} {behind : List Char} (h : ListAt text o c front behind readings)
    (hcomments : HarmlessComments text o c) :
    splitArguments (between (o + 1) c text) = argumentsCut Reading.cuts readings := by
  rw [h.between_eq]
  exact h.reads.splitArguments_eq (h.harmless hcomments)

theorem ListAt.argumentsBetween_eq {o c : Nat} {behind : List Char} (h : ListAt text o c front behind readings) :
    argumentsBetween text o c = argumentsCut Reading.separates readings := by
  rw [argumentsBetween, h.cutWhere_eq]
  rfl

/-- The splitter finds the arguments of a list whose comments hold no bracket and no quote exactly when no comma of a
comment stands outside the brackets further in. -/
theorem splitArguments_eq_iff {text : List Char} {o c : Nat} (hopen : text[o]? = some '(') (hlive : ¬ Covered text o)
    (hclose : closingAt? text o = some c) (hcomments : HarmlessComments text o c) :
    splitArguments (between (o + 1) c text) = argumentsBetween text o c ↔
      ∀ i, o < i → i < c → text[i]? = some ',' → Commented text i → ¬ Nested (liveBrackets text (o + 1) i) := by
  obtain ⟨front, behind, readings, hlist⟩ := exists_listAt hopen hlive hclose
  rw [hlist.splitArguments_eq hcomments, hlist.argumentsBetween_eq, argumentsCut_eq_iff]
  constructor
  · intro hall i hlow hhigh hcomma hcommented hnested
    obtain ⟨before, r, after, rfl, rfl⟩ := hlist.exists_reading hlow hhigh
    rw [hlist.getElem?_eq] at hcomma
    have hchar : r.char = ',' := Option.some_inj.1 hcomma
    have hcomment := (hlist.commented_iff (by simp [hchar]) (by simp [hchar])).1 hcommented
    have hcuts : r.cuts = true := by
      simp [Reading.cuts, hchar, (hlist.commaAt hchar).nested.1 hnested, seen, hcomment]
    have hframes : r.frames = [] := by
      have hseparates := hall r (by simp) hcuts
      simp only [Reading.separates, Bool.and_eq_true, List.isEmpty_iff] at hseparates
      exact hseparates.2
    rw [hframes] at hcomment
    cases hcomment
  · intro hnone r hr hcuts
    obtain ⟨before, after, rfl⟩ := List.append_of_mem hr
    simp only [Reading.cuts, Bool.and_eq_true, beq_iff_eq, List.isEmpty_iff] at hcuts
    obtain ⟨⟨hchar, hbrackets⟩, hseen⟩ := hcuts
    have hc := hlist.closes
    rw [List.length_append, List.length_cons] at hc
    cases hcomment : inComment r.frames with
    | true =>
      exact absurd ((hlist.commaAt hchar).nested.2 hbrackets) (hnone _ (by omega) (by omega)
        (hlist.getElem?_eq.trans (congrArg some hchar))
        ((hlist.commented_iff (by simp [hchar]) (by simp [hchar])).2 hcomment))
    | false =>
      rw [seen, hcomment] at hseen
      simp [Reading.separates, hchar, hbrackets, show r.frames = [] from hseen]

theorem splitArguments_eq_iff_sample :
    let text := "f(a, g(b, 'c, d'), /* e */ h)".toList
    let noted := "f(a /* x, y */, b)".toList
    (text[1]? = some '(' ∧ ¬ Covered text 1 ∧ closingAt? text 1 = some 28 ∧ HarmlessComments text 1 28 ∧
        splitArguments (between 2 28 text) = argumentsBetween text 1 28) ∧
      noted[1]? = some '(' ∧ ¬ Covered noted 1 ∧ closingAt? noted 1 = some 17 ∧ HarmlessComments noted 1 17 ∧
        splitArguments (between 2 17 noted) ≠ argumentsBetween noted 1 17 := by
  intro text noted
  have hopen : text[1]? = some '(' := by decide
  have hlive : ¬ Covered text 1 := by decide +kernel
  have hclose : closingAt? text 1 = some 28 := by decide +kernel
  have hcomments : HarmlessComments text 1 28 := by decide +kernel
  have hnone : ∀ i < 28, text[i]? = some ',' → ¬ Commented text i := by decide +kernel
  have hopen' : noted[1]? = some '(' := by decide
  have hlive' : ¬ Covered noted 1 := by decide +kernel
  have hclose' : closingAt? noted 1 = some 17 := by decide +kernel
  have hcomments' : HarmlessComments noted 1 17 := by decide +kernel
  refine ⟨⟨hopen, hlive, hclose, hcomments, ?_⟩, hopen', hlive', hclose', hcomments', fun heq => ?_⟩
  · exact (splitArguments_eq_iff hopen hlive hclose hcomments).2 fun i _ hi hcomma hcommented =>
      absurd hcommented (hnone i hi hcomma)
  · exact (splitArguments_eq_iff hopen' hlive' hclose' hcomments').1 heq 8 (by omega) (by omega) (by decide +kernel)
      (by decide +kernel) (by decide +kernel)

end Codemod.Source
