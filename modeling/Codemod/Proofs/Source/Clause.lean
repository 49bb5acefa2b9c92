import Codemod.Proofs.Source.Braces

/-! The clause of a declaration and the module it imports from. A clause ends at the first `from` that a
quoted name follows, and nothing that could end it earlier stands in it. -/
namespace Codemod.Source
open Text

def fromWord : List Char := "from".toList

/-- A name that can stand between quotes. -/
structure IsModule (name : List Char) : Prop where
  ne_nil : name ≠ []
  chars : ∀ c ∈ name, isQuote c = false ∧ c ≠ '\n'

instance (name : List Char) : Decidable (IsModule name) :=
  decidable_of_iff (name ≠ [] ∧ (name.all fun c => isQuote c = false ∧ c ≠ '\n') = true)
    ⟨fun h => ⟨h.1, List.all_iff_forall_prop.1 h.2⟩,
      fun h => ⟨h.ne_nil, List.all_iff_forall_prop.2 h.chars⟩⟩

/-- What follows a clause: the module in its quotes, and the rest of the text. -/
def moduleText (gap : List Char) (quote : Char) (name tail : List Char) : List Char :=
  fromWord ++ (gap ++ quote :: (name ++ quote :: tail))

theorem isBlank_eq_false_of_isQuote {c : Char} (h : isQuote c = true) : isBlank c = false := by
  simp only [isQuote, Bool.or_eq_true, beq_iff_eq] at h
  rcases h with rfl | rfl <;> decide

theorem isQuote_eq_false_of_isBlank {c : Char} (h : isBlank c = true) : isQuote c = false := by
  by_contra hq
  rw [isBlank_eq_false_of_isQuote (by simpa using hq)] at h
  cases h

theorem length_moduleText (gap : List Char) (quote : Char) (name tail : List Char) :
    (moduleText gap quote name tail).length = gap.length + name.length + tail.length + 6 := by
  simp [moduleText, fromWord]
  omega

/-! ## The module -/

theorem takeWhile_module {name rest : List Char} (hname : IsModule name) {quote : Char}
    (hquote : isQuote quote = true) :
    (name ++ quote :: rest).takeWhile (fun c => !isQuote c && c != '\n') = name := by
  refine takeWhile_span (fun c hc => ?_) (fun c hc => ?_)
  · obtain ⟨hq, hline⟩ := hname.chars c hc
    simp [hq, hline]
  · obtain rfl : quote = c := by simpa using hc
    simp [hquote]

theorem trimLeft_gap {gap : List Char} (hgap : ∀ c ∈ gap, isBlank c = true) {c : Char}
    (hc : isBlank c = false) (rest : List Char) : trimLeft (gap ++ c :: rest) = c :: rest := by
  refine dropWhile_span hgap fun d hd => ?_
  obtain rfl : c = d := by simpa using hd
  exact hc

theorem fromModule?_moduleText {lead gap name : List Char} {quote : Char}
    (hlead : ∀ c ∈ lead, isBlank c = true) (hgap : ∀ c ∈ gap, isBlank c = true)
    (hquote : isQuote quote = true) (hname : IsModule name) (tail : List Char) :
    fromModule? (lead ++ moduleText gap quote name tail) =
      some (quote, name, lead.length + gap.length + name.length + 6) := by
  have hlen : (lead ++ moduleText gap quote name tail).length =
      lead.length + gap.length + name.length + tail.length + 6 := by
    rw [List.length_append, length_moduleText]
    omega
  have htrim : trimLeft (lead ++ moduleText gap quote name tail) =
      fromWord ++ (gap ++ quote :: (name ++ quote :: tail)) :=
    trimLeft_gap hlead (by decide) _
  have hafter : after? "from".toList (fromWord ++ (gap ++ quote :: (name ++ quote :: tail))) =
      some (gap ++ quote :: (name ++ quote :: tail)) := after?_eq_some_iff.2 rfl
  unfold fromModule?
  rw [htrim, hafter]
  dsimp only
  rw [trimLeft_gap hgap (isBlank_eq_false_of_isQuote hquote)]
  dsimp only
  rw [takeWhile_module hname hquote, List.drop_left, hlen]
  have hne : name.isEmpty = false := by simp [hname.ne_nil]
  simp only [hquote, hne, Bool.not_false, Bool.and_self, List.head?_cons, beq_self_eq_true, if_true,
    Option.some_inj, Prod.mk.injEq, true_and, List.length_cons]
  omega

theorem exists_trimLeft (cs : List Char) :
    ∃ gap, cs = gap ++ trimLeft cs ∧ ∀ c ∈ gap, isBlank c = true :=
  ⟨cs.takeWhile isBlank, by rw [trimLeft, List.takeWhile_append_dropWhile],
    fun _ hc => List.mem_takeWhile_imp hc⟩

theorem eq_moduleText_of_fromModule? {cs name : List Char} {quote : Char} {n : Nat}
    (h : fromModule? cs = some (quote, name, n)) :
    isQuote quote = true ∧ IsModule name ∧ ∃ lead gap tail, cs = lead ++ moduleText gap quote name tail ∧
      (∀ c ∈ lead, isBlank c = true) ∧ (∀ c ∈ gap, isBlank c = true) ∧
      n + tail.length = cs.length := by
  obtain ⟨lead, hcs, hlead⟩ := exists_trimLeft cs
  unfold fromModule? at h
  split at h
  · cases h
  next rest hafter =>
  obtain ⟨gap, hrest, hgap⟩ := exists_trimLeft rest
  rw [after?_eq_some_iff.1 hafter] at hcs
  split at h
  · cases h
  next q behind hbehind =>
  rw [hbehind] at hrest
  obtain ⟨hcond, heq⟩ := Option.ite_none_right_eq_some.1 h
  simp only [Bool.and_eq_true, Bool.not_eq_true', beq_iff_eq] at hcond
  obtain ⟨⟨hquote, hne⟩, hclose⟩ := hcond
  obtain ⟨rfl, rfl, rfl⟩ : q = quote ∧ behind.takeWhile (fun c => !isQuote c && c != '\n') = name ∧
      _ = n := by simpa using heq
  obtain ⟨tail, htail⟩ := List.head?_eq_some_iff.1 hclose
  have hsplit : behind = behind.takeWhile (fun c => !isQuote c && c != '\n') ++ q :: tail := by
    rw [← htail, drop_length_takeWhile, List.takeWhile_append_dropWhile]
  refine ⟨hquote, ⟨by simpa using hne, fun c hc => by simpa using List.mem_takeWhile_imp hc⟩, lead,
    gap, tail, ?_, hlead, hgap, ?_⟩
  · rw [hcs, hrest, moduleText, ← hsplit]
    rfl
  · have hlen := congrArg List.length hcs
    have hlen' := congrArg List.length hrest
    have hlen'' := congrArg List.length hsplit
    simp at hlen hlen' hlen''
    omega

/-! ## The clause -/

theorem clause?_of_fromModule? {cs name : List Char} {quote : Char} {n : Nat}
    (h : fromModule? cs = some (quote, name, n)) : clause? cs = some ([], quote, name, n) := by
  rw [clause?.eq_def, h]

theorem clause?_cons {c : Char} {cs : List Char} (h : fromModule? (c :: cs) = none)
    (hc : endsClause c = false) :
    clause? (c :: cs) =
      (clause? cs).map fun (clause, quote, name, n) => (c :: clause, quote, name, n + 1) := by
  have hno : (c == ';' || isQuote c) = false := hc
  rw [clause?, h]
  simp [hno]

theorem clause?_eq_none {c : Char} {cs : List Char} (h : fromModule? (c :: cs) = none)
    (hc : endsClause c = true) : clause? (c :: cs) = none := by
  have hyes : (c == ';' || isQuote c) = true := hc
  rw [clause?, h]
  simp [hyes]

/-- A clause holds nothing that could end it, and a module follows. -/
theorem eq_append_of_clause? {cs clause name : List Char} {quote : Char} {n : Nat}
    (h : clause? cs = some (clause, quote, name, n)) :
    (∀ c ∈ clause, endsClause c = false) ∧ ∃ rest m, cs = clause ++ rest ∧
      fromModule? rest = some (quote, name, m) ∧ n = clause.length + m := by
  induction cs generalizing clause n with
  | nil =>
    have hfrom : fromModule? [] = none := rfl
    simp [clause?, hfrom] at h
  | cons c cs ih =>
    cases hfrom : fromModule? (c :: cs) with
    | some found =>
      obtain ⟨quote', name', m⟩ := found
      rw [clause?_of_fromModule? hfrom] at h
      cases h
      exact ⟨by simp, c :: cs, _, rfl, hfrom, by simp⟩
    | none =>
      by_cases hc : endsClause c = true
      · rw [clause?_eq_none hfrom hc] at h
        cases h
      · rw [clause?_cons hfrom (by simpa using hc)] at h
        obtain ⟨⟨clause', quote', name', m⟩, hrest, heq⟩ := Option.map_eq_some_iff.1 h
        simp only [Prod.mk.injEq] at heq
        obtain ⟨rfl, rfl, rfl, rfl⟩ := heq
        obtain ⟨hchars, rest, m, rfl, hmodule, rfl⟩ := ih hrest
        refine ⟨?_, rest, m, rfl, hmodule, by simp; omega⟩
        intro d hd
        rcases List.mem_cons.1 hd with rfl | hd
        · simpa using hc
        · exact hchars d hd

/-- The first quote shows where the module is, and so where the clause in front of it ends. -/
theorem eq_of_append_moduleText {clause lead gap gap' name name' tail tail' : List Char}
    {quote quote' : Char} (hclause : ∀ c ∈ clause, isQuote c = false)
    (hlead : ∀ c ∈ lead, isQuote c = false) (hgap : ∀ c ∈ gap, isBlank c = true)
    (hgap' : ∀ c ∈ gap', isBlank c = true) (hquote : isQuote quote = true)
    (hquote' : isQuote quote' = true)
    (h : clause ++ moduleText gap quote name tail = lead ++ moduleText gap' quote' name' tail') :
    clause = lead := by
  have hfrom : ∀ c ∈ fromWord, isQuote c = false := List.all_iff_forall_prop.1 (by decide)
  have hplain {lead gap : List Char} (hlead : ∀ c ∈ lead, isQuote c = false)
      (hgap : ∀ c ∈ gap, isBlank c = true) : ∀ c ∈ lead ++ (fromWord ++ gap), (!isQuote c) = true := by
    intro c hc
    rcases List.mem_append.1 hc with hc | hc
    · simp [hlead c hc]
    · rcases List.mem_append.1 hc with hc | hc
      · simp [hfrom c hc]
      · simp [isQuote_eq_false_of_isBlank (hgap c hc)]
  have hsplit : (clause ++ (fromWord ++ gap)) ++ quote :: (name ++ quote :: tail) =
      (lead ++ (fromWord ++ gap')) ++ quote' :: (name' ++ quote' :: tail') := by
    simpa [moduleText] using h
  have hfront := (span_unique (hplain hclause hgap) (hplain hlead hgap') (by simpa using hquote)
    (by simpa using hquote') hsplit).1
  -- Behind the `from` there are only blanks, so it is the same one in both.
  have hback : gap.reverse ++ (fromWord.reverse ++ clause.reverse) =
      gap'.reverse ++ (fromWord.reverse ++ lead.reverse) := by
    simpa using congrArg List.reverse hfront
  have hm (rest : List Char) : ∀ c ∈ (fromWord.reverse ++ rest).head?, isBlank c = false := by
    intro c hc
    obtain rfl : 'm' = c := by simpa [fromWord] using hc
    decide
  have hword := (span_unique (fun c hc => hgap c (by simpa using hc))
    (fun c hc => hgap' c (by simpa using hc)) (hm _) (hm _) hback).2
  exact List.reverse_injective (List.append_cancel_left hword)

theorem trimRight_blanks {cs : List Char} (h : ∀ c ∈ cs, isBlank c = true) : trimRight cs = [] := by
  exact trimRight_append_blanks h []

theorem trimRight_cons {c : Char} {cs : List Char} (h : ¬ ∀ d ∈ c :: cs, isBlank d = true) :
    trimRight (c :: cs) = c :: trimRight cs := by
  rw [trimRight, List.reverse_cons, List.dropWhile_append]
  split
  · next hempty =>
    have hblank : ∀ d ∈ cs, isBlank d = true := by
      intro d hd
      have hnil : cs.reverse.dropWhile isBlank = [] := by simpa using hempty
      exact List.dropWhile_eq_nil_iff.1 hnil d (by simpa using hd)
    have hc : isBlank c = false := by
      by_contra hc
      exact h (by simpa [hc] using hblank)
    simp [hc, trimRight_blanks hblank]
  · simp [trimRight]

/-- A clause in front of a module is read up to the blanks behind it. -/
theorem clause?_moduleText {clause gap name : List Char} {quote : Char}
    (hclause : ∀ c ∈ clause, endsClause c = false) (hgap : ∀ c ∈ gap, isBlank c = true)
    (hquote : isQuote quote = true) (hname : IsModule name) (tail : List Char) :
    clause? (clause ++ moduleText gap quote name tail) =
      some (trimRight clause, quote, name, clause.length + gap.length + name.length + 6) := by
  induction clause with
  | nil =>
    have hfrom : fromModule? ([] ++ moduleText gap quote name tail) =
        some (quote, name, ([] : List Char).length + gap.length + name.length + 6) :=
      fromModule?_moduleText (by simp) hgap hquote hname tail
    exact clause?_of_fromModule? hfrom
  | cons c clause ih =>
    by_cases hblank : ∀ d ∈ c :: clause, isBlank d = true
    · rw [clause?_of_fromModule? (fromModule?_moduleText hblank hgap hquote hname tail),
        trimRight_blanks hblank]
    · have hfrom : fromModule? (c :: (clause ++ moduleText gap quote name tail)) = none := by
        by_contra hne
        obtain ⟨⟨quote', name', n⟩, hread⟩ := Option.ne_none_iff_exists'.1 hne
        obtain ⟨hquote', -, lead, gap', tail', heq, hlead, hgap', -⟩ :=
          eq_moduleText_of_fromModule? hread
        have hplain : ∀ d ∈ c :: clause, isQuote d = false := fun d hd =>
          (Bool.or_eq_false_iff.1 (hclause d hd)).2
        have hsame : c :: clause = lead :=
          eq_of_append_moduleText hplain (fun d hd => isQuote_eq_false_of_isBlank (hlead d hd)) hgap
            hgap' hquote hquote' heq
        rw [hsame] at hblank
        exact hblank hlead
      rw [List.cons_append, clause?_cons hfrom (hclause c (by simp)),
        ih fun d hd => hclause d (by simp [hd]), trimRight_cons hblank]
      simp
      omega

/-! ## What stands behind the line -/

/-- The text is at its end or at the end of a line. -/
def AtLineEnd (cs : List Char) : Prop := ∀ c ∈ cs.head?, c = '\n'

/-- The text holds a character that ends a clause. -/
def Bounded (cs : List Char) : Prop := ∃ c ∈ cs, endsClause c = true

theorem isBlank_eq_false_of_endsClause {c : Char} (h : endsClause c = true) : isBlank c = false := by
  rcases Bool.or_eq_true_iff.1 h with h | h
  · obtain rfl : c = ';' := by simpa using h
    decide
  · exact isBlank_eq_false_of_isQuote h

theorem Bounded.of_append {cs ds : List Char} (h : Bounded (cs ++ ds))
    (hcs : ∀ c ∈ cs, endsClause c = false) : Bounded ds := by
  obtain ⟨c, hc, hends⟩ := h
  rcases List.mem_append.1 hc with hc | hc
  · rw [hcs c hc] at hends
    cases hends
  · exact ⟨c, hc, hends⟩

theorem Bounded.of_trimLeft {cs : List Char} (h : Bounded cs) : Bounded (trimLeft cs) := by
  obtain ⟨gap, hcs, hgap⟩ := exists_trimLeft cs
  rw [hcs] at h
  exact h.of_append fun c hc => (inner_of_isBlank (hgap c hc)).2

theorem Bounded.trimLeft_append {cs : List Char} (h : Bounded cs) (rest : List Char) :
    trimLeft (cs ++ rest) = trimLeft cs ++ rest := by
  obtain ⟨c, hc, hends⟩ := h
  exact dropWhile_append_of_mem ⟨c, hc, isBlank_eq_false_of_endsClause hends⟩ rest

theorem Bounded.after?_append {cs piece : List Char} (h : Bounded cs)
    (hpiece : ∀ c ∈ piece, endsClause c = false) (rest : List Char) :
    after? piece (cs ++ rest) = (after? piece cs).map (· ++ rest) := by
  obtain ⟨c, hc, hends⟩ := h
  refine Text.after?_append ⟨c, hc, fun hm => ?_⟩ rest
  rw [hpiece c hm] at hends
  cases hends

/-- Whether a module follows does not depend on what stands behind the line. -/
theorem Bounded.fromModule?_append {cs rest : List Char} (h : Bounded cs) (hrest : AtLineEnd rest) :
    fromModule? (cs ++ rest) = fromModule? cs := by
  have hword : ∀ c ∈ "from".toList, endsClause c = false := List.all_iff_forall_prop.1 (by decide)
  unfold fromModule?
  rw [h.trimLeft_append, h.of_trimLeft.after?_append hword]
  cases hafter : after? "from".toList (trimLeft cs) with
  | none => rfl
  | some behind =>
    have hbounded : Bounded behind := by
      have htrim := h.of_trimLeft
      rw [after?_eq_some_iff.1 hafter] at htrim
      exact htrim.of_append hword
    simp only [Option.map_some]
    rw [hbounded.trimLeft_append]
    cases htail : trimLeft behind with
    | nil =>
      obtain ⟨c, hc, -⟩ := hbounded.of_trimLeft
      rw [htail] at hc
      cases hc
    | cons quote tail =>
      have hline : ∀ c ∈ rest.head?, (!isQuote c && c != '\n') = false := by
        intro c hc
        simp [hrest c hc]
      simp only [List.cons_append]
      rw [takeWhile_append_of_head tail hline,
        List.drop_append_of_le_length (List.takeWhile_sublist _).length_le]
      cases hclose : tail.drop (tail.takeWhile fun c => !isQuote c && c != '\n').length with
      | nil =>
        -- the quote is not closed on the line, and the end of the line closes none
        by_cases hquote : isQuote quote = true
        · have hne : (rest.head? == some quote) = false := by
            by_contra hq
            have hline := hrest quote (by simpa using hq)
            rw [hline] at hquote
            revert hquote
            decide
          simp [hne]
        · simp [hquote]
      | cons q close =>
        have hlen : (cs ++ rest).length - ((q :: close ++ rest).length - 1) =
            cs.length - ((q :: close).length - 1) := by
          simp
          omega
        rw [hlen]
        rfl

/-- What is read of a clause does not depend on what stands behind the line. -/
theorem Bounded.clause?_append {cs rest : List Char} (h : Bounded cs) (hrest : AtLineEnd rest) :
    clause? (cs ++ rest) = clause? cs := by
  -- as long as the clause goes on, what ends it is still ahead on the line
  induction cs with
  | nil =>
    obtain ⟨c, hc, -⟩ := h
    cases hc
  | cons c cs ih =>
    have hsame := h.fromModule?_append hrest
    rw [List.cons_append] at hsame ⊢
    cases hfrom : fromModule? (c :: cs) with
    | some found =>
      obtain ⟨quote, name, n⟩ := found
      rw [clause?_of_fromModule? hfrom, clause?_of_fromModule? (hsame.trans hfrom)]
    | none =>
      by_cases hc : endsClause c = true
      · rw [clause?_eq_none hfrom hc, clause?_eq_none (hsame.trans hfrom) hc]
      · have hc' : endsClause c = false := by simpa using hc
        have hbounded : Bounded cs := by
          rw [show c :: cs = [c] ++ cs from rfl] at h
          exact h.of_append (by simpa using hc')
        rw [clause?_cons hfrom hc', clause?_cons (hsame.trans hfrom) hc', ih hbounded]

/-- A clause that is read is followed by its module. -/
theorem eq_moduleText_of_clause? {cs clause name : List Char} {quote : Char} {n : Nat}
    (h : clause? cs = some (clause, quote, name, n)) :
    isQuote quote = true ∧ IsModule name ∧ (∀ c ∈ clause, endsClause c = false) ∧
      ∃ lead gap tail, cs = clause ++ (lead ++ moduleText gap quote name tail) ∧
        (∀ c ∈ lead, isBlank c = true) ∧ (∀ c ∈ gap, isBlank c = true) ∧
        n + tail.length = cs.length := by
  obtain ⟨hclause, rest, m, rfl, hfrom, rfl⟩ := eq_append_of_clause? h
  obtain ⟨hquote, hname, lead, gap, tail, rfl, hlead, hgap, hlen⟩ :=
    eq_moduleText_of_fromModule? hfrom
  refine ⟨hquote, hname, hclause, lead, gap, tail, rfl, hlead, hgap, ?_⟩
  rw [List.length_append, ← hlen]
  omega

end Codemod.Source
