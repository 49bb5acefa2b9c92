import Codemod.Proofs.Source.Braces

/-! Braces in the names of a brace list. The braces at both ends of a list are passed over when it is read,
those of a name too when nothing stands between the name and the end of the list. -/
namespace Codemod.Source
open Text

/-- How many braces a text holds. -/
def braceCount (cs : List Char) : Nat := cs.countP isBrace

/-! ## Counting braces -/

theorem braceCount_append (cs ds : List Char) : braceCount (cs ++ ds) = braceCount cs + braceCount ds :=
  List.countP_append

theorem braceCount_cons (c : Char) (cs : List Char) :
    braceCount (c :: cs) = braceCount cs + if isBrace c then 1 else 0 := List.countP_cons

theorem braceCount_joinWith {sep : List Char} (hsep : braceCount sep = 0) (texts : List (List Char)) :
    braceCount (joinWith sep texts) = braceCount texts.flatten := by
  induction texts with
  | nil => rfl
  | cons text texts ih =>
    by_cases hnil : texts = []
    · subst hnil
      simp [joinWith_singleton]
    · rw [joinWith_cons sep text hnil, braceCount_append, braceCount_append, ih, hsep, List.flatten_cons,
        braceCount_append, Nat.zero_add]

theorem isBrace_of_isBlank {c : Char} (h : isBlank c = true) : isBrace c = false := (inner_of_isBlank h).1

/-- The braces of a text are those of its words. -/
theorem braceCount_words (cs : List Char) : braceCount (words cs).flatten = braceCount cs := by
  have hopen : braceCount (openWord cs).1 + braceCount (openWord cs).2.flatten = braceCount cs := by
    induction cs with
    | nil => rfl
    | cons c cs ih =>
      by_cases hc : isBlank c = true
      · rw [openWord_blank hc, words_eq, braceCount_cons, isBrace_of_isBlank hc, ← ih]
        split
        · next hempty => simp [List.isEmpty_iff.1 hempty, braceCount]
        · rw [List.flatten_cons, braceCount_append]
          simp [braceCount]
      · have hc' : ∀ d ∈ [c], isBlank d = false := by simpa using hc
        rw [show c :: cs = [c] ++ cs from rfl, openWord_append hc', braceCount_append, braceCount_append,
          ← ih, Nat.add_assoc]
  rw [← hopen, words_eq]
  split
  · next hempty => simp [List.isEmpty_iff.1 hempty, braceCount]
  · rw [List.flatten_cons, braceCount_append]

theorem braceCount_pieces (cs : List Char) :
    braceCount (pieces (· == ',') cs).flatten = braceCount cs := by
  induction cs with
  | nil => rfl
  | cons c cs ih =>
    by_cases hc : c = ','
    · subst hc
      rw [pieces_sep (by decide), List.flatten_cons, List.nil_append, ih, braceCount_cons]
      simp [isBrace]
    · obtain ⟨first, rest, heq⟩ := List.exists_cons_of_ne_nil (pieces_ne_nil (· == ',') cs)
      rw [heq] at ih
      rw [pieces_cons (by simpa using hc) heq, braceCount_cons, ← ih, List.flatten_cons, List.flatten_cons,
        List.cons_append, braceCount_cons]

/-- An item is rendered with no brace that its text did not hold. -/
theorem Specifier.braceCount_render_le {text : List Char} {s : Specifier}
    (h : Specifier.ofText? text = some s) : braceCount s.render ≤ braceCount text := by
  have hspaced (ws : List (List Char)) : braceCount (words (spaced ws)).flatten =
      braceCount ws.flatten := by
    rw [braceCount_words, spaced, braceCount_joinWith (by decide)]
  have hnames (typeOnly : Bool) (ws : List (List Char)) :
      braceCount (ofNames typeOnly ws).itemWords.flatten ≤ braceCount ws.flatten := by
    have htype : braceCount (if typeOnly then ["type".toList] else []).flatten = 0 := by
      cases typeOnly <;> decide
    unfold ofNames
    split
    · next imported bound hsplit =>
      rw [(of_splitAs hsplit).1]
      simp only [itemWords, List.flatten_append, List.flatten_cons, braceCount_append, htype, hspaced]
      split
      · rw [List.flatten_nil, Nat.zero_add]
        exact Nat.add_le_add_left (Nat.zero_le _) _
      · rw [List.flatten_cons, braceCount_append, hspaced, Nat.zero_add]
    · simp only [itemWords, if_true, List.append_nil, List.flatten_append, braceCount_append, htype, hspaced]
      omega
  rw [← braceCount_words text, ← braceCount_words s.render, s.words_render]
  rw [Specifier.ofText?_eq] at h
  split at h
  · cases h
  · cases h
    unfold ofWords
    split
    · next hleads =>
      obtain ⟨vs, hvs, -⟩ := leads_iff.1 hleads
      rw [hvs, List.flatten_cons, braceCount_append]
      exact (hnames true vs).trans (Nat.le_add_left _ _)
    · exact hnames false _

theorem braceCount_specifiers_le (braces : List Char) :
    braceCount ((specifiers braces).map Specifier.render).flatten ≤ braceCount (unbraced braces) := by
  rw [specifiers, ← unbraced, ← braceCount_pieces (unbraced braces)]
  generalize pieces (· == ',') (unbraced braces) = texts
  induction texts with
  | nil => exact Nat.le_refl _
  | cons text texts ih =>
    rw [List.filterMap_cons, List.flatten_cons, braceCount_append]
    split
    · exact ih.trans (Nat.le_add_left _ _)
    · next s hs =>
      rw [List.map_cons, List.flatten_cons, braceCount_append]
      exact Nat.add_le_add (Specifier.braceCount_render_le hs) ih

/-! ## Lists that are flush with their braces -/

/-- Braces at both ends of a text are passed over. -/
theorem braceCount_unbraced_le {front back : List Char} (hfront : ∀ c ∈ front, isBrace c = true)
    (hback : ∀ c ∈ back, isBrace c = true) (core : List Char) :
    braceCount (unbraced (front ++ (core ++ back))) ≤ braceCount core := by
  have hback' : ∀ c ∈ back.reverse, isBrace c = true := fun c hc => hback c (List.mem_reverse.1 hc)
  have hnone : back.dropWhile isBrace = [] := List.dropWhile_eq_nil_iff.2 hback
  have hsub : (unbraced (front ++ (core ++ back))).Sublist core := by
    rw [unbraced, List.dropWhile_append_of_pos hfront, List.dropWhile_append]
    split
    · rw [hnone]
      exact List.nil_sublist core
    · rw [List.reverse_append, List.dropWhile_append_of_pos hback']
      have hend : ((core.dropWhile isBrace).reverse.dropWhile isBrace).reverse.Sublist
          (core.dropWhile isBrace) := by
        rw [← List.reverse_sublist, List.reverse_reverse]
        exact List.dropWhile_sublist _
      exact hend.trans (List.dropWhile_sublist _)
  exact hsub.countP_le

/-- Neither the first item begins with a brace nor the last one ends with one. -/
def BareEnds (items : List Specifier) : Prop :=
  ∀ c, (joined items).head? = some c ∨ (joined items).getLast? = some c → isBrace c = false

theorem braceCount_unbraced_lt {items : List Specifier} (h : ¬ BareEnds items) :
    braceCount (unbraced ('{' :: (joined items ++ ['}']))) < braceCount (joined items) := by
  have hbrace {c : Char} (hc : isBrace c = true) {b : Char} (hb : isBrace b = true) :
      ∀ d ∈ [c, b], isBrace d = true := by
    intro d hd
    simp only [List.mem_cons, List.not_mem_nil, or_false] at hd
    rcases hd with rfl | rfl
    · exact hc
    · exact hb
  have hone {c : Char} (hc : isBrace c = true) : ∀ d ∈ [c], isBrace d = true :=
    List.forall_mem_singleton.2 hc
  simp only [BareEnds, not_forall, Bool.not_eq_false] at h
  obtain ⟨c, hend, hc⟩ := h
  rcases hend with hend | hend
  · obtain ⟨core, hcore⟩ := List.head?_eq_some_iff.1 hend
    have hle := braceCount_unbraced_le (hbrace (by decide : isBrace '{' = true) hc)
      (hone (by decide : isBrace '}' = true)) core
    rw [hcore, braceCount_cons, if_pos hc]
    exact Nat.lt_succ_of_le hle
  · obtain ⟨core, hcore⟩ := List.getLast?_eq_some_iff.1 hend
    have hle := braceCount_unbraced_le (hone (by decide : isBrace '{' = true))
      (hbrace hc (by decide : isBrace '}' = true)) core
    have hone : braceCount [c] = 1 := by simp [braceCount, hc]
    rw [hcore, braceCount_append, hone, List.append_assoc]
    exact Nat.lt_succ_of_le hle

/-- A list that is written anew reads as its items, unless it is flush with its braces and a brace of an
item is taken for one of them. -/
theorem specifiers_renderBraces_iff {items : List Specifier} {braces indent : List Char}
    (hitems : ∀ s ∈ items, s.Listable) (hne : items ≠ []) (hindent : ∀ c ∈ indent, isBlank c = true) :
    specifiers (renderBraces items braces indent) = items ↔ (IsFlush braces → BareEnds items) := by
  have hlisted {left gap right : List Char} (hleft : ∀ c ∈ left, isBlank c = true)
      (hgap : ∀ c ∈ gap, isBlank c = true) (hright : IsListEnd right) :=
    filterMap_pieces hitems hne hleft hgap hright
  rcases renderBraces_cases items braces hindent with
    ⟨hflush, heq⟩ | ⟨hflush, left, gap, right, heq, hleft, hgap, hright, hhead, c, hlast, hc⟩
  · have hread : (pieces (· == ',') (joined items)).filterMap Specifier.ofText? = items := by
      have hlist := hlisted (List.forall_mem_nil _) (List.forall_mem_singleton.2 isBlank_space)
        ⟨[], .inl rfl, List.forall_mem_nil _⟩
      rwa [List.nil_append, List.append_nil] at hlist
    have hjoined : joined items ≠ [] := by
      intro hnil
      rw [hnil] at hread
      exact hne hread.symm
    refine ⟨fun hsame _ => ?_, fun hends => ?_⟩
    · by_contra hends
      have hle := braceCount_specifiers_le (renderBraces items braces indent)
      have hlt := braceCount_unbraced_lt hends
      rw [hsame, heq] at hle
      rw [joined, braceCount_joinWith (by decide), ← joined] at hlt
      exact absurd (hle.trans_lt hlt) (lt_irrefl _)
    · have hbare := hends hflush
      rw [heq, specifiers, ← unbraced, unbraced_braces hjoined (fun c hc => hbare c (.inl hc))
        fun c hc => hbare c (.inr hc)]
      exact hread
  · refine iff_of_true ?_ fun h => absurd h hflush
    rw [heq, specifiers, ← unbraced, unbraced_braces, hlisted hleft hgap hright]
    · simp [hhead]
    · intro d hd
      obtain ⟨b, left, rfl⟩ := List.exists_cons_of_ne_nil hhead
      obtain rfl : b = d := by simpa using hd
      exact isBrace_of_isBlank (hleft b (by simp))
    · intro d hd
      obtain ⟨front, rfl⟩ := List.getLast?_eq_some_iff.1 hlast
      rw [← List.append_assoc, ← List.append_assoc, List.getLast?_concat] at hd
      obtain rfl : c = d := by simpa using hd
      exact isBrace_of_isBlank hc

end Codemod.Source
