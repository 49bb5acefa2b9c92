import Codemod.Proofs.Source.Item

/-! The brace list of a declaration. Whatever layout it has, items are written between commas with blanks
around them, so the list reads as the items it was written from. -/
namespace Codemod.Source
open Text

/-- The characters that a clause cannot hold. -/
def endsClause (c : Char) : Bool := c == ';' || isQuote c

/-! ## Pieces -/

theorem pieces_ne_nil (sep : Char → Bool) (cs : List Char) : pieces sep cs ≠ [] := by
  cases cs with
  | nil => simp [pieces]
  | cons c cs =>
    rw [pieces]
    split
    · simp
    · split <;> simp

theorem pieces_cons {sep : Char → Bool} {c : Char} (hc : sep c = false) {cs piece : List Char}
    {rest : List (List Char)} (h : pieces sep cs = piece :: rest) :
    pieces sep (c :: cs) = (c :: piece) :: rest := by
  rw [pieces, h]
  simp [hc]

theorem pieces_sep {sep : Char → Bool} {c : Char} (hc : sep c = true) (cs : List Char) :
    pieces sep (c :: cs) = [] :: pieces sep cs := by
  obtain ⟨piece, rest, h⟩ := List.exists_cons_of_ne_nil (pieces_ne_nil sep cs)
  rw [pieces, h]
  simp [hc]

theorem pieces_append {sep : Char → Bool} {cs : List Char} (h : ∀ c ∈ cs, sep c = false)
    {tail piece : List Char} {rest : List (List Char)} (htail : pieces sep tail = piece :: rest) :
    pieces sep (cs ++ tail) = (cs ++ piece) :: rest := by
  induction cs with
  | nil => exact htail
  | cons c cs ih => exact pieces_cons (h c (by simp)) (ih fun d hd => h d (by simp [hd]))

theorem pieces_append_sep {sep : Char → Bool} {cs : List Char} (h : ∀ c ∈ cs, sep c = false)
    {c : Char} (hc : sep c = true) (tail : List Char) :
    pieces sep (cs ++ c :: tail) = cs :: pieces sep tail := by
  rw [pieces_append h (pieces_sep hc tail), List.append_nil]

theorem pieces_eq_singleton {sep : Char → Bool} {cs : List Char} (h : ∀ c ∈ cs, sep c = false) :
    pieces sep cs = [cs] := by
  have hcs := pieces_append h (rfl : pieces sep [] = [[]])
  simpa using hcs

theorem mem_of_mem_pieces {sep : Char → Bool} {cs piece : List Char} (h : piece ∈ pieces sep cs)
    {c : Char} (hc : c ∈ piece) : c ∈ cs := by
  induction cs generalizing piece with
  | nil =>
    obtain rfl : piece = [] := by simpa [pieces] using h
    cases hc
  | cons d cs ih =>
    obtain ⟨first, rest, heq⟩ := List.exists_cons_of_ne_nil (pieces_ne_nil sep cs)
    by_cases hd : sep d = true
    · rw [pieces_sep hd] at h
      rcases List.mem_cons.1 h with rfl | h
      · cases hc
      · exact List.mem_cons_of_mem _ (ih h hc)
    · rw [pieces_cons (by simpa using hd) heq] at h
      rw [heq] at ih
      rcases List.mem_cons.1 h with rfl | h
      · rcases List.mem_cons.1 hc with rfl | hc
        · simp
        · exact List.mem_cons_of_mem _ (ih (by simp) hc)
      · exact List.mem_cons_of_mem _ (ih (by simp [h]) hc)

theorem sep_eq_false_of_mem_pieces {sep : Char → Bool} {cs piece : List Char}
    (h : piece ∈ pieces sep cs) {c : Char} (hc : c ∈ piece) : sep c = false := by
  induction cs generalizing piece with
  | nil =>
    obtain rfl : piece = [] := by simpa [pieces] using h
    cases hc
  | cons d cs ih =>
    obtain ⟨first, rest, heq⟩ := List.exists_cons_of_ne_nil (pieces_ne_nil sep cs)
    by_cases hd : sep d = true
    · rw [pieces_sep hd] at h
      rcases List.mem_cons.1 h with rfl | h
      · cases hc
      · exact ih h hc
    · rw [pieces_cons (by simpa using hd) heq] at h
      rw [heq] at ih
      rcases List.mem_cons.1 h with rfl | h
      · rcases List.mem_cons.1 hc with rfl | hc
        · simpa using hd
        · exact ih (by simp) hc
      · exact ih (by simp [h]) hc

/-- What a text has been cut into: the first piece is its beginning, and each is a part of it. -/
def Cut (cs : List Char) : List (List Char) → Prop
  | [] => False
  | first :: pieces => first <+: cs ∧ ∀ piece ∈ pieces, piece <:+: cs

theorem Cut.cons {cs first : List Char} {pieces : List (List Char)} (h : Cut cs (first :: pieces))
    (c : Char) : Cut (c :: cs) ((c :: first) :: pieces) :=
  ⟨List.cons_prefix_cons.2 ⟨rfl, h.1⟩, fun piece hpiece => (h.2 piece hpiece).trans (List.infix_cons List.infix_rfl)⟩

theorem Cut.separated {cs : List Char} {pieces : List (List Char)} (h : Cut cs pieces) (c : Char) :
    Cut (c :: cs) ([] :: pieces) := by
  cases pieces with
  | nil => exact h.elim
  | cons first pieces =>
    refine ⟨List.nil_prefix, fun piece hpiece => ?_⟩
    have hpart : piece <:+: cs := by
      rcases List.mem_cons.1 hpiece with rfl | hpiece
      · exact h.1.isInfix
      · exact h.2 piece hpiece
    exact hpart.trans (List.infix_cons List.infix_rfl)

theorem Cut.isInfix {cs : List Char} {pieces : List (List Char)} (h : Cut cs pieces) {piece : List Char}
    (hpiece : piece ∈ pieces) : piece <:+: cs := by
  cases pieces with
  | nil => exact h.elim
  | cons first pieces =>
    rcases List.mem_cons.1 hpiece with rfl | hpiece
    · exact h.1.isInfix
    · exact h.2 piece hpiece

theorem cut_pieces (sep : Char → Bool) (cs : List Char) : Cut cs (pieces sep cs) := by
  induction cs with
  | nil => exact ⟨List.nil_prefix, by simp⟩
  | cons c cs ih =>
    obtain ⟨first, rest, heq⟩ := List.exists_cons_of_ne_nil (pieces_ne_nil sep cs)
    by_cases hc : sep c = true
    · rw [pieces_sep hc]
      exact ih.separated c
    · rw [pieces_cons (by simpa using hc) heq]
      rw [heq] at ih
      exact ih.cons c

/-! ## The items between commas -/

/-- An item that reads as itself between commas and ends no clause there. -/
structure Specifier.Listable (s : Specifier) : Prop where
  readable : s.Readable
  chars : ∀ c ∈ s.imported ++ s.bound, endsClause c = false ∧ c ≠ ','

theorem Specifier.Listable.render_chars {s : Specifier} (h : s.Listable) :
    ∀ c ∈ s.render, endsClause c = false ∧ c ≠ ',' := by
  have hword : ∀ c ∈ "type ".toList ++ asWord, endsClause c = false ∧ c ≠ ',' :=
    List.all_iff_forall_prop.1 (by decide)
  intro c hc
  simp only [Specifier.render, List.mem_append] at hc
  rcases hc with (hc | hc) | hc
  · split at hc
    · exact hword c (List.mem_append_left _ hc)
    · cases hc
  · exact h.chars c (List.mem_append_left _ hc)
  · split at hc
    · cases hc
    · rcases List.mem_append.1 hc with hc | hc
      · exact hword c (List.mem_append_right _ hc)
      · exact h.chars c (List.mem_append_right _ hc)

theorem Specifier.Legible.listable {s : Specifier} (h : s.Legible) : s.Listable := by
  refine ⟨h.readable, fun c hc => ?_⟩
  rcases h.chars c hc with hname | rfl
  · simp only [isNameChar, Bool.not_eq_true', Bool.or_eq_false_iff, beq_eq_false_iff_ne] at hname
    obtain ⟨⟨⟨⟨⟨-, hcomma⟩, -⟩, -⟩, hsemicolon⟩, hquote⟩ := hname
    exact ⟨by simp [endsClause, hsemicolon, hquote], hcomma⟩
  · exact ⟨by decide, by decide⟩

theorem ofText?_blanks {gap : List Char} (h : ∀ c ∈ gap, isBlank c = true) :
    Specifier.ofText? gap = none := by
  have hwords : words gap = [] := by simpa using words_blanks_append h []
  rw [Specifier.ofText?_eq, if_pos hwords]

/-- What may stand behind the last item: blanks, with or without a comma in front. -/
def IsListEnd (right : List Char) : Prop :=
  ∃ gap, (right = gap ∨ right = ',' :: gap) ∧ ∀ c ∈ gap, isBlank c = true

theorem not_comma_of_isBlank {c : Char} (h : isBlank c = true) : (c == ',') = false := by
  refine forall_isBlank (p := fun c => (c == ',') = false) ?_ h
  decide +kernel

theorem filterMap_pieces {items : List Specifier} (hitems : ∀ s ∈ items, s.Listable)
    (hne : items ≠ []) {left gap right : List Char} (hleft : ∀ c ∈ left, isBlank c = true)
    (hgap : ∀ c ∈ gap, isBlank c = true) (hright : IsListEnd right) :
    (pieces (· == ',') (left ++ (joinWith (',' :: gap) (items.map Specifier.render) ++ right))).filterMap
      Specifier.ofText? = items := by
  have hrender {s : Specifier} (hs : s.Listable) {left : List Char}
      (hleft : ∀ c ∈ left, isBlank c = true) : ∀ c ∈ left ++ s.render, (c == ',') = false := by
    intro c hc
    rcases List.mem_append.1 hc with hc | hc
    · exact not_comma_of_isBlank (hleft c hc)
    · exact beq_eq_false_iff_ne.2 (hs.render_chars c hc).2
  -- the blanks in front of an item are those behind the comma before it, so they change along the list
  induction items generalizing left with
  | nil => exact absurd rfl hne
  | cons s items ih =>
    have hs : s.Listable := hitems s (by simp)
    have hread : Specifier.ofText? (left ++ (s.render ++ [])) = some s :=
      hs.readable.ofText?_render hleft (by simp)
    rw [List.append_nil] at hread
    cases items with
    | nil =>
      -- a comma behind the last item leaves a piece of blanks, which reads as no item
      obtain ⟨tail, rfl | rfl, htail⟩ := hright
      · have hpieces : pieces (· == ',') (left ++ (s.render ++ right)) =
            [left ++ (s.render ++ right)] := by
          refine pieces_eq_singleton fun c hc => ?_
          rw [← List.append_assoc, List.mem_append] at hc
          rcases hc with hc | hc
          · exact hrender hs hleft c hc
          · exact not_comma_of_isBlank (htail c hc)
        rw [List.map_singleton, joinWith_singleton, hpieces]
        simp [hs.readable.ofText?_render hleft htail]
      · have hpieces : pieces (· == ',') (left ++ (s.render ++ ',' :: tail)) =
            [left ++ s.render, tail] := by
          rw [← List.append_assoc, pieces_append_sep (hrender hs hleft) (by decide),
            pieces_eq_singleton fun c hc => not_comma_of_isBlank (htail c hc)]
        rw [List.map_singleton, joinWith_singleton, hpieces]
        simp [hread, ofText?_blanks htail]
    | cons next items =>
      have hjoin : left ++ (joinWith (',' :: gap) ((s :: next :: items).map Specifier.render) ++ right) =
          (left ++ s.render) ++ ',' :: (gap ++
            (joinWith (',' :: gap) ((next :: items).map Specifier.render) ++ right)) := by
        rw [List.map_cons, joinWith_cons _ _ (by simp)]
        simp
      rw [hjoin, pieces_append_sep (hrender hs hleft) (by decide), List.filterMap_cons, hread,
        ih (fun t ht => hitems t (by simp [ht])) (by simp) hgap]

/-! ## The list in its braces -/

/-- The text is a brace list of the items: commas between them, blanks around them. -/
def ListsItems (items : List Specifier) (text : List Char) : Prop :=
  ∃ left gap right, text =
      '{' :: (left ++ (joinWith (',' :: gap) (items.map Specifier.render) ++ right) ++ ['}']) ∧
    (∀ c ∈ left, isBlank c = true) ∧ (∀ c ∈ gap, isBlank c = true) ∧ IsListEnd right

/-- The items of a list with their commas, on one line. -/
def joined (items : List Specifier) : List Char := joinWith ", ".toList (items.map Specifier.render)

/-- The text is a brace list of the items, with blanks between them and the braces. -/
def ListsApart (items : List Specifier) (text : List Char) : Prop :=
  ∃ left gap right, text =
      '{' :: (left ++ (joinWith (',' :: gap) (items.map Specifier.render) ++ right) ++ ['}']) ∧
    (∀ c ∈ left, isBlank c = true) ∧ (∀ c ∈ gap, isBlank c = true) ∧ IsListEnd right ∧
    left ≠ [] ∧ ∃ c ∈ right.getLast?, isBlank c = true

/-- A brace list on one line that has something else than a space behind its opening brace. -/
def IsFlush (braces : List Char) : Prop :=
  '\n' ∉ (braces.drop 1).dropLast ∧ (braces.drop 1).dropLast ≠ [] ∧
    (braces.drop 1).dropLast.head? ≠ some ' '

/-- What is written around the items of a list that had another text before: in front of the first,
between two of them and behind the last. -/
structure Layout (braces left gap right : List Char) : Prop where
  left_blank : ∀ c ∈ left, isBlank c = true
  gap_blank : ∀ c ∈ gap, isBlank c = true
  right_end : IsListEnd right
  flush : IsFlush braces → left = [] ∧ gap = [' '] ∧ right = []
  apart : ¬ IsFlush braces → left ≠ [] ∧ ∃ c ∈ right.getLast?, isBlank c = true
  /-- A list on several lines stays one. -/
  onLines : '\n' ∈ (braces.drop 1).dropLast → '\n' ∈ gap ∧ '\n' ∈ right

/-- A list with each item on a line of its own. -/
theorem layout_onLines {braces itemIndent last indent : List Char}
    (hlines : '\n' ∈ (braces.drop 1).dropLast) (hitem : ∀ c ∈ itemIndent, isBlank c = true)
    (hlast : last = [','] ∨ last = []) (hindent : ∀ c ∈ indent, isBlank c = true) :
    Layout braces ('\n' :: itemIndent) ('\n' :: itemIndent) (last ++ '\n' :: indent) := by
  have hline {cs : List Char} (h : ∀ c ∈ cs, isBlank c = true) : ∀ c ∈ '\n' :: cs, isBlank c = true :=
    List.forall_mem_cons.2 ⟨by decide, h⟩
  obtain ⟨c, hc⟩ := List.getLast?_isSome.2 (List.cons_ne_nil '\n' indent) |> Option.isSome_iff_exists.1
  refine ⟨hline hitem, hline hitem, ⟨'\n' :: indent, ?_, hline hindent⟩, fun h => absurd hlines h.1,
    fun _ => ⟨by simp, c, by simp [hc], hline hindent c (List.mem_of_getLast? hc)⟩, fun _ => by simp⟩
  rcases hlast with rfl | rfl
  · exact .inr rfl
  · exact .inl rfl

theorem layout_padded {braces : List Char} (hlines : '\n' ∉ (braces.drop 1).dropLast)
    (hflush : ¬ IsFlush braces) : Layout braces [' '] [' '] [' '] := by
  have hspace : ∀ c ∈ [' '], isBlank c = true := List.forall_mem_singleton.2 (by decide)
  exact ⟨hspace, hspace, ⟨[' '], .inl rfl, hspace⟩, fun h => absurd h hflush,
    fun _ => ⟨by simp, ' ', rfl, by decide⟩, fun h => absurd h hlines⟩

theorem layout_flush {braces : List Char} (hflush : IsFlush braces) : Layout braces [] [' '] [] :=
  ⟨by simp, List.forall_mem_singleton.2 (by decide), ⟨[], .inl rfl, by simp⟩, fun _ => ⟨rfl, rfl, rfl⟩,
    fun h => absurd hflush h, fun h => absurd h hflush.1⟩

/-- Items are written in the layout of the list that was there before. -/
theorem exists_layout (items : List Specifier) (braces : List Char) {indent : List Char}
    (hindent : ∀ c ∈ indent, isBlank c = true) : ∃ left gap right, Layout braces left gap right ∧
      renderBraces items braces indent =
        '{' :: (left ++ (joinWith (',' :: gap) (items.map Specifier.render) ++ right) ++ ['}']) := by
  have hlined (itemIndent last : List Char) : "\x7b\n".toList ++ itemIndent ++
      joinWith (",\n".toList ++ itemIndent) (items.map Specifier.render) ++ last ++ '\n' :: indent ++ ['}'] =
      '{' :: (('\n' :: itemIndent) ++ (joinWith (',' :: '\n' :: itemIndent)
        (items.map Specifier.render) ++ (last ++ '\n' :: indent)) ++ ['}']) := by simp
  unfold renderBraces
  dsimp only
  split
  · next hin =>
    refine ⟨_, _, _, layout_onLines (by simpa using hin) (fun c hc => ?_) ?_ hindent, hlined _ _⟩
    · split at hc
      · exact List.mem_takeWhile_imp hc
      · rcases List.mem_append.1 hc with hc | hc
        · exact hindent c hc
        · obtain rfl : c = ' ' := by simpa using hc
          decide
    · split <;> simp
  · next hin =>
    have hlines : '\n' ∉ (braces.drop 1).dropLast := by simpa using hin
    split
    · next hpad =>
      rw [Bool.or_eq_true] at hpad
      refine ⟨[' '], [' '], [' '], layout_padded hlines fun h => ?_, by simp⟩
      rcases hpad with hpad | hpad
      · exact h.2.1 (List.isEmpty_iff.1 hpad)
      · exact h.2.2 (beq_iff_eq.1 hpad)
    · next hpad =>
      simp only [Bool.or_eq_true, not_or, beq_iff_eq] at hpad
      exact ⟨[], [' '], [], layout_flush ⟨hlines, by simpa using hpad.1, hpad.2⟩, by simp⟩

/-- A list is written flush with its braces only when it was so before. -/
theorem renderBraces_cases (items : List Specifier) (braces : List Char) {indent : List Char}
    (hindent : ∀ c ∈ indent, isBlank c = true) :
    (IsFlush braces ∧ renderBraces items braces indent = '{' :: (joined items ++ ['}'])) ∨
      (¬ IsFlush braces ∧ ListsApart items (renderBraces items braces indent)) := by
  obtain ⟨left, gap, right, hlayout, heq⟩ := exists_layout items braces hindent
  by_cases hflush : IsFlush braces
  · obtain ⟨rfl, rfl, rfl⟩ := hlayout.flush hflush
    exact .inl ⟨hflush, by simp [heq, joined]⟩
  · exact .inr ⟨hflush, left, gap, right, heq, hlayout.left_blank, hlayout.gap_blank,
      hlayout.right_end, hlayout.apart hflush⟩

theorem listsItems_renderBraces (items : List Specifier) (braces : List Char) {indent : List Char}
    (hindent : ∀ c ∈ indent, isBlank c = true) :
    ListsItems items (renderBraces items braces indent) := by
  obtain ⟨left, gap, right, hlayout, heq⟩ := exists_layout items braces hindent
  exact ⟨left, gap, right, heq, hlayout.left_blank, hlayout.gap_blank, hlayout.right_end⟩

/-- A character that may stand inside a brace list: it is no brace and ends no clause. -/
def Inner (c : Char) : Prop := isBrace c = false ∧ endsClause c = false

theorem inner_of_isBlank {c : Char} (h : isBlank c = true) : Inner c := by
  refine forall_isBlank (p := Inner) ?_ h
  unfold Inner
  decide +kernel

theorem inner_of_isNameChar {c : Char} (h : isNameChar c = true) : Inner c := by
  simp only [isNameChar, Bool.not_eq_true', Bool.or_eq_false_iff] at h
  obtain ⟨⟨⟨⟨-, hopen⟩, hclose⟩, hsemicolon⟩, hquote⟩ := h
  simp [Inner, isBrace, endsClause, hopen, hclose, hsemicolon, hquote]

variable {items : List Specifier} {text : List Char}

/-- A brace list ends with its first closing brace and holds nothing that ends a clause. -/
theorem ListsItems.exists_inner (h : ListsItems items text) (hitems : ∀ s ∈ items, s.Legible)
    (hne : items ≠ []) : ∃ inner, text = '{' :: (inner ++ ['}']) ∧ inner ≠ [] ∧
      (∀ c ∈ inner, Inner c) ∧ (pieces (· == ',') inner).filterMap Specifier.ofText? = items := by
  obtain ⟨left, gap, right, rfl, hleft, hgap, hright⟩ := h
  have hread := filterMap_pieces (fun s hs => (hitems s hs).listable) hne hleft hgap hright
  refine ⟨_, rfl, fun hnil => ?_, fun c hc => ?_, hread⟩
  · rw [hnil] at hread
    exact hne hread.symm
  · rcases List.mem_append.1 hc with hc | hc
    · exact inner_of_isBlank (hleft c hc)
    rcases List.mem_append.1 hc with hc | hc
    · rcases mem_of_mem_joinWith hc with hc | ⟨w, hw, hc⟩
      · rcases List.mem_cons.1 hc with rfl | hc
        · exact ⟨rfl, rfl⟩
        · exact inner_of_isBlank (hgap c hc)
      · obtain ⟨s, hs, rfl⟩ := List.mem_map.1 hw
        rcases (hitems s hs).mem_render hc with hc | rfl
        · exact inner_of_isNameChar hc
        · exact ⟨rfl, rfl⟩
    · obtain ⟨tail, rfl | rfl, htail⟩ := hright
      · exact inner_of_isBlank (htail c hc)
      · rcases List.mem_cons.1 hc with rfl | hc
        · exact ⟨rfl, rfl⟩
        · exact inner_of_isBlank (htail c hc)

/-- A text without the braces at its two ends. -/
def unbraced (cs : List Char) : List Char :=
  ((cs.dropWhile isBrace).reverse.dropWhile isBrace).reverse

theorem unbraced_braces {inner : List Char} (hne : inner ≠ [])
    (hhead : ∀ c ∈ inner.head?, isBrace c = false) (hlast : ∀ c ∈ inner.getLast?, isBrace c = false) :
    unbraced ('{' :: (inner ++ ['}'])) = inner := by
  have hfront : (['{'] ++ (inner ++ ['}'])).dropWhile isBrace = inner ++ ['}'] := by
    refine dropWhile_span (List.forall_mem_singleton.2 (by decide)) fun c hc => ?_
    obtain ⟨d, tail, rfl⟩ := List.exists_cons_of_ne_nil hne
    exact hhead c hc
  have hback : (['}'] ++ inner.reverse).dropWhile isBrace = inner.reverse :=
    dropWhile_span (List.forall_mem_singleton.2 (by decide)) fun c hc => hlast c (by simpa using hc)
  have hreverse : (inner ++ ['}']).reverse = ['}'] ++ inner.reverse := by simp
  rw [unbraced, show '{' :: (inner ++ ['}']) = ['{'] ++ (inner ++ ['}']) from rfl, hfront, hreverse,
    hback, List.reverse_reverse]

/-- A brace list reads as the items it was written from. -/
theorem specifiers_braces {inner : List Char} (hne : inner ≠ []) (hinner : ∀ c ∈ inner, Inner c) :
    specifiers ('{' :: (inner ++ ['}'])) =
      (pieces (· == ',') inner).filterMap Specifier.ofText? := by
  have hunbraced : unbraced ('{' :: (inner ++ ['}'])) = inner :=
    unbraced_braces hne (fun c hc => (hinner c (List.mem_of_mem_head? hc)).1)
      fun c hc => (hinner c (List.mem_of_mem_getLast? hc)).1
  rw [specifiers, ← unbraced, hunbraced]

end Codemod.Source
