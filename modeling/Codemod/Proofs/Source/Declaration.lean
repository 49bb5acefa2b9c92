import Codemod.Proofs.Source.Clause

/-! A declaration as it is written and as it is read. The parts that a text must have for a declaration to
begin in it determine how much of the text it takes, and a line that holds such parts is read alike
whatever stands behind it. -/
namespace Codemod.Source
open Text

def importWord : List Char := "import".toList

def typeName : List Char := "type".toList

/-- The parts of a declaration up to its module, as a text has them. -/
structure Shape where
  indent : List Char
  /-- The first of the blanks behind the word `import`. -/
  blank : Char
  /-- All that stands in front of `from`. -/
  clause : List Char
  gap : List Char
  quote : Char
  module : List Char
  indent_space : ∀ c ∈ indent, isSpaceOrTab c = true
  isBlank_blank : isBlank blank = true
  clause_plain : ∀ c ∈ clause, endsClause c = false
  gap_blank : ∀ c ∈ gap, isBlank c = true
  isQuote_quote : isQuote quote = true
  isModule_module : IsModule module

/-- The text of the parts with `tail` behind it. -/
def Shape.before (s : Shape) (tail : List Char) : List Char :=
  s.indent ++ (importWord ++ s.blank :: (s.clause ++ moduleText s.gap s.quote s.module tail))

def Shape.text (s : Shape) : List Char := s.before []

theorem Shape.text_append (s : Shape) (tail : List Char) : s.text ++ tail = s.before tail := by
  simp [text, before, moduleText]

theorem isBlank_of_isSpaceOrTab {c : Char} (h : isSpaceOrTab c = true) : isBlank c = true := by
  simp only [isSpaceOrTab, Bool.or_eq_true, beq_iff_eq] at h
  rcases h with rfl | rfl <;> decide

/-- Whether a semicolon follows on the line. -/
def hasSemicolon (tail : List Char) : Bool :=
  (tail.drop (tail.takeWhile isSpaceOrTab).length).head? == some ';'

/-- How much of what follows belongs to the declaration. -/
def semicolonLength (tail : List Char) : Nat :=
  if hasSemicolon tail then (tail.takeWhile isSpaceOrTab).length + 1 else 0

/-- The declaration with what its clause names. -/
def ImportDecl.withClause (bare : ImportDecl) (clause : List Char) : ImportDecl :=
  match bracesOf clause with
  | some (head, braces) => ({ bare with named := some (specifiers braces), braces }).withHead head
  | none => bare.withHead clause

/-! ## Words in front of the clause -/

theorem eq_append_of_wordWithBlanks? {word cs rest : List Char} {n : Nat}
    (h : wordWithBlanks? word cs = some (n, rest)) :
    ∃ c gap, cs = word ++ c :: (gap ++ rest) ∧ isBlank c = true ∧ (∀ d ∈ gap, isBlank d = true) ∧
      n = word.length + 1 + gap.length := by
  unfold wordWithBlanks? at h
  obtain ⟨behind, hafter, hgap⟩ := Option.bind_eq_some_iff.1 h
  dsimp only at hgap
  split at hgap
  · cases hgap
  · next hne =>
    cases hgap
    have hsplit : behind = behind.takeWhile isBlank ++ behind.drop (behind.takeWhile isBlank).length := by
      rw [drop_length_takeWhile, List.takeWhile_append_dropWhile]
    have hnil : behind.takeWhile isBlank ≠ [] := fun hnil => hne (by rw [hnil]; rfl)
    obtain ⟨c, gap, hcons⟩ := List.exists_cons_of_ne_nil hnil
    have hall : ∀ d ∈ c :: gap, isBlank d = true := by
      intro d hd
      rw [← hcons] at hd
      exact List.mem_takeWhile_imp hd
    refine ⟨c, gap, ?_, hall c (by simp), fun d hd => hall d (by simp [hd]), ?_⟩
    · rw [after?_eq_some_iff.1 hafter, ← List.cons_append, ← hcons, ← hsplit]
    · rw [hcons, List.length_cons]
      omega

theorem exists_wordWithBlanks? (word : List Char) {c : Char} (hc : isBlank c = true)
    (cs : List Char) : ∃ n rest, wordWithBlanks? word (word ++ c :: cs) = some (n, rest) := by
  have hafter : after? word (word ++ c :: cs) = some (c :: cs) := after?_eq_some_iff.2 rfl
  unfold wordWithBlanks?
  rw [hafter, Option.bind_some, List.takeWhile_cons, if_pos hc]
  exact ⟨_, _, rfl⟩

/-- Characters that cannot hold `c` end in front of it. -/
theorem eq_append_of_append_cons {cs lead rest tail : List Char} {c : Char} (hc : c ∉ lead)
    (h : cs ++ c :: tail = lead ++ rest) : ∃ left, cs = lead ++ left ∧ rest = left ++ c :: tail := by
  rcases List.append_eq_append_iff.1 h with ⟨left, rfl, hleft⟩ | ⟨left, rfl, rfl⟩
  · cases left with
    | nil => exact ⟨[], by simp, by simpa using hleft.symm⟩
    | cons d left =>
      obtain ⟨rfl, -⟩ := List.cons.inj hleft
      exact absurd (by simp) hc
  · exact ⟨left, rfl, rfl⟩

/-- Characters without an `f` end in front of the `from`. -/
theorem eq_append_of_append_moduleText {cs lead rest gap name tail : List Char} {quote : Char}
    (hf : 'f' ∉ lead) (h : cs ++ moduleText gap quote name tail = lead ++ rest) :
    ∃ left, cs = lead ++ left ∧ rest = left ++ moduleText gap quote name tail := by
  have hcons : moduleText gap quote name tail =
      'f' :: ("rom".toList ++ (gap ++ quote :: (name ++ quote :: tail))) := by
    simp [moduleText, fromWord]
  rw [hcons] at h ⊢
  exact eq_append_of_append_cons hf h

/-- What stands in front of a clause: the word `type` and blanks. -/
def InLead (c : Char) : Prop := c ∈ typeName ∨ isBlank c = true

/-- The text behind the word `type`, if that is there, and the length of what is passed over. -/
def afterType (cs : List Char) : Nat × List Char := (wordWithBlanks? typeName cs).getD (0, cs)

theorem eq_append_afterType (cs : List Char) : ∃ word, cs = word ++ (afterType cs).2 ∧
    word.length = (afterType cs).1 ∧ (word = [] ∨ typeName <+: word) ∧ ∀ c ∈ word, InLead c := by
  unfold afterType
  cases hread : wordWithBlanks? typeName cs with
  | none => exact ⟨[], rfl, rfl, .inl rfl, by simp⟩
  | some found =>
    obtain ⟨n, rest⟩ := found
    obtain ⟨c, gap, rfl, hc, hgap, rfl⟩ := eq_append_of_wordWithBlanks? hread
    refine ⟨typeName ++ c :: gap, by simp, by simp; omega, .inr (List.prefix_append _ _), fun d hd => ?_⟩
    rcases List.mem_append.1 hd with hd | hd
    · exact .inl hd
    · rcases List.mem_cons.1 hd with rfl | hd
      · exact .inr hc
      · exact .inr (hgap d hd)

theorem importDecl_eq (cs : List Char) : importDecl none cs =
    (wordWithBlanks? importWord (cs.dropWhile isSpaceOrTab)).bind fun (n, rest) =>
      (clause? (afterType rest).2).map fun (clause, quote, module, m) =>
        (ImportDecl.withClause ⟨cs.takeWhile isSpaceOrTab,
            (cs.drop ((cs.takeWhile isSpaceOrTab).length + n)).take (afterType rest).1, none, none, none,
            [], module, quote, hasSemicolon ((afterType rest).2.drop m)⟩ (trim clause),
          (cs.takeWhile isSpaceOrTab).length + n + (afterType rest).1 + m +
            semicolonLength ((afterType rest).2.drop m)) := by
  rw [← drop_length_takeWhile]
  unfold importDecl
  simp only [Option.any_none, Bool.false_eq_true, if_false]
  rw [show "import".toList = importWord from rfl]
  cases wordWithBlanks? importWord (cs.drop (cs.takeWhile isSpaceOrTab).length) with
  | none => rfl
  | some found => rfl

/-! ## Reading a declaration -/

theorem Shape.takeWhile_before (s : Shape) (tail : List Char) :
    (s.before tail).takeWhile isSpaceOrTab = s.indent :=
  takeWhile_span s.indent_space (by simp [importWord, isSpaceOrTab])

theorem Shape.dropWhile_before (s : Shape) (tail : List Char) :
    (s.before tail).dropWhile isSpaceOrTab =
      importWord ++ s.blank :: (s.clause ++ moduleText s.gap s.quote s.module tail) :=
  dropWhile_span s.indent_space (by simp [importWord, isSpaceOrTab])

theorem not_mem_lead {lead : List Char} (h : ∀ c ∈ lead, InLead c) {c : Char} (hname : c ∉ typeName)
    (hblank : isBlank c = false) : c ∉ lead := by
  intro hc
  rcases h c hc with hc | hc
  · exact hname hc
  · rw [hblank] at hc
    cases hc

theorem Shape.length_text (s : Shape) :
    s.text.length = s.indent.length + s.clause.length + s.gap.length + s.module.length + 13 := by
  rw [text, before, List.length_append, List.length_append, List.length_cons, List.length_append,
    length_moduleText]
  simp [importWord]
  omega

theorem drop_moduleText (clause gap : List Char) (quote : Char) (name tail : List Char) :
    (clause ++ moduleText gap quote name tail).drop
      (clause.length + gap.length + name.length + 6) = tail := by
  have hsplit : clause ++ moduleText gap quote name tail =
      (clause ++ (fromWord ++ (gap ++ quote :: (name ++ [quote])))) ++ tail := by simp [moduleText]
  rw [hsplit, List.drop_left']
  simp [fromWord]
  omega

/-- A declaration is read where its parts are, up to its module and a semicolon behind it. -/
theorem Shape.importDecl_before (s : Shape) (tail : List Char) :
    ∃ lead clause typeWord, s.clause = lead ++ clause ∧ (∀ c ∈ lead, InLead c) ∧
      (typeWord <:+ lead ∧ (typeWord = [] ∨ typeName <+: typeWord)) ∧ importDecl none (s.before tail) =
        some (ImportDecl.withClause ⟨s.indent, typeWord, none, none, none, [], s.module, s.quote,
          hasSemicolon tail⟩ (trim (trimRight clause)), s.text.length + semicolonLength tail) := by
  have hf {lead : List Char} (h : ∀ c ∈ lead, InLead c) : 'f' ∉ lead :=
    not_mem_lead h (by decide) (by decide)
  obtain ⟨n, rest, hread⟩ := exists_wordWithBlanks? importWord s.isBlank_blank
    (s.clause ++ moduleText s.gap s.quote s.module tail)
  obtain ⟨c, blanks, hsplit, -, hblanks, rfl⟩ := eq_append_of_wordWithBlanks? hread
  obtain ⟨-, hrest⟩ := List.cons.inj (List.append_cancel_left hsplit)
  have hlead : ∀ c ∈ blanks, InLead c := fun c hc => .inr (hblanks c hc)
  obtain ⟨left, hclause, rfl⟩ := eq_append_of_append_moduleText (hf hlead) hrest
  obtain ⟨word, hword, hlen, hbegins, hchars⟩ := eq_append_afterType (left ++ moduleText s.gap s.quote s.module tail)
  obtain ⟨clause, rfl, hafter⟩ := eq_append_of_append_moduleText (hf hchars) hword
  refine ⟨blanks ++ word, clause, word, by simp [hclause], fun c hc => ?_,
    ⟨List.suffix_append _ _, hbegins⟩, ?_⟩
  · rcases List.mem_append.1 hc with hc | hc
    · exact hlead c hc
    · exact hchars c hc
  · have hplain : ∀ c ∈ clause, endsClause c = false := fun c hc =>
      s.clause_plain c (by simp [hclause, hc])
    have hbefore : s.before tail = (s.indent ++ (importWord ++ s.blank :: blanks)) ++
        (word ++ (clause ++ moduleText s.gap s.quote s.module tail)) := by
      simp [before, hclause]
    have htype : ((s.before tail).drop (s.indent.length + (importWord.length + 1 + blanks.length))).take
        word.length = word := by
      rw [hbefore, List.drop_left' (by simp; omega), List.take_left]
    rw [importDecl_eq, s.takeWhile_before, s.dropWhile_before, hread, Option.bind_some]
    dsimp only
    rw [hafter, clause?_moduleText hplain s.gap_blank s.isQuote_quote s.isModule_module, ← hlen, htype]
    simp only [Option.map_some, drop_moduleText, Option.some_inj, Prod.mk.injEq, true_and]
    rw [s.length_text, hclause]
    simp [importWord]
    omega

theorem InLead.inner {c : Char} (h : InLead c) : Inner c := by
  rcases h with h | h
  · have hall : ∀ c ∈ typeName, Inner c := by
      unfold Inner
      exact List.all_iff_forall_prop.1 (by decide)
    exact hall c h
  · exact inner_of_isBlank h

/-- What is read as a declaration has its parts. -/
theorem exists_shape_of_importDecl {cs : List Char} {d : ImportDecl} {n : Nat}
    (h : importDecl none cs = some (d, n)) : ∃ (s : Shape) (tail : List Char), cs = s.before tail := by
  rw [importDecl_eq] at h
  obtain ⟨⟨k, rest⟩, hword, hclause⟩ := Option.bind_eq_some_iff.1 h
  obtain ⟨c, blanks, hcs, hc, hblanks, -⟩ := eq_append_of_wordWithBlanks? hword
  obtain ⟨⟨clause, quote, name, m⟩, hread, -⟩ := Option.map_eq_some_iff.1 hclause
  obtain ⟨word, hrest, -, -, hchars⟩ := eq_append_afterType rest
  obtain ⟨hquote, hname, hplain, lead, gap, tail, hafter, hlead, hgap, -⟩ :=
    eq_moduleText_of_clause? hread
  have hsplit : cs = cs.takeWhile isSpaceOrTab ++ cs.dropWhile isSpaceOrTab :=
    List.takeWhile_append_dropWhile.symm
  refine ⟨⟨cs.takeWhile isSpaceOrTab, c, blanks ++ (word ++ (clause ++ lead)), gap, quote, name,
    fun c hc => List.mem_takeWhile_imp hc, hc, ?_, hgap, hquote, hname⟩, tail, ?_⟩
  · intro d hd
    simp only [List.mem_append] at hd
    rcases hd with hd | hd | hd | hd
    · exact (inner_of_isBlank (hblanks d hd)).2
    · exact (hchars d hd).inner.2
    · exact hplain d hd
    · exact (inner_of_isBlank (hlead d hd)).2
  · conv_lhs => rw [hsplit, hcs, hrest, hafter]
    simp [Shape.before]

/-! ## What a declaration is made of -/

/-- The declaration with one more item in front of its brace list. -/
def ImportDecl.withHeadItem (d : ImportDecl) (item : List Char) : ImportDecl :=
  match item with
  | [] => d
  | '*' :: _ => { d with allNames := some item }
  | _ => { d with defaultName := some item }

theorem withHead_eq_foldl (d : ImportDecl) (head : List Char) :
    d.withHead head = ((pieces (· == ',') head).map trim).foldl ImportDecl.withHeadItem d := rfl

theorem withHead_eq (d : ImportDecl) (head : List Char) : ∃ defaultName allNames,
    d.withHead head = { d with defaultName, allNames } ∧
      ∀ item ∈ defaultName.toList ++ allNames.toList,
        item ∈ d.defaultName.toList ++ d.allNames.toList ∨
          item ∈ (pieces (· == ',') head).map trim := by
  rw [withHead_eq_foldl]
  generalize (pieces (· == ',') head).map trim = items
  induction items generalizing d with
  | nil => exact ⟨d.defaultName, d.allNames, rfl, fun _ h => .inl h⟩
  | cons item items ih =>
    rw [List.foldl_cons]
    obtain ⟨defaultName, allNames, heq, hitems⟩ := ih (d.withHeadItem item)
    unfold ImportDecl.withHeadItem at heq hitems
    refine ⟨defaultName, allNames, ?_, fun other hother => ?_⟩
    · refine heq.trans ?_
      split <;> rfl
    · rcases hitems other hother with h | h
      · split at h
        · exact .inl h
        · simp only [Option.toList_some, List.mem_append, List.mem_singleton] at h
          rcases h with h | h
          · exact .inl (by simp [h])
          · exact .inr (by simp [h])
        · simp only [Option.toList_some, List.mem_append, List.mem_singleton] at h
          rcases h with h | h
          · exact .inr (by simp [h])
          · exact .inl (by simp [h])
      · exact .inr (by simp [h])

/-- A character that may stand in front of a brace list. -/
def InFront (c : Char) : Prop := endsClause c = false ∧ c ≠ '{'

theorem InLead.inFront {c : Char} (h : InLead c) : InFront c := by
  refine ⟨h.inner.2, ?_⟩
  rintro rfl
  exact absurd h.inner.1 (by decide)

theorem idxOf?_append {head rest : List Char} {c : Char} (h : c ∉ head) :
    (head ++ c :: rest).idxOf? c = some head.length := by
  induction head with
  | nil => simp [List.idxOf?_cons]
  | cons d head ih =>
    have hd : (d == c) = false := beq_eq_false_iff_ne.2 fun heq => h (by simp [heq])
    rw [List.cons_append, List.idxOf?_cons, hd, ih fun hm => h (by simp [hm])]
    rfl

theorem exists_of_idxOf? {cs : List Char} {c : Char} {i : Nat} (h : cs.idxOf? c = some i) :
    ∃ head rest, cs = head ++ c :: rest ∧ c ∉ head ∧ head.length = i := by
  have hc : c ∈ cs := by
    rw [← List.isSome_idxOf?, h]
    rfl
  obtain ⟨head, rest, rfl, hhead⟩ := List.eq_append_cons_of_mem hc
  rw [idxOf?_append hhead] at h
  exact ⟨head, rest, rfl, hhead, Option.some.inj h⟩

theorem bracesOf_append {head : List Char} (h : '{' ∉ head) (inner : List Char) :
    bracesOf (head ++ '{' :: (inner ++ ['}'])) = some (head, '{' :: (inner ++ ['}'])) := by
  have hdrop : ('{' :: (inner ++ ['}'])).reverse.dropWhile (· != '}') =
      ('{' :: (inner ++ ['}'])).reverse := by simp
  rw [bracesOf, idxOf?_append h]
  simp only [Option.map_some, List.drop_left, List.take_left, hdrop, List.reverse_reverse]
  simp

theorem eq_append_of_bracesOf {clause head braces : List Char}
    (h : bracesOf clause = some (head, braces)) : '{' ∉ head ∧ ∃ rest, clause = head ++ rest := by
  obtain ⟨i, hi, heq⟩ := Option.map_eq_some_iff.1 h
  obtain ⟨front, rest, rfl, hfront, rfl⟩ := exists_of_idxOf? hi
  obtain ⟨rfl, -⟩ := Prod.mk.inj heq
  rw [List.take_left]
  exact ⟨hfront, '{' :: rest, rfl⟩

theorem mem_of_bracesOf {clause head braces : List Char} (h : bracesOf clause = some (head, braces))
    {c : Char} (hc : c ∈ braces) : c ∈ clause := by
  obtain ⟨i, -, heq⟩ := Option.map_eq_some_iff.1 h
  obtain ⟨-, rfl⟩ := Prod.mk.inj heq
  split at hc
  · exact List.mem_of_mem_drop hc
  · exact List.mem_of_mem_drop
      (List.mem_reverse.1 ((List.dropWhile_sublist _).subset (List.mem_reverse.1 hc)))

theorem bracesOf_eq_none {clause : List Char} (h : '{' ∉ clause) : bracesOf clause = none := by
  rw [bracesOf, List.idxOf?_eq_none_iff.2 h]
  rfl

/-- A declaration whose parts, written in one line after another, are read as they stand. -/
structure ImportDecl.Renderable (d : ImportDecl) : Prop where
  indent : ∀ c ∈ d.indent, isSpaceOrTab c = true
  typeWord : ∀ c ∈ d.typeWord, InFront c
  items : ∀ item ∈ d.defaultName.toList ++ d.allNames.toList, ∀ c ∈ item, InFront c
  quote : isQuote d.quote = true
  module : IsModule d.module

/-- What a clause adds to a declaration. -/
theorem withClause_eq (bare : ImportDecl) (hdefault : bare.defaultName = none)
    (hall : bare.allNames = none) (hnamed : bare.named = none) (clause : List Char) :
    ∃ defaultName allNames, bare.withClause clause = { bare with
        defaultName, allNames
        named := (bracesOf clause).map fun b => specifiers b.2
        braces := ((bracesOf clause).map Prod.snd).getD bare.braces } ∧
      ∀ item ∈ defaultName.toList ++ allNames.toList,
        ∃ piece, item = trim piece ∧ piece <:+: clause ∧ '{' ∉ piece ∧ ',' ∉ piece := by
  have hpieces {head item : List Char} (hhead : '{' ∉ head)
      (hitem : item ∈ (pieces (· == ',') head).map trim) :
      ∃ piece, item = trim piece ∧ piece <:+: head ∧ '{' ∉ piece ∧ ',' ∉ piece := by
    obtain ⟨piece, hpiece, rfl⟩ := List.mem_map.1 hitem
    have hpart := (cut_pieces (· == ',') head).isInfix hpiece
    refine ⟨piece, rfl, hpart, fun hm => hhead (hpart.subset hm), fun hm => ?_⟩
    exact ne_of_beq_false (sep_eq_false_of_mem_pieces hpiece hm) rfl
  unfold ImportDecl.withClause
  cases hbraces : bracesOf clause with
  | none =>
    have hnone : '{' ∉ clause := by
      rw [← List.idxOf?_eq_none_iff]
      exact Option.map_eq_none_iff.1 hbraces
    obtain ⟨defaultName, allNames, heq, hitems⟩ := withHead_eq bare clause
    refine ⟨defaultName, allNames, ?_, fun item hitem => ?_⟩
    · rw [Option.map_none, ← hnamed]
      exact heq
    · rcases hitems item hitem with h | h
      · simp [hdefault, hall] at h
      · exact hpieces hnone h
  | some found =>
    obtain ⟨head, braces⟩ := found
    obtain ⟨hhead, rest, rfl⟩ := eq_append_of_bracesOf hbraces
    obtain ⟨defaultName, allNames, heq, hitems⟩ :=
      withHead_eq { bare with named := some (specifiers braces), braces } head
    refine ⟨defaultName, allNames, heq, fun item hitem => ?_⟩
    rcases hitems item hitem with h | h
    · simp [hdefault, hall] at h
    · obtain ⟨piece, hitem, hpart, hbrace⟩ := hpieces hhead h
      exact ⟨piece, hitem, hpart.trans (List.prefix_append _ _).isInfix, hbrace⟩

/-- What is read can be rendered, and what it takes of the text is told by its parts. -/
theorem Shape.renderable {s : Shape} {tail : List Char} {d : ImportDecl} {n : Nat}
    (h : importDecl none (s.before tail) = some (d, n)) :
    d.Renderable ∧ d.indent = s.indent ∧ d.module = s.module ∧ d.semicolon = hasSemicolon tail ∧
      n = s.text.length + semicolonLength tail := by
  obtain ⟨lead, clause, typeWord, hclause, hlead, htype, hread⟩ := s.importDecl_before tail
  obtain ⟨defaultName, allNames, heq, hitems⟩ := withClause_eq
    ⟨s.indent, typeWord, none, none, none, [], s.module, s.quote, hasSemicolon tail⟩ rfl rfl rfl
    (trim (trimRight clause))
  rw [hread, heq] at h
  cases h
  refine ⟨⟨s.indent_space, fun c hc => (hlead c (htype.1.subset hc)).inFront,
    fun item hitem c hc => ?_, s.isQuote_quote, s.isModule_module⟩, rfl, rfl, rfl, rfl⟩
  obtain ⟨piece, rfl, hpart, hbrace, -⟩ := hitems item hitem
  have hc' : c ∈ piece := mem_of_mem_trim hc
  have hmem : c ∈ clause := mem_of_mem_trimRight (mem_of_mem_trim (hpart.subset hc'))
  exact ⟨s.clause_plain c (by rw [hclause]; simp [hmem]), fun heq => hbrace (heq ▸ hc')⟩

/-- An item of a brace list has been read from a piece of it. -/
theorem exists_ofText?_of_mem_specifiers {braces : List Char} {item : Specifier}
    (h : item ∈ specifiers braces) : ∃ text, Specifier.ofText? text = some item ∧
      ∀ c ∈ text, c ≠ ',' ∧ c ∈ braces := by
  obtain ⟨text, htext, hread⟩ := List.mem_filterMap.1 h
  refine ⟨text, hread, fun c hc => ⟨?_, ?_⟩⟩
  · exact ne_of_beq_false (sep_eq_false_of_mem_pieces htext hc)
  · have hinner := (List.dropWhile_sublist isBrace).subset
      (List.mem_reverse.1 (mem_of_mem_pieces htext hc))
    exact (List.dropWhile_sublist isBrace).subset (List.mem_reverse.1 hinner)

/-- The items of a declaration have been read one by one. -/
theorem exists_ofText?_of_mem {cs : List Char} {d : ImportDecl} {n : Nat}
    (h : importDecl none cs = some (d, n)) {item : Specifier} (hitem : item ∈ d.named.getD []) :
    ∃ text, Specifier.ofText? text = some item ∧ ∀ c ∈ text, c ≠ ',' ∧ endsClause c = false := by
  obtain ⟨s, tail, rfl⟩ := exists_shape_of_importDecl h
  obtain ⟨lead, clause, typeWord, hclause, -, -, hread⟩ := s.importDecl_before tail
  obtain ⟨defaultName, allNames, heq, -⟩ := withClause_eq
    ⟨s.indent, typeWord, none, none, none, [], s.module, s.quote, hasSemicolon tail⟩ rfl rfl rfl
    (trim (trimRight clause))
  rw [hread, heq] at h
  cases h
  cases hbraces : bracesOf (trim (trimRight clause)) with
  | none => simp [hbraces] at hitem
  | some found =>
    simp only [hbraces, Option.map_some, Option.getD_some] at hitem
    obtain ⟨text, htext, hchars⟩ := exists_ofText?_of_mem_specifiers hitem
    refine ⟨text, htext, fun c hc => ⟨(hchars c hc).1, s.clause_plain c ?_⟩⟩
    have hmem := mem_of_bracesOf hbraces (hchars c hc).2
    rw [hclause]
    exact List.mem_append_right _ (mem_of_mem_trimRight (mem_of_mem_trim hmem))

theorem semicolonLength_le (tail : List Char) : semicolonLength tail ≤ tail.length := by
  unfold semicolonLength
  split
  · next h =>
    obtain ⟨rest, hrest⟩ := List.head?_eq_some_iff.1 (beq_iff_eq.1 h)
    have hlen := congrArg List.length hrest
    simp only [List.length_drop, List.length_cons] at hlen
    omega
  · omega

/-- A declaration takes no more than there is. -/
theorem length_le_of_importDecl {cs : List Char} {d : ImportDecl} {n : Nat}
    (h : importDecl none cs = some (d, n)) : n ≤ cs.length := by
  obtain ⟨s, tail, rfl⟩ := exists_shape_of_importDecl h
  have hlen := (Shape.renderable h).2.2.2.2
  have htail := semicolonLength_le tail
  rw [← s.text_append, List.length_append]
  omega

/-- What has been read can be rendered, also without its semicolon when it had none. -/
theorem renderable_of_importDecl {written rest : List Char} {d : ImportDecl}
    (h : importDecl none (written ++ rest) = some (d, written.length)) :
    d.Renderable ∧ (d.semicolon = false → hasSemicolon rest = false) := by
  obtain ⟨s, tail, heq⟩ := exists_shape_of_importDecl h
  rw [heq] at h
  obtain ⟨hd, -, -, hsemicolon, hlen⟩ := Shape.renderable h
  refine ⟨hd, fun hnone => ?_⟩
  rw [hsemicolon] at hnone
  rw [semicolonLength, hnone, if_neg (by decide), Nat.add_zero] at hlen
  rw [← s.text_append] at heq
  obtain ⟨-, hrest⟩ := List.append_inj heq hlen
  rw [hrest, hnone]

/-! ## What stands behind the line -/

theorem hasSemicolon_append (cs : List Char) {rest : List Char} (hrest : AtLineEnd rest) :
    hasSemicolon (cs ++ rest) = hasSemicolon cs ∧ semicolonLength (cs ++ rest) = semicolonLength cs := by
  have hspace : ∀ c ∈ rest.head?, isSpaceOrTab c = false := by
    intro c hc
    rw [hrest c hc]
    decide
  have hrun : (cs ++ rest).takeWhile isSpaceOrTab = cs.takeWhile isSpaceOrTab :=
    takeWhile_append_of_head cs hspace
  have hsame : hasSemicolon (cs ++ rest) = hasSemicolon cs := by
    unfold hasSemicolon
    rw [hrun, List.drop_append_of_le_length (List.takeWhile_sublist _).length_le]
    cases cs.drop (cs.takeWhile isSpaceOrTab).length with
    | nil =>
      cases rest with
      | nil => rfl
      | cons c rest =>
        obtain rfl : c = '\n' := hrest c rfl
        rfl
    | cons c tail => rfl
  exact ⟨hsame, by rw [semicolonLength, semicolonLength, hsame, hrun]⟩

theorem Bounded.wordWithBlanks?_append {cs word : List Char} (h : Bounded cs)
    (hword : ∀ c ∈ word, endsClause c = false) (rest : List Char) :
    wordWithBlanks? word (cs ++ rest) =
      (wordWithBlanks? word cs).map fun (n, behind) => (n, behind ++ rest) := by
  unfold wordWithBlanks?
  rw [h.after?_append hword]
  cases hafter : after? word cs with
  | none => rfl
  | some behind =>
    have hbounded : Bounded behind := by
      rw [after?_eq_some_iff.1 hafter] at h
      exact h.of_append hword
    obtain ⟨c, hc, hends⟩ := hbounded
    have hrun : (behind ++ rest).takeWhile isBlank = behind.takeWhile isBlank :=
      takeWhile_append_of_mem ⟨c, hc, isBlank_eq_false_of_endsClause hends⟩ rest
    simp only [Option.map_some, Option.bind_some]
    rw [hrun, List.drop_append_of_le_length (List.takeWhile_sublist _).length_le]
    split <;> rfl

theorem endsClause_typeName : ∀ c ∈ typeName, endsClause c = false :=
  List.all_iff_forall_prop.1 (by decide)

theorem endsClause_importWord : ∀ c ∈ importWord, endsClause c = false :=
  List.all_iff_forall_prop.1 (by decide)

theorem Bounded.afterType_append {cs : List Char} (h : Bounded cs) (rest : List Char) :
    afterType (cs ++ rest) = ((afterType cs).1, (afterType cs).2 ++ rest) := by
  unfold afterType
  rw [h.wordWithBlanks?_append endsClause_typeName]
  cases wordWithBlanks? typeName cs <;> rfl

theorem Bounded.of_afterType {cs : List Char} (h : Bounded cs) : Bounded (afterType cs).2 := by
  obtain ⟨word, hcs, -, -, hchars⟩ := eq_append_afterType cs
  rw [hcs] at h
  exact h.of_append fun c hc => (hchars c hc).inner.2

theorem Bounded.behind_word {cs word behind : List Char} {n : Nat} (h : Bounded cs)
    (hplain : ∀ c ∈ word, endsClause c = false) (hword : wordWithBlanks? word cs = some (n, behind)) :
    Bounded behind := by
  obtain ⟨d, gap, hdrop, hd, hgap, -⟩ := eq_append_of_wordWithBlanks? hword
  have hsplit : word ++ d :: (gap ++ behind) = (word ++ d :: gap) ++ behind := by simp
  rw [hdrop, hsplit] at h
  refine h.of_append fun c hc => ?_
  rcases List.mem_append.1 hc with hc | hc
  · exact hplain c hc
  · rcases List.mem_cons.1 hc with rfl | hc
    · exact (inner_of_isBlank hd).2
    · exact (inner_of_isBlank (hgap c hc)).2

/-- A line on which a clause is bound to end is read alike whatever stands behind it. -/
theorem Bounded.importDecl_append {cs rest : List Char} (h : Bounded cs) (hrest : AtLineEnd rest) :
    importDecl none (cs ++ rest) = importDecl none cs := by
  obtain ⟨c, hc, hends⟩ := id h
  have hspace : ∃ c ∈ cs, isSpaceOrTab c = false := by
    refine ⟨c, hc, ?_⟩
    by_contra hs
    have hblank := isBlank_eq_false_of_endsClause hends
    rw [isBlank_of_isSpaceOrTab (by simpa using hs)] at hblank
    cases hblank
  have hcs : cs = cs.takeWhile isSpaceOrTab ++ cs.dropWhile isSpaceOrTab :=
    List.takeWhile_append_dropWhile.symm
  have hbounded : Bounded (cs.dropWhile isSpaceOrTab) := by
    rw [hcs] at h
    refine h.of_append fun c hc => ?_
    exact (inner_of_isBlank (isBlank_of_isSpaceOrTab (List.mem_takeWhile_imp hc))).2
  rw [importDecl_eq, importDecl_eq, takeWhile_append_of_mem hspace, dropWhile_append_of_mem hspace,
    hbounded.wordWithBlanks?_append endsClause_importWord]
  cases hword : wordWithBlanks? importWord (cs.dropWhile isSpaceOrTab) with
  | none => rfl
  | some found =>
    obtain ⟨n, behind⟩ := found
    obtain ⟨d, gap, hdrop, -, -, hn⟩ := eq_append_of_wordWithBlanks? hword
    obtain ⟨word, hbehind, hlen, -⟩ := eq_append_afterType behind
    have hin : Bounded behind := hbounded.behind_word endsClause_importWord hword
    simp only [Option.map_some, Option.bind_some, hin.afterType_append]
    rw [hin.of_afterType.clause?_append hrest]
    cases hclause : clause? (afterType behind).2 with
    | none => rfl
    | some read =>
      obtain ⟨clause, quote, name, m⟩ := read
      obtain ⟨-, -, -, -, -, tail, -, -, -, hm⟩ := eq_moduleText_of_clause? hclause
      have hdropLength := congrArg List.length hdrop
      have hcsLength := congrArg List.length hcs
      have hbehindLength := congrArg List.length hbehind
      simp only [List.length_append, List.length_cons] at hdropLength hcsLength hbehindLength
      -- the word `type` is cut from the text by offsets, which end within the line
      have hword : ((cs ++ rest).drop ((cs.takeWhile isSpaceOrTab).length + n)).take (afterType behind).1 =
          (cs.drop ((cs.takeWhile isSpaceOrTab).length + n)).take (afterType behind).1 := by
        rw [List.drop_append_of_le_length (by omega), List.take_append_of_le_length (by
          rw [List.length_drop]
          omega)]
      simp only [Option.map_some]
      rw [hword, List.drop_append_of_le_length (by omega), (hasSemicolon_append _ hrest).1,
        (hasSemicolon_append _ hrest).2]

end Codemod.Source
