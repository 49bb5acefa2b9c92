import Codemod.Proofs.Source.Declaration

/-! Reading back a declaration that has been rendered: it takes the whole of what was written, imports
from the module it was written for and names the items it was given. -/
namespace Codemod.Source
open Text

variable {d : ImportDecl} {items : List Specifier}

/-- The items of a clause as they are rendered. -/
def ImportDecl.clauseItems (d : ImportDecl) (items : List Specifier) : List (List Char) :=
  d.defaultName.toList ++ d.allNames.toList ++
    if items.isEmpty then [] else [renderBraces items d.braces d.indent]

theorem inFront_separator : ∀ c ∈ ", ".toList, InFront c := by
  unfold InFront
  exact List.all_iff_forall_prop.1 (by decide)

theorem ImportDecl.Renderable.inFront_clauseItems_nil (hd : d.Renderable) :
    ∀ c ∈ joinWith ", ".toList (d.clauseItems []), InFront c := by
  intro c hc
  rcases mem_of_mem_joinWith hc with hc | ⟨item, hitem, hc⟩
  · exact inFront_separator c hc
  · exact hd.items item (by simpa [clauseItems] using hitem) c hc

/-- In front of the brace list nothing is rendered that could be one. -/
theorem ImportDecl.Renderable.clauseItems_eq (hd : d.Renderable) (hitems : ∀ s ∈ items, s.Legible)
    (hne : items ≠ []) : ∃ front inner, joinWith ", ".toList (d.clauseItems items) =
        front ++ '{' :: (inner ++ ['}']) ∧ (∀ c ∈ front, InFront c) ∧ (∀ c ∈ inner, Inner c) ∧
        specifiers ('{' :: (inner ++ ['}'])) = items := by
  have hempty : items.isEmpty = false := by simpa using hne
  have hlist : ListsItems items (renderBraces items d.braces d.indent) :=
    listsItems_renderBraces items d.braces fun c hc => isBlank_of_isSpaceOrTab (hd.indent c hc)
  obtain ⟨inner, htext, hinner, hchars, hread⟩ := hlist.exists_inner hitems hne
  obtain ⟨front, hjoin, hfront⟩ := joinWith_concat ", ".toList (renderBraces items d.braces d.indent)
    (d.defaultName.toList ++ d.allNames.toList)
  refine ⟨front, inner, ?_, fun c hc => ?_, hchars, ?_⟩
  · rw [clauseItems, hempty, ← htext]
    exact hjoin
  · rcases hfront c hc with hc | ⟨item, hitem, hc⟩
    · exact inFront_separator c hc
    · exact hd.items item hitem c hc
  · rw [specifiers_braces hinner hchars, hread]

/-- The text in front of the `from` holds nothing that ends a clause. -/
def ImportDecl.PlainClause (d : ImportDecl) (items : List Specifier) : Prop :=
  ∀ c ∈ d.typeWord ++ (joinWith ", ".toList (d.clauseItems items) ++ [' ']), endsClause c = false

theorem endsClause_renderBraces (hitems : ∀ s ∈ items, s.Listable) (braces : List Char)
    {indent : List Char} (hindent : ∀ c ∈ indent, isSpaceOrTab c = true) :
    ∀ c ∈ renderBraces items braces indent, endsClause c = false := by
  have hblank {c : Char} (hc : isBlank c = true) : endsClause c = false := (inner_of_isBlank hc).2
  obtain ⟨left, gap, right, heq, hleft, hgap, tail, hright, htail⟩ := listsItems_renderBraces items
    braces fun c hc => isBlank_of_isSpaceOrTab (hindent c hc)
  intro c hc
  simp only [heq, List.mem_cons, List.mem_append, List.not_mem_nil, or_false] at hc
  rcases hc with rfl | (hc | hc | hc) | rfl
  · decide
  · exact hblank (hleft c hc)
  · rcases mem_of_mem_joinWith hc with hc | ⟨text, htext, hc⟩
    · rcases List.mem_cons.1 hc with rfl | hc
      · decide
      · exact hblank (hgap c hc)
    · obtain ⟨s, hs, rfl⟩ := List.mem_map.1 htext
      exact ((hitems s hs).render_chars c hc).1
  · rcases hright with rfl | rfl
    · exact hblank (htail c hc)
    · rcases List.mem_cons.1 hc with rfl | hc
      · decide
      · exact hblank (htail c hc)
  · decide

theorem ImportDecl.Renderable.plainClause (hd : d.Renderable) (hitems : ∀ s ∈ items, s.Listable) :
    d.PlainClause items := by
  intro c hc
  simp only [List.mem_append, List.mem_singleton] at hc
  rcases hc with hc | hc | rfl
  · exact (hd.typeWord c hc).1
  · rcases mem_of_mem_joinWith hc with hc | ⟨item, hitem, hc⟩
    · exact (inFront_separator c hc).1
    · rcases List.mem_append.1 hitem with hitem | hitem
      · exact (hd.items item hitem c hc).1
      · split at hitem
        · cases hitem
        · rw [List.mem_singleton.1 hitem] at hc
          exact endsClause_renderBraces hitems d.braces hd.indent c hc
  · decide

/-- The parts of a rendered declaration. -/
def ImportDecl.Renderable.shape (hd : d.Renderable) (hplain : d.PlainClause items) : Shape where
  indent := d.indent
  blank := ' '
  clause := d.typeWord ++ (joinWith ", ".toList (d.clauseItems items) ++ [' '])
  gap := [' ']
  quote := d.quote
  module := d.module
  indent_space := hd.indent
  isBlank_blank := by decide
  clause_plain := hplain
  gap_blank := List.forall_mem_singleton.2 (by decide)
  isQuote_quote := hd.quote
  isModule_module := hd.module

theorem ImportDecl.Renderable.shape_before (hd : d.Renderable) (hplain : d.PlainClause items)
    (tail : List Char) : (hd.shape hplain).before ((if d.semicolon then [';'] else []) ++ tail) =
      d.render items ++ tail := by
  have hitems' : d.defaultName.toList ++ d.allNames.toList ++
      (if items.isEmpty then [] else [renderBraces items d.braces d.indent]) = d.clauseItems items := rfl
  rw [ImportDecl.render, hitems']
  simp [Shape.before, shape, moduleText, importWord, fromWord]

/-- A semicolon that has been rendered is read, and none where none was read before. -/
theorem semicolonLength_render {tail : List Char} (htail : d.semicolon = false → hasSemicolon tail = false) :
    hasSemicolon ((if d.semicolon then [';'] else []) ++ tail) = d.semicolon ∧
      semicolonLength ((if d.semicolon then [';'] else []) ++ tail) = if d.semicolon then 1 else 0 := by
  cases hvalue : d.semicolon with
  | false => simp [semicolonLength, htail hvalue]
  | true => simp [semicolonLength, hasSemicolon, isSpaceOrTab]

theorem ImportDecl.Renderable.length_render (hd : d.Renderable) (hplain : d.PlainClause items) :
    (d.render items).length = (hd.shape hplain).text.length + if d.semicolon then 1 else 0 := by
  have happend := (hd.shape hplain).text_append (if d.semicolon then [';'] else [])
  have hrender := hd.shape_before hplain []
  rw [List.append_nil, List.append_nil, ← happend] at hrender
  rw [← hrender, List.length_append]
  cases d.semicolon <;> rfl

/-- A clause is trimmed in front of its brace list and behind it. -/
theorem trim_trimRight_braces (left inner : List Char) :
    trim (trimRight (left ++ '{' :: (inner ++ ['}'] ++ [' ']))) =
      trimLeft left ++ '{' :: (inner ++ ['}']) := by
  have hlast (cs : List Char) : trimRight (cs ++ '{' :: (inner ++ ['}'])) =
      cs ++ '{' :: (inner ++ ['}']) := by
    refine trimRight_eq_self fun c hc => ?_
    rw [List.getLast?_append_cons, ← List.cons_append, List.getLast?_concat] at hc
    obtain rfl : '}' = c := by simpa using hc
    decide
  have hspace : left ++ '{' :: (inner ++ ['}'] ++ [' ']) =
      (left ++ '{' :: (inner ++ ['}'])) ++ [' '] := by simp
  rw [hspace, trimRight_append_blanks (List.forall_mem_singleton.2 (by decide)), hlast, trim,
    trimLeft_append_cons left (by decide), hlast]

/-- The items are read from a rendered clause, whatever of it is taken for the word in front. -/
theorem ImportDecl.Renderable.specifiers_clause (hd : d.Renderable)
    (hitems : ∀ s ∈ items, s.Legible) {lead clause : List Char} (hlead : ∀ c ∈ lead, c ≠ '{')
    (hclause : d.typeWord ++ (joinWith ", ".toList (d.clauseItems items) ++ [' ']) = lead ++ clause) :
    ((bracesOf (trim (trimRight clause))).map fun b => specifiers b.2).getD [] = items := by
  by_cases hne : items = []
  · subst hne
    have hnone : '{' ∉ trim (trimRight clause) := by
      intro hm
      have hmem : '{' ∈ lead ++ clause :=
        List.mem_append_right _ (mem_of_mem_trimRight (mem_of_mem_trim hm))
      rw [← hclause] at hmem
      simp only [List.mem_append, List.mem_singleton] at hmem
      rcases hmem with hm | hm | hm
      · exact (hd.typeWord _ hm).2 rfl
      · exact (hd.inFront_clauseItems_nil _ hm).2 rfl
      · cases hm
    rw [bracesOf_eq_none hnone]
    rfl
  · obtain ⟨front, inner, hjoin, hfront, -, hspecifiers⟩ := hd.clauseItems_eq hitems hne
    have hsplit : (d.typeWord ++ front) ++ '{' :: (inner ++ ['}'] ++ [' ']) = lead ++ clause := by
      rw [← hclause, hjoin]
      simp
    have hbrace : '{' ∉ lead := fun hm => hlead _ hm rfl
    obtain ⟨left, hleft, rfl⟩ := eq_append_of_append_cons hbrace hsplit
    rw [trim_trimRight_braces, bracesOf_append, Option.map_some, Option.getD_some, hspecifiers]
    intro hm
    have hmem : '{' ∈ lead ++ left := List.mem_append_right _ ((List.dropWhile_sublist _).subset hm)
    rw [← hleft] at hmem
    rcases List.mem_append.1 hmem with hm | hm
    · exact (hd.typeWord _ hm).2 rfl
    · exact (hfront _ hm).2 rfl

/-- A rendered declaration is read back as a whole, with its module and its items. -/
theorem ImportDecl.Renderable.importDecl_render (hd : d.Renderable)
    (hitems : ∀ s ∈ items, s.Legible) {tail : List Char}
    (htail : d.semicolon = false → hasSemicolon tail = false) :
    ∃ d', importDecl none (d.render items ++ tail) = some (d', (d.render items).length) ∧
      d'.module = d.module ∧ d'.named.getD [] = items := by
  have hplain : d.PlainClause items := hd.plainClause fun s hs => (hitems s hs).listable
  obtain ⟨lead, clause, typeWord, hclause, hlead, -, hread⟩ :=
    (hd.shape hplain).importDecl_before ((if d.semicolon then [';'] else []) ++ tail)
  obtain ⟨defaultName, allNames, heq, -⟩ := withClause_eq ⟨(hd.shape hplain).indent, typeWord,
    none, none, none, [], (hd.shape hplain).module, (hd.shape hplain).quote,
    hasSemicolon ((if d.semicolon then [';'] else []) ++ tail)⟩ rfl rfl rfl (trim (trimRight clause))
  rw [hd.shape_before hplain, (semicolonLength_render htail).2, ← hd.length_render hplain, heq] at hread
  exact ⟨_, hread, rfl, hd.specifiers_clause hitems (fun c hc => (hlead c hc).inFront.2) hclause⟩

end Codemod.Source
