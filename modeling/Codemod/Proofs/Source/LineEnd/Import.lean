import Codemod.Proofs.Source.ImportChange
import Codemod.Proofs.Source.LineEnd.Call

/-! Line ends and the edits of imports. What is read of a declaration can be rendered again within a line;
a brace list over several lines is laid out with line feeds alone, and so is a line that is added. -/
namespace Codemod.Source
open Text

/-! ## Rendering -/

/-- A declaration whose parts can stand anywhere on a line. -/
structure ImportDecl.KeepsCrlf (d : ImportDecl) : Prop where
  indent : '\n' ∉ d.indent
  typeWord : Crlf d.typeWord
  items : ∀ item ∈ d.defaultName.toList ++ d.allNames.toList, Crlf item
  quote : d.quote ≠ '\n'
  module : '\n' ∉ d.module

/-- Whether the brace list of a declaration goes over several lines. -/
def ImportDecl.onLines (d : ImportDecl) : Bool := (d.braces.drop 1).dropLast.contains '\n'

variable {d : ImportDecl} {items : List Specifier}

theorem notMem_renderBraces (hitems : ∀ s ∈ items, '\n' ∉ s.render) {braces : List Char}
    (hbraces : (braces.drop 1).dropLast.contains '\n' = false) (indent : List Char) :
    '\n' ∉ renderBraces items braces indent := by
  unfold renderBraces
  dsimp only
  rw [if_neg (by simpa using hbraces)]
  have hjoin : '\n' ∉ joinWith ", ".toList (items.map Specifier.render) := by
    intro hm
    rcases mem_of_mem_joinWith hm with hm | ⟨item, hitem, hm⟩
    · exact absurd hm (by decide)
    · obtain ⟨s, hs, rfl⟩ := List.mem_map.1 hitem
      exact hitems s hs hm
  have hpad (p : Bool) : '\n' ∉ if p then [' '] else ([] : List Char) := by cases p <;> decide
  simp only [List.cons_append, List.append_assoc, List.mem_cons, List.mem_append, not_or]
  exact ⟨by decide, hpad _, hjoin, hpad _, by decide⟩

/-- Rendering within a line keeps the line ends. -/
theorem ImportDecl.KeepsCrlf.crlf_render (hd : d.KeepsCrlf) (hitems : ∀ s ∈ items, '\n' ∉ s.render)
    (hlines : items.isEmpty = true ∨ d.onLines = false) : Crlf (d.render items) := by
  have hbraces : ∀ cs ∈ (if items.isEmpty then [] else [renderBraces items d.braces d.indent]),
      Crlf cs := by
    intro cs hcs
    split at hcs
    · cases hcs
    · next hne =>
      rw [List.mem_singleton.1 hcs]
      exact crlf_of_notMem (notMem_renderBraces hitems (hlines.resolve_left hne) _)
  have hclause : Crlf (joinWith ", ".toList (d.defaultName.toList ++ d.allNames.toList ++
      if items.isEmpty then [] else [renderBraces items d.braces d.indent])) := by
    refine crlf_joinWith (by decide) fun cs hcs => ?_
    rcases List.mem_append.1 hcs with hcs | hcs
    · exact hd.items cs hcs
    · exact hbraces cs hcs
  have hsemicolon : Crlf (if d.semicolon then [';'] else []) := by cases d.semicolon <;> decide
  unfold render
  exact ((((((crlf_of_notMem hd.indent).append (by decide)).append hd.typeWord).append hclause).append
    (by decide)).append ((crlf_of_notMem hd.module).cons hd.quote)).append (hsemicolon.cons hd.quote)

/-- A brace list over several lines begins with a line feed behind its brace. -/
theorem ImportDecl.not_crlf_render (hne : items.isEmpty = false) (hlines : d.onLines = true) :
    ∃ front rest, d.render items = front ++ '{' :: '\n' :: rest := by
  obtain ⟨front, hjoin, -⟩ := joinWith_concat ", ".toList (renderBraces items d.braces d.indent)
    (d.defaultName.toList ++ d.allNames.toList)
  have hlist : ∃ rest, renderBraces items d.braces d.indent = '{' :: '\n' :: rest := by
    unfold renderBraces
    dsimp only
    rw [if_pos (by simpa [onLines] using hlines)]
    exact ⟨_, rfl⟩
  obtain ⟨rest, hrest⟩ := hlist
  unfold render
  dsimp only
  rw [hne, if_neg (by decide), hjoin, hrest]
  refine ⟨d.indent ++ "import ".toList ++ d.typeWord ++ front, rest ++ (" from ".toList ++
    d.quote :: (d.module ++ d.quote :: if d.semicolon then [';'] else [])), ?_⟩
  simp

/-! ## Reading -/

theorem notMem_render {s : Specifier} (h : '\n' ∉ s.imported ++ s.bound) : '\n' ∉ s.render := by
  intro hm
  simp only [Specifier.render, List.mem_append] at h hm
  rcases hm with (hm | hm) | hm
  · split at hm <;> exact absurd hm (by decide)
  · exact h (.inl hm)
  · split at hm
    · cases hm
    · rcases List.mem_append.1 hm with hm | hm
      · exact absurd hm (by decide)
      · exact h (.inr hm)

/-- What is read of a declaration can stand anywhere on a line. -/
theorem keepsCrlf_of_importDecl {cs : List Char} {n : Nat} (hcs : Crlf cs)
    (h : importDecl none cs = some (d, n)) :
    d.KeepsCrlf ∧ ∀ s ∈ d.named.getD [], '\n' ∉ s.imported ++ s.bound := by
  refine ⟨?_, fun s hs hm => ?_⟩
  · obtain ⟨s, tail, rfl⟩ := exists_shape_of_importDecl h
    obtain ⟨lead, clause, typeWord, hclause, -, ⟨hsuffix, hbegins⟩, hread⟩ := s.importDecl_before tail
    obtain ⟨defaultName, allNames, heq, hitems⟩ := withClause_eq
      ⟨s.indent, typeWord, none, none, none, [], s.module, s.quote, hasSemicolon tail⟩ rfl rfl rfl
      (trim (trimRight clause))
    rw [hread, heq] at h
    cases h
    have hwhole : s.clause <:+: s.before tail :=
      ⟨s.indent ++ (importWord ++ [s.blank]), moduleText s.gap s.quote s.module tail, by
        simp [Shape.before]⟩
    have hlead : lead <:+: s.before tail :=
      (hclause ▸ (List.prefix_append lead clause).isInfix).trans hwhole
    have hbehind : clause <:+: s.before tail :=
      (hclause ▸ (List.suffix_append lead clause).isInfix).trans hwhole
    refine ⟨fun hm => absurd (s.indent_space _ hm) (by decide), ?_, fun item hitem => ?_, ?_,
      fun hm => (s.isModule_module.chars _ hm).2 rfl⟩
    · refine hcs.of_infix (hsuffix.isInfix.trans hlead) fun hhead => ?_
      rcases hbegins with rfl | ⟨rest, rfl⟩
      · cases hhead
      · cases hhead
    · obtain ⟨piece, rfl, hpart, -⟩ := hitems item hitem
      have hinner := hpart.trans ((trim_isInfix _).trans (trimRight_isPrefix clause).isInfix)
      exact hcs.trim (hinner.trans hbehind)
    · intro (hquote : s.quote = '\n')
      have hisQuote := s.isQuote_quote
      rw [hquote] at hisQuote
      exact absurd hisQuote (by decide)
  · obtain ⟨item, hitem, -⟩ := exists_ofText?_of_mem h hs
    rcases Specifier.mem_of_ofText? hitem hm with heq | ⟨-, hblank⟩
    · cases heq
    · exact absurd hblank (by decide)

variable {text : List Char} {f : Found ImportDecl}

theorem keepsCrlf_of_mem_imports (h : Crlf text) (hf : f ∈ imports text) :
    f.value.KeepsCrlf ∧ ∀ s ∈ f.value.named.getD [], '\n' ∉ s.imported ++ s.bound := by
  obtain ⟨p⟩ := nonempty_place hf
  refine keepsCrlf_of_importDecl ?_ p.read
  rw [p.text_eq] at h
  refine h.of_append_right fun hhead => ?_
  obtain ⟨rest, hrest⟩ := List.head?_eq_some_iff.1 hhead
  have hread := p.read
  rw [hrest, importDecl_line_feed] at hread
  cases hread

/-! ## Changes -/

/-- Whether a change writes a line feed by itself. -/
def ImportChange.addsFeed : ImportChange → Bool
  | written _ d items => !items.isEmpty && d.onLines
  | dropped _ => false
  | kept _ => false
  | added _ _ _ => true

theorem lineEnd_next_ne (h : Crlf text) {offset : Nat} (hoffset : offset ≤ text.length) :
    text[lineEnd text offset]? ≠ some '\n' := by
  rcases lineEnd_cases hoffset with hend | ⟨front, rest, htext, hend⟩
  · rw [hend, List.getElem?_eq_none (Nat.le_refl _)]
    exact nofun
  · intro hnext
    have hfeed : text[front.length]? = some '\n' := by
      rw [htext, List.getElem?_append_right (Nat.le_refl _), Nat.sub_self, List.getElem?_cons_zero]
    rw [hend] at hnext
    rw [h.getElem? hnext] at hfeed
    exact absurd (Option.some.inj hfeed) (by decide)

/-- Behind a declaration a text is read on at the same kind of place. -/
theorem keepsCrlf_written (h : Crlf text) (hf : f ∈ imports text) {new : List Char} (hnew : Crlf new) :
    Edit.KeepsCrlf ⟨f.start, f.stop, new⟩ text := by
  obtain ⟨p⟩ := nonempty_place hf
  obtain ⟨init, c, hwritten, hc⟩ := getLast?_of_importDecl p.read
  have hlast : text[f.stop - 1]? = some c := by
    have hlen : (p.front ++ init).length = f.stop - 1 := by
      rw [p.stop_eq, hwritten]
      simp
    have hsplit : text = (p.front ++ init) ++ c :: p.rest := by
      conv_lhs => rw [p.text_eq, hwritten]
      simp
    rw [hsplit, ← hlen, List.getElem?_append_right (Nat.le_refl _), Nat.sub_self,
      List.getElem?_cons_zero]
  refine Edit.keepsCrlf_of_last h p.start_lt_stop hlast ?_ hnew
  rintro rfl
  rcases hc with hc | hc
  · exact absurd hc (by decide)
  · cases hc

theorem notMem_renamed {s : Specifier} (hs : '\n' ∉ s.imported ++ s.bound) {new : List Char}
    (hnew : ∀ c ∈ new, Inline c) : '\n' ∉ (s.renamed new).imported ++ (s.renamed new).bound := by
  have hfeed : '\n' ∉ new := fun hm => (hnew _ hm).1 rfl
  unfold Specifier.renamed
  simp only [List.mem_append, not_or] at hs ⊢
  split
  · exact ⟨hfeed, hfeed⟩
  · exact ⟨hfeed, hs.2⟩

/-- A change that adds no line feed keeps the line ends. -/
theorem keepsCrlf_change {target new : List Char} (htarget : ∀ c ∈ target, Inline c)
    (hnew : ∀ c ∈ new, Inline c) (h : Crlf text) {c : ImportChange}
    (hc : c.Arises (imports text) target new) (hfeed : c.addsFeed = false) {e : Edit}
    (he : c.edit? text = some e) : e.KeepsCrlf text := by
  cases hc with
  | @written f hf d hd items hitems =>
    cases he
    obtain ⟨hvalue, hnames⟩ := keepsCrlf_of_mem_imports h hf
    refine keepsCrlf_written h hf (ImportDecl.KeepsCrlf.crlf_render ?_ (fun t ht => ?_) ?_)
    · rcases hd with rfl | rfl | rfl
      · exact hvalue
      · exact { hvalue with module := fun hm => (htarget _ hm).1 rfl }
      · exact { hvalue with }
    · rcases hitems t ht with ht | ⟨g, hg, s, hs, rfl⟩
      · exact notMem_render (hnames t ht)
      · exact notMem_render (notMem_renamed ((keepsCrlf_of_mem_imports h hg).2 s hs) hnew)
    · cases hempty : items.isEmpty with
      | true => exact .inl rfl
      | false => exact .inr (by simpa [ImportChange.addsFeed, hempty] using hfeed)
  | @dropped f hf =>
    cases he
    obtain ⟨hstart, hstop⟩ := start_lt_stop hf
    have hle := (le_lineEnd hstop).1
    exact ⟨by dsimp only; omega, trivial, lineEnd_next_ne h hstop⟩
  | kept hg => cases he
  | added hlast hf hs => cases hfeed

/-- A line feed stands in the text behind something else than a carriage return. -/
def BareFeed (text : List Char) : Prop := ∃ front c rest, text = front ++ c :: '\n' :: rest ∧ c ≠ '\r'

theorem BareFeed.not_crlf (h : BareFeed text) : ¬ Crlf text := by
  obtain ⟨front, c, rest, rfl, hc⟩ := h
  exact not_crlf_append hc front rest

theorem BareFeed.append (h : BareFeed text) (left right : List Char) :
    BareFeed (left ++ (text ++ right)) := by
  obtain ⟨front, c, rest, rfl, hc⟩ := h
  exact ⟨left ++ front, c, rest ++ right, by simp, hc⟩

theorem exists_last_newLine (module : List Char) (quote : Char) (semicolon : Bool) (s : Specifier) :
    ∃ init c, (newLine module quote semicolon).render [s] = init ++ [c] ∧ (c = quote ∨ c = ';') := by
  rw [render_newLine]
  cases semicolon with
  | false =>
    refine ⟨"import \x7b ".toList ++ s.render ++ " \x7d from ".toList ++ quote :: module, quote, ?_,
      .inl rfl⟩
    simp
  | true =>
    refine ⟨"import \x7b ".toList ++ s.render ++ " \x7d from ".toList ++ quote :: module ++ [quote],
      ';', ?_, .inr rfl⟩
    simp

/-- A change that adds a line feed writes it behind something else than a carriage return. -/
theorem bareFeed_change {target new : List Char} {c : ImportChange}
    (hc : c.Arises (imports text) target new) (hfeed : c.addsFeed = true) :
    ∃ e, c.edit? text = some e ∧ BareFeed e.text := by
  cases hc with
  | @written f hf d hd items hitems =>
    refine ⟨_, rfl, ?_⟩
    obtain ⟨hne, hlines⟩ := by simpa [ImportChange.addsFeed] using hfeed
    obtain ⟨front, rest, heq⟩ := ImportDecl.not_crlf_render (by simpa using hne) hlines
    exact ⟨front, '{', rest, heq, by decide⟩
  | dropped hf => cases hfeed
  | kept hg => cases hfeed
  | @added last f hlast hf s hs =>
    obtain ⟨init, c, hline, hlast'⟩ :=
      exists_last_newLine target f.value.quote f.value.semicolon (s.renamed new)
    refine ⟨_, rfl, (if (text.take (lineEnd text last.stop)).getLast? = some '\n' then []
      else ['\n']) ++ init, c, [], ?_, ?_⟩
    · dsimp only [lineEdit]
      rw [hline]
      simp
    · rintro rfl
      obtain ⟨p⟩ := nonempty_place hf
      have hquote := p.renderable.1.quote
      rcases hlast' with hc | hc
      · rw [← hc] at hquote
        exact absurd hquote (by decide)
      · cases hc

/-- An edit of imports keeps the line ends exactly when it neither adds a line nor renders a brace list
that goes over several lines. -/
theorem crlf_editImport_iff (h : Crlf text) {source target : List Char}
    {named newName : Option (List Char)} (hsource : ∀ c ∈ source, Inline c)
    (htarget : ∀ c ∈ target, Inline c) (hnamed : ∀ cs ∈ named, ∀ c ∈ cs, Inline c)
    (hnewName : ∀ cs ∈ newName, ∀ c ∈ cs, Inline c) :
    Crlf (editImport text source named target newName) ↔
      ∀ c ∈ importChanges (imports text) source named target newName, c.addsFeed = false := by
  obtain ⟨edits, hperm, hapart⟩ := exists_apart_importEdits text source named target newName
  rw [editImport_eq_splice]
  constructor
  · intro hcrlf c hc
    by_contra hfeed
    obtain ⟨e, hedit, hbare⟩ := bareFeed_change (arises_importChanges hc) (by simpa using hfeed)
    have he : e ∈ edits := hperm.symm.subset (List.mem_filterMap.2 ⟨c, hc, hedit⟩)
    obtain ⟨front, rest, heq⟩ := (hapart.replaced_splice hperm).exists_append he
    rw [heq] at hcrlf
    exact (hbare.append front rest).not_crlf hcrlf
  · intro hchanges
    refine crlf_splice h fun e he => ?_
    obtain ⟨c, hc, hedit⟩ := List.mem_filterMap.1 he
    have hgiven {cs : Option (List Char)} (hcs : ∀ ds ∈ cs, ∀ c ∈ ds, Inline c) {ds : List Char}
        (hds : ∀ c ∈ ds, Inline c) : ∀ c ∈ (given? cs).getD ds, Inline c := by
      cases hpart : given? cs with
      | none => exact hds
      | some es => exact hcs es (Option.filter_eq_some_iff.1 hpart).1
    refine keepsCrlf_change ?_ ?_ h (arises_importChanges hc) (hchanges c hc) hedit
    · exact hgiven (by simpa using htarget) hsource
    · exact hgiven hnewName (hgiven hnamed (by simp))

end Codemod.Source
