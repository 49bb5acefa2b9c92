import Codemod.Proofs.Source.Place

/-! Moving a name between declarations: what each of the two edits does to the names that the
declarations of a text bring in. -/
namespace Codemod.Source
open Text

/-- The names that declarations bring in, each with its module. -/
def bindingsOf (ds : List ImportDecl) : List (List Char × Specifier) :=
  ds.flatMap fun d => (d.named.getD []).map fun s => (d.module, s)

@[simp] theorem bindingsOf_nil : bindingsOf [] = [] := rfl

@[simp] theorem bindingsOf_cons (d : ImportDecl) (ds : List ImportDecl) :
    bindingsOf (d :: ds) = (d.named.getD []).map (fun s => (d.module, s)) ++ bindingsOf ds := by
  simp [bindingsOf]

@[simp] theorem bindingsOf_append (ds es : List ImportDecl) :
    bindingsOf (ds ++ es) = bindingsOf ds ++ bindingsOf es := by
  simp [bindingsOf]

variable {text other : List Char} {f : Found ImportDecl} {before after : List (Found ImportDecl)}

/-- What has been read reads alike after it has been rendered, when it holds no brace. -/
theorem Place.legible (p : Place text f) {s : Specifier} (hs : s ∈ f.value.named.getD [])
    (h : s.Braceless) : s.Legible := by
  obtain ⟨item, hitem, hchars⟩ := exists_ofText?_of_mem p.read hs
  refine Specifier.legible_of_ofText? hitem (fun c hc => ?_) h
  obtain ⟨hcomma, hends⟩ := hchars c hc
  obtain ⟨hsemicolon, hquote⟩ := Bool.or_eq_false_iff.1 hends
  exact ⟨hcomma, by simpa using hsemicolon, hquote⟩

/-- From the offset on, two texts have the same line. -/
def SameLine (text other : List Char) (offset : Nat) : Prop :=
  ∃ line tail tail', text.drop offset = line ++ tail ∧ other.drop offset = line ++ tail' ∧
    '\n' ∉ line ∧ AtLineEnd tail ∧ AtLineEnd tail'

theorem exists_line (cs : List Char) :
    ∃ line tail, cs = line ++ tail ∧ '\n' ∉ line ∧ AtLineEnd tail := by
  by_cases hm : '\n' ∈ cs
  · obtain ⟨line, tail, rfl, hline⟩ := List.eq_append_cons_of_mem hm
    exact ⟨line, '\n' :: tail, rfl, hline, by simp [AtLineEnd]⟩
  · exact ⟨cs, [], by simp, hm, by simp [AtLineEnd]⟩

theorem sameLine_self (text : List Char) (offset : Nat) : SameLine text text offset := by
  obtain ⟨line, tail, heq, hline, htail⟩ := exists_line (text.drop offset)
  exact ⟨line, tail, tail, heq, heq, hline, htail, htail⟩

/-- What stands in the place of a declaration that is written with the given items: nothing when no item
is left to import. -/
inductive ImportDecl.Rewritten (d : ImportDecl) (items : List Specifier) : List ImportDecl → Prop
  | gone (empty : items = []) : Rewritten d items []
  | reread {d' : ImportDecl} (read : d.Reread items d') : Rewritten d items [d']

theorem ImportDecl.Rewritten.bindingsOf_eq {d : ImportDecl} {items : List Specifier} {ds : List ImportDecl}
    (h : d.Rewritten items ds) : bindingsOf ds = items.map fun s => (d.module, s) := by
  cases h with
  | gone empty => simp [empty]
  | reread read => simp [read.module, read.named]

/-- The edit that takes an item out of its declaration leaves the other items and declarations. -/
theorem Place.imports_withoutItem (p : Place other f) (h : imports other = before ++ f :: after)
    (hline : SameLine text other f.stop) (hstop : f.stop ≤ text.length) {i : Nat}
    (hitems : ∀ s ∈ (f.value.named.getD []).eraseIdx i, s.Legible) :
    ∃ ds found, imports (splice other [withoutItem text f i]) = before ++ found ∧
      found.map (·.value) = ds ++ after.map (·.value) ∧
      f.value.Rewritten ((f.value.named.getD []).eraseIdx i) ds := by
  unfold withoutItem
  dsimp only
  split
  · next hempty =>
    obtain ⟨line, tail, tail', htext, hother, hline, htail, htail'⟩ := hline
    have hgone : declarations (p.rest.drop (line.length + (tail.take 1).length)) =
        declarations (p.rest.dropWhile (· != '\n')) := by
      rw [p.drop_stop] at hother
      rw [hother, dropWhile_line hline htail', ← List.drop_drop, List.drop_left]
      cases tail with
      | nil => rfl
      | cons c tail => exact declarations_drop_one htail'
    obtain ⟨found, heq, hfound⟩ := p.imports_dropped h hgone
    refine ⟨[], found, ?_, hfound, .gone ?_⟩
    · rw [lineEnd_eq htext hline htail hstop, Nat.add_assoc]
      exact heq
    · simp only [Bool.and_eq_true, List.isEmpty_iff] at hempty
      exact hempty.1.1
  · obtain ⟨d, found, heq, hfound, hread⟩ := p.imports_replaced h p.isRead hitems p.renderable.2
    exact ⟨[d], found, heq, hfound, .reread hread⟩

/-! ## Lines between declarations -/

theorem le_lineEnd {offset : Nat} (h : offset ≤ text.length) :
    offset ≤ lineEnd text offset ∧ lineEnd text offset ≤ text.length := by
  obtain ⟨line, tail, heq, hline, htail⟩ := exists_line (text.drop offset)
  have hlen := congrArg List.length heq
  rw [lineEnd_eq heq hline htail h]
  simp at hlen ⊢
  omega

theorem lineEnd_le {cs ds : List Char} {offset : Nat} (h : text.drop offset = cs ++ '\n' :: ds) :
    lineEnd text offset ≤ offset + cs.length + 1 := by
  obtain ⟨line, tail, heq, hline, htail⟩ := exists_line (text.drop offset)
  have hoffset : offset ≤ text.length := by
    by_contra hlt
    rw [List.drop_eq_nil_of_le (by omega)] at h
    simp at h
  obtain ⟨left, rfl, -⟩ := eq_append_of_append_cons hline (h.symm.trans heq)
  rw [lineEnd_eq heq hline htail hoffset, List.length_take, List.length_append]
  omega

/-- A line ends with the text or behind a line feed. -/
theorem lineEnd_cases {offset : Nat} (h : offset ≤ text.length) : lineEnd text offset = text.length ∨
    ∃ front rest, text = front ++ '\n' :: rest ∧ lineEnd text offset = front.length + 1 := by
  obtain ⟨line, tail, hdrop, hline, htail⟩ := exists_line (text.drop offset)
  have hend := lineEnd_eq hdrop hline htail h
  have htext : text = (text.take offset ++ line) ++ tail := by
    rw [List.append_assoc, ← hdrop, List.take_append_drop]
  have hlen : (text.take offset ++ line).length = offset + line.length := by simp [h]
  cases tail with
  | nil =>
    have hall := congrArg List.length htext
    rw [List.append_nil, hlen] at hall
    exact .inl (hend.trans hall.symm)
  | cons c rest =>
    obtain rfl : c = '\n' := htail c rfl
    exact .inr ⟨_, rest, htext, by rw [hend, hlen]; rfl⟩

variable {g : Found ImportDecl}

/-- A declaration ends within its line. -/
theorem Place.exists_last (p : Place text f) : ∃ init c, p.written = init ++ [c] ∧ c ≠ '\n' := by
  obtain ⟨init, c, hwritten, hc⟩ := getLast?_of_importDecl p.read
  refine ⟨init, c, hwritten, ?_⟩
  rintro rfl
  rcases hc with hc | hc
  · exact absurd hc (by decide)
  · cases hc

theorem Place.start_lt_stop (p : Place text f) : f.start < f.stop := by
  obtain ⟨init, c, hwritten, -⟩ := p.exists_last
  rw [p.stop_eq, p.start_eq, hwritten]
  simp

theorem Place.stop_le (p : Place text f) : f.stop ≤ text.length := by
  have hlen := congrArg List.length p.text_eq
  rw [p.stop_eq]
  simp at hlen
  omega

theorem start_withoutItem (text : List Char) (f : Found ImportDecl) (i : Nat) :
    (withoutItem text f i).start = f.start := by
  unfold withoutItem
  dsimp only
  split <;> rfl

theorem Place.stop_withoutItem (p : Place text f) (i : Nat) :
    f.stop ≤ (withoutItem text f i).stop ∧ (withoutItem text f i).stop ≤ lineEnd text f.stop := by
  have hle := le_lineEnd p.stop_le
  unfold withoutItem
  dsimp only
  split
  · exact ⟨hle.1, Nat.le_refl _⟩
  · exact ⟨Nat.le_refl _, hle.1⟩

/-- Between a declaration and a later one a line ends, and the later one begins the next line. -/
theorem Place.line_between (p : Place text f) (q : Place text g) (h : f.stop ≤ g.start) :
    ∃ cs ds, text.drop f.stop = cs ++ '\n' :: ds ∧ f.stop + cs.length + 1 = g.start := by
  obtain ⟨init, c, hwritten, hne⟩ := p.exists_last
  have htake : text.take f.stop = (p.front ++ init) ++ [c] := by
    have hfront : (p.front ++ (p.written ++ p.rest)).take f.stop = p.front ++ p.written := by
      rw [p.stop_eq, ← List.append_assoc, List.take_left' (by simp)]
    rw [← p.text_eq] at hfront
    rw [hfront, hwritten, List.append_assoc]
  have hsplit : q.front = text.take f.stop ++ (text.drop f.stop).take (g.start - f.stop) := by
    rw [← q.take_start, ← List.take_add, Nat.add_sub_cancel' h]
  have hlast : q.front.getLast? = some '\n' := by
    refine q.front_line.resolve_left fun hnil => ?_
    rw [hnil, htake] at hsplit
    simp at hsplit
  have hlen : q.front.length = g.start := q.start_eq.symm
  rw [hsplit, htake] at hlast
  cases hbetween : (text.drop f.stop).take (g.start - f.stop) using List.reverseRec with
  | nil =>
    rw [hbetween, List.append_nil, List.getLast?_concat] at hlast
    exact absurd (Option.some.inj hlast) hne
  | append_singleton cs d _ =>
    rw [hbetween, ← List.append_assoc, List.getLast?_concat] at hlast
    obtain rfl : d = '\n' := Option.some.inj hlast
    refine ⟨cs, (text.drop f.stop).drop (g.start - f.stop), ?_, ?_⟩
    · conv_lhs => rw [← List.take_append_drop (g.start - f.stop) (text.drop f.stop), hbetween]
      simp
    · rw [hsplit, hbetween, List.length_append, List.length_append, List.length_take] at hlen
      have hstop := p.stop_eq
      have htext := congrArg List.length p.text_eq
      simp at hlen htext
      omega

/-- An edit behind a line that ends keeps it. -/
theorem sameLine_splice {offset : Nat} {e : Edit} (hend : lineEnd text offset ≤ e.start)
    (hin : '\n' ∈ text.drop offset) : SameLine text (splice text [e]) offset := by
  obtain ⟨line, tail, heq, hline⟩ := List.eq_append_cons_of_mem hin
  have hlen := congrArg List.length heq
  have htail : AtLineEnd ('\n' :: tail) := by simp [AtLineEnd]
  simp at hlen
  rw [lineEnd_eq heq hline htail (by omega)] at hend
  have hother : (splice text [e]).drop offset =
      (line ++ '\n' :: tail).take (e.start - offset) ++ (e.text ++ text.drop e.stop) := by
    rw [splice_singleton, List.append_assoc, List.drop_append_of_le_length (by simp; omega),
      List.drop_take, heq]
  obtain ⟨k, hk⟩ : ∃ k, e.start - offset - line.length = k + 1 :=
    ⟨e.start - offset - line.length - 1, by simp at hend; omega⟩
  rw [List.take_append, List.take_of_length_le (by omega), List.append_assoc, hk,
    List.take_succ_cons, List.cons_append] at hother
  exact ⟨line, '\n' :: tail, _, heq, hother, hline, htail, by simp [AtLineEnd]⟩

/-! ## The edits of a move -/

/-- A line of its own for one imported name. -/
def newLine (module : List Char) (quote : Char) (semicolon : Bool) : ImportDecl :=
  ⟨[], [], none, none, none, [], module, quote, semicolon⟩

theorem render_newLine (module : List Char) (quote : Char) (semicolon : Bool) (s : Specifier) :
    (newLine module quote semicolon).render [s] =
      "import \x7b ".toList ++ s.render ++ " \x7d from ".toList ++ quote :: module ++ quote ::
        (if semicolon then [';'] else []) := by
  cases semicolon <;> simp [newLine, ImportDecl.render, renderBraces, joinWith]

theorem isRead_newLine {module : List Char} (hmodule : IsModule module) {quote : Char}
    (hquote : isQuote quote = true) (semicolon : Bool) : (newLine module quote semicolon).IsRead where
  renderable := ⟨by simp [newLine], by simp [newLine], by simp [newLine], hquote, hmodule⟩
  typeWord := .inl rfl
  defaultName := by simp [newLine]
  allNames := by simp [newLine]
  items := by simp [newLine]

/-- The edit that adds an item to a declaration. -/
def withItem (f : Found ImportDecl) (braces : List Char) (s : Specifier) : Edit :=
  ⟨f.start, f.stop, { f.value with braces }.render (f.value.named.getD [] ++ [s])⟩

/-- The declaration that takes a further item keeps those it has. -/
theorem Place.imports_withItem (p : Place text f) (h : imports text = before ++ f :: after)
    (braces : List Char) {s : Specifier} (hitems : ∀ t ∈ f.value.named.getD [] ++ [s], t.Legible) :
    ∃ ds found, imports (splice text [withItem f braces s]) = before ++ found ∧
      found.map (·.value) = ds ++ after.map (·.value) ∧
      { f.value with braces }.Rewritten (f.value.named.getD [] ++ [s]) ds := by
  obtain ⟨d, found, heq, hfound, hread⟩ :=
    p.imports_replaced h (p.isRead.withBraces braces) hitems p.renderable.2
  exact ⟨[d], found, heq, hfound, .reread hread⟩

/-- The line that is written behind the last declaration. -/
def lineEdit (text : List Char) (offset : Nat) (line : List Char) : Edit :=
  ⟨lineEnd text offset, lineEnd text offset,
    (if (text.take (lineEnd text offset)).getLast? == some '\n' then [] else ['\n']) ++ line ++ ['\n']⟩

theorem Place.imports_lineEdit (p : Place text f) (h : imports text = before ++ f :: after) {d : ImportDecl}
    (hd : d.IsRead) {items : List Specifier} (hitems : ∀ s ∈ items, s.Legible) :
    (∃ ds found, imports (splice text [lineEdit text f.stop (d.render items)]) =
        before ++ f :: found ∧ found.map (·.value) = ds ++ after.map (·.value) ∧
      d.Rewritten items ds) ∧
    SameLine text (splice text [lineEdit text f.stop (d.render items)]) f.stop := by
  obtain ⟨line, tail, hrest, hline, htail⟩ := exists_line p.rest
  have hstop := p.stop_eq
  have htext : text = (p.front ++ (p.written ++ (line ++ tail.take 1))) ++ tail.drop 1 := by
    conv_lhs => rw [p.text_eq, hrest, ← List.take_append_drop 1 tail]
    simp only [List.append_assoc]
  have hend : lineEnd text f.stop = (p.front ++ (p.written ++ (line ++ tail.take 1))).length := by
    rw [lineEnd_eq (p.drop_stop.trans hrest) hline htail p.stop_le, hstop]
    simp
    omega
  obtain ⟨htake, hdrop⟩ := take_and_drop_of_append htext hend
  have hwhole : splice text [lineEdit text f.stop (d.render items)] =
      p.front ++ (p.written ++ (line ++ '\n' :: (d.render items ++ '\n' :: tail.drop 1))) := by
    rw [splice_singleton, lineEdit, htake, hdrop]
    cases tail with
    | nil =>
      obtain ⟨init, c, hwritten, hc⟩ := p.exists_last
      have hlast : (p.front ++ (p.written ++ (line ++ List.take 1 []))).getLast? ≠ some '\n' := by
        rw [hwritten, List.take_nil, List.append_nil]
        rcases List.eq_nil_or_concat line with rfl | ⟨init, d, rfl⟩
        · simpa using hc
        · rw [List.concat_eq_append, ← List.append_assoc, ← List.append_assoc, List.getLast?_concat]
          rintro ⟨⟩
          simp at hline
      rw [if_neg (by simpa only [beq_iff_eq] using hlast)]
      simp
    | cons c tail =>
      obtain rfl : c = '\n' := htail c rfl
      simp
  obtain ⟨d', found, heq, hfound, hread⟩ := p.imports_line h hline hrest htail hd hitems
  refine ⟨⟨[d'], found, by rw [hwhole, heq], hfound, .reread hread⟩,
    line, tail, '\n' :: (d.render items ++ '\n' :: tail.drop 1), p.drop_stop.trans hrest, ?_, hline,
    htail, by simp [AtLineEnd]⟩
  rw [hwhole, ← List.append_assoc, List.drop_left' (by simp [hstop])]

end Codemod.Source
