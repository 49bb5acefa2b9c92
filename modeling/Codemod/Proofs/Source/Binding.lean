import Codemod.Proofs.Source.Move

/-! The names that a text binds, before and after an edit of its declarations. An edit takes one
imported name out and puts its new name in; the others stay in their order, so each of them is found
as before. -/
namespace Codemod.Source
open Text

/-- The imported names of a text, in order. -/
def bindings (text : List Char) : List (List Char × Specifier) := bindingsOf (declarations text)

/-- Whether an imported name is `name` of `module`. -/
def isFor (module name : List Char) (x : List Char × Specifier) : Bool :=
  x.1 == module && x.2.imported == name

theorem isFor_iff {module name : List Char} {x : List Char × Specifier} :
    isFor module name x = true ↔ (x.1, x.2.imported) = (module, name) := by
  simp [isFor]

/-- A name is looked up among all imported names. -/
theorem map_findImported? (text module name : List Char) :
    (findImported? text module name).map (fun found => (found.1.value.module, found.2.2)) =
      (bindings text).find? (isFor module name) := by
  unfold findImported? bindings declarations
  induction imports text with
  | nil => rfl
  | cons f fs ih =>
    rw [List.findSome?_cons, List.map_cons, bindingsOf_cons, List.find?_append, List.find?_map]
    by_cases hmodule : f.value.module = module
    · have hitems : (isFor module name ∘ fun s => (f.value.module, s)) =
          fun s => s.imported == name := by
        funext s
        simp [isFor, hmodule]
      rw [hitems, List.find?_eq_bind_findIdx?_getElem?, if_neg (by simp [hmodule])]
      dsimp only
      cases hidx : (f.value.named.getD []).findIdx? (·.imported == name) with
      | none => exact ih
      | some i =>
        obtain ⟨hi, -⟩ := List.findIdx?_eq_some_iff_getElem.1 hidx
        simp [hi]
    · have hitems : (isFor module name ∘ fun s => (f.value.module, s)) = fun _ => false := by
        funext s
        simp [isFor, hmodule]
      rw [hitems, List.find?_eq_none.2 (by simp), if_pos (by simp [hmodule])]
      exact ih

theorem importedAs?_eq (text module name : List Char) :
    importedAs? text module name =
      ((bindings text).find? (isFor module name)).map (·.2.bound) := by
  rw [← map_findImported?, importedAs?, Option.map_map]
  rfl

/-! ## Exchanging one name for another -/

/-- One list holds `y` where the other holds `x`, perhaps at another place, and else the same. -/
def Exchanged (x y : α) (old new : List α) : Prop :=
  ∃ l₁ l₂ k₁ k₂, old = l₁ ++ x :: l₂ ∧ new = k₁ ++ y :: k₂ ∧ l₁ ++ l₂ = k₁ ++ k₂

theorem find?_skip {p : α → Bool} {x : α} (hx : p x = false) (l₁ l₂ : List α) :
    (l₁ ++ x :: l₂).find? p = (l₁ ++ l₂).find? p := by
  simp [List.find?_append, hx]

namespace Exchanged

variable {x y : α} {old new : List α} {p : α → Bool}

/-- What neither of the two names is found as before. -/
theorem find?_eq (h : Exchanged x y old new) (hx : p x = false) (hy : p y = false) :
    new.find? p = old.find? p := by
  obtain ⟨l₁, l₂, k₁, k₂, rfl, rfl, heq⟩ := h
  rw [find?_skip hy, find?_skip hx, heq]

/-- The name that was taken out is gone when it stood there once. -/
theorem find?_eq_none (h : Exchanged x y old new) (hone : old.filter p = [x]) (hy : p y = false) :
    new.find? p = none := by
  obtain ⟨l₁, l₂, k₁, k₂, rfl, rfl, heq⟩ := h
  have hx : p x = true := (List.mem_filter.1 (hone ▸ List.mem_singleton_self x)).2
  have hlen := congrArg List.length hone
  have hnil : (l₁ ++ l₂).filter p = [] := by
    rw [List.filter_append, List.filter_cons_of_pos hx, List.length_append, List.length_cons,
      List.length_singleton] at hlen
    rw [List.filter_append, ← List.length_eq_zero_iff, List.length_append]
    omega
  rw [find?_skip hy, ← heq, ← List.head?_filter, hnil]
  rfl

/-- The name that was put in is found when there was none like it. -/
theorem find?_eq_some (h : Exchanged x y old new) (hnone : old.find? p = none) (hy : p y = true) :
    new.find? p = some y := by
  obtain ⟨l₁, l₂, k₁, k₂, rfl, rfl, heq⟩ := h
  have hx : p x = false := by simpa using List.find?_eq_none.1 hnone x (by simp)
  rw [find?_skip hx, heq, List.find?_append, Option.or_eq_none_iff] at hnone
  rw [List.find?_append, hnone.1, Option.none_or, List.find?_cons_of_pos hy]

end Exchanged

/-! ## What an edit exchanges -/

theorem dropRebound_concat (items : List Specifier) (s : Specifier) : dropRebound (items ++ [s]) =
    if (dropRebound items).any (·.bound == s.bound) then dropRebound items
    else dropRebound items ++ [s] := by
  rw [dropRebound, List.foldl_append]
  rfl

/-- Of items that are bound apart, those are left out whose local name has come before. -/
theorem dropRebound_append {items : List Specifier} (h : (items.map (·.bound)).Nodup)
    (front : List Specifier) : dropRebound (front ++ items) = dropRebound front ++
      items.filter fun s => !(dropRebound front).any (·.bound == s.bound) := by
  induction items generalizing front with
  | nil => simp
  | cons s items ih =>
    obtain ⟨hfresh, hitems⟩ := List.nodup_cons.1 h
    have hsplit : front ++ s :: items = (front ++ [s]) ++ items := by simp
    rw [hsplit, ih hitems, dropRebound_concat, List.filter_cons]
    cases hany : (dropRebound front).any (·.bound == s.bound) with
    | true => simp
    | false =>
      have hrest : ∀ t ∈ items, ((dropRebound front ++ [s]).any (·.bound == t.bound)) =
          (dropRebound front).any (·.bound == t.bound) := by
        intro t ht
        have hne : (s.bound == t.bound) = false :=
          beq_eq_false_iff_ne.2 fun heq => hfresh (List.mem_map.2 ⟨t, ht, heq.symm⟩)
        simp [hne]
      have hfilter := List.filter_congr fun t ht => congrArg (!·) (hrest t ht)
      simp only [Bool.false_eq_true, if_false, Bool.not_false, if_true, hfilter, List.append_assoc,
        List.singleton_append]

theorem dropRebound_eq_self {items : List Specifier} (h : (items.map (·.bound)).Nodup) :
    dropRebound items = items := by
  have hall := dropRebound_append h []
  rw [List.nil_append] at hall
  rw [hall]
  simp [dropRebound]

/-- Dropping items that are bound again leaves some of the items. -/
theorem mem_of_mem_dropRebound {items : List Specifier} {t : Specifier} (h : t ∈ dropRebound items) :
    t ∈ items := by
  induction items using List.reverseRec with
  | nil => cases h
  | append_singleton items s ih =>
    rw [dropRebound_concat] at h
    split at h
    · exact List.mem_append_left _ (ih h)
    · rcases List.mem_append.1 h with h | h
      · exact List.mem_append_left _ (ih h)
      · exact List.mem_append_right _ h

theorem mem_bindings {text : List Char} {f : Found ImportDecl} (hf : f ∈ imports text)
    {s : Specifier} (hs : s ∈ f.value.named.getD []) : (f.value.module, s) ∈ bindings text :=
  List.mem_flatMap.2 ⟨f.value, List.mem_map_of_mem hf, List.mem_map_of_mem hs⟩

/-! ## From one declaration to another -/

/-- Two lists of declarations: `df` stands in the place of `f`, and `dg` in that of `g`. -/
inductive MovedBetween (f g : ImportDecl) (df dg : List ImportDecl) :
    List ImportDecl → List ImportDecl → Prop
  | behind (before between after : List ImportDecl) : MovedBetween f g df dg
      (before ++ f :: (between ++ g :: after)) (before ++ (df ++ (between ++ (dg ++ after))))
  | front (before between after : List ImportDecl) : MovedBetween f g df dg
      (before ++ g :: (between ++ f :: after)) (before ++ (dg ++ (between ++ (df ++ after))))

section

variable (view : ImportDecl → List α) {f g : ImportDecl} {df dg : List ImportDecl}
  {left right : List α} {x y : α}

/-- What goes from one declaration to another is exchanged in what the declarations bring in. -/
theorem MovedBetween.exchanged {ds ds' : List ImportDecl} (h : MovedBetween f g df dg ds ds')
    (hf : view f = left ++ x :: right) (hdf : df.flatMap view = left ++ right)
    (hdg : dg.flatMap view = view g ++ [y]) :
    Exchanged x y (ds.flatMap view) (ds'.flatMap view) := by
  cases h with
  | behind before between after =>
    refine ⟨before.flatMap view ++ left, right ++ (between ++ g :: after).flatMap view,
      before.flatMap view ++ (left ++ right) ++ between.flatMap view ++ view g, after.flatMap view,
      ?_, ?_, ?_⟩
    · simp [hf]
    · simp [hdf, hdg]
    · simp
  | front before between after =>
    refine ⟨(before ++ g :: between).flatMap view ++ left, right ++ after.flatMap view,
      before.flatMap view ++ view g, between.flatMap view ++ (left ++ right) ++ after.flatMap view,
      ?_, ?_, ?_⟩
    · simp [hf]
    · simp [hdf, hdg]
    · simp

theorem exchanged_line {before after dl : List ImportDecl} (hf : view f = left ++ x :: right)
    (hdf : df.flatMap view = left ++ right) (hdl : dl.flatMap view = [y]) :
    Exchanged x y ((before ++ f :: after).flatMap view)
      ((before ++ (df ++ (after ++ dl))).flatMap view) := by
  refine ⟨before.flatMap view ++ left, right ++ after.flatMap view,
    before.flatMap view ++ (left ++ right) ++ after.flatMap view, [], ?_, ?_, ?_⟩
  · simp [hf]
  · simp [hdf, hdl]
  · simp

end

section Edits

variable {text : List Char} {f g : Found ImportDecl} {before after between : List (Found ImportDecl)}
  {left right items : List Specifier} {s moved : Specifier}
  (hnames : ∀ x ∈ bindings text, x.2.Braceless)
  (hitems : f.value.named.getD [] = left ++ s :: right) (hmoved : moved.Legible)

include hnames in
theorem legible_of_mem (hf : f ∈ imports text) : ∀ t ∈ f.value.named.getD [], t.Legible := by
  intro t ht
  obtain ⟨p⟩ := nonempty_place hf
  exact p.legible ht (hnames _ (mem_bindings hf ht))

include hnames in
theorem legible_withoutItem (hf : f ∈ imports text) (i : Nat) :
    ∀ t ∈ (f.value.named.getD []).eraseIdx i, t.Legible :=
  fun t ht => legible_of_mem hnames hf t (List.mem_of_mem_eraseIdx ht)

include hitems in
theorem eraseIdx_items : (f.value.named.getD []).eraseIdx left.length = left ++ right := by
  rw [hitems, List.eraseIdx_append_of_length_le (Nat.le_refl _)]
  simp

theorem bindings_eq (h : imports text = before ++ f :: after) (hitems : f.value.named.getD [] = items) :
    bindings text = bindingsOf (before.map (·.value)) ++ (items.map (fun t => (f.value.module, t)) ++
      bindingsOf (after.map (·.value))) := by
  simp [bindings, declarations, h, hitems]

include hnames hitems hmoved in
/-- Renaming an item drops those whose local name has come before it in the list. -/
theorem bindings_renameInPlace (h : imports text = before ++ f :: after) :
    bindings (splice text [renameInPlace f left.length moved]) = bindingsOf (before.map (·.value)) ++
      ((dropRebound (left ++ moved :: right)).map (fun t => (f.value.module, t)) ++
        bindingsOf (after.map (·.value))) := by
  have hf : f ∈ imports text := by simp [h]
  obtain ⟨p⟩ := nonempty_place hf
  have hset : (f.value.named.getD []).set left.length moved = left ++ moved :: right := by
    simp [hitems]
  have hlegible : ∀ t ∈ dropRebound (left ++ moved :: right), t.Legible := by
    intro t ht
    have hall := legible_of_mem hnames hf
    have ht := mem_of_mem_dropRebound ht
    simp only [hitems, List.mem_append, List.mem_cons] at hall ht
    rcases ht with ht | rfl | ht
    · exact hall t (.inl ht)
    · exact hmoved
    · exact hall t (.inr (.inr ht))
  obtain ⟨d, found, heq, hfound, hread⟩ := p.imports_replaced h p.isRead hlegible p.renderable.2
  rw [renameInPlace, hset]
  simp [bindings, declarations, heq, hfound, hread.module, hread.named]

include hnames hitems hmoved in
theorem exchanged_renameInPlace (h : imports text = before ++ f :: after)
    (hbounds : ((left ++ moved :: right).map (·.bound)).Nodup) :
    Exchanged (f.value.module, s) (f.value.module, moved) (bindings text)
      (bindings (splice text [renameInPlace f left.length moved])) := by
  rw [bindings_renameInPlace hnames hitems hmoved h, dropRebound_eq_self hbounds]
  refine ⟨bindingsOf (before.map (·.value)) ++ left.map fun t => (f.value.module, t),
    (right.map fun t => (f.value.module, t)) ++ bindingsOf (after.map (·.value)), _, _, ?_, ?_, rfl⟩
  · simp [bindings_eq h hitems]
  · simp

include hnames hmoved in
theorem legible_withItem (hg : g ∈ imports text) :
    ∀ t ∈ g.value.named.getD [] ++ [moved], t.Legible := by
  intro t ht
  rcases List.mem_append.1 ht with ht | ht
  · exact legible_of_mem hnames hg t ht
  · obtain rfl : t = moved := by simpa using ht
    exact hmoved

include hnames hitems in
theorem declarations_withoutItem (h : imports text = before ++ f :: after) :
    ∃ ds, declarations (splice text [withoutItem text f left.length]) =
        before.map (·.value) ++ (ds ++ after.map (·.value)) ∧ f.value.Rewritten (left ++ right) ds := by
  have hf : f ∈ imports text := by simp [h]
  obtain ⟨p⟩ := nonempty_place hf
  obtain ⟨ds, found, heq, hfound, hds⟩ := p.imports_withoutItem h (sameLine_self text f.stop)
    p.stop_le (legible_withoutItem hnames hf left.length)
  rw [eraseIdx_items hitems] at hds
  exact ⟨ds, by simp [declarations, heq, hfound], hds⟩

include hnames hitems in
theorem bindings_withoutItem (h : imports text = before ++ f :: after) :
    bindings (splice text [withoutItem text f left.length]) = bindingsOf (before.map (·.value)) ++
      ((left ++ right).map (fun t => (f.value.module, t)) ++ bindingsOf (after.map (·.value))) := by
  obtain ⟨ds, heq, hds⟩ := declarations_withoutItem hnames hitems h
  simp [bindings, heq, hds.bindingsOf_eq]

/-- Declarations stand one behind the other. -/
theorem stop_le_start (h : imports text = before ++ f :: after) (hg : g ∈ after) :
    f.stop ≤ g.start := by
  have hsorted : (imports text).Pairwise fun f g => f.stop ≤ g.start :=
    pairwise_stop_le_start importDecl 0 0 none text
  rw [h] at hsorted
  exact (List.pairwise_cons.1 (List.pairwise_append.1 hsorted).2.1).1 g hg

theorem lineEnd_le_start (hf : f ∈ imports text) (hg : g ∈ imports text) (h : f.stop ≤ g.start) :
    lineEnd text f.stop ≤ g.start ∧ '\n' ∈ text.drop f.stop := by
  obtain ⟨p⟩ := nonempty_place hf
  obtain ⟨q⟩ := nonempty_place hg
  obtain ⟨cs, ds, hdrop, hlen⟩ := p.line_between q h
  have hend := lineEnd_le hdrop
  exact ⟨by omega, by simp [hdrop]⟩

include hnames hitems in
/-- An item is taken out in front of an edit. The later edit is made first: the declaration stands where
it stood, and its line is the same. -/
theorem declarations_withoutItem_behind (h : imports text = before ++ f :: after) {e : Edit}
    (hbehind : lineEnd text f.stop ≤ e.start) (hcovers : e.start ≤ e.stop)
    (hlen : e.start ≤ text.length) {found : List (Found ImportDecl)}
    (heq : imports (splice text [e]) = before ++ f :: found)
    (hline : SameLine text (splice text [e]) f.stop) :
    ∃ ds, declarations (splice text [withoutItem text f left.length, e]) =
        before.map (·.value) ++ (ds ++ found.map (·.value)) ∧ f.value.Rewritten (left ++ right) ds := by
  have hf : f ∈ imports text := by simp [h]
  have hf' : f ∈ imports (splice text [e]) := by simp [heq]
  obtain ⟨p⟩ := nonempty_place hf
  obtain ⟨p'⟩ := nonempty_place hf'
  obtain ⟨ds, found', heq', hfound', hds⟩ := p'.imports_withoutItem heq hline p.stop_le
    (legible_withoutItem hnames hf left.length)
  obtain ⟨hstop, hedit⟩ := p.stop_withoutItem left.length
  have hstart := p.start_lt_stop
  have hsplice := splice_pair (List.Perm.refl [withoutItem text f left.length, e])
    (by rw [start_withoutItem]; omega) (by omega) hcovers hlen
  rw [eraseIdx_items hitems] at hds
  rw [hsplice]
  exact ⟨ds, by simp [declarations, heq', hfound'], hds⟩

include hnames hitems hmoved in
theorem declarations_withItem_behind (h : imports text = before ++ f :: (between ++ g :: after))
    (braces : List Char) :
    ∃ df dg, declarations (splice text [withoutItem text f left.length, withItem g braces moved]) =
        before.map (·.value) ++ (df ++ (between.map (·.value) ++ (dg ++ after.map (·.value)))) ∧
      f.value.Rewritten (left ++ right) df ∧
      { g.value with braces }.Rewritten (g.value.named.getD [] ++ [moved]) dg := by
  have hf : f ∈ imports text := by simp [h]
  have hg : g ∈ imports text := by simp [h]
  obtain ⟨hend, hin⟩ := lineEnd_le_start hf hg (stop_le_start h (by simp))
  obtain ⟨q⟩ := nonempty_place hg
  have h' : imports text = (before ++ f :: between) ++ g :: after := by simp [h]
  obtain ⟨dg, found, heq, hfound, hdg⟩ :=
    q.imports_withItem h' braces (legible_withItem hnames hmoved hg)
  rw [List.append_assoc, List.cons_append] at heq
  have hcovers := Nat.le_of_lt q.start_lt_stop
  obtain ⟨df, hds, hdf⟩ := declarations_withoutItem_behind hnames hitems h hend hcovers
    (Nat.le_trans hcovers q.stop_le) heq (sameLine_splice hend hin)
  refine ⟨df, dg, ?_, hdf, hdg⟩
  rw [hds, List.map_append, hfound]

include hnames hitems hmoved in
theorem declarations_withItem_front (h : imports text = before ++ g :: (between ++ f :: after))
    (braces : List Char) :
    ∃ df dg, declarations (splice text [withoutItem text f left.length, withItem g braces moved]) =
        before.map (·.value) ++ (dg ++ (between.map (·.value) ++ (df ++ after.map (·.value)))) ∧
      f.value.Rewritten (left ++ right) df ∧
      { g.value with braces }.Rewritten (g.value.named.getD [] ++ [moved]) dg := by
  have hf : f ∈ imports text := by simp [h]
  have hg : g ∈ imports text := by simp [h]
  have hstop : g.stop ≤ f.start := stop_le_start h (by simp)
  obtain ⟨p⟩ := nonempty_place hf
  obtain ⟨q⟩ := nonempty_place hg
  -- here the item is taken out first, for the other declaration stands in front of it
  have h' : imports text = (before ++ g :: between) ++ f :: after := by simp [h]
  obtain ⟨df, found, heq, hfound, hdf⟩ := p.imports_withoutItem h' (sameLine_self text f.stop)
    p.stop_le (legible_withoutItem hnames hf left.length)
  rw [List.append_assoc, List.cons_append] at heq
  have hg' : g ∈ imports (splice text [withoutItem text f left.length]) := by simp [heq]
  obtain ⟨q'⟩ := nonempty_place hg'
  obtain ⟨dg, found', heq', hfound', hdg⟩ :=
    q'.imports_withItem heq braces (legible_withItem hnames hmoved hg)
  obtain ⟨hedit, -⟩ := p.stop_withoutItem left.length
  have hstart := start_withoutItem text f left.length
  have hfront : (withItem g braces moved).start < (withoutItem text f left.length).start := by
    rw [hstart]
    exact Nat.lt_of_lt_of_le q.start_lt_stop hstop
  have hapart : (withItem g braces moved).stop ≤ (withoutItem text f left.length).start := by
    rw [hstart]
    exact hstop
  have hlen : (withoutItem text f left.length).start ≤ text.length := by
    rw [hstart]
    exact Nat.le_trans (Nat.le_of_lt p.start_lt_stop) p.stop_le
  have hp := p.start_lt_stop
  have hsplice := splice_pair
    (List.Perm.swap (withItem g braces moved) (withoutItem text f left.length) []) hfront hapart
    (by omega) hlen
  rw [eraseIdx_items hitems] at hdf
  refine ⟨df, dg, ?_, hdf, hdg⟩
  rw [hsplice, declarations, heq', List.map_append, hfound', List.map_append, hfound]

include hnames hitems hmoved in
/-- What is declared when an item goes from one declaration to another. -/
theorem movedBetween_withItem (hf : f ∈ imports text) (hg : g ∈ imports text)
    (hstart : g.start ≠ f.start) (braces : List Char) :
    ∃ df dg, MovedBetween f.value g.value df dg (declarations text)
        (declarations (splice text [withoutItem text f left.length, withItem g braces moved])) ∧
      f.value.Rewritten (left ++ right) df ∧
      { g.value with braces }.Rewritten (g.value.named.getD [] ++ [moved]) dg := by
  obtain ⟨before, after, h⟩ := List.append_of_mem hf
  rw [h, List.mem_append, List.mem_cons] at hg
  rcases hg with hg | rfl | hg
  · obtain ⟨front, between, rfl⟩ := List.append_of_mem hg
    rw [List.append_assoc, List.cons_append] at h
    obtain ⟨df, dg, heq, hdf, hdg⟩ := declarations_withItem_front hnames hitems hmoved h braces
    refine ⟨df, dg, ?_, hdf, hdg⟩
    rw [heq, declarations, h, List.map_append, List.map_cons, List.map_append, List.map_cons]
    exact .front _ _ _
  · exact absurd rfl hstart
  · obtain ⟨between, behind, rfl⟩ := List.append_of_mem hg
    obtain ⟨df, dg, heq, hdf, hdg⟩ := declarations_withItem_behind hnames hitems hmoved h braces
    refine ⟨df, dg, ?_, hdf, hdg⟩
    rw [heq, declarations, h, List.map_append, List.map_cons, List.map_append, List.map_cons]
    exact .behind _ _ _

include hnames hitems hmoved in
theorem exchanged_withItem (hf : f ∈ imports text) (hg : g ∈ imports text) (hstart : g.start ≠ f.start)
    (braces : List Char) :
    Exchanged (f.value.module, s) (g.value.module, moved) (bindings text)
      (bindings (splice text [withoutItem text f left.length, withItem g braces moved])) := by
  obtain ⟨df, dg, hmove, hdf, hdg⟩ := movedBetween_withItem hnames hitems hmoved hf hg hstart braces
  have hf : (f.value.named.getD []).map (fun t => (f.value.module, t)) =
      left.map (fun t => (f.value.module, t)) ++ (f.value.module, s) ::
        right.map fun t => (f.value.module, t) := by simp [hitems]
  exact hmove.exchanged (fun d => (d.named.getD []).map fun t => (d.module, t)) hf
    (hdf.bindingsOf_eq.trans (by simp)) (hdg.bindingsOf_eq.trans (by simp))

/-- The last declaration is the one or stands behind it. -/
theorem lineEnd_le_last (h : imports text = before ++ f :: after) {last : Found ImportDecl}
    (hlast : (imports text).getLast? = some last) : lineEnd text f.stop ≤ lineEnd text last.stop ∧
      (last = f ∨ '\n' ∈ text.drop f.stop) := by
  have hf : f ∈ imports text := by simp [h]
  have hl : last ∈ imports text := List.mem_of_getLast? hlast
  rw [h] at hlast
  rcases List.eq_nil_or_concat after with rfl | ⟨after, g, rfl⟩
  · rw [List.getLast?_concat] at hlast
    obtain rfl := Option.some.inj hlast
    exact ⟨Nat.le_refl _, .inl rfl⟩
  · rw [List.concat_eq_append, ← List.cons_append, ← List.append_assoc, List.getLast?_concat] at hlast
    obtain rfl := Option.some.inj hlast
    obtain ⟨hend, hin⟩ := lineEnd_le_start hf hl (stop_le_start h (by simp))
    obtain ⟨q⟩ := nonempty_place hl
    have hstart := q.start_lt_stop
    have hle := le_lineEnd q.stop_le
    exact ⟨by omega, .inr hin⟩

include hnames hitems hmoved in
/-- What is declared when an item goes to a line of its own. -/
theorem declarations_lineEdit (h : imports text = before ++ f :: after) {last : Found ImportDecl}
    (hlast : (imports text).getLast? = some last) {d : ImportDecl} (hd : d.IsRead) :
    ∃ df dl, declarations (splice text
        [withoutItem text f left.length, lineEdit text last.stop (d.render [moved])]) =
          before.map (·.value) ++ (df ++ (after.map (·.value) ++ dl)) ∧
      f.value.Rewritten (left ++ right) df ∧ d.Rewritten [moved] dl := by
  obtain ⟨init, hinit⟩ := List.getLast?_eq_some_iff.1 hlast
  have hl : last ∈ imports text := by simp [hinit]
  obtain ⟨q⟩ := nonempty_place hl
  obtain ⟨⟨dl, found, heq, hfound, hdl⟩, hlastLine⟩ :=
    q.imports_lineEdit hinit hd (by simpa using hmoved : ∀ t ∈ [moved], t.Legible)
  have heq' : imports (splice text [lineEdit text last.stop (d.render [moved])]) =
      before ++ f :: (after ++ found) := by
    rw [heq, ← List.cons_append, ← List.append_assoc, ← h, hinit]
    simp
  obtain ⟨hbehind, hwhere⟩ := lineEnd_le_last h hlast
  -- the new line ends the line of the declaration in front of it, which a text may leave open
  have hline : SameLine text (splice text [lineEdit text last.stop (d.render [moved])]) f.stop := by
    rcases hwhere with rfl | hin
    · exact hlastLine
    · exact sameLine_splice hbehind hin
  obtain ⟨df, hds, hdf⟩ := declarations_withoutItem_behind hnames hitems h hbehind (Nat.le_refl _)
    (le_lineEnd q.stop_le).2 heq' hline
  exact ⟨df, dl, by rw [hds, List.map_append, hfound, List.map_nil, List.append_nil], hdf, hdl⟩

include hnames hitems hmoved in
theorem exchanged_lineEdit (h : imports text = before ++ f :: after) {last : Found ImportDecl}
    (hlast : (imports text).getLast? = some last) {d : ImportDecl} (hd : d.IsRead) :
    Exchanged (f.value.module, s) (d.module, moved) (bindings text)
      (bindings (splice text
        [withoutItem text f left.length, lineEdit text last.stop (d.render [moved])])) := by
  obtain ⟨df, dl, heq, hdf, hdl⟩ := declarations_lineEdit hnames hitems hmoved h hlast hd
  have hf : (f.value.named.getD []).map (fun t => (f.value.module, t)) =
      left.map (fun t => (f.value.module, t)) ++ (f.value.module, s) ::
        right.map fun t => (f.value.module, t) := by simp [hitems]
  have hds : declarations text = before.map (·.value) ++ f.value :: after.map (·.value) := by
    simp [declarations, h]
  rw [bindings, bindings, heq, hds]
  exact exchanged_line (fun d => (d.named.getD []).map fun t => (d.module, t)) hf
    (hdf.bindingsOf_eq.trans (by simp)) (hdl.bindingsOf_eq.trans (by simp))

end Edits

/-! ## Moving a name -/

theorem of_findImported? {text module name : List Char} {f : Found ImportDecl} {i : Nat}
    {s : Specifier} (h : findImported? text module name = some (f, i, s)) :
    f ∈ imports text ∧ f.value.module = module ∧ (f.value.named.getD [])[i]? = some s ∧
      s.imported = name := by
  obtain ⟨g, hg, hread⟩ := List.exists_of_findSome?_eq_some h
  split at hread
  · cases hread
  · next hmodule =>
    obtain ⟨j, hj, hread⟩ := Option.bind_eq_some_iff.1 hread
    obtain ⟨t, ht, heq⟩ := Option.map_eq_some_iff.1 hread
    cases heq
    obtain ⟨hlt, himported, -⟩ := List.findIdx?_eq_some_iff_getElem.1 hj
    obtain ⟨_, hitem⟩ := List.getElem?_eq_some_iff.1 ht
    exact ⟨hg, by simpa using hmodule, ht, by simpa [hitem] using himported⟩

/-- The item under another name: an alias stays. -/
def Specifier.renamed (s : Specifier) (new : List Char) : Specifier :=
  ⟨new, if s.bound = s.imported then new else s.bound, s.typeOnly⟩

theorem Specifier.Legible.renamed {s : Specifier} (h : s.Legible) {new : List Char}
    (hnew : IsName new) (htype : new = "type".toList → s.bound = s.imported ∨ s.typeOnly = true) :
    (s.renamed new).Legible := by
  have hwords := words_word hnew.isWord
  unfold Specifier.renamed
  split
  · refine ⟨fun c hc => .inl (hnew.chars c ?_), ?_⟩
    · simpa using hc
    · exact readable_of_isName hnew (by simp [hwords]) (by simp [hwords]) fun _ => .inl rfl
  · next halias =>
    refine ⟨fun c hc => ?_, ?_⟩
    · rcases List.mem_append.1 hc with hc | hc
      · exact .inl (hnew.chars c hc)
      · exact h.chars c (List.mem_append_right _ hc)
    · exact readable_of_isName hnew h.readable.bound_ne_nil h.readable.spaced_bound fun heq =>
        .inr ((htype heq).resolve_left halias)

theorem moveImport_eq {text source old target new : List Char} {f : Found ImportDecl} {i : Nat}
    {s : Specifier} (h : findImported? text source old = some (f, i, s)) :
    moveImport text source old target new =
      if target = source then
        if new = old then text else splice text [renameInPlace f i (s.renamed new)]
      else splice text (withoutItem text f i :: addItem text target f (s.renamed new)) := by
  rw [moveImport, h]
  rfl

theorem given?_eq_some {cs : List Char} (h : cs ≠ []) : given? (some cs) = some cs := by
  simp [given?, Option.filter, h]

theorem editImport_named {source old target new : List Char} (hold : old ≠ []) (htarget : target ≠ [])
    (hnew : new ≠ []) (text : List Char) : editImport text source (some old) target (some new) =
      moveImport text source old target new := by
  rw [editImport, given?_eq_some hold, given?_eq_some htarget, given?_eq_some hnew]
  rfl

/-- An item is added to another declaration, or stands on a new line behind the last one. -/
theorem addItem_cases {text module : List Char} {origin : Found ImportDecl} {moved : Specifier}
    (horigin : origin ∈ imports text)
    (hfree : ∀ x ∈ bindings text, x.1 = module → x.2.bound ≠ moved.bound) :
    (∃ g ∈ imports text, g.value.module = module ∧ g.start ≠ origin.start ∧
      ∃ braces, addItem text module origin moved = [withItem g braces moved]) ∨
    ∃ last, (imports text).getLast? = some last ∧ addItem text module origin moved =
      [lineEdit text last.stop
        ((newLine module origin.value.quote origin.value.semicolon).render [moved])] := by
  unfold addItem
  dsimp only
  split
  · next g hfind =>
    obtain ⟨⟨hmodule, hstart⟩, -⟩ := by simpa using List.find?_some hfind
    have hg := List.mem_of_find?_eq_some hfind
    have hany : (g.value.named.getD []).any (·.bound == moved.bound) = false := by
      simp only [List.any_eq_false, beq_iff_eq]
      exact fun t ht => hfree _ (mem_bindings hg ht) hmodule
    rw [if_neg (by simp [hany])]
    exact .inl ⟨g, hg, hmodule, hstart, _, rfl⟩
  · next hfind =>
    cases hlast : (imports text).getLast? with
    | none =>
      rw [List.getLast?_eq_none_iff.1 hlast] at horigin
      cases horigin
    | some last =>
      refine .inr ⟨last, rfl, ?_⟩
      rw [render_newLine, lineEdit]
      simp

/-- A list holds what stands at a place of it between what stands before and behind. -/
theorem exists_split_of_getElem? {l : List α} {i : Nat} {x : α} (h : l[i]? = some x) :
    ∃ left right, l = left ++ x :: right ∧ left.length = i := by
  obtain ⟨hlt, rfl⟩ := List.getElem?_eq_some_iff.1 h
  exact ⟨l.take i, l.drop (i + 1), by simp, by simp [Nat.le_of_lt hlt]⟩

theorem nodup_bound_renamed {text : List Char} {f : Found ImportDecl} {left right : List Specifier}
    {s moved : Specifier} (hf : f ∈ imports text) (hitems : f.value.named.getD [] = left ++ s :: right)
    (hdistinct : ((bindings text).map (·.2.bound)).Nodup)
    (hfree : ∀ x ∈ bindings text, x ≠ (f.value.module, s) → x.2.bound ≠ moved.bound) :
    ((left ++ moved :: right).map (·.bound)).Nodup := by
  obtain ⟨before, after, h⟩ := List.append_of_mem hf
  have hnodup : ((left ++ s :: right).map (·.bound)).Nodup := by
    have hall : (bindings text).map (·.2.bound) = (bindingsOf (before.map (·.value))).map (·.2.bound) ++
        ((left ++ s :: right).map (·.bound) ++ (bindingsOf (after.map (·.value))).map (·.2.bound)) := by
      simp [bindings, declarations, h, hitems, Function.comp_def]
    rw [hall] at hdistinct
    exact hdistinct.of_append_right.of_append_left
  rw [List.map_append, List.map_cons, List.nodup_middle, List.nodup_cons, ← List.map_append] at hnodup ⊢
  refine ⟨fun hm => ?_, hnodup.2⟩
  obtain ⟨t, ht, hbound⟩ := List.mem_map.1 hm
  have hne : t ≠ s := fun heq => hnodup.1 (List.mem_map.2 ⟨t, ht, heq ▸ rfl⟩)
  have hmem : t ∈ f.value.named.getD [] := by
    rw [hitems]
    simp only [List.mem_append, List.mem_cons] at ht ⊢
    tauto
  exact hfree _ (mem_bindings hf hmem) (fun heq => hne (Prod.mk.inj heq).2) hbound

/-- A name that is imported once stands in a brace list, between the items before and behind it. -/
theorem exists_findImported? {text source old : List Char} {s : Specifier}
    (hone : (bindings text).filter (isFor source old) = [(source, s)]) :
    ∃ f left right, findImported? text source old = some (f, left.length, s) ∧ f ∈ imports text ∧
      f.value.module = source ∧ f.value.named.getD [] = left ++ s :: right ∧ s.imported = old := by
  have hbound : importedAs? text source old = some s.bound := by
    rw [importedAs?_eq, ← List.head?_filter, hone]
    rfl
  obtain ⟨⟨f, i, t⟩, hfound, -⟩ := Option.map_eq_some_iff.1 hbound
  obtain ⟨hf, hmodule, hitem, himported⟩ := of_findImported? hfound
  obtain ⟨left, right, hitems, rfl⟩ := exists_split_of_getElem? hitem
  have ht : (f.value.module, t) ∈ (bindings text).filter (isFor source old) :=
    List.mem_filter.2 ⟨mem_bindings hf (List.mem_of_getElem? hitem),
      isFor_iff.2 (by rw [hmodule, himported])⟩
  rw [hone] at ht
  obtain rfl : t = s := (Prod.mk.inj (List.mem_singleton.1 ht)).2
  exact ⟨f, left, right, hfound, hf, hmodule, hitems, himported⟩

theorem exchanged_addItem {text target : List Char} {f : Found ImportDecl}
    {left right : List Specifier} {s moved : Specifier} (hf : f ∈ imports text)
    (hnames : ∀ x ∈ bindings text, x.2.Braceless)
    (hitems : f.value.named.getD [] = left ++ s :: right) (hmoved : moved.Legible)
    (htarget : IsModule target)
    (hfree : ∀ x ∈ bindings text, x.1 = target → x.2.bound ≠ moved.bound) :
    Exchanged (f.value.module, s) (target, moved) (bindings text)
      (bindings (splice text (withoutItem text f left.length :: addItem text target f moved))) := by
  rcases addItem_cases hf hfree with ⟨g, hg, rfl, hstart, braces, hadd⟩ | ⟨last, hlast, hadd⟩
  · rw [hadd]
    exact exchanged_withItem hnames hitems hmoved hf hg hstart braces
  · rw [hadd]
    obtain ⟨before, after, h⟩ := List.append_of_mem hf
    obtain ⟨p⟩ := nonempty_place hf
    exact exchanged_lineEdit hnames hitems hmoved h hlast
      (isRead_newLine htarget p.renderable.1.quote f.value.semicolon)

/-- An edit exchanges the imported name for its new one. -/
theorem exchanged_editImport {text source old target new : List Char} {s : Specifier}
    (hnames : ∀ x ∈ bindings text, x.2.WellFormed)
    (hdistinct : ((bindings text).map (·.2.bound)).Nodup)
    (hone : (bindings text).filter (isFor source old) = [(source, s)]) (hold : IsName old)
    (hne : (target, new) ≠ (source, old)) (hmodule : IsModule target) (hname : IsName new)
    (htype : new ≠ "type".toList)
    (hfree : ∀ x ∈ bindings text, x ≠ (source, s) → x.2.bound ≠ (s.renamed new).bound) :
    Exchanged (source, s) (target, s.renamed new) (bindings text)
      (bindings (editImport text source (some old) target (some new))) := by
  obtain ⟨f, left, right, hfound, hf, rfl, hitems, rfl⟩ := exists_findImported? hone
  have hnames : ∀ x ∈ bindings text, x.2.Braceless := fun x hx => (hnames x hx).braceless
  have hmoved : (s.renamed new).Legible :=
    (legible_of_mem hnames hf s (by simp [hitems])).renamed hname fun heq => absurd heq htype
  rw [editImport_named hold.ne_nil hmodule.ne_nil hname.ne_nil, moveImport_eq hfound]
  by_cases hsame : target = f.value.module
  · subst hsame
    have hchanged : new ≠ s.imported := fun heq => hne (by rw [heq])
    rw [if_pos rfl, if_neg hchanged]
    obtain ⟨before, after, h⟩ := List.append_of_mem hf
    exact exchanged_renameInPlace hnames hitems hmoved h
      (nodup_bound_renamed hf hitems hdistinct hfree)
  · rw [if_neg hsame]
    refine exchanged_addItem hf hnames hitems hmoved hmodule fun x hx hmoduleOf => hfree x hx ?_
    rintro rfl
    exact hsame hmoduleOf.symm

/-- Editing imports tracks bindings: the new name is bound to the alias that the old one had, or to
itself when the old one was bound under its own name; the old name is bound no more, and every other
name is bound as before. -/
theorem editImport_tracks_bindings {text source old target new : List Char} {s : Specifier}
    (hnames : ∀ x ∈ bindings text, x.2.WellFormed)
    (hdistinct : ((bindings text).map (·.2.bound)).Nodup)
    (hone : (bindings text).filter (isFor source old) = [(source, s)]) (hold : IsName old)
    (hne : (target, new) ≠ (source, old)) (hmodule : IsModule target) (hname : IsName new)
    (htype : new ≠ "type".toList) (hnew : importedAs? text target new = none)
    (hfree : ∀ x ∈ bindings text, x ≠ (source, s) → x.2.bound ≠ (s.renamed new).bound) :
    importedAs? (editImport text source (some old) target (some new)) target new =
        some (s.renamed new).bound ∧
      importedAs? (editImport text source (some old) target (some new)) source old = none ∧
      ∀ module name, (module, name) ≠ (target, new) → (module, name) ≠ (source, old) →
        importedAs? (editImport text source (some old) target (some new)) module name =
          importedAs? text module name := by
  have h := exchanged_editImport hnames hdistinct hone hold hne hmodule hname htype hfree
  have hfor : isFor source old (source, s) = true :=
    (List.mem_filter.1 (hone ▸ List.mem_singleton_self (source, s))).2
  obtain ⟨-, rfl⟩ := Prod.mk.inj (isFor_iff.1 hfor)
  have hother {module name : List Char} {x : List Char × Specifier}
      (hx : (module, name) ≠ (x.1, x.2.imported)) : isFor module name x = false := by
    by_contra hfor
    exact hx (isFor_iff.1 (by simpa using hfor)).symm
  rw [importedAs?_eq] at hnew
  simp only [importedAs?_eq]
  refine ⟨?_, ?_, fun module name htarget hsource => ?_⟩
  · rw [h.find?_eq_some (Option.map_eq_none_iff.1 hnew) (isFor_iff.2 rfl)]
    rfl
  · rw [h.find?_eq_none hone (hother hne.symm)]
    rfl
  · rw [h.find?_eq (hother hsource) (hother htarget)]

/-- An alias goes with the name into a declaration that is there already. -/
theorem editImport_tracks_bindings_sample :
    let text := "import D, \x7b a as x, c \x7d from 'm';\nimport \x7b e \x7d from \"n\"\n".toList
    let s : Specifier := ⟨"a".toList, "x".toList, false⟩
    let edited := editImport text "m".toList (some "a".toList) "n".toList (some "b".toList)
    bindings text = [("m".toList, s), ("m".toList, ⟨"c".toList, "c".toList, false⟩),
      ("n".toList, ⟨"e".toList, "e".toList, false⟩)] ∧
    importedAs? edited "n".toList "b".toList = some "x".toList ∧
    importedAs? edited "m".toList "a".toList = none ∧
    importedAs? edited "m".toList "c".toList = some "c".toList ∧
    importedAs? edited "n".toList "e".toList = some "e".toList := by
  intro text s edited
  have hbindings : bindings text = [("m".toList, s), ("m".toList, ⟨"c".toList, "c".toList, false⟩),
      ("n".toList, ⟨"e".toList, "e".toList, false⟩)] := by decide +kernel
  have hnames : ∀ x ∈ bindings text, x.2.WellFormed := by
    have hplain : ∀ x ∈ bindings text, IsName x.2.imported ∧ IsName x.2.bound := by
      rw [hbindings]
      decide
    exact fun x hx => .inl (hplain x hx)
  have hdistinct : ((bindings text).map (·.2.bound)).Nodup := by
    rw [hbindings]
    decide
  have hone : (bindings text).filter (isFor "m".toList "a".toList) = [("m".toList, s)] := by
    rw [hbindings]
    decide
  have hnew : importedAs? text "n".toList "b".toList = none := by decide +kernel
  have hfree : ∀ x ∈ bindings text, x ≠ ("m".toList, s) → x.2.bound ≠ (s.renamed "b".toList).bound := by
    rw [hbindings]
    decide
  have hname : IsName "b".toList :=
    IsName.of_identifier (by decide) (List.all_iff_forall_prop.1 (by decide))
  obtain ⟨hmoved, hgone, hothers⟩ := editImport_tracks_bindings hnames hdistinct hone (by decide)
    (by decide) (by decide) hname (by decide) hnew hfree
  refine ⟨hbindings, hmoved, hgone, ?_, ?_⟩
  · rw [hothers "m".toList "c".toList (by decide) (by decide)]
    decide +kernel
  · rw [hothers "n".toList "e".toList (by decide) (by decide)]
    decide +kernel

end Codemod.Source
