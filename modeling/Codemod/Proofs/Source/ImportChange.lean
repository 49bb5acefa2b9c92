import Codemod.Proofs.Source.Binding

/-! What an edit of imports does, told by declarations and not by offsets: which of them are written
anew, which one goes, and where a line is added. The edited text is the text with these changes carried
out at once, and they lie apart. -/
namespace Codemod.Source
open Text

/-- What becomes of one declaration. -/
inductive ImportChange where
  /-- It is written anew, as `d` with the given items. -/
  | written (f : Found ImportDecl) (d : ImportDecl) (items : List Specifier)
  /-- It would import nothing, and goes with the rest of its line. -/
  | dropped (f : Found ImportDecl)
  /-- It was to take the name and stays, for it binds the name already. -/
  | kept (f : Found ImportDecl)
  /-- It is the last one, and a line is added behind it. -/
  | added (last : Found ImportDecl) (d : ImportDecl) (item : Specifier)

namespace ImportChange

def place : ImportChange → Found ImportDecl
  | written f _ _ => f
  | dropped f => f
  | kept f => f
  | added last _ _ => last

def edit? (text : List Char) : ImportChange → Option Edit
  | written f d items => some ⟨f.start, f.stop, d.render items⟩
  | dropped f => some ⟨f.start, lineEnd text f.stop, []⟩
  | kept _ => none
  | added last d item => some (lineEdit text last.stop (d.render [item]))

/-- The declaration without its item at place `i`. -/
def removal (f : Found ImportDecl) (i : Nat) : ImportChange :=
  let remaining := (f.value.named.getD []).eraseIdx i
  if remaining.isEmpty && f.value.defaultName.isNone && f.value.allNames.isNone then dropped f
  else written f f.value remaining

theorem place_removal (f : Found ImportDecl) (i : Nat) : (removal f i).place = f := by
  unfold removal
  dsimp only
  split <;> rfl

theorem edit?_removal (text : List Char) (f : Found ImportDecl) (i : Nat) :
    (removal f i).edit? text = some (withoutItem text f i) := by
  unfold removal withoutItem
  dsimp only
  split <;> rfl

end ImportChange

/-- The item that stands for `name` of `module` in a declaration. -/
def itemFor? (module name : List Char) (f : Found ImportDecl) :
    Option (Found ImportDecl × Nat × Specifier) :=
  if f.value.module != module then none
  else
    let items := f.value.named.getD []
    (items.findIdx? (·.imported == name)).bind fun i => (items[i]?).map fun s => (f, i, s)

theorem findImported?_eq_findSome? (text module name : List Char) :
    findImported? text module name = (imports text).findSome? (itemFor? module name) := rfl

theorem fst_of_itemFor? {module name : List Char} {f : Found ImportDecl}
    {x : Found ImportDecl × Nat × Specifier} (h : itemFor? module name f = some x) : x.1 = f := by
  unfold itemFor? at h
  split at h
  · cases h
  · obtain ⟨i, -, hi⟩ := Option.bind_eq_some_iff.1 h
    obtain ⟨s, -, rfl⟩ := Option.map_eq_some_iff.1 hi
    rfl

/-- Whether a declaration can take a name of `module` that leaves `origin`. -/
def takes (module : List Char) (origin f : Found ImportDecl) : Bool :=
  f.value.module == module && f.start != origin.start && f.value.takesNames

section Changes

variable (all : List (Found ImportDecl))

/-- The declaration with a brace list that a further item can be added to. -/
def ImportDecl.withBraces (d : ImportDecl) : ImportDecl :=
  { d with braces := if d.braces.isEmpty then "\x7b \x7d".toList else d.braces }

/-- What adding the moved item asks for, of all declarations there are. -/
def additions (module : List Char) (origin : Found ImportDecl) (moved : Specifier) :
    List ImportChange :=
  match all.find? (takes module origin) with
  | some g =>
    let items := g.value.named.getD []
    if items.any (·.bound == moved.bound) then [.kept g]
    else [.written g g.value.withBraces (items ++ [moved])]
  | none => all.getLast?.toList.map fun last =>
      .added last (newLine module origin.value.quote origin.value.semicolon) moved

def moveChanges (source old target new : List Char) : List ImportChange :=
  match all.findSome? (itemFor? source old) with
  | none => []
  | some (f, i, s) =>
    if target = source then
      if new = old then []
      else [.written f f.value (dropRebound ((f.value.named.getD []).set i (s.renamed new)))]
    else .removal f i :: additions all target f (s.renamed new)

def repointChanges (old new : List Char) : List ImportChange :=
  if old.isEmpty || old == new then []
  else (all.filter (·.value.module == old)).map fun f =>
    .written f { f.value with module := new } (f.value.named.getD [])

/-- The changes that an edit of imports asks for. -/
def importChanges (source : List Char) (named : Option (List Char)) (target : List Char)
    (newName : Option (List Char)) : List ImportChange :=
  let target := (given? (some target)).getD source
  match given? named with
  | none => repointChanges all source target
  | some old => moveChanges all source old target ((given? newName).getD old)

end Changes

/-- The replacements that an edit of imports makes in a text. -/
def importEdits (text source : List Char) (named : Option (List Char)) (target : List Char)
    (newName : Option (List Char)) : List Edit :=
  (importChanges (imports text) source named target newName).filterMap (·.edit? text)

theorem filterMap_edit?_additions {text : List Char} {origin : Found ImportDecl}
    (h : origin ∈ imports text) (module : List Char) (moved : Specifier) :
    (additions (imports text) module origin moved).filterMap (·.edit? text) =
      addItem text module origin moved := by
  have htakes : takes module origin = fun f => f.value.module == module &&
      f.start != origin.start && f.value.takesNames := rfl
  unfold additions addItem
  dsimp only
  rw [← htakes]
  cases (imports text).find? (takes module origin) with
  | some g =>
    dsimp only
    split <;> rfl
  | none =>
    cases hlast : (imports text).getLast? with
    | none =>
      rw [List.getLast?_eq_none_iff.1 hlast] at h
      cases h
    | some last => simp [ImportChange.edit?, lineEdit, render_newLine]

theorem repointImports_eq_splice (text old new : List Char) : repointImports text old new =
    splice text ((repointChanges (imports text) old new).filterMap (·.edit? text)) := by
  unfold repointImports repointChanges
  split
  · simp
  · rw [List.filterMap_map, ← List.filterMap_eq_map]
    rfl

theorem moveImport_eq_splice (text source old target new : List Char) :
    moveImport text source old target new =
      splice text ((moveChanges (imports text) source old target new).filterMap (·.edit? text)) := by
  unfold moveChanges
  rw [← findImported?_eq_findSome?]
  cases hfound : findImported? text source old with
  | none => simp [moveImport, hfound]
  | some found =>
    obtain ⟨f, i, s⟩ := found
    have hf := (of_findImported? hfound).1
    rw [moveImport_eq hfound]
    dsimp only
    split
    · split
      · simp
      · rfl
    · rw [List.filterMap_cons_some (ImportChange.edit?_removal text f i), filterMap_edit?_additions hf]

/-- An edit of imports carries out its changes, all at once. -/
theorem editImport_eq_splice (text source : List Char) (named : Option (List Char))
    (target : List Char) (newName : Option (List Char)) :
    editImport text source named target newName =
      splice text (importEdits text source named target newName) := by
  unfold editImport importEdits importChanges
  dsimp only
  cases given? named with
  | none => exact repointImports_eq_splice _ _ _
  | some old => exact moveImport_eq_splice _ _ _ _ _

/-! ## Where the changes lie -/

/-- The moved item goes to the first declaration that can take it, unless that binds the name already,
or else behind the last one. -/
theorem additions_cases {all : List (Found ImportDecl)} {origin : Found ImportDecl} (h : origin ∈ all)
    (module : List Char) (moved : Specifier) :
    (∃ g, all.find? (takes module origin) = some g ∧
      (g.value.named.getD []).any (·.bound == moved.bound) = true ∧
      additions all module origin moved = [.kept g]) ∨
    (∃ g, all.find? (takes module origin) = some g ∧
      (g.value.named.getD []).any (·.bound == moved.bound) = false ∧
      additions all module origin moved =
        [.written g g.value.withBraces (g.value.named.getD [] ++ [moved])]) ∨
    (∃ last, all.find? (takes module origin) = none ∧ all.getLast? = some last ∧
      additions all module origin moved =
        [.added last (newLine module origin.value.quote origin.value.semicolon) moved]) := by
  unfold additions
  cases hfind : all.find? (takes module origin) with
  | some g =>
    cases hany : (g.value.named.getD []).any (·.bound == moved.bound) with
    | true => exact .inl ⟨g, rfl, hany, if_pos hany⟩
    | false => exact .inr (.inl ⟨g, rfl, hany, if_neg (by simp [hany])⟩)
  | none =>
    cases hlast : all.getLast? with
    | none =>
      rw [List.getLast?_eq_none_iff.1 hlast] at h
      cases h
    | some last => exact .inr (.inr ⟨last, rfl, rfl, rfl⟩)

theorem mem_of_findSome? {all : List (Found ImportDecl)} {module name : List Char}
    {f : Found ImportDecl} {i : Nat} {s : Specifier}
    (h : all.findSome? (itemFor? module name) = some (f, i, s)) :
    f ∈ all ∧ s ∈ f.value.named.getD [] := by
  obtain ⟨g, hg, hread⟩ := List.exists_of_findSome?_eq_some h
  obtain rfl : f = g := fst_of_itemFor? hread
  unfold itemFor? at hread
  split at hread
  · cases hread
  · obtain ⟨j, -, hj⟩ := Option.bind_eq_some_iff.1 hread
    obtain ⟨t, ht, heq⟩ := Option.map_eq_some_iff.1 hj
    cases heq
    exact ⟨hg, List.mem_of_getElem? ht⟩

/-- What a change can be when a name becomes `new` of `target`: it is about declarations there are, with
the items they have and the moved one. -/
inductive ImportChange.Arises (all : List (Found ImportDecl)) (target new : List Char) :
    ImportChange → Prop
  | written {f : Found ImportDecl} (hf : f ∈ all) {d : ImportDecl}
      (hd : d = f.value ∨ d = { f.value with module := target } ∨ d = f.value.withBraces)
      {items : List Specifier} (hitems : ∀ t ∈ items, t ∈ f.value.named.getD [] ∨
        ∃ g ∈ all, ∃ s ∈ g.value.named.getD [], t = s.renamed new) :
      Arises all target new (.written f d items)
  | dropped {f : Found ImportDecl} (hf : f ∈ all) : Arises all target new (.dropped f)
  | kept {g : Found ImportDecl} (hg : g ∈ all) : Arises all target new (.kept g)
  | added {last f : Found ImportDecl} (hlast : all.getLast? = some last) (hf : f ∈ all)
      {s : Specifier} (hs : s ∈ f.value.named.getD []) : Arises all target new
        (.added last (newLine target f.value.quote f.value.semicolon) (s.renamed new))

section Arises

variable {all : List (Found ImportDecl)} {f : Found ImportDecl} {s : Specifier}
  {target new : List Char}

theorem arises_removal (hf : f ∈ all) (i : Nat) : (ImportChange.removal f i).Arises all target new := by
  unfold ImportChange.removal
  dsimp only
  split
  · exact .dropped hf
  · exact .written hf (.inl rfl) fun t ht => .inl (List.mem_of_mem_eraseIdx ht)

theorem arises_additions (hf : f ∈ all) (hs : s ∈ f.value.named.getD []) {c : ImportChange}
    (hc : c ∈ additions all target f (s.renamed new)) : c.Arises all target new := by
  rcases additions_cases hf target (s.renamed new) with
    ⟨g, hg, -, hadd⟩ | ⟨g, hg, -, hadd⟩ | ⟨last, -, hlast, hadd⟩
  · obtain rfl := List.mem_singleton.1 (hadd ▸ hc)
    exact .kept (List.mem_of_find?_eq_some hg)
  · obtain rfl := List.mem_singleton.1 (hadd ▸ hc)
    refine .written (List.mem_of_find?_eq_some hg) (.inr (.inr rfl)) fun t ht => ?_
    rcases List.mem_append.1 ht with ht | ht
    · exact .inl ht
    · exact .inr ⟨f, hf, s, hs, List.mem_singleton.1 ht⟩
  · obtain rfl := List.mem_singleton.1 (hadd ▸ hc)
    exact .added hlast hf hs

theorem arises_moveChanges {source old : List Char} {c : ImportChange}
    (hc : c ∈ moveChanges all source old target new) : c.Arises all target new := by
  unfold moveChanges at hc
  cases hfound : all.findSome? (itemFor? source old) with
  | none =>
    rw [hfound] at hc
    cases hc
  | some found =>
    obtain ⟨f, i, s⟩ := found
    obtain ⟨hf, hs⟩ := mem_of_findSome? hfound
    rw [hfound] at hc
    dsimp only at hc
    split at hc
    · split at hc
      · cases hc
      · obtain rfl := List.mem_singleton.1 hc
        refine .written hf (.inl rfl) fun t ht => ?_
        rcases List.mem_or_eq_of_mem_set (mem_of_mem_dropRebound ht) with ht | rfl
        · exact .inl ht
        · exact .inr ⟨f, hf, s, hs, rfl⟩
    · rcases List.mem_cons.1 hc with rfl | hc
      · exact arises_removal hf i
      · exact arises_additions hf hs hc

theorem arises_repointChanges {source : List Char} {c : ImportChange}
    (hc : c ∈ repointChanges all source target) : c.Arises all target new := by
  unfold repointChanges at hc
  split at hc
  · cases hc
  · obtain ⟨f, hf, rfl⟩ := List.mem_map.1 hc
    exact .written (List.mem_of_mem_filter hf) (.inr (.inl rfl)) fun t ht => .inl ht

theorem arises_importChanges {source : List Char} {named newName : Option (List Char)}
    {c : ImportChange} (hc : c ∈ importChanges all source named target newName) :
    c.Arises all ((given? (some target)).getD source)
      ((given? newName).getD ((given? named).getD [])) := by
  unfold importChanges at hc
  cases hnamed : given? named with
  | none =>
    rw [hnamed] at hc
    exact arises_repointChanges hc
  | some old =>
    rw [hnamed] at hc
    exact arises_moveChanges hc

theorem ImportChange.Arises.place_mem {c : ImportChange} (h : c.Arises all target new) :
    c.place ∈ all := by
  cases h with
  | written hf => exact hf
  | dropped hf => exact hf
  | kept hg => exact hg
  | added hlast => exact List.mem_of_getLast? hlast

end Arises

theorem start_ne_of_takes {all : List (Found ImportDecl)} {module : List Char}
    {origin g : Found ImportDecl} (h : all.find? (takes module origin) = some g) :
    g ∈ all ∧ g.value.module = module ∧ g.start ≠ origin.start := by
  obtain ⟨⟨hmodule, hstart⟩, -⟩ := by simpa [takes] using List.find?_some h
  exact ⟨List.mem_of_find?_eq_some h, hmodule, hstart⟩

variable {text : List Char} {f g : Found ImportDecl}

theorem start_lt_stop (hf : f ∈ imports text) : f.start < f.stop ∧ f.stop ≤ text.length := by
  obtain ⟨p⟩ := nonempty_place hf
  exact ⟨p.start_lt_stop, p.stop_le⟩

theorem apart_singleton {e : Edit} (h : e.start ≤ e.stop) (hlen : e.stop ≤ text.length) :
    Apart text [e] :=
  ⟨List.pairwise_singleton _ _, List.forall_mem_singleton.2 ⟨h, hlen⟩⟩

theorem apart_pair {e later : Edit} (hstart : e.start < later.start) (hstop : e.stop ≤ later.start)
    (hcovers : e.start ≤ e.stop) (hlater : later.start ≤ later.stop)
    (hlen : later.stop ≤ text.length) : Apart text [e, later] := by
  refine ⟨List.pairwise_pair.2 ⟨hstart, hstop⟩, fun e' he' => ?_⟩
  simp only [List.mem_cons, List.not_mem_nil, or_false] at he'
  rcases he' with rfl | rfl
  · exact ⟨hcovers, by omega⟩
  · exact ⟨hlater, hlen⟩

/-- Two declarations stand apart, each with its line. -/
theorem lineEnd_le_or_le (hf : f ∈ imports text) (hg : g ∈ imports text) (hne : g.start ≠ f.start) :
    g.stop ≤ f.start ∨ lineEnd text f.stop ≤ g.start := by
  obtain ⟨before, after, h⟩ := List.append_of_mem hf
  have hside := hg
  rw [h, List.mem_append, List.mem_cons] at hside
  rcases hside with hside | rfl | hside
  · obtain ⟨front, between, rfl⟩ := List.append_of_mem hside
    rw [List.append_assoc, List.cons_append] at h
    exact .inl (stop_le_start h (by simp))
  · exact absurd rfl hne
  · exact .inr (lineEnd_le_start hf hg (stop_le_start h hside)).1

theorem apart_removal (hf : f ∈ imports text) (i : Nat) : Apart text [withoutItem text f i] := by
  obtain ⟨hstart, hlen⟩ := start_lt_stop hf
  obtain ⟨p⟩ := nonempty_place hf
  obtain ⟨hstop, hend⟩ := p.stop_withoutItem i
  refine apart_singleton ?_ (Nat.le_trans hend (le_lineEnd hlen).2)
  rw [start_withoutItem]
  omega

theorem apart_removal_written (hf : f ∈ imports text) (hg : g ∈ imports text)
    (hne : g.start ≠ f.start) (i : Nat) (new : List Char) :
    Apart text [withoutItem text f i, ⟨g.start, g.stop, new⟩] ∨
      Apart text [⟨g.start, g.stop, new⟩, withoutItem text f i] := by
  obtain ⟨hf', hflen⟩ := start_lt_stop hf
  obtain ⟨hg', hglen⟩ := start_lt_stop hg
  obtain ⟨p⟩ := nonempty_place hf
  obtain ⟨hstop, hend⟩ := p.stop_withoutItem i
  have hlen := (le_lineEnd hflen).2
  have hstart := start_withoutItem text f i
  rcases lineEnd_le_or_le hf hg hne with hside | hside
  · exact .inr (apart_pair (by dsimp only; omega) (by dsimp only; omega) (by dsimp only; omega)
      (by omega) (by omega))
  · exact .inl (apart_pair (by dsimp only; omega) (by dsimp only; omega) (by omega)
      (by dsimp only; omega) (by dsimp only; omega))

theorem apart_removal_added (hf : f ∈ imports text) {last : Found ImportDecl}
    (hlast : (imports text).getLast? = some last) (i : Nat) (line : List Char) :
    Apart text [withoutItem text f i, lineEdit text last.stop line] := by
  obtain ⟨hf', hflen⟩ := start_lt_stop hf
  obtain ⟨-, hlastlen⟩ := start_lt_stop (List.mem_of_getLast? hlast)
  obtain ⟨before, after, h⟩ := List.append_of_mem hf
  obtain ⟨hbehind, -⟩ := lineEnd_le_last h hlast
  obtain ⟨p⟩ := nonempty_place hf
  obtain ⟨hstop, hend⟩ := p.stop_withoutItem i
  have hlen := (le_lineEnd hlastlen).2
  have hstart := start_withoutItem text f i
  exact apart_pair (by dsimp only [lineEdit]; omega) (by dsimp only [lineEdit]; omega) (by omega)
    (Nat.le_refl _) hlen

theorem apart_nil (text : List Char) : Apart text [] := ⟨List.Pairwise.nil, by simp⟩

/-- The declaration, importing from another module. -/
def repoint (new : List Char) (f : Found ImportDecl) : Edit :=
  ⟨f.start, f.stop, { f.value with module := new }.render (f.value.named.getD [])⟩

/-- The edits that repoint declarations which stand in order. -/
theorem apart_repoint {before fs : List (Found ImportDecl)} (h : imports text = before ++ fs)
    (old new : List Char) : Apart text ((fs.filter (·.value.module == old)).map (repoint new)) := by
  have hsorted : (imports text).Pairwise fun f g => f.start < g.start ∧ f.stop ≤ g.start :=
    (pairwise_foundFrom importDecl 0 0 none text).and
      (pairwise_stop_le_start importDecl 0 0 none text)
  rw [h] at hsorted
  refine ⟨List.pairwise_map.2 ((List.pairwise_append.1 hsorted).2.1.filter _), fun e he => ?_⟩
  obtain ⟨f, hf, rfl⟩ := List.mem_map.1 he
  obtain ⟨hstart, hlen⟩ := start_lt_stop (h ▸ List.mem_append_right _ (List.mem_of_mem_filter hf))
  exact ⟨Nat.le_of_lt hstart, hlen⟩

theorem apart_repointChanges (text old new : List Char) :
    Apart text ((repointChanges (imports text) old new).filterMap (·.edit? text)) := by
  unfold repointChanges
  split
  · exact apart_nil text
  · rw [List.filterMap_map]
    have hedits : (ImportChange.edit? text ∘ fun f => ImportChange.written f
        { f.value with module := new } (f.value.named.getD [])) = some ∘ repoint new := rfl
    rw [hedits, List.filterMap_eq_map]
    exact apart_repoint (List.nil_append (imports text)).symm old new

theorem apart_moveChanges (text source old target new : List Char) : ∃ edits, edits.Perm
    ((moveChanges (imports text) source old target new).filterMap (·.edit? text)) ∧ Apart text edits := by
  unfold moveChanges
  rw [← findImported?_eq_findSome?]
  cases hfound : findImported? text source old with
  | none => exact ⟨[], List.Perm.refl _, apart_nil text⟩
  | some found =>
    obtain ⟨f, i, s⟩ := found
    have hf := (of_findImported? hfound).1
    obtain ⟨hstart, hlen⟩ := start_lt_stop hf
    dsimp only
    split
    · split
      · exact ⟨[], List.Perm.refl _, apart_nil text⟩
      · exact ⟨_, List.Perm.refl _, apart_singleton (Nat.le_of_lt hstart) hlen⟩
    · rw [List.filterMap_cons_some (ImportChange.edit?_removal text f i)]
      rcases additions_cases hf target (s.renamed new) with
        ⟨g, -, -, hadd⟩ | ⟨g, hg, -, hadd⟩ | ⟨last, -, hlast, hadd⟩
      · rw [hadd]
        exact ⟨_, List.Perm.refl _, apart_removal hf i⟩
      · rw [hadd]
        obtain ⟨hg, -, hne⟩ := start_ne_of_takes hg
        rcases apart_removal_written hf hg hne i
          (g.value.withBraces.render (g.value.named.getD [] ++ [s.renamed new])) with hapart | hapart
        · exact ⟨_, List.Perm.refl _, hapart⟩
        · exact ⟨_, List.Perm.swap _ _ _, hapart⟩
      · rw [hadd]
        exact ⟨_, List.Perm.refl _, apart_removal_added hf hlast i _⟩

/-- The changes of one edit of imports lie apart, so none of them is lost. -/
theorem exists_apart_importEdits (text source : List Char) (named : Option (List Char))
    (target : List Char) (newName : Option (List Char)) :
    ∃ edits, edits.Perm (importEdits text source named target newName) ∧ Apart text edits := by
  unfold importEdits importChanges
  cases given? named with
  | none => exact ⟨_, List.Perm.refl _, apart_repointChanges _ _ _⟩
  | some old => exact apart_moveChanges _ _ _ _ _

end Codemod.Source
