import Codemod.Proofs.Source.Capture

/-! Names that are imported as types only, each by itself or all names of a declaration at once. A name that
goes to another module takes with it what stands in front of it, but not what stands in front of its
declaration. -/
namespace Codemod.Source
open Text

/-- Whether a name of the declaration is imported as a type only. -/
def ImportDecl.asType (d : ImportDecl) (s : Specifier) : Bool := s.typeOnly || !d.typeWord.isEmpty

theorem ImportDecl.typeOnly_eq_asType_iff (d : ImportDecl) (s : Specifier) :
    s.typeOnly = d.asType s ↔ d.typeWord = [] ∨ s.typeOnly = true := by
  unfold ImportDecl.asType
  cases s.typeOnly <;> simp

/-- The names of a declaration with its module, each with whether it is imported as a type only. -/
def ImportDecl.typedNames (d : ImportDecl) : List ((List Char × Specifier) × Bool) :=
  (d.named.getD []).map fun s => ((d.module, s), d.asType s)

/-- The imported names of a text, each with whether it is imported as a type only. -/
def typedBindings (text : List Char) : List ((List Char × Specifier) × Bool) :=
  (declarations text).flatMap ImportDecl.typedNames

/-- A declaration that is written with other items imports types only if it did before. -/
theorem ImportDecl.Rewritten.typedNames_eq {d : ImportDecl} {items : List Specifier}
    {ds : List ImportDecl} (h : d.Rewritten items ds) (hd : d.IsRead)
    (hdefault : ∀ name ∈ d.defaultName, IsName name) :
    ds.flatMap ImportDecl.typedNames = items.map fun s => ((d.module, s), d.asType s) := by
  cases h with
  | gone empty => simp [empty]
  | @reread d' read =>
    have htyped (s : Specifier) (hne : items ≠ []) : d'.asType s = d.asType s := by
      have huntyped := ImportDecl.not_readsAsType hdefault (fun item hitem => (hd.allNames item hitem).2) hne
      have hword : d'.typeWord = [] ↔ d.typeWord = [] := read.typeWord.trans (and_iff_left huntyped)
      have hempty : d'.typeWord.isEmpty = d.typeWord.isEmpty := by
        rw [Bool.eq_iff_iff, List.isEmpty_iff, List.isEmpty_iff, hword]
      rw [ImportDecl.asType, ImportDecl.asType, hempty]
    rw [List.flatMap_singleton, ImportDecl.typedNames, read.named, read.module]
    exact List.map_congr_left fun s hs => by rw [htyped s (List.ne_nil_of_mem hs)]

/-- The declaration that would take the item binds its local name already. -/
def Taken (text module : List Char) (origin : Found ImportDecl) (moved : Specifier) : Prop :=
  ∃ g ∈ (imports text).find? (takes module origin), ∃ t ∈ g.value.named.getD [], t.bound = moved.bound

section

variable {text : List Char} {f g : Found ImportDecl} {before after : List (Found ImportDecl)}
  {left right : List Specifier} {s moved : Specifier}
  (hnames : ∀ x ∈ bindings text, x.2.Braceless)
  (hdefaults : ∀ d ∈ declarations text, ∀ name ∈ d.defaultName, IsName name)
  (hf : f ∈ imports text) (hitems : f.value.named.getD [] = left ++ s :: right)

include hitems in
theorem typedNames_split : f.value.typedNames =
    left.map (fun t => ((f.value.module, t), f.value.asType t)) ++
      ((f.value.module, s), f.value.asType s) ::
        right.map fun t => ((f.value.module, t), f.value.asType t) := by
  simp [ImportDecl.typedNames, hitems]

include hdefaults hf in
theorem typedNames_withoutItem {ds : List ImportDecl} (h : f.value.Rewritten (left ++ right) ds) :
    ds.flatMap ImportDecl.typedNames = left.map (fun t => ((f.value.module, t), f.value.asType t)) ++
      right.map fun t => ((f.value.module, t), f.value.asType t) := by
  obtain ⟨p⟩ := nonempty_place hf
  rw [h.typedNames_eq p.isRead (hdefaults _ (List.mem_map_of_mem hf)), List.map_append]

include hnames hdefaults hf hitems in
/-- An item that goes elsewhere leaves the others what they were. -/
theorem typedBindings_withoutItem : ∃ front back,
    typedBindings text = front ++ ((f.value.module, s), f.value.asType s) :: back ∧
      typedBindings (splice text [withoutItem text f left.length]) = front ++ back := by
  obtain ⟨before, after, h⟩ := List.append_of_mem hf
  obtain ⟨ds, heq, hds⟩ := declarations_withoutItem hnames hitems h
  refine ⟨(before.map (·.value)).flatMap ImportDecl.typedNames ++
      left.map (fun t => ((f.value.module, t), f.value.asType t)),
    right.map (fun t => ((f.value.module, t), f.value.asType t)) ++
      (after.map (·.value)).flatMap ImportDecl.typedNames, ?_, ?_⟩
  · rw [typedBindings, declarations, h, List.map_append, List.map_cons, List.flatMap_append,
      List.flatMap_cons, typedNames_split hitems]
    simp
  · rw [typedBindings, heq, List.flatMap_append, List.flatMap_append,
      typedNames_withoutItem hdefaults hf hds]
    simp

include hnames hdefaults hf hitems in
/-- An item that goes to a declaration of values is imported as a type only when it says so itself. -/
theorem exchanged_typed_withItem (hmoved : moved.Legible) (hg : g ∈ imports text)
    (hstart : g.start ≠ f.start) (hvalues : g.value.typeWord = []) (braces : List Char) :
    Exchanged ((f.value.module, s), f.value.asType s) ((g.value.module, moved), moved.typeOnly)
      (typedBindings text)
      (typedBindings (splice text [withoutItem text f left.length, withItem g braces moved])) := by
  obtain ⟨df, dg, hmove, hdf, hdg⟩ := movedBetween_withItem hnames hitems hmoved hf hg hstart braces
  obtain ⟨q⟩ := nonempty_place hg
  refine hmove.exchanged ImportDecl.typedNames (typedNames_split hitems)
    (typedNames_withoutItem hdefaults hf hdf) ?_
  rw [hdg.typedNames_eq (q.isRead.withBraces braces) (hdefaults g.value (List.mem_map_of_mem hg)),
    List.map_append]
  simp [ImportDecl.typedNames, ImportDecl.asType, hvalues]

include hnames hdefaults hitems in
theorem exchanged_typed_lineEdit (hmoved : moved.Legible) (h : imports text = before ++ f :: after)
    {last : Found ImportDecl} (hlast : (imports text).getLast? = some last) {module : List Char}
    (hmodule : IsModule module) {quote : Char} (hquote : isQuote quote = true) (semicolon : Bool) :
    Exchanged ((f.value.module, s), f.value.asType s) ((module, moved), moved.typeOnly)
      (typedBindings text)
      (typedBindings (splice text [withoutItem text f left.length,
        lineEdit text last.stop ((newLine module quote semicolon).render [moved])])) := by
  have hline := isRead_newLine hmodule hquote semicolon
  obtain ⟨df, dl, heq, hdf, hdl⟩ := declarations_lineEdit hnames hitems hmoved h hlast hline
  have hds : declarations text = before.map (·.value) ++ f.value :: after.map (·.value) := by
    simp [declarations, h]
  rw [typedBindings, typedBindings, heq, hds]
  refine exchanged_line ImportDecl.typedNames (typedNames_split hitems)
    (typedNames_withoutItem hdefaults (by simp [h]) hdf) ?_
  rw [hdl.typedNames_eq hline (by simp [newLine])]
  simp [newLine, ImportDecl.asType]

end

/-- A name that goes to another module is imported as a type only, as it was, exactly when it did not owe
that to its declaration; every other name stays what it was. When the declaration that would take the name
has its local name already, the name is left out. -/
theorem editImport_typeOnly {text source old target : List Char} {newName : Option (List Char)}
    {f : Found ImportDecl} {i : Nat} {s : Specifier}
    (hfound : findImported? text source old = some (f, i, s)) (hold : old ≠ [])
    (htarget : IsModule target) (hother : target ≠ source)
    (hnames : ∀ x ∈ bindings text, x.2.Braceless)
    (hdefaults : ∀ d ∈ declarations text, ∀ name ∈ d.defaultName, IsName name)
    (hname : ∀ new ∈ given? newName, IsName new)
    (htype : given? newName = some "type".toList → s.bound = s.imported ∨ s.typeOnly = true) :
    let moved := s.renamed ((given? newName).getD old)
    let edited := editImport text source (some old) target newName
    (Taken text target f moved → ∃ front back,
      typedBindings text = front ++ ((source, s), f.value.asType s) :: back ∧
        typedBindings edited = front ++ back) ∧
    (¬ Taken text target f moved → ∃ asType : Bool,
      Exchanged ((source, s), f.value.asType s) ((target, moved), asType)
        (typedBindings text) (typedBindings edited) ∧
      (asType = f.value.asType s ↔ f.value.typeWord = [] ∨ s.typeOnly = true)) := by
  intro moved edited
  obtain ⟨hf, rfl, hitem, rfl⟩ := of_findImported? hfound
  obtain ⟨left, right, hitems, rfl⟩ := exists_split_of_getElem? hitem
  have hmoved : moved.Legible := legible_renamed_given
    (legible_of_mem hnames hf s (List.mem_of_getElem? hitem)) hname htype
  have hedited : edited =
      splice text (withoutItem text f left.length :: addItem text target f moved) := by
    have hmove : moveImport text f.value.module s.imported target ((given? newName).getD s.imported) =
        splice text (withoutItem text f left.length :: addItem text target f moved) := by
      rw [moveImport_eq hfound, if_neg hother]
    rw [← hmove]
    have hgiven : editImport text f.value.module (some s.imported) target newName =
        moveImport text f.value.module s.imported target ((given? newName).getD s.imported) := by
      rw [editImport, given?_eq_some hold, given?_eq_some htarget.ne_nil]
      rfl
    exact hgiven
  rw [hedited, ← filterMap_edit?_additions hf]
  rcases additions_cases hf target moved with
    ⟨g, hg, hany, hadd⟩ | ⟨g, hg, hany, hadd⟩ | ⟨last, hnone, hlast, hadd⟩
  · obtain ⟨t, ht, hbound⟩ := List.any_eq_true.1 hany
    rw [hadd]
    exact ⟨fun _ => typedBindings_withoutItem hnames hdefaults hf hitems,
      fun hfree => absurd ⟨g, hg, t, ht, beq_iff_eq.1 hbound⟩ hfree⟩
  · obtain ⟨hmem, rfl, hstart⟩ := start_ne_of_takes hg
    have hvalues : g.value.typeWord = [] := by
      have htakes := List.find?_some hg
      simp only [takes, ImportDecl.takesNames, Bool.and_eq_true, List.isEmpty_iff] at htakes
      exact htakes.2.2
    rw [hadd]
    refine ⟨fun htaken => ?_, fun _ => ⟨s.typeOnly, ?_, f.value.typeOnly_eq_asType_iff s⟩⟩
    · obtain ⟨g', hg', t, ht, hbound⟩ := htaken
      obtain rfl := Option.some.inj (hg.symm.trans hg')
      exact absurd (beq_iff_eq.2 hbound) (List.any_eq_false.1 hany t ht)
    · exact exchanged_typed_withItem hnames hdefaults hf hitems hmoved hmem hstart hvalues
        g.value.withBraces.braces
  · obtain ⟨p⟩ := nonempty_place hf
    obtain ⟨before, after, h⟩ := List.append_of_mem hf
    rw [hadd]
    refine ⟨fun htaken => ?_, fun _ => ⟨s.typeOnly, ?_, f.value.typeOnly_eq_asType_iff s⟩⟩
    · obtain ⟨g, hg, -⟩ := htaken
      rw [hnone] at hg
      cases hg
    · exact exchanged_typed_lineEdit hnames hdefaults hitems hmoved h hlast htarget
        p.renderable.1.quote f.value.semicolon

/-- The word `type` in front of a name goes with it. -/
theorem editImport_typeOnly_sample :
    let text := "import \x7b type A, b \x7d from 'm';\nimport \x7b c \x7d from 'n';\n".toList
    let s : Specifier := ⟨"A".toList, "A".toList, true⟩
    (∃ f, findImported? text "m".toList "A".toList = some (f, 0, s) ∧ f.value.asType s = true ∧
      ¬ Taken text "n".toList f s) ∧
    Exchanged (("m".toList, s), true) (("n".toList, s), true) (typedBindings text)
      (typedBindings (editImport text "m".toList (some "A".toList) "n".toList none)) := by
  intro text s
  have hbindings : bindings text = [("m".toList, s), ("m".toList, ⟨"b".toList, "b".toList, false⟩),
      ("n".toList, ⟨"c".toList, "c".toList, false⟩)] := by decide +kernel
  have hnames : ∀ x ∈ bindings text, x.2.Braceless := by
    have hplain : ∀ x ∈ bindings text, IsName x.2.imported ∧ IsName x.2.bound := by
      rw [hbindings]
      decide
    exact fun x hx => Specifier.WellFormed.braceless (.inl (hplain x hx))
  have hdefaults : ∀ d ∈ declarations text, ∀ name ∈ d.defaultName, IsName name := by
    have hnone : ∀ d ∈ declarations text, d.defaultName = none := by decide +kernel
    intro d hd name hname
    rw [hnone d hd] at hname
    cases hname
  obtain ⟨f, hfound, hword, hfree⟩ : ∃ f, findImported? text "m".toList "A".toList = some (f, 0, s) ∧
      f.value.typeWord = [] ∧ ((imports text).find? (takes "n".toList f)).all (fun g =>
        (g.value.named.getD []).all (·.bound != s.bound)) = true := ⟨_, rfl, rfl, by decide +kernel⟩
  have hfree' : ¬ Taken text "n".toList f s := by
    rintro ⟨g, hg, t, ht, hbound⟩
    rw [hg] at hfree
    simpa [hbound] using List.all_eq_true.1 hfree t ht
  have htyped : f.value.asType s = true := rfl
  have htarget : IsModule "n".toList := by decide
  have hname : ∀ new ∈ given? (none : Option (List Char)), IsName new := by rintro new ⟨⟩
  obtain ⟨asType, hexchanged, hkept⟩ := (editImport_typeOnly hfound (by decide) htarget (by decide)
    hnames hdefaults hname (fun h => by cases h)).2 hfree'
  obtain rfl : asType = true := (hkept.2 (.inl hword)).trans htyped
  rw [htyped] at hexchanged
  exact ⟨⟨f, hfound, htyped, hfree'⟩, hexchanged⟩

/-! The word in front of a declaration stays with it. -/

example : editImport "import type \x7b A \x7d from 'm';\n".toList "m".toList (some "A".toList) "n".toList
    none = "import \x7b A \x7d from 'n';\n".toList := by cbv

end Codemod.Source
