import Codemod.Plan.Apply
import Codemod.Proofs.Source.LineEnd.Import
import Codemod.Proofs.Source.LineEnd.Markup
import Codemod.Proofs.Source.Usage

/-! What the operations of a plan keep of a text, and where markup does not follow them. -/
namespace Codemod
open Source

/-! # Line ends

All operations cut and copy within the lines that are there, but for the two places where an edit of imports
lays text out anew: a brace list that goes over several lines, and a declaration on a line of its own. -/

/-- The texts that an operation is given. -/
def Op.arguments : Op → List String
  | .editImport file fromModule fromNamed toModule toNamed =>
    [file, fromModule, toModule] ++ fromNamed.toList ++ toNamed.toList
  | .renameElement file old new => [file, old, new]
  | .removeAttribute file tag attr => [file, tag, attr]
  | .convertAttribute file tag fromAttr toAttr => [file, tag, fromAttr, toAttr]
  | .rewriteCall file callee edits => [file, callee] ++ edits.filterMap (·.value)
  | .editText file anchor before after _ => [file, before, after] ++ anchor.toList
  | .formatFiles files => files

/-- The operation is given no text that goes over the end of a line. -/
def Op.OneLine (op : Op) : Prop := ∀ argument ∈ op.arguments, ∀ c ∈ argument.toList, Inline c

instance (op : Op) : Decidable op.OneLine :=
  decidable_of_iff ((op.arguments.all fun argument => argument.toList.all (Inline ·)) = true)
    (by simp [Op.OneLine])

/-- The changes that an operation makes to the imports of a text. -/
def Op.importChanges (text : List Char) : Op → List ImportChange
  | .editImport _ fromModule fromNamed toModule toNamed =>
    Source.importChanges (imports text) fromModule.toList (fromNamed.map String.toList)
      toModule.toList (toNamed.map String.toList)
  | _ => []

theorem mem_of_renamedBinding? {text fromModule old new : List Char}
    {fromNamed toNamed : Option (List Char)}
    (h : renamedBinding? text fromModule fromNamed toNamed = some (old, new)) :
    fromNamed = some old ∧ toNamed = some new := by
  unfold renamedBinding? at h
  split at h
  · next hold hnew =>
    obtain ⟨-, heq⟩ := Option.ite_none_right_eq_some.1 h
    cases heq
    exact ⟨(Option.filter_eq_some_iff.1 hold).1, (Option.filter_eq_some_iff.1 hnew).1⟩
  · cases h

section

variable {text : List Char} {op : Op}

/-- The renaming of elements that comes with an edit of imports has no say in the line ends. -/
theorem crlf_apply_editImport_iff {file fromModule toModule : String} {fromNamed toNamed : Option String}
    (hop : (Op.editImport file fromModule fromNamed toModule toNamed).OneLine) :
    Crlf ((Op.editImport file fromModule fromNamed toModule toNamed).apply text) ↔
      Crlf (editImport text fromModule.toList (fromNamed.map String.toList) toModule.toList
        (toNamed.map String.toList)) := by
  unfold Op.apply
  dsimp only
  split
  · next hsame => rw [hsame]
  · split
    · next old new hrenamed =>
      obtain ⟨hold, hnew⟩ := mem_of_renamedBinding? hrenamed
      obtain ⟨old, hfrom, rfl⟩ := Option.map_eq_some_iff.1 hold
      obtain ⟨new, hto, rfl⟩ := Option.map_eq_some_iff.1 hnew
      exact crlf_renameElement_iff (hop old (by simp [Op.arguments, hfrom]))
        (hop new (by simp [Op.arguments, hto]))
    · exact Iff.rfl

/-- Whatever an operation does to a text whose lines end in a carriage return and a line feed, they all
end so afterwards, unless it lays out an import with line feeds of its own; and then they do not. -/
theorem Op.apply_keeps_line_ends_iff (h : Crlf text) (hop : op.OneLine) :
    Crlf (op.apply text) ↔ ∀ c ∈ op.importChanges text, c.addsFeed = false := by
  cases op with
  | editImport file fromModule fromNamed toModule toNamed =>
    have hpart {part : Option String}
        (hin : ∀ s ∈ part, s ∈ (editImport file fromModule fromNamed toModule toNamed).arguments) :
        ∀ cs ∈ part.map String.toList, ∀ c ∈ cs, Inline c := by
      intro cs hcs
      obtain ⟨s, hs, rfl⟩ := Option.map_eq_some_iff.1 hcs
      exact hop s (hin s hs)
    rw [crlf_apply_editImport_iff hop]
    refine crlf_editImport_iff h (hop fromModule (by simp [Op.arguments]))
      (hop toModule (by simp [Op.arguments])) (hpart fun s hs => ?_) (hpart fun s hs => ?_)
    · simp [Op.arguments, Option.mem_def.1 hs]
    · simp [Op.arguments, Option.mem_def.1 hs]
  | renameElement file old new =>
    have hcrlf := (crlf_renameElement_iff (hop old (by simp [Op.arguments]))
      (hop new (by simp [Op.arguments]))).2 h
    exact iff_of_true hcrlf (List.forall_mem_nil _)
  | removeAttribute file tag attr =>
    exact iff_of_true (crlf_removeAttribute h _ _) (List.forall_mem_nil _)
  | convertAttribute file tag fromAttr toAttr =>
    have hcrlf := crlf_convertAttribute h tag.toList fromAttr.toList (hop toAttr (by simp [Op.arguments]))
    exact iff_of_true hcrlf (List.forall_mem_nil _)
  | rewriteCall file callee edits =>
    have hedits : ∀ e ∈ edits, e.Inline := fun e he v hv =>
      hop v (List.mem_append_right _ (List.mem_filterMap.2 ⟨e, he, hv⟩))
    exact iff_of_true (crlf_rewriteCall h (hop callee (by simp [Op.arguments])) hedits)
      (List.forall_mem_nil _)
  | editText file anchor before after maxChars =>
    have hcrlf := crlf_editNearAnchor h (anchor.map String.toList)
      (hop before (by simp [Op.arguments])) (hop after (by simp [Op.arguments])) maxChars anchorWindow
    exact iff_of_true hcrlf (List.forall_mem_nil _)
  | formatFiles files => exact iff_of_true h (List.forall_mem_nil _)

/-- An import moved onto a new line leaves a file with mixed line ends; one renamed in place does not. -/
theorem Op.apply_keeps_line_ends_iff_sample :
    ¬ Crlf ((Op.editImport "App.tsx" "m" (some "a") "n" none).apply
        "import \x7b a \x7d from 'm';\r\nrun();\r\n".toList) ∧
      Crlf ((Op.editImport "App.tsx" "m" (some "a") "m" (some "b")).apply
        "import \x7b a \x7d from 'm';\r\nrun();\r\n".toList) := by
  constructor
  · intro hcrlf
    exact absurd ((Op.apply_keeps_line_ends_iff (by decide) (by decide)).1 hcrlf) (by decide)
  · exact (Op.apply_keeps_line_ends_iff (by decide) (by decide)).2 (by decide)

end

/-! # Renamed imports and the markup that uses them

When an edit of imports gives a name without an alias another name, the tags of the old name follow; a tag of
one of its members, such as `<Old.Item>`, is not among them and goes on using a name that is no longer there. -/

section

variable {text : List Char} {file fromModule old toModule new : String}

/-- The text after the edit of its imports, before markup follows. -/
def Op.importsEdited (text : List Char) : Op → List Char
  | .editImport _ fromModule fromNamed toModule toNamed =>
    Source.editImport text fromModule.toList (fromNamed.map String.toList) toModule.toList
      (toNamed.map String.toList)
  | _ => text

theorem renamedBinding?_of_importedAs? (hold : old.toList ≠ []) (hnew : new.toList ≠ [])
    (hne : new.toList ≠ old.toList)
    (hfound : importedAs? text fromModule.toList old.toList = some old.toList) :
    renamedBinding? text fromModule.toList (some old.toList) (some new.toList) =
      some (old.toList, new.toList) := by
  have hgiven {cs : List Char} (h : cs ≠ []) : given? (some cs) = some cs := by
    simp [given?, Option.filter, h]
  simp [renamedBinding?, hgiven hold, hgiven hnew, hfound, hne]

/-- Markup follows a renamed import whenever the imports of the text change. -/
theorem apply_editImport_eq (hold : old.toList ≠ []) (hnew : new.toList ≠ [])
    (hne : new.toList ≠ old.toList)
    (hfound : importedAs? text fromModule.toList old.toList = some old.toList) :
    (Op.editImport file fromModule (some old) toModule (some new)).apply text =
      if (Op.editImport file fromModule (some old) toModule (some new)).importsEdited text = text then
        text
      else renameElement
        ((Op.editImport file fromModule (some old) toModule (some new)).importsEdited text)
        old.toList new.toList := by
  unfold Op.apply
  simp only [Option.map_some, renamedBinding?_of_importedAs? hold hnew hne hfound]
  rfl

/-- When an import without an alias is renamed, every live tag of the old name follows, and markup still
uses the old name exactly when it did so, once the imports had been edited, other than in a tag of
that name. -/
theorem Op.apply_renames_markup_iff (hold : TagName old.toList) (hnew : Identifier new.toList)
    (hne : new.toList ≠ old.toList)
    (hfound : importedAs? text fromModule.toList old.toList = some old.toList) :
    let op := Op.editImport file fromModule (some old) toModule (some new)
    (op.importsEdited text ≠ text → ∀ i, ¬ LiveTag old.toList (op.apply text) i) ∧
      ((∃ i, LiveUse old.toList (op.apply text) i) ↔
        ∃ i, LiveUse old.toList (op.importsEdited text) i ∧
          ¬ (op.importsEdited text ≠ text ∧ LiveTag old.toList (op.importsEdited text) i)) := by
  intro op
  rw [apply_editImport_eq hold.ne_nil hnew.ne_nil hne hfound]
  by_cases hsame : op.importsEdited text = text
  · rw [if_pos hsame, hsame]
    simp
  · rw [if_neg hsame, exists_liveUse_renameElement_iff hold hnew hne.symm]
    have hrenamed : Renamed old.toList new.toList [] none (op.importsEdited text)
        (Source.renameElement (op.importsEdited text) old.toList new.toList) :=
      renamed_renameElement hold hnew.tagName hne.symm
    have hfree : TagFree old.toList [] none
        (Source.renameElement (op.importsEdited text) old.toList new.toList) :=
      hrenamed.tagFree hold hnew.tagName hne.symm (.inl rfl)
    exact ⟨fun _ => not_liveTag_of_tagFree hfree, exists_congr fun i => and_congr_right fun _ =>
      not_congr (and_iff_right hsame).symm⟩

/-- A member of the renamed import keeps the old name, beside a tag that follows. -/
theorem Op.apply_renames_markup_iff_sample :
    TagName "a".toList ∧ Identifier "b".toList ∧ "b".toList ≠ "a".toList ∧
    importedAs? "import \x7b a \x7d from 'm';\n<a><a.Item /></a>\n".toList "m".toList "a".toList =
      some "a".toList ∧
    (Op.editImport "App.tsx" "m" (some "a") "m" (some "b")).importsEdited
        "import \x7b a \x7d from 'm';\n<a><a.Item /></a>\n".toList =
      "import \x7b b \x7d from 'm';\n<a><a.Item /></a>\n".toList ∧
    ∃ i, LiveUse "a".toList ((Op.editImport "App.tsx" "m" (some "a") "m" (some "b")).apply
      "import \x7b a \x7d from 'm';\n<a><a.Item /></a>\n".toList) i := by
  have hold : TagName "a".toList := ⟨by decide, List.all_iff_forall_prop.1 (by decide)⟩
  have hnew : Identifier "b".toList := ⟨by decide, List.all_iff_forall_prop.1 (by decide)⟩
  have hne : "b".toList ≠ "a".toList := by decide
  have hfound : importedAs? "import \x7b a \x7d from 'm';\n<a><a.Item /></a>\n".toList "m".toList
      "a".toList = some "a".toList := by decide +kernel
  have hedited : (Op.editImport "App.tsx" "m" (some "a") "m" (some "b")).importsEdited
        "import \x7b a \x7d from 'm';\n<a><a.Item /></a>\n".toList =
      "import \x7b b \x7d from 'm';\n<a><a.Item /></a>\n".toList := by decide +kernel
  refine ⟨hold, hnew, hne, hfound, hedited, ?_⟩
  rw [(Op.apply_renames_markup_iff hold hnew hne hfound).2, hedited]
  exact ⟨26, by decide +kernel, fun h => absurd h.2.2 (by decide +kernel)⟩

end

end Codemod
