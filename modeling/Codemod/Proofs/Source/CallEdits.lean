import Codemod.Proofs.Source.RenamedCall

/-! What is carried out for the calls of a name. A call is looked for in the whole text, in literals and comments
too; an edit covers it from its name up to the closing parenthesis and writes the edited call in its place. -/
namespace Codemod.Source
open Text

/-- What is carried out to edit the calls of a name. -/
def callEdits (text callee : List Char) (edits : List CallEdit) : List Edit :=
  (found (calledName callee) text).filterMap (editCallAt? text callee edits)

/-- The call of a name with the arguments that stand between its parentheses. -/
def readCall (callee inner : List Char) : Call := ⟨callee, splitArguments inner⟩

/-- What the edits make of the call. -/
def editedCall (callee inner : List Char) (edits : List CallEdit) : Call :=
  edits.foldl CallEdit.apply (readCall callee inner)

/-- What is written between the parentheses of the edited call. -/
def writtenArguments (callee inner : List Char) (edits : List CallEdit) : List Char :=
  if (editedCall callee inner edits).arguments = splitArguments inner then inner
  else joinWith ", ".toList (editedCall callee inner edits).arguments

/-- The edit covers a call that the call edits change, and writes the edited call. -/
structure EditsCall (callee : List Char) (edits : List CallEdit) (gap inner front covered behind : List Char)
    (e : Edit) : Prop where
  old : covered = callee ++ (gap ++ '(' :: (inner ++ [')']))
  calls : CallsBehind front gap
  closes : bracketExtent? '(' (inner ++ ')' :: behind) = some (inner.length + 1)
  changed : editedCall callee inner edits ≠ readCall callee inner
  new : e.text = (editedCall callee inner edits).name ++ (gap ++ '(' :: (writtenArguments callee inner edits ++ [')']))

variable {text callee : List Char} {edits : List CallEdit}

theorem EditsCall.covered_ne_nil {gap inner front covered behind : List Char} {e : Edit}
    (h : EditsCall callee edits gap inner front covered behind e) : covered ≠ [] := by
  rw [h.old]
  simp

/-- Without edits nothing is carried out. -/
theorem callEdits_nil (text callee : List Char) : callEdits text callee [] = [] := by
  refine List.filterMap_eq_nil_iff.2 fun f _ => ?_
  unfold editCallAt?
  split
  · rfl
  · dsimp only
    split
    · rfl
    · exact if_pos rfl

theorem rewriteCall_eq_splice (text : List Char) (hcallee : callee ≠ []) (edits : List CallEdit) :
    rewriteCall text callee edits = splice text (callEdits text callee edits) := by
  unfold rewriteCall
  split
  · next hempty =>
    obtain rfl : edits = [] := by simpa [hcallee] using hempty
    rw [callEdits_nil, splice_nil]
  · rfl

/-- A text is cut at the parenthesis that closes. -/
theorem exists_inner_of_bracketExtent? {rest : List Char} {n : Nat} (h : bracketExtent? '(' rest = some n) :
    ∃ inner behind, rest = inner ++ ')' :: behind ∧ n = inner.length + 1 ∧ rest.take (n - 1) = inner := by
  obtain ⟨hpos, hle⟩ := bracketExtent?_le h
  have hlast := getElem?_of_bracketExtent? rfl h
  have hlength : (rest.take (n - 1)).length = n - 1 := List.length_take_of_le (by omega)
  refine ⟨rest.take (n - 1), rest.drop n, ?_, by omega, rfl⟩
  have hdrop : rest.drop (n - 1) = ')' :: rest.drop (n - 1 + 1) := by
    obtain ⟨hlt, hget⟩ := List.getElem?_eq_some_iff.1 hlast
    rw [List.drop_eq_getElem_cons hlt, hget]
  rw [Nat.sub_add_cancel hpos] at hdrop
  rw [← hdrop, List.take_append_drop]

/-- A called name that has been found, where it stands. -/
theorem exists_front_of_mem_found {f : Found (List Char)} (h : f ∈ found (calledName callee) text) :
    ∃ front rest, text = front ++ (callee ++ (f.value ++ '(' :: rest)) ∧
      (lastOr none front).any continuesName = false ∧ (∀ c ∈ f.value, isBlank c = true) ∧
      f.start = front.length ∧ f.length = callee.length + f.value.length + 1 := by
  obtain ⟨front, tail, htext, hstart, hread⟩ := (isPlace_of_mem_foundFrom h).1
  obtain ⟨hbehind, hlen, hgap, rest, rfl⟩ := calledName_eq_some_iff.1 hread
  rw [Nat.zero_add] at hstart
  exact ⟨front, rest, htext, hbehind, hgap, hstart, hlen⟩

/-- A call that is edited, where it stands. -/
theorem exists_site_callEdit {e : Edit} (he : e ∈ callEdits text callee edits) :
    ∃ front covered behind, Site text e front covered behind ∧
      ∃ gap inner, EditsCall callee edits gap inner front covered behind e := by
  obtain ⟨f, hf, he⟩ := List.mem_filterMap.1 he
  obtain ⟨front, rest, htext, hbehind, hgap, hstart, hlen⟩ := exists_front_of_mem_found hf
  have hcut := take_drop_opening callee f.value rest hstart hlen
  rw [← htext] at hcut
  unfold editCallAt? at he
  rw [hcut.1, hcut.2] at he
  obtain ⟨hcalled, he⟩ := Option.ite_none_left_eq_some.1 he
  dsimp only at he
  split at he
  · cases he
  · next n hn =>
    obtain ⟨inner, behind, rfl, rfl, hinner⟩ := exists_inner_of_bracketExtent? hn
    rw [hinner] at he
    obtain ⟨hchanged, he⟩ := Option.ite_none_left_eq_some.1 he
    obtain rfl := Option.some_inj.1 he
    refine ⟨front, callee ++ (f.value ++ '(' :: (inner ++ [')'])), behind, ⟨?_, hstart, ?_⟩, f.value, inner,
      rfl, ⟨hbehind, by simpa using hcalled, hgap⟩, hn, hchanged, ?_⟩
    · rw [htext]
      simp
    · simp only [Found.stop, hlen, List.length_append, List.length_cons, List.length_nil]
      omega
    · simp only [List.append_assoc, List.cons_append]
      rfl

/-- The calls that are edited are written where they stood. -/
theorem revised_callEdits (text callee : List Char) (edits : List CallEdit) :
    Revised (fun front covered behind e => ∃ gap inner, EditsCall callee edits gap inner front covered behind e) []
      (carriedOut (callEdits text callee edits)) text (splice text (callEdits text callee edits)) := by
  refine revised_carriedOut (fun e he => ?_) fun e he => exists_site_callEdit (mem_of_mem_carriedOut he)
  obtain ⟨front, covered, behind, hsite, -⟩ := exists_site_callEdit he
  exact ⟨front, covered, behind, hsite⟩

end Codemod.Source
