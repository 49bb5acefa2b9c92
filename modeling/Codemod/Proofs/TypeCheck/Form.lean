import Codemod.Proofs.Text.Span
import Codemod.TypeCheck.Report

/-! The forms of the lines of a report. The place of a diagnostic has an opening bracket in front and no
other one, so a place cannot begin in the name of a file and go on behind it. -/
namespace Codemod.Report
open Text

/-- Decimal digits of any script, one at least. -/
structure Digits (ds : List Char) : Prop where
  ne_nil : ds ≠ []
  chars : ∀ c ∈ ds, isDigit c = true

/-- What stands in front of a code. -/
def errorMark : List Char := "error TS".toList

/-- What stands between a code and the message. -/
def codeEnd : List Char := ": ".toList

/-- What stands behind the column of a place. -/
def placeEnd : List Char := "): ".toList

/-- The word `error` with a code and a message. -/
def faultText (code message : List Char) : List Char := errorMark ++ (code ++ (codeEnd ++ message))

/-- A row and a column in brackets, and what follows them. -/
def placeText (row column tail : List Char) : List Char :=
  '(' :: (row ++ (',' :: (column ++ (placeEnd ++ tail))))

/-- A place with a fault behind it. -/
def IsPlace (cs : List Char) : Prop :=
  ∃ row column code message, Digits row ∧ Digits column ∧ Digits code ∧
    cs = placeText row column (faultText code message)

/-- A place with a fault behind it stands somewhere in the text. -/
def HoldsPlace (cs : List Char) : Prop := ∃ front form, cs = front ++ form ∧ IsPlace form

/-- A fault that stands at the front of a line. -/
def IsFault (cs : List Char) : Prop := ∃ code message, Digits code ∧ cs = faultText code message

variable {cs code message row column : List Char}

theorem runAfter?_eq_some_iff {piece : String} {p : Char → Bool} {run rest : List Char} :
    runAfter? piece p cs = some (run, rest) ↔ cs = piece.toList ++ (run ++ rest) ∧ run ≠ [] ∧
      (∀ c ∈ run, p c = true) ∧ ∀ c ∈ rest.head?, p c = false := by
  unfold runAfter?
  simp only [Option.bind_eq_some_iff, after?_eq_some_iff]
  constructor
  · rintro ⟨tail, rfl, h⟩
    split at h
    · cases h
    · next hne =>
      obtain ⟨rfl, rfl⟩ := Prod.mk.inj (Option.some.inj h)
      rw [drop_length_takeWhile]
      refine ⟨by rw [List.takeWhile_append_dropWhile], by simpa using hne,
        fun c hc => List.mem_takeWhile_imp hc, fun c hc => ?_⟩
      have hnot := List.head?_dropWhile_not p tail
      rw [Option.mem_def.1 hc] at hnot
      exact hnot
  · rintro ⟨rfl, hne, hrun, hrest⟩
    refine ⟨run ++ rest, rfl, ?_⟩
    rw [takeWhile_span hrun hrest, if_neg (by simpa using hne), List.drop_left]

/-- Digits with a character behind them that is none. -/
theorem runAfter?_digits {piece : String} {ds : List Char} (hds : Digits ds) {c : Char}
    (hc : isDigit c = false) (rest : List Char) :
    runAfter? piece isDigit (piece.toList ++ (ds ++ c :: rest)) = some (ds, c :: rest) :=
  runAfter?_eq_some_iff.2 ⟨rfl, hds.ne_nil, hds.chars, by simpa using hc⟩

theorem fault?_faultText (hcode : Digits code) (message : List Char) :
    fault? (faultText code message) = some (code, message) := by
  have hrun : runAfter? "error TS" isDigit (faultText code message) =
      some (code, ':' :: ' ' :: message) := runAfter?_digits hcode (by decide) _
  have hafter : after? ": ".toList (':' :: ' ' :: message) = some message := after?_eq_some_iff.2 rfl
  unfold fault?
  simp only [hrun, hafter, Option.bind_eq_bind, Option.bind_some]

theorem fault?_eq_some_iff :
    fault? cs = some (code, message) ↔ Digits code ∧ cs = faultText code message := by
  constructor
  · intro h
    unfold fault? at h
    obtain ⟨⟨ds, rest⟩, hrun, h⟩ := Option.bind_eq_some_iff.1 h
    obtain ⟨tail, hafter, h⟩ := Option.bind_eq_some_iff.1 h
    obtain ⟨rfl, rfl⟩ := Prod.mk.inj (Option.some.inj h)
    obtain ⟨rfl, hne, hchars, -⟩ := runAfter?_eq_some_iff.1 hrun
    obtain rfl := after?_eq_some_iff.1 hafter
    exact ⟨⟨hne, hchars⟩, rfl⟩
  · rintro ⟨hcode, rfl⟩
    exact fault?_faultText hcode message

theorem placed?_eq_some_iff : placed? cs = some (row, column, code, message) ↔
    Digits row ∧ Digits column ∧ Digits code ∧
      cs = placeText row column (faultText code message) := by
  constructor
  · intro h
    unfold placed? at h
    obtain ⟨⟨row', rest⟩, hrow, h⟩ := Option.bind_eq_some_iff.1 h
    obtain ⟨⟨column', rest'⟩, hcolumn, h⟩ := Option.bind_eq_some_iff.1 h
    obtain ⟨tail, hafter, h⟩ := Option.bind_eq_some_iff.1 h
    obtain ⟨⟨code', message'⟩, hfault, h⟩ := Option.bind_eq_some_iff.1 h
    obtain ⟨rfl, rfl, rfl, rfl⟩ : row' = row ∧ column' = column ∧ code' = code ∧ message' = message := by
      simpa using h
    obtain ⟨rfl, hrowNe, hrowChars, -⟩ := runAfter?_eq_some_iff.1 hrow
    obtain ⟨rfl, hcolumnNe, hcolumnChars, -⟩ := runAfter?_eq_some_iff.1 hcolumn
    obtain rfl := after?_eq_some_iff.1 hafter
    obtain ⟨hcode, rfl⟩ := fault?_eq_some_iff.1 hfault
    exact ⟨⟨hrowNe, hrowChars⟩, ⟨hcolumnNe, hcolumnChars⟩, hcode, rfl⟩
  · rintro ⟨hrow, hcolumn, hcode, rfl⟩
    have hrow' : runAfter? "(" isDigit (placeText row column (faultText code message)) =
        some (row, ',' :: (column ++ (placeEnd ++ faultText code message))) :=
      runAfter?_digits hrow (by decide) _
    have hcolumn' : runAfter? "," isDigit (',' :: (column ++ (placeEnd ++ faultText code message))) =
        some (column, placeEnd ++ faultText code message) :=
      runAfter?_digits hcolumn (by decide) _
    have hafter : after? "): ".toList (placeEnd ++ faultText code message) =
        some (faultText code message) := after?_eq_some_iff.2 rfl
    unfold placed?
    simp only [hrow', hcolumn', hafter, fault?_faultText hcode, Option.bind_eq_bind, Option.bind_some]

theorem placed?_eq_none_iff : placed? cs = none ↔ ¬ IsPlace cs := by
  rw [← Option.not_isSome_iff_eq_none, Option.isSome_iff_exists, not_iff_not]
  constructor
  · rintro ⟨⟨row, column, code, message⟩, h⟩
    exact ⟨row, column, code, message, placed?_eq_some_iff.1 h⟩
  · rintro ⟨row, column, code, message, h⟩
    exact ⟨(row, column, code, message), placed?_eq_some_iff.2 h⟩

theorem fault?_eq_none_iff : fault? cs = none ↔ ¬ IsFault cs := by
  rw [← Option.not_isSome_iff_eq_none, Option.isSome_iff_exists, not_iff_not]
  constructor
  · rintro ⟨⟨code, message⟩, h⟩
    exact ⟨code, message, fault?_eq_some_iff.1 h⟩
  · rintro ⟨code, message, h⟩
    exact ⟨(code, message), fault?_eq_some_iff.2 h⟩

theorem isPlace_iff : IsPlace cs ↔ (placed? cs).isSome = true := by
  rw [Option.isSome_iff_ne_none, ne_eq, placed?_eq_none_iff, not_not]

theorem isFault_iff : IsFault cs ↔ (fault? cs).isSome = true := by
  rw [Option.isSome_iff_ne_none, ne_eq, fault?_eq_none_iff, not_not]

instance (cs : List Char) : Decidable (IsPlace cs) := decidable_of_iff _ isPlace_iff.symm

instance (cs : List Char) : Decidable (IsFault cs) := decidable_of_iff _ isFault_iff.symm

/-! ## Places in lines -/

theorem Digits.not_mem {ds : List Char} (h : Digits ds) {c : Char} (hc : isDigit c = false) :
    c ∉ ds := fun hmem => by simp [h.chars c hmem] at hc

/-- A place begins with a bracket, has no other up to its message, and takes any message. -/
theorem IsPlace.exists_stem (h : IsPlace cs) : ∃ stem message, cs = '(' :: (stem ++ message) ∧
    '(' ∉ stem ∧ ∀ other, IsPlace ('(' :: (stem ++ other)) := by
  obtain ⟨row, column, code, message, hrow, hcolumn, hcode, rfl⟩ := h
  have hstem (other : List Char) : placeText row column (faultText code other) =
      '(' :: ((row ++ (',' :: (column ++ (placeEnd ++ faultText code [])))) ++ other) := by
    simp only [placeText, faultText, List.append_assoc, List.cons_append, List.nil_append]
  refine ⟨_, message, hstem message, ?_, fun other =>
    ⟨row, column, code, other, hrow, hcolumn, hcode, (hstem other).symm⟩⟩
  have hdigit : isDigit '(' = false := by decide
  have hplace : '(' ∉ placeEnd := by decide
  have herror : '(' ∉ errorMark := by decide
  have hcode' : '(' ∉ codeEnd := by decide
  simp [faultText, hrow.not_mem hdigit, hcolumn.not_mem hdigit, hplace, herror,
    hcode.not_mem hdigit, hcode']

/-- A place does not begin in a text without brackets. -/
theorem IsPlace.exists_append {head tail file form : List Char} (hform : IsPlace form)
    (hhead : '(' ∉ head) (h : head ++ tail = file ++ form) : ∃ more, tail = more ++ form := by
  obtain ⟨more, -, htail⟩ | ⟨more, rfl, hrest⟩ := List.append_eq_append_iff.1 h
  · exact ⟨more, htail⟩
  · obtain ⟨stem, message, rfl, -, -⟩ := hform.exists_stem
    cases more with
    | nil => exact ⟨[], by simpa using hrest.symm⟩
    | cons c more =>
      obtain rfl : '(' = c := (List.cons.inj hrest).1
      exact absurd (by simp) hhead

/-- A place does not begin in a text without places and go on in the place behind it. -/
theorem not_isPlace_append {back form : List Char} (hback : back ≠ []) (hno : ¬ IsPlace back)
    (hform : IsPlace form) : ¬ IsPlace (back ++ form) := by
  intro h
  obtain ⟨stem, message, heq, hstem, hany⟩ := h.exists_stem
  cases back with
  | nil => exact hback rfl
  | cons c back =>
    obtain rfl : c = '(' := (List.cons.inj heq).1
    have hrest : back ++ form = stem ++ message := (List.cons.inj heq).2
    obtain ⟨more, rfl⟩ := hform.exists_append hstem hrest.symm
    obtain rfl : back = stem ++ more :=
      List.append_cancel_right (hrest.trans (List.append_assoc ..).symm)
    exact hno (hany more)

theorem holdsPlace_iff : HoldsPlace cs ↔ ∃ i < cs.length, IsPlace (cs.drop i) := by
  constructor
  · rintro ⟨front, form, rfl, hform⟩
    obtain ⟨stem, message, rfl, -, -⟩ := hform.exists_stem
    exact ⟨front.length, by simp, by simpa using hform⟩
  · rintro ⟨i, -, hform⟩
    exact ⟨cs.take i, cs.drop i, by simp, hform⟩

instance (cs : List Char) : Decidable (HoldsPlace cs) := decidable_of_iff _ holdsPlace_iff.symm

theorem located?_eq_some {file : List Char} {parts : List Char × List Char × List Char × List Char}
    (h : located? cs = some (file, parts)) :
    file ≠ [] ∧ ∃ form, cs = file ++ form ∧ placed? form = some parts := by
  induction cs generalizing file with
  | nil => cases h
  | cons c cs ih =>
    unfold located? at h
    split at h
    · next hplaced =>
      obtain ⟨rfl, rfl⟩ := Prod.mk.inj (Option.some.inj h)
      exact ⟨by simp, cs, rfl, hplaced⟩
    · obtain ⟨⟨rest, parts'⟩, hrest, heq⟩ := Option.map_eq_some_iff.1 h
      obtain ⟨rfl, rfl⟩ := Prod.mk.inj heq
      obtain ⟨-, form, rfl, hform⟩ := ih hrest
      exact ⟨by simp, form, rfl, hform⟩

/-- The name of the file ends at the first place, which is the one behind it when the name has none. -/
theorem located?_append {file form : List Char}
    {parts : List Char × List Char × List Char × List Char} (hne : file ≠ [])
    (hno : ¬ HoldsPlace file) (hform : placed? form = some parts) :
    located? (file ++ form) = some (file, parts) := by
  have hplace : IsPlace form := by
    rw [← not_not (a := IsPlace form), ← placed?_eq_none_iff, hform]
    simp
  induction file with
  | nil => exact absurd rfl hne
  | cons c file ih =>
    rw [List.cons_append, located?]
    cases file with
    | nil => rw [List.nil_append, hform]
    | cons d file =>
      have hnone : placed? (d :: file ++ form) = none :=
        placed?_eq_none_iff.2 <| not_isPlace_append (by simp)
          (fun h => hno ⟨[c], d :: file, rfl, h⟩) hplace
      have hrest := ih (by simp) fun ⟨front, place, heq, h⟩ => hno ⟨c :: front, place, by simp [heq], h⟩
      rw [hnone, hrest]
      rfl

/-- A line with the name of a file in front of a place. -/
def IsLocated (cs : List Char) : Prop := ∃ file form, file ≠ [] ∧ cs = file ++ form ∧ IsPlace form

theorem isLocated_iff : IsLocated cs ↔ HoldsPlace cs.tail := by
  constructor
  · rintro ⟨file, form, hfile, rfl, hform⟩
    obtain ⟨c, file, rfl⟩ := List.exists_cons_of_ne_nil hfile
    exact ⟨file, form, rfl, hform⟩
  · rintro ⟨front, form, htail, hform⟩
    cases cs with
    | nil =>
      obtain ⟨stem, message, rfl, -, -⟩ := hform.exists_stem
      simp at htail
    | cons c cs => exact ⟨c :: front, form, List.cons_ne_nil c front, congrArg (c :: ·) htail, hform⟩

instance (cs : List Char) : Decidable (IsLocated cs) := decidable_of_iff _ isLocated_iff.symm

theorem located?_eq_none (h : ¬ IsLocated cs) : located? cs = none := by
  rw [Option.eq_none_iff_forall_ne_some]
  rintro ⟨file, row, column, code, message⟩ hsome
  obtain ⟨hfile, form, rfl, hform⟩ := located?_eq_some hsome
  exact h ⟨file, form, hfile, rfl, row, column, code, message, placed?_eq_some_iff.1 hform⟩

/-- A fault is not taken for a place when its message has none. -/
theorem not_isLocated_faultText (hcode : Digits code) (hmessage : ¬ HoldsPlace message) :
    ¬ IsLocated (faultText code message) := by
  rintro ⟨file, form, -, heq, hform⟩
  have hbracket : '(' ∉ errorMark ++ (code ++ codeEnd) := by
    have herror : '(' ∉ errorMark := by decide
    have hend : '(' ∉ codeEnd := by decide
    simp [herror, hcode.not_mem (by decide : isDigit '(' = false), hend]
  have hsplit : errorMark ++ (code ++ codeEnd) ++ message = file ++ form := by
    rw [← heq, faultText, List.append_assoc, List.append_assoc]
  obtain ⟨more, rfl⟩ := hform.exists_append hbracket hsplit
  exact hmessage ⟨more, form, rfl, hform⟩

end Codemod.Report
