import Codemod.Text.Find

/-! Replacing ranges of a text. Every edit of a source is a list of replacements carried out at once,
which leaves every character outside the replaced ranges in place. -/
namespace Codemod.Source

/-- A replacement for the characters from offset `start` up to `stop`. -/
structure Edit where
  start : Nat
  stop : Nat
  text : List Char
  deriving DecidableEq, Repr

/-- Edits are taken from the left; of two with one start, the longer first. -/
def Edit.before (a b : Edit) : Bool := a.start < b.start || (a.start == b.start && b.stop ≤ a.stop)

/-- Carries out sorted edits on what is left of a text from offset `cursor` on. An edit that begins
before the cursor overlaps one already made and is dropped. -/
def spliceFrom (cursor : Nat) (rest : List Char) : List Edit → List Char
  | [] => rest
  | e :: edits =>
    if e.start < cursor then spliceFrom cursor rest edits
    else rest.take (e.start - cursor) ++ e.text ++
      spliceFrom e.stop (rest.drop (e.stop - cursor)) edits

def splice (text : List Char) (edits : List Edit) : List Char :=
  spliceFrom 0 text (edits.mergeSort Edit.before)

@[simp] theorem splice_nil (text : List Char) : splice text [] = text := by
  simp [splice, spliceFrom]

/-- One edit replaces its range and nothing else. -/
theorem splice_singleton (text : List Char) (e : Edit) :
    splice text [e] = text.take e.start ++ e.text ++ text.drop e.stop := by
  simp [splice, spliceFrom]

/-! # A small replacement, near an anchor when the anchor is there -/

open Text

/-- How far from the anchor a replacement is looked for first, unless said otherwise. -/
def anchorWindow : Int := 400

/-- The offset of the occurrence to replace: the first one within `window` characters of the anchor's
first occurrence, and otherwise the first one of all. -/
def anchoredAt? (text : List Char) (anchor : Option (List Char)) (piece : List Char)
    (window : Int) : Option Nat :=
  let near := (anchor.filter (!·.isEmpty)).bind fun anchor =>
    (find? anchor text).bind fun (i : Nat) =>
      let low := (max 0 ((i : Int) - window)).toNat
      let high := min (text.length : Int) (i + anchor.length + window)
      if high < 0 then findWithin? piece text low (clampOffset text.length high)
      else findWithin? piece text low high.toNat
  near.orElse fun _ => find? piece text

/-- Replaces one occurrence of `before`. Nothing changes when either text is longer than
`maxLength`. -/
def editNearAnchor (text : List Char) (anchor : Option (List Char)) (before after : List Char)
    (maxLength : Int) (window : Int) : List Char :=
  if before.isEmpty || maxLength < before.length || maxLength < after.length then text
  else match anchoredAt? text anchor before window with
    | none => text
    | some i => text.take i ++ after ++ text.drop (i + before.length)

end Codemod.Source
