import Codemod.Text.Blank
import Codemod.Text.Word

/-! Searching a text for a fixed piece, and cutting it at offsets. Offsets count characters. -/
namespace Codemod.Text

/-- What follows the piece, when the text begins with it. -/
def after? : (piece cs : List Char) → Option (List Char)
  | [], cs => some cs
  | _ :: _, [] => none
  | p :: ps, c :: cs => if p = c then after? ps cs else none

theorem after?_eq_some_iff {piece cs rest : List Char} :
    after? piece cs = some rest ↔ cs = piece ++ rest := by
  fun_induction after? piece cs with
  | case1 => simp
  | case2 => simp
  | case3 _ _ _ ih => simp [ih]
  | case4 _ _ _ _ h => simp [Ne.symm h]

/-- The offset of the first occurrence of the piece. -/
def find? (piece : List Char) : List Char → Option Nat
  | [] => if piece.isEmpty then some 0 else none
  | c :: cs => if piece.isPrefixOf (c :: cs) then some 0 else (find? piece cs).map (· + 1)

/-- The first occurrence that begins at offset `low` or later and ends at `high` or earlier. -/
def findWithin? (piece cs : List Char) (low high : Nat) : Option Nat :=
  (find? piece ((cs.take high).drop low)).map (· + low)

def between (low high : Nat) (cs : List Char) : List Char := (cs.drop low).take (high - low)

/-- An offset that counts from the end when negative, kept inside a text of the given length. -/
def clampOffset (length : Nat) (n : Int) : Nat :=
  if n < 0 then (n + length).toNat else min n.toNat length

/-- The text between two offsets that may count from the end. -/
def slice (low high : Int) (cs : List Char) : List Char :=
  between (clampOffset cs.length low) (clampOffset cs.length high) cs

/-- The two sides of the first occurrence of the piece. -/
def splitAt? (piece cs : List Char) : Option (List Char × List Char) :=
  (find? piece cs).map fun i => (cs.take i, cs.drop (i + piece.length))

def joinWith (sep : List Char) (texts : List (List Char)) : List Char :=
  (texts.intersperse sep).flatten

/-- The offsets of the occurrences of a non-empty piece that do not overlap, from the left. -/
def occurrences (piece cs : List Char) : List Nat :=
  go 0 0 cs
where
  /-- `skip` characters still belong to the occurrence found last. -/
  go (skip pos : Nat) : List Char → List Nat
    | [] => []
    | c :: cs =>
      if skip = 0 && piece.isPrefixOf (c :: cs) then pos :: go (piece.length - 1) (pos + 1) cs
      else go (skip - 1) (pos + 1) cs

/-- What `read` reads at the first place of a text where it reads anything. -/
def first? (read : List Char → Option α) : List Char → Option α
  | [] => read []
  | c :: cs => (read (c :: cs)).or (first? read cs)

/-- A piece that is there, followed by the longest non-empty run of characters that satisfy `p`. -/
def runAfter? (piece : String) (p : Char → Bool) (cs : List Char) :
    Option (List Char × List Char) :=
  (after? piece.toList cs).bind fun rest =>
    let run := rest.takeWhile p
    if run.isEmpty then none else some (run, rest.drop run.length)

def isQuoteMark (c : Char) : Bool := c == '\'' || c == '"'

/-- The text between quote marks at the head of a text, if it is not empty and all of it satisfies
`p`. -/
def quotedRun? (p : Char → Bool) : List Char → Option (List Char)
  | [] => none
  | quote :: cs =>
    if isQuoteMark quote then
      (runAfter? "" p cs).bind fun (run, rest) =>
        if rest.head?.any isQuoteMark then some run else none
    else none

/-! # Lines and columns

Both are counted from one, and only a line feed ends a line here. -/

/-- The offsets at which lines begin, for a text that begins at offset `pos`. -/
def lineStartsFrom (pos : Nat) : List Char → List Nat
  | [] => []
  | c :: cs => if c = '\n' then (pos + 1) :: lineStartsFrom (pos + 1) cs else lineStartsFrom (pos + 1) cs

def lineStarts (cs : List Char) : List Nat := 0 :: lineStartsFrom 0 cs

/-- The offset of a line and column. A column beyond the text stands for its end, and columns below one
for the first; lines outside the text have no offset. -/
def offsetAt? (cs : List Char) (line column : Int) : Option Nat :=
  if line < 1 then none
  else ((lineStarts cs)[(line - 1).toNat]?).map fun start =>
    min (start + (column - 1).toNat) cs.length

def lineColumn (cs : List Char) (offset : Nat) : Nat × Nat :=
  let before := cs.take offset
  (before.count '\n' + 1, (before.reverse.takeWhile (· != '\n')).length + 1)

/-- Where the identifier at an offset ends; the offset itself when there is none. -/
def identifierEnd (cs : List Char) (offset : Nat) : Nat :=
  offset + ((cs.drop offset).takeWhile isIdentifier).length

end Codemod.Text
