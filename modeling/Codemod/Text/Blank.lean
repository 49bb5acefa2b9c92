/-! Blank characters, line ends, and the trimming and splitting that rest on them. Blank is the
white-space class of Unicode together with the four information separators. -/
namespace Codemod.Text

/-- Blank characters above the ASCII range, as closed ranges of code points. -/
def blankRanges : List (Nat × Nat) :=
  [(0x85, 0x85), (0xA0, 0xA0), (0x1680, 0x1680), (0x2000, 0x200A), (0x2028, 0x2029),
   (0x202F, 0x202F), (0x205F, 0x205F), (0x3000, 0x3000)]

/-- Whether a code point lies in one of the closed ranges. -/
def inRanges (ranges : List (Nat × Nat)) (n : Nat) : Bool :=
  ranges.any fun r => r.1 ≤ n && n ≤ r.2

def isBlank (c : Char) : Bool :=
  let n := c.toNat
  if n < 128 then (9 ≤ n && n ≤ 13) || (28 ≤ n && n ≤ 32) else inRanges blankRanges n

/-- Every character the core library counts as white space is blank. -/
theorem isBlank_of_isWhitespace {c : Char} (h : c.isWhitespace = true) : isBlank c = true := by
  simp only [Char.isWhitespace, Bool.or_eq_true, decide_eq_true_eq] at h
  rcases h with ((h | h) | h) | h <;> subst h <;> decide

def trimLeft (cs : List Char) : List Char := cs.dropWhile isBlank

def trimRight (cs : List Char) : List Char := (cs.reverse.dropWhile isBlank).reverse

def trim (cs : List Char) : List Char := trimRight (trimLeft cs)

theorem length_trimLeft_le (cs : List Char) : (trimLeft cs).length ≤ cs.length :=
  (List.dropWhile_sublist isBlank).length_le

/-- The maximal runs of characters that fail `sep`, in order. -/
def runs (sep : Char → Bool) (cs : List Char) : List (List Char) :=
  let r : List Char × List (List Char) := cs.foldr (fun c (run, done) =>
    if sep c then ([], if run.isEmpty then done else run :: done) else (c :: run, done)) ([], [])
  if r.1.isEmpty then r.2 else r.1 :: r.2

def words (cs : List Char) : List (List Char) := runs isBlank cs

/-- Pieces of `cs` between the characters that satisfy `sep`; one more piece than separators. -/
def pieces (sep : Char → Bool) : List Char → List (List Char)
  | [] => [[]]
  | c :: cs =>
    match pieces sep cs with
    | [] => [[c]]
    | p :: ps => if sep c then [] :: p :: ps else (c :: p) :: ps

/-- Characters that end a line of a report or listing. -/
def isLineBreak (c : Char) : Bool :=
  let n := c.toNat
  (10 ≤ n && n ≤ 13) || (28 ≤ n && n ≤ 30) || n == 0x85 || n == 0x2028 || n == 0x2029

/-- The lines of a text without their ends; a carriage return and the line feed after it are one
end, and a text that stops at a line end has no further empty line. -/
def lines : List Char → List (List Char)
  | [] => []
  | '\r' :: '\n' :: cs => [] :: lines cs
  | c :: cs =>
    if isLineBreak c then [] :: lines cs
    else match cs, lines cs with
      | [], _ => [[c]]
      | _ :: _, [] => [[c]]
      | _ :: _, l :: ls => (c :: l) :: ls

/-- The text with each line end of the forms CR LF and CR read as a line feed. -/
def unifyLineEnds : List Char → List Char
  | [] => []
  | '\r' :: '\n' :: cs => '\n' :: unifyLineEnds cs
  | c :: cs => (if c = '\r' then '\n' else c) :: unifyLineEnds cs

/-- The lower-case form of the ASCII letters; other characters stay. -/
def lowerAscii (cs : List Char) : List Char := cs.map Char.toLower

end Codemod.Text
