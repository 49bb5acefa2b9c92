import Codemod.Failure
import Codemod.Text.Printable

/-! A place in a YAML text, and the characters that matter wherever one is. -/
namespace Codemod.Yaml

/-- A line and a column, both counted from zero. -/
structure Mark where
  line : Nat
  column : Nat
  deriving DecidableEq, Repr

/-- What is wrong and where, and what was being read and since where. -/
structure Complaint where
  context : Option String := none
  origin : Option Mark := none
  problem : String
  place : Mark
  deriving DecidableEq, Repr

/-- Why a text gives no value. -/
inductive Fault where
  /-- It is not YAML, or not YAML for plain data. -/
  | malformed (c : Complaint)
  /-- A character at an offset has no place in a text. -/
  | unacceptable (c : Char) (offset : Nat)
  /-- A scalar is tagged as what it cannot be. -/
  | misfit (m : Misfit)
  deriving DecidableEq, Repr

abbrev Scan (α : Type) := Except Fault α

def Mark.text (m : Mark) (name : String) : String :=
  s!"  in \"" ++ name ++ s!"\", line {m.line + 1}, column {m.column + 1}"

/-- The context is placed only where it is not at the place of the problem. -/
def Complaint.text (c : Complaint) (name : String) : String :=
  "\n".intercalate (c.context.toList ++
    ((c.origin.filter (· != c.place)).map (Mark.text · name)).toList ++
    [c.problem, c.place.text name])

/-- A fault in a character of a kind: it cannot be one of the text. -/
def Fault.text (name : String) : Fault → String
  | .malformed c => c.text name
  | .unacceptable c offset =>
    let digits := Nat.toDigits 16 c.toNat
    "unacceptable character #x" ++ String.ofList (List.replicate (4 - digits.length) '0' ++ digits) ++
      ": special characters are not allowed\n  in \"" ++ name ++ s!"\", position {offset}"
  | .misfit _ => ""

def isBreak (c : Char) : Bool :=
  c == '\n' || c == '\u0085' || c == '\u2028' || c == '\u2029'

def isSpace (c : Char) : Bool := c == ' ' || c == '\t'

/-- What a line break amounts to in a scalar. -/
def breakChar (c : Char) : Char := if c == '\u0085' then '\n' else c

/-- Whether there is nothing, or a blank or a line break. -/
def endsWord (next : Option Char) : Bool := next.all fun c => isSpace c || isBreak c

/-- The same without the tab. -/
def endsField (next : Option Char) : Bool := next.all fun c => c == ' ' || isBreak c

def endsLine (next : Option Char) : Bool := next.all isBreak

def isNameChar (c : Char) : Bool := c.isAlphanum || c == '-' || c == '_'

structure Cursor where
  rest : List Char
  index : Nat
  line : Nat
  column : Nat

namespace Cursor

def start (text : List Char) : Cursor := ⟨text, 0, 0, 0⟩

def peek (c : Cursor) : Option Char := c.rest.head?

def peekAt (c : Cursor) (n : Nat) : Option Char := c.rest[n]?

def isAt (c : Cursor) (x : Char) : Bool := c.peek == some x

def mark (c : Cursor) : Mark := ⟨c.line, c.column⟩

/-- The character that stands here, as messages show it. -/
def shown (c : Cursor) : String := String.ofList (Text.quoted [c.peek.getD '\x00'])

/-- Complains about what stands here, in something that began at a mark. -/
def complain (c : Cursor) (context : String) (origin : Mark) (problem : String) : Scan α :=
  .error (.malformed ⟨some context, some origin, problem, c.mark⟩)

/-- Complains that something else than what stands here was expected. -/
def expected (c : Cursor) (context : String) (origin : Mark) (what : String) : Scan α :=
  c.complain context origin ("expected " ++ what ++ ", but found " ++ c.shown)

/-- The place behind the next character. A byte order mark takes no column. -/
def next (c : Cursor) : Cursor :=
  match c.rest with
  | [] => c
  | x :: rest =>
    if isBreak x then ⟨rest, c.index + 1, c.line + 1, 0⟩
    else ⟨rest, c.index + 1, c.line, if x == '\uFEFF' then c.column else c.column + 1⟩

def skip (c : Cursor) : Nat → Cursor
  | 0 => c
  | n + 1 => c.next.skip n

/-- The characters that satisfy `p` from here on, and the place behind them. -/
def takeWhile (c : Cursor) (p : Char → Bool) : List Char × Cursor :=
  let taken := c.rest.takeWhile p
  (taken, c.skip taken.length)

def dropWhile (c : Cursor) (p : Char → Bool) : Cursor := (c.takeWhile p).2

def dropSpaces (c : Cursor) : Cursor := c.dropWhile (· == ' ')

/-- Behind the comment that stands here, if one does. -/
def dropComment (c : Cursor) : Cursor := if c.isAt '#' then c.dropWhile (!isBreak ·) else c

def lineBreak? (c : Cursor) : Option (Char × Cursor) :=
  match c.peek with
  | some x => if isBreak x then some (breakChar x, c.next) else none
  | none => none

def dropBreak (c : Cursor) : Cursor := (c.lineBreak?.map (·.2)).getD c

/-- The rest of a line that may hold nothing but a comment. -/
def dropEmptyLine (c : Cursor) (context : String) (origin : Mark) : Scan Cursor :=
  let c := c.dropSpaces.dropComment
  if endsLine c.peek then .ok c.dropBreak
  else c.expected context origin "a comment or a line break"

/-- Whether three marks of a kind stand here as a word. -/
def isMarker (c : Cursor) (mark : Char) : Bool :=
  c.rest.take 3 == [mark, mark, mark] && endsWord (c.peekAt 3)

def isDocumentMarker (c : Cursor) : Bool := c.isMarker '-' || c.isMarker '.'

end Cursor
end Codemod.Yaml
