import Codemod.Literal.Quote
import Codemod.Text.Word

/-! The tokens of literal notation. What is no token becomes `bad`. -/
namespace Codemod.Literal
open Text

inductive Token where
  | word (name : List Char)
  /-- A number, or a text or byte string in quotes. -/
  | number (v : Datum)
  | text (v : Datum)
  /-- A text in quotes with places to be filled in. -/
  | template
  | sign (s : List Char)
  | newline
  /-- A line that begins with blanks. -/
  | indent
  | bad

/-- Signs of several characters, longer ones first. -/
def longSigns : List (List Char) :=
  ["**=", "//=", ">>=", "<<=", "...", "**", "//", ">>", "<<", "==", "!=", "<=", ">=", "->", ":=",
   "+=", "-=", "*=", "/=", "%=", "@=", "&=", "|=", "^="].map String.toList

def shortSigns : List Char := "()[]{}:,;+-*/|&<>=.%~^@".toList

def isInnerBlank (c : Char) : Bool := c == ' ' || c == '\t' || c == '\x0c'

def startsWord (c : Char) : Bool := c.isAlpha || c == '_' || (c.toNat ≥ 128 && (digit? c).isNone)

/-- The token for a word, which may turn out to stand in front of a quote. -/
def wordToken (cs : List Char) : Token × Nat :=
  let name := cs.takeWhile continuesWord
  let rest := cs.drop name.length
  match (if rest.head?.any isQuoteMark then marks? name else none) with
  | some m =>
    match quotedText? m rest with
    | some (v, n) => (if m.formatted then .template else .text v, name.length + n)
    | none => (.bad, name.length)
  | none => (if name.all isWord then .word name else .bad, name.length)

def signToken (cs : List Char) : Token × Nat :=
  match longSigns.find? (·.isPrefixOf cs) with
  | some s => (.sign s, s.length)
  | none =>
    match cs with
    | c :: _ => (if shortSigns.contains c then .sign [c] else .bad, 1)
    | [] => (.bad, 1)

/-- The token at the head of a text, and its length. -/
def tokenAt (cs : List Char) : Token × Nat :=
  match cs with
  | [] => (.bad, 1)
  | c :: rest =>
    if c.isDigit || (c == '.' && rest.head?.any Char.isDigit) then
      match number? cs with
      | some (v, n) => (.number v, n)
      | none => (.bad, 1)
    else if isQuoteMark c then
      match quotedText? ⟨false, false, false⟩ cs with
      | some (v, n) => (.text v, n)
      | none => (.bad, 1)
    else if startsWord c then wordToken cs
    else signToken cs

/-- Where the reader of tokens is. -/
structure Cursor where
  /-- Characters that belong to the token read last. -/
  skip : Nat
  /-- Whether only blanks have been met on the line. -/
  fresh : Bool
  /-- How far these blanks reach. -/
  column : Nat
  /-- Whether the rest of the line is a comment. -/
  comment : Bool

def Cursor.start : Cursor := ⟨0, true, 0, false⟩

/-- The tokens of a text from a cursor on. -/
def tokensFrom (k : Cursor) : List Char → List Token
  | [] => if k.fresh && k.column > 0 && !k.comment then [.indent] else []
  | c :: cs =>
    if k.skip > 0 then tokensFrom { k with skip := k.skip - 1 } cs
    else if c == '\n' then .newline :: tokensFrom .start cs
    else if k.comment then tokensFrom k cs
    else if isInnerBlank c then
      tokensFrom { k with column := if c == '\x0c' then 0 else k.column + 1 } cs
    else if c == '#' then tokensFrom { k with comment := true } cs
    else if c == '\\' then
      if cs.head? == some '\n' && cs.length > 1 then tokensFrom { k with skip := 1 } cs
      else [.bad]
    else
      let (token, n) := tokenAt (c :: cs)
      let rest := tokensFrom ⟨n - 1, false, 0, false⟩ cs
      if k.fresh && k.column > 0 then .indent :: token :: rest else token :: rest

def tokens (cs : List Char) : List Token :=
  if cs.contains '\x00' then [.bad] else tokensFrom .start (unifyLineEnds cs)

end Codemod.Literal
