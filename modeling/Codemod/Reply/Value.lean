import Codemod.Json.Reader
import Codemod.Text.Blank
import Codemod.Literal.Reader

/-! Reading the answer of a model as a value: as JSON, as a literal, and then the part of it that looks like
JSON, in the same way. -/
namespace Codemod.Reply
open Text

/-! # Finding the value

An answer may say more than its JSON value: a fence around it, typographic characters in it, words before and
after it, commas too many. -/

def fence : List Char := "```".toList

/-- What follows the opening line of a fence. -/
def fenceOpening? (cs : List Char) : Option (List Char) :=
  (after? fence cs).bind fun rest =>
    let named := (rest.take 4).map fun c => if c == 'ſ' then 's' else c.toLower
    let rest := if named == "json".toList then rest.drop 4 else rest
    match rest.dropWhile fun c => c == ' ' || c == '\t' with
    | '\n' :: body => some body
    | _ => none

/-- What stands in the first fence of a text, without the blanks around it. -/
def fenced? (cs : List Char) : Option (List Char) :=
  first? (fun cs => (fenceOpening? cs).bind fun body => (splitAt? fence body).map (·.1)) cs
    |>.map trim

def withoutFence (cs : List Char) : List Char := (fenced? cs).getD cs

/-- The plain character for a typographic one; the byte order mark has none. -/
def plainChar? (c : Char) : Option Char :=
  match c with
  | '\u201C' | '\u201D' => some '"'
  | '\u2018' | '\u2019' => some '\''
  | '\u00A0' => some ' '
  | '\uFEFF' => none
  | c => some c

def plainChars (cs : List Char) : List Char := cs.filterMap plainChar?

def isClosing (c : Char) : Bool := c == '}' || c == ']'

/-- A text without the commas that have nothing but blanks between them and a closing bracket. -/
def withoutTrailingCommas : List Char → List Char
  | [] => []
  | c :: cs =>
    if c == ',' && (cs.dropWhile isBlank).head?.any isClosing then withoutTrailingCommas cs
    else c :: withoutTrailingCommas cs

def closingOf? (c : Char) : Option Char :=
  if c == '{' then some '}' else if c == '[' then some ']' else none

/-- Whether a character stands in a string, and whether a backslash is before it. -/
inductive Inside where
  | nothing
  | string
  | escape
  deriving DecidableEq, Repr

/-- The text up to where the last open bracket is closed. `open'` holds the closing brackets that are
waited for, the next one first; others are passed over. -/
def balanced? (open' : List Char) (inside : Inside) : List Char → Option (List Char)
  | [] => none
  | c :: cs =>
    match inside with
    | .escape => (balanced? open' .string cs).map (c :: ·)
    | .string =>
      let next := if c == '\\' then Inside.escape else if c == '"' then .nothing else .string
      (balanced? open' next cs).map (c :: ·)
    | .nothing =>
      if c == '"' then (balanced? open' .string cs).map (c :: ·)
      else match closingOf? c with
        | some close => (balanced? (close :: open') .nothing cs).map (c :: ·)
        | none =>
          if open'.head? == some c then
            if open'.length == 1 then some [c]
            else (balanced? open'.tail .nothing cs).map (c :: ·)
          else (balanced? open' .nothing cs).map (c :: ·)

/-- The text from the first opening bracket to where it is closed. -/
def bracketed? : List Char → Option (List Char)
  | [] => none
  | c :: cs =>
    match closingOf? c with
    | some close => (balanced? [close] .nothing cs).map (c :: ·)
    | none => bracketed? cs

/-- The value that an answer seems to hold. A number with too many digits is not passed over. -/
def repaired? (cs : List Char) : Except Json.ReadError (Option (List Char)) :=
  let text := withoutFence (trim cs)
  if text.isEmpty then .ok none
  else match Json.read text with
    | .ok _ => .ok (some text)
    | .error .tooManyDigits => .error .tooManyDigits
    | .error .malformed => .ok ((bracketed? text).map withoutTrailingCommas)

/-! # Reading it -/

def quoteLength : Nat := 200

def emptyReply : ReplyError := .format "Model returned an empty response."

def unreadable (text : List Char) : ReplyError :=
  .format ("Model returned invalid JSON: " ++ String.ofList (text.take quoteLength))

/-- The value of a text that is JSON or else a literal; nothing for other texts and for the literal
that stands for nothing. -/
def valueOf? (text : List Char) : Except Misfit (Option Json) :=
  match Json.read text with
  | .ok v => .ok (some v)
  | .error .tooManyDigits => .error .tooManyDigits
  | .error .malformed =>
    (Literal.parse? text).map fun
      | some .null | none => none
      | some v => some v.toJson

/-- The texts that are tried for a value, in order. -/
def candidates (text : List Char) : Except Misfit (List (List Char)) :=
  match repaired? text with
  | .error _ => .error .tooManyDigits
  | .ok none => .ok [text]
  | .ok (some part) => .ok (if part.isEmpty || part == text then [text] else [text, plainChars part])

/-- The value of the first text that has one. -/
def firstValue? : List (List Char) → Except Misfit (Option Json)
  | [] => .ok none
  | text :: rest =>
    (valueOf? text).bind fun
      | some v => .ok (some v)
      | none => firstValue? rest

def parse (answer : List Char) : Except Failure Json :=
  let text := trim answer
  if text.isEmpty then .error (.reply emptyReply)
  else
    let text := plainChars text
    match (candidates text).bind firstValue? with
    | .error m => .error (.misfit m)
    | .ok (some v) => .ok v
    | .ok none => .error (.reply (unreadable text))

end Codemod.Reply
