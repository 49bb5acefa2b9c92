import Codemod.Json.Basic
import Codemod.Number.Decimal

/-! Writing JSON values as text. -/
namespace Codemod.Json

/-- The choices a writer has. -/
structure Layout where
  /-- The spaces for each level when every item has a line of its own. -/
  indent : Option Nat
  comma : String
  colon : String
  /-- Whether characters outside printable ASCII are escaped. -/
  ascii : Bool
  sortKeys : Bool

def Layout.compact : Layout := ⟨none, ",", ":", true, false⟩

def Layout.spaced : Layout := ⟨none, ", ", ": ", true, false⟩

def Layout.indented : Layout := ⟨some 2, ",", ": ", true, false⟩

def hex4 (n : Nat) : String :=
  let digits := Nat.toDigits 16 n
  String.ofList (List.replicate (4 - digits.length) '0' ++ digits)

/-- A character as one or two escaped code units. -/
def escapeUnits (c : Char) : String :=
  let n := c.toNat
  if n < 0x10000 then "\\u" ++ hex4 n
  else "\\u" ++ hex4 (0xD800 + (n - 0x10000) / 0x400) ++ "\\u" ++ hex4 (0xDC00 + n % 0x400)

def escapeChar (ascii : Bool) (c : Char) : String :=
  match c with
  | '"' => "\\\""
  | '\\' => "\\\\"
  | '\n' => "\\n"
  | '\r' => "\\r"
  | '\t' => "\\t"
  | '\x08' => "\\b"
  | '\x0c' => "\\f"
  | c =>
    if c.toNat < 32 || (ascii && c.toNat > 126) then escapeUnits c else c.toString

def quote (ascii : Bool) (s : String) : String :=
  s.toList.foldl (fun out c => out ++ escapeChar ascii c) "\"" ++ "\""

def floatText (x : Float) : String :=
  match Number.Double.ofFloat x with
  | .nan => "NaN"
  | .infinite negative => if negative then "-Infinity" else "Infinity"
  | .finite .. => Number.spellShortest Number.dataStyle x

def sortFields (fields : List (String × α)) : List (String × α) :=
  fields.mergeSort fun a b => a.1 ≤ b.1

def newline (layout : Layout) (level : Nat) : String :=
  match layout.indent with
  | none => ""
  | some n => "\n" ++ String.ofList (List.replicate (n * level) ' ')

/-- Brackets around texts, laid out at the given level. -/
def bracketed (layout : Layout) (level : Nat) (left right : String) (texts : List String) : String :=
  if texts.isEmpty then left ++ right
  else left ++ newline layout (level + 1) ++
    String.intercalate (layout.comma ++ newline layout (level + 1)) texts ++
    newline layout level ++ right

mutual

def write (layout : Layout) (level : Nat) : Json → String
  | .null => "null"
  | .bool b => if b then "true" else "false"
  | .int n => toString n
  | .float x => floatText x
  | .str s => quote layout.ascii s
  | .arr items => bracketed layout level "[" "]" (writeItems layout (level + 1) items)
  | .obj fields =>
    let written := writeFields layout (level + 1) fields
    bracketed layout level "\x7b" "\x7d"
      (((if layout.sortKeys then sortFields written else written)).map (·.2))

def writeItems (layout : Layout) (level : Nat) : List Json → List String
  | [] => []
  | v :: rest => write layout level v :: writeItems layout level rest

/-- Each field as its key and its text. -/
def writeFields (layout : Layout) (level : Nat) : List (String × Json) → List (String × String)
  | [] => []
  | (name, v) :: rest =>
    (name, quote layout.ascii name ++ layout.colon ++ write layout level v) ::
      writeFields layout level rest

end

def render (layout : Layout) (v : Json) : String := write layout 0 v

end Codemod.Json
