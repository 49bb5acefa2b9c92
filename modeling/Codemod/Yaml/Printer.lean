import Codemod.Yaml.Tag

/-! Plain data as a YAML document: one line for each scalar, nested mappings indented by two spaces, and
the items of a list under the key that holds it. -/
namespace Codemod.Yaml

/-- Characters that mean nothing in YAML wherever they stand in a word. -/
def isPlainChar (c : Char) : Bool := c.isAlphanum || "_./-".toList.contains c

/-- Whether a text can stand as it is: it reads back as a text, and no character in it is special. -/
def canBePlain (text : String) : Bool :=
  text.toList.all isPlainChar && text.toList.head? != some '-' && Tag.ofPlain text == .str

/-- A text between quotes, in which a quote is written twice. -/
def singleQuoted (text : String) : String :=
  let doubled := text.toList.flatMap fun c => if c == '\'' then ['\'', '\''] else [c]
  "'" ++ String.ofList doubled ++ "'"

def numberText (x : Float) : String :=
  match Number.Double.ofFloat x with
  | .nan => ".nan"
  | .infinite negative => if negative then "-.inf" else ".inf"
  | .finite .. => Number.spellShortest Number.dataStyle x

def scalarText : Datum → String
  | .null => "null"
  | .bool b => if b then "true" else "false"
  | .int n => toString n
  | .float x => numberText x
  | .list _ => "[]"
  | .map _ => "\x7b\x7d"
  | v => if canBePlain v.plain then v.plain else singleQuoted v.plain

def indented : List String → List String := List.map ("  " ++ ·)

/-- The first line behind a dash and the others below it. -/
def dashed : List String → List String
  | [] => []
  | first :: rest => ("- " ++ first) :: indented rest

mutual

def documentLines : Datum → List String
  | .list (v :: rest) => itemLines (v :: rest)
  | .map (e :: rest) => entryLines (e :: rest)
  | v => [scalarText v]

def itemLines : List Datum → List String
  | [] => []
  | v :: rest => dashed (documentLines v) ++ itemLines rest

def entryLines : List (Datum × Datum) → List String
  | [] => []
  | (k, v) :: rest =>
    let key := scalarText k ++ ":"
    let lines := documentLines v
    (match v with
      | .list (_ :: _) => key :: lines
      | .map (_ :: _) => key :: indented lines
      | _ => [key ++ " " ++ "".intercalate lines]) ++ entryLines rest

end

def render (v : Datum) : String := String.join ((documentLines v).map (· ++ "\n"))

end Codemod.Yaml
