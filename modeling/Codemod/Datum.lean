import Codemod.Json.Basic
import Codemod.Number.Decimal
import Codemod.Number.Reader
import Codemod.Text.Printable

/-! Values of a configuration file or of a literal: what JSON has, and also byte strings, tuples, sets,
complex numbers, and mappings whose keys are any values. -/
namespace Codemod

inductive Datum where
  | null
  | bool (b : Bool)
  | int (n : Int)
  | float (x : Float)
  | complex (re im : Float)
  | str (s : String)
  | bytes (bs : List Nat)
  | ellipsis
  | tuple (items : List Datum)
  | list (items : List Datum)
  | set (items : List Datum)
  | map (entries : List (Datum × Datum))
  /-- A value of some further kind, by its plain text and by the text messages show. -/
  | other (plain shown : String)
  deriving Inhabited, Repr

namespace Datum

/-- Numbers inside a complex number: shortest digits, without a fraction that is zero. -/
def partStyle : Number.Style := ⟨(-4, 15), false⟩

def negative (x : Float) : Bool :=
  match Number.Double.ofFloat x with
  | .finite n .. => n
  | .infinite n => n
  | .nan => false

def complexText (re im : Float) : String :=
  let imaginary := Number.spellShortest partStyle im ++ "j"
  if re == 0.0 && !negative re then imaginary
  else
    let plus := if negative im then "" else "+"
    "(" ++ Number.spellShortest partStyle re ++ plus ++ imaginary ++ ")"

mutual

/-- The text messages show for a value. -/
def shown : Datum → String
  | .null => "None"
  | .bool b => if b then "True" else "False"
  | .int n => toString n
  | .float x => Number.spellShortest Number.dataStyle x
  | .complex re im => complexText re im
  | .str s => String.ofList (Text.quoted s.toList)
  | .bytes bs => String.ofList (Text.quotedBytes bs)
  | .ellipsis => "Ellipsis"
  | .tuple items =>
    match items with
    | [item] => "(" ++ shown item ++ ",)"
    | items => "(" ++ ", ".intercalate (shownItems items) ++ ")"
  | .list items => "[" ++ ", ".intercalate (shownItems items) ++ "]"
  | .set items =>
    if items.isEmpty then "set()" else "\x7b" ++ ", ".intercalate (shownItems items) ++ "\x7d"
  | .map entries => "\x7b" ++ ", ".intercalate (shownEntries entries) ++ "\x7d"
  | .other _ text => text

def shownItems : List Datum → List String
  | [] => []
  | v :: rest => shown v :: shownItems rest

def shownEntries : List (Datum × Datum) → List String
  | [] => []
  | (k, v) :: rest => (shown k ++ ": " ++ shown v) :: shownEntries rest

end

/-- The text of a value on its own: a string is its own text. -/
def plain : Datum → String
  | .str s => s
  | .other text _ => text
  | v => v.shown

mutual

/-- The value in JSON. Keys become their plain text, a later one taking the place of an earlier equal
one; what JSON has no form for becomes its plain text. -/
def toJson : Datum → Json
  | .null => .null
  | .bool b => .bool b
  | .int n => .int n
  | .float x => .float x
  | .str s => .str s
  | .tuple items => .arr (itemsToJson items)
  | .list items => .arr (itemsToJson items)
  | .set items => .arr (itemsToJson items)
  | .map entries => .obj (entriesToJson [] entries)
  | v => .str v.plain

def itemsToJson : List Datum → List Json
  | [] => []
  | v :: rest => toJson v :: itemsToJson rest

def entriesToJson (done : List (String × Json)) : List (Datum × Datum) → List (String × Json)
  | [] => done
  | (k, v) :: rest => entriesToJson (Json.set k.plain (toJson v) done) rest

end

mutual

/-- Whether the text of a value spells out a whole number of more digits than are written. -/
def spellsLong : Datum → Bool
  | .int n => Nat.pow 10 Number.digitLimit ≤ n.natAbs
  | .tuple items | .list items | .set items => anySpellsLong items
  | .map entries => entriesSpellLong entries
  | _ => false

def anySpellsLong : List Datum → Bool
  | [] => false
  | v :: rest => spellsLong v || anySpellsLong rest

def entriesSpellLong : List (Datum × Datum) → Bool
  | [] => false
  | (k, v) :: rest => spellsLong k || spellsLong v || entriesSpellLong rest

end

mutual

/-- Whether some key in a value has no plain text, because of a number that is too long. -/
def hasLongKey : Datum → Bool
  | .tuple items | .list items | .set items => anyLongKey items
  | .map entries => entriesLongKey entries
  | _ => false

def anyLongKey : List Datum → Bool
  | [] => false
  | v :: rest => hasLongKey v || anyLongKey rest

def entriesLongKey : List (Datum × Datum) → Bool
  | [] => false
  | (k, v) :: rest => spellsLong k || hasLongKey v || entriesLongKey rest

end

mutual

def ofJson : Json → Datum
  | .null => .null
  | .bool b => .bool b
  | .int n => .int n
  | .float x => .float x
  | .str s => .str s
  | .arr items => .list (itemsOfJson items)
  | .obj fields => .map (fieldsOfJson fields)

def itemsOfJson : List Json → List Datum
  | [] => []
  | v :: rest => ofJson v :: itemsOfJson rest

def fieldsOfJson : List (String × Json) → List (Datum × Datum)
  | [] => []
  | (k, v) :: rest => (.str k, ofJson v) :: fieldsOfJson rest

end

/-- Whether a value counts as given: not null, false, zero or empty. -/
def isGiven : Datum → Bool
  | .null => false
  | .bool b => b
  | .int n => n != 0
  | .float x => x != 0.0
  | .complex re im => re != 0.0 || im != 0.0
  | .str s => s != ""
  | .bytes bs => !bs.isEmpty
  | .tuple items | .list items | .set items => !items.isEmpty
  | .map entries => !entries.isEmpty
  | .ellipsis | .other .. => true

/-- The number a value stands for, as its parts; truth values count as 0 and 1. -/
def number? : Datum → Option ((Int ⊕ Float) × Float)
  | .bool b => some (.inl (if b then 1 else 0), 0.0)
  | .int n => some (.inl n, 0.0)
  | .float x => some (.inr x, 0.0)
  | .complex re im => some (.inr re, im)
  | _ => none

def sameReal : Int ⊕ Float → Int ⊕ Float → Bool
  | .inl a, .inl b => a == b
  | .inr x, .inr y => x == y
  | .inl a, .inr x | .inr x, .inl a =>
    match Number.truncate? x with
    | some b => a == b && Number.ofInt b == x
    | none => false

mutual

/-- Whether two values are one key: numbers by value, the rest by kind and content. -/
def same : Datum → Datum → Bool
  | .null, .null => true
  | .str s, .str t => s == t
  | .bytes a, .bytes b => a == b
  | .ellipsis, .ellipsis => true
  | .tuple a, .tuple b => sameItems a b
  | .list a, .list b => sameItems a b
  | .other a b, .other c d => a == c && b == d
  | a, b =>
    match number? a, number? b with
    | some (x, i), some (y, k) => sameReal x y && i == k
    | _, _ => false

def sameItems : List Datum → List Datum → Bool
  | [], [] => true
  | a :: as, b :: bs => same a b && sameItems as bs
  | _, _ => false

end

mutual

/-- Whether a value can be a key: one that can change cannot. -/
def isKey : Datum → Bool
  | .list _ | .set _ | .map _ => false
  | .tuple items => areKeys items
  | _ => true

def areKeys : List Datum → Bool
  | [] => true
  | v :: rest => isKey v && areKeys rest

end

/-- Sets an entry: in its place under the key that is there, and behind the others when it is new. -/
def setEntry (key value : Datum) : List (Datum × Datum) → List (Datum × Datum)
  | [] => [(key, value)]
  | e :: entries =>
    if same e.1 key then (e.1, value) :: entries else e :: setEntry key value entries

def getEntry? (entries : List (Datum × Datum)) (key : String) : Option Datum :=
  (entries.find? fun e => same e.1 (.str key)).map (·.2)

end Datum
end Codemod
