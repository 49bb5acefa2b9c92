import Codemod.Json.Basic
import Codemod.Json.Token
import Codemod.Number.Double

/-! Reading a JSON text. Tokens are fed one by one to a stack of unfinished arrays and objects, so the
first fault in reading order is the one reported. -/
namespace Codemod.Json
open Text

inductive ReadError where
  | malformed
  /-- A whole number has more digits than are read. -/
  | tooManyDigits
  deriving DecidableEq, Repr

/-- The most digits a whole number may have. -/
def digitLimit : Nat := 4300

/-- An array or object whose end has not been read; items and fields stand in reverse order. -/
inductive Partial where
  | array (items : List Json)
  | object (fields : List (String × Json)) (key : String)

inductive Expect where
  | value
  /-- A value or the end of an empty array. -/
  | firstValue
  | key
  /-- A key or the end of an empty object. -/
  | firstKey
  | colon
  /-- A comma or the end of what is open. -/
  | next
  deriving DecidableEq, Repr

structure State where
  stack : List Partial
  expect : Expect
  result : Option Json

def State.start : State := ⟨[], .value, none⟩

/-- Reversed fields with one more; a key that is there already takes the new value in its place. -/
def addField (name : String) (value : Json) (reversed : List (String × Json)) :
    List (String × Json) :=
  if reversed.any (·.1 == name) then set name value reversed else (name, value) :: reversed

def State.push (s : State) (v : Json) : State :=
  match s.stack with
  | [] => ⟨[], .next, some v⟩
  | .array items :: outer => ⟨.array (v :: items) :: outer, .next, none⟩
  | .object fields key :: outer => ⟨.object (addField key v fields) key :: outer, .next, none⟩

def wholeNumber (negative : Bool) (digits : List Char) : Except ReadError Json :=
  if digits.length > digitLimit then .error .tooManyDigits
  else
    let n : Int := digitsValue digits
    .ok (.int (if negative then -n else n))

/-- The value of a token that is one by itself. -/
def scalar? : Token → Option (Except ReadError Json)
  | .null => some (.ok .null)
  | .bool b => some (.ok (.bool b))
  | .str s => some (.ok (.str (String.ofList s)))
  | .whole negative digits => some (wholeNumber negative digits)
  | .decimal negative digits exponent =>
    some (.ok (.float (Number.ofDecimal negative (digitsValue digits) exponent)))
  | .infinite negative => some (.ok (.float (Number.nearest negative (Nat.pow 2 1024) 1)))
  | .nan => some (.ok (.float (0.0 / 0.0)))
  | _ => none

def State.value (s : State) (t : Token) : Except ReadError State :=
  match t with
  | .openArray => .ok ⟨.array [] :: s.stack, .firstValue, none⟩
  | .openObject => .ok ⟨.object [] "" :: s.stack, .firstKey, none⟩
  | t =>
    match scalar? t with
    | some v => v.map s.push
    | none => .error .malformed

def State.close (s : State) (t : Token) : Except ReadError State :=
  match s.stack, t with
  | .array items :: outer, .closeArray =>
    .ok (State.push ⟨outer, .next, none⟩ (.arr items.reverse))
  | .object fields _ :: outer, .closeObject =>
    .ok (State.push ⟨outer, .next, none⟩ (.obj fields.reverse))
  | _, _ => .error .malformed

def State.key (s : State) (t : Token) : Except ReadError State :=
  match s.stack, t with
  | .object fields _ :: outer, .str name =>
    .ok ⟨.object fields (String.ofList name) :: outer, .colon, none⟩
  | _, _ => .error .malformed

def State.feed (s : State) (t : Token) : Except ReadError State :=
  match s.expect with
  | .value => s.value t
  | .firstValue => if t = .closeArray then s.close t else s.value t
  | .key => s.key t
  | .firstKey => if t = .closeObject then s.close t else s.key t
  | .colon => if t = .colon then .ok { s with expect := .value } else .error .malformed
  | .next =>
    if t = .comma then
      match s.stack with
      | .array _ :: _ => .ok { s with expect := .value }
      | .object _ _ :: _ => .ok { s with expect := .key }
      | [] => .error .malformed
    else s.close t

def State.finish (s : State) : Except ReadError Json :=
  match s.result with
  | some v => .ok v
  | none => .error .malformed

/-- Reads a text that holds one value and nothing else. -/
def read (text : List Char) : Except ReadError Json :=
  ((tokens text).foldlM State.feed State.start).bind State.finish

def parse (text : String) : Except ReadError Json := read text.toList

end Codemod.Json
