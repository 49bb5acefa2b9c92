import Codemod.Datum
import Codemod.Failure

/-! What a text in literal notation says, and the value it has. Parts are valued from left to right, so
the first fault is the one that counts. -/
namespace Codemod.Literal

inductive Expr where
  | constant (v : Datum)
  | word (name : List Char)
  /-- Anything that is well formed and no literal. -/
  | other
  | signed (negative : Bool) (e : Expr)
  | sum (minus : Bool) (left right : Expr)
  | tuple (items : List Expr)
  | list (items : List Expr)
  | set (items : List Expr)
  | emptySet
  | dict (entries : List (Expr × Expr))
  deriving Inhabited

/-- Why an expression has no value. -/
inductive Refusal where
  /-- It is no literal. -/
  | notLiteral
  | misfit (m : Misfit)
  deriving DecidableEq, Repr

abbrev Valued (α : Type) := Except Refusal α

namespace Expr

/-- A number on its own. -/
def number : Expr → Valued Datum
  | .constant (.int n) => .ok (.int n)
  | .constant (.float x) => .ok (.float x)
  | .constant (.complex re im) => .ok (.complex re im)
  | _ => .error .notLiteral

def negate : Datum → Datum
  | .int n => .int (-n)
  | .float x => .float (-x)
  | .complex re im => .complex (-re) (-im)
  | v => v

/-- A number with at most one sign. -/
def signedNumber : Expr → Valued Datum
  | .signed negative e => (number e).map fun v => if negative then negate v else v
  | e => number e

/-- The sum of a real and a complex number; nothing else can be added up. -/
def addUp (minus : Bool) (left right : Datum) : Valued Datum :=
  let with' (x : Float) (re im : Float) : Datum :=
    if minus then .complex (x - re) (0.0 - im) else .complex (x + re) (0.0 + im)
  match left, right with
  | .float x, .complex re im => .ok (with' x re im)
  | .int n, .complex re im =>
    let x := Number.ofInt n
    if Number.isFinite x then .ok (with' x re im) else .error (.misfit .beyondRange)
  | _, _ => .error .notLiteral

/-- The whole number that a value is equal to. -/
def whole? : Datum → Option Int
  | .bool b => some (if b then 1 else 0)
  | .int n => some n
  | .float x => (Number.truncate? x).filter fun n => Number.ofInt n == x
  | _ => none

/-- The items of a set in the order it shows them: whole numbers by what is left of them in a table of
eight places, or of four times as many until all fit well. -/
def setOrder (items : List Datum) : List Datum :=
  let places : Int := if items.length ≤ 4 then 8 else if items.length ≤ 18 then 32 else 128
  let key (v : Datum) : Int := ((whole? v).map (· % places)).getD places
  items.mergeSort fun a b => key a ≤ key b

/-- A set with one more item, if that can be one. -/
def insertItem (items : List Datum) (v : Datum) : Valued (List Datum) :=
  if !v.isKey then .error (.misfit .notAKey)
  else .ok (if items.any (Datum.same · v) then items else items ++ [v])

def insertEntry (entries : List (Datum × Datum)) (k v : Datum) : Valued (List (Datum × Datum)) :=
  if !k.isKey then .error (.misfit .notAKey) else .ok (Datum.setEntry k v entries)

mutual

def value : Expr → Valued Datum
  | .constant v => .ok v
  | .signed negative e => signedNumber (.signed negative e)
  | .sum minus left right =>
    (signedNumber left).bind fun l => (number right).bind fun r => addUp minus l r
  | .tuple items => (values items).map .tuple
  | .list items => (values items).map .list
  | .set items => (setItems [] items).map fun vs => .set (setOrder vs)
  | .emptySet => .ok (.set [])
  | .dict entries => (dictEntries [] entries).map .map
  | .word _ | .other => .error .notLiteral

def values : List Expr → Valued (List Datum)
  | [] => .ok []
  | e :: rest => (value e).bind fun v => (values rest).map (v :: ·)

def setItems (done : List Datum) : List Expr → Valued (List Datum)
  | [] => .ok done
  | e :: rest => (value e).bind fun v => (insertItem done v).bind fun done => setItems done rest

def dictEntries (done : List (Datum × Datum)) :
    List (Expr × Expr) → Valued (List (Datum × Datum))
  | [] => .ok done
  | (k, e) :: rest =>
    (value k).bind fun k => (value e).bind fun v =>
      (insertEntry done k v).bind fun done => dictEntries done rest

end

end Expr
end Codemod.Literal
