import Codemod.Json.Basic
import Codemod.Number.Reader

/-! Reading records from JSON values. A reader collects every fault it meets together with its place,
so that whoever sent the record can be told of all of them. -/
namespace Codemod.Wire

/-- What can be wrong with a value. -/
inductive Fault where
  | missing
  | unknownField
  | notObject
  /-- Where one of several kinds of object is expected. -/
  | notTagged
  | noKind
  | unknownKind
  | notString
  | notList
  | notInteger
  | notWhole
  | notFinite
  | unreadableInteger
  | longInteger
  | notNumber
  | unreadableNumber
  | belowMinimum
  | aboveMaximum
  | notAmong
  /-- The parts are valid and do not go together. -/
  | inconsistent
  deriving DecidableEq, Repr

inductive Place where
  | field (name : String)
  | item (index : Nat)
  deriving DecidableEq, Repr

structure Issue where
  place : List Place
  fault : Fault
  deriving DecidableEq, Repr

/-- A value, or the faults that keep it from being one. -/
abbrev Checked (α : Type) := Except (List Issue) α

def fail (fault : Fault) : Checked α := .error [⟨[], fault⟩]

/-- Faults inside a part are reported under the place of the part. -/
def under (place : Place) : Checked α → Checked α
  | .ok a => .ok a
  | .error issues => .error (issues.map fun i => { i with place := place :: i.place })

/-- Both values, or the faults of both. -/
def both : Checked α → Checked β → Checked (α × β)
  | .ok a, .ok b => .ok (a, b)
  | .error xs, .error ys => .error (xs ++ ys)
  | .error xs, .ok _ => .error xs
  | .ok _, .error ys => .error ys

theorem both_eq_ok_iff {x : Checked α} {y : Checked β} {p : α × β} :
    both x y = .ok p ↔ x = .ok p.1 ∧ y = .ok p.2 := by
  cases x <;> cases y <;> simp [both, Prod.ext_iff]

/-- The names of a field: the one it is sent under, and the one it may be given by as well. -/
structure Name where
  wire : String
  plain : String

def name (wire : String) : Name := ⟨wire, wire⟩

abbrev Fields := List (String × Json)

/-- The value given for a field. The wire name wins. -/
def lookup (fields : Fields) (n : Name) : Option Json :=
  (Json.get? fields n.wire).or (Json.get? fields n.plain)

/-- A field read by `read`, or what its absence amounts to. -/
def field (fields : Fields) (n : Name) (read : Json → Checked α) (absent : Checked α) : Checked α :=
  under (.field n.wire) <| match lookup fields n with
    | some v => read v
    | none => absent

def required (fields : Fields) (n : Name) (read : Json → Checked α) : Checked α :=
  field fields n read (fail .missing)

def withDefault (fields : Fields) (n : Name) (read : Json → Checked α) (value : α) : Checked α :=
  field fields n read (.ok value)

/-- The keys that stand for no field. A plain name beside the wire name of its field is one. -/
def unknown (fields : Fields) (names : List Name) : List Issue :=
  fields.filterMap fun (key, _) =>
    let known := names.any fun n =>
      key == n.wire || (key == n.plain && !fields.any (·.1 == n.wire))
    if known then none else some ⟨[.field key], .unknownField⟩

/-- A record with the given fields and no others. -/
def record (names : List Name) (read : Fields → Checked α) : Json → Checked α
  | .obj fields =>
    match read fields, unknown fields names with
    | .ok a, [] => .ok a
    | .ok _, extra => .error extra
    | .error issues, extra => .error (issues ++ extra)
  | _ => fail .notObject

def string : Json → Checked String
  | .str s => .ok s
  | _ => fail .notString

/-- Absent, null, or what `read` reads. -/
def nullable (read : Json → Checked α) : Json → Checked (Option α)
  | .null => .ok none
  | v => (read v).map some

/-- The items of a list, each read by `read`, from index `i` on. -/
def items (read : Json → Checked α) (i : Nat) : List Json → Checked (List α)
  | [] => .ok []
  | v :: rest => (both (under (.item i) (read v)) (items read (i + 1) rest)).map fun (a, as) => a :: as

def list (read : Json → Checked α) : Json → Checked (List α)
  | .arr vs => items read 0 vs
  | _ => fail .notList

/-- A text without the underscores between its digits; none may stand at an end or beside
another. -/
def withoutUnderscores? (cs : List Char) : Option (List Char) :=
  let groups := Text.pieces (· == '_') cs
  if groups.length > 1 && groups.any List.isEmpty then none else some groups.flatten

/-- A text without a fraction that is all zeros. -/
def withoutZeroFraction (cs : List Char) : List Char :=
  let whole := cs.takeWhile (· != '.')
  if ((cs.drop whole.length).drop 1).all (· == '0') then whole else cs

def integerText (cs : List Char) : Checked Int :=
  let cs := withoutZeroFraction (Number.Grammar.narrow.trim cs)
  match Number.Grammar.narrow.integer cs with
  | .ok n => .ok n
  | .error .unreadable => fail .unreadableInteger
  | .error .tooManyDigits => fail .longInteger

/-- A double that is a whole number of at most 63 bits. -/
def integerFloat (x : Float) : Checked Int :=
  match Number.truncate? x with
  | none => fail .notFinite
  | some n =>
    if Number.ofInt n != x then fail .notWhole
    else if n.natAbs < Nat.pow 2 63 then .ok n
    else fail .longInteger

def integer : Json → Checked Int
  | .int n => .ok n
  | .bool b => .ok (if b then 1 else 0)
  | .float x => integerFloat x
  | .str s => integerText s.toList
  | _ => fail .notInteger

def natural (v : Json) : Checked Nat :=
  (integer v).bind fun
    | .ofNat n => .ok n
    | .negSucc _ => fail .belowMinimum

def number : Json → Checked Float
  | .int n => .ok (Number.ofInt n)
  | .bool b => .ok (if b then 1.0 else 0.0)
  | .float x => .ok x
  | .str s =>
    match (withoutUnderscores? (Number.Grammar.narrow.trim s.toList)).bind
      Number.Grammar.narrow.float? with
    | some x => .ok x
    | none => fail .unreadableNumber
  | _ => fail .notNumber

def unitInterval (v : Json) : Checked Float :=
  (number v).bind fun x =>
    if !(x ≤ 1.0) then fail .aboveMaximum else if !(0.0 ≤ x) then fail .belowMinimum else .ok x

/-- One of a few words, each with its meaning. -/
def word (meanings : List (String × α)) : Json → Checked α
  | .str s =>
    match Json.get? meanings s with
    | some a => .ok a
    | none => fail .notAmong
  | _ => fail .notAmong

/-- An object whose `kind` field says which reader applies. -/
def tagged (readers : List (String × (Json → Checked α))) : Json → Checked α
  | .obj fields =>
    match Json.get? fields "kind" with
    | none => fail .noKind
    | some (.str kind) =>
      match Json.get? readers kind with
      | some read => under (.field kind) (read (.obj fields))
      | none => fail .unknownKind
    | some _ => fail .unknownKind
  | _ => fail .notTagged

end Codemod.Wire
