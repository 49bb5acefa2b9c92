import Codemod.Number.Double
import Codemod.Text.Word
import Codemod.Text.Find

/-! Numbers written by people: signs, digits of any script, digit groups, and the words for the
numbers that are not finite. -/
namespace Codemod.Number
open Text

/-- What a reader of numbers accepts. -/
structure Grammar where
  blank : Char → Bool
  digit? : Char → Option Nat

/-- White space as Unicode has it: a separator is no blank around a number. -/
def isSpace (c : Char) : Bool := isBlank c && !(28 ≤ c.toNat && c.toNat ≤ 31)

/-- Digits of every script. -/
def Grammar.wide : Grammar := ⟨isSpace, Text.digit?⟩

def Grammar.narrow : Grammar :=
  ⟨isSpace, fun c => if '0' ≤ c && c ≤ '9' then some (c.toNat - 48) else none⟩

def Grammar.trim (g : Grammar) (cs : List Char) : List Char :=
  ((cs.dropWhile g.blank).reverse.dropWhile g.blank).reverse

/-- A sign at the head of a text, and what follows it. -/
def sign (cs : List Char) : Bool × List Char :=
  match cs with
  | '-' :: rest => (true, rest)
  | '+' :: rest => (false, rest)
  | cs => (false, cs)

/-- The digits of a text that is nothing but digits in groups parted by single underscores. -/
def Grammar.groups? (g : Grammar) (cs : List Char) : Option (List Nat) :=
  let groups := pieces (· == '_') cs
  if groups.any List.isEmpty then none else groups.flatten.mapM g.digit?

def ofDigits (digits : List Nat) : Nat := digits.foldl (fun n d => 10 * n + d) 0

inductive IntegerError where
  | unreadable
  | tooManyDigits
  deriving DecidableEq, Repr

/-- The most digits a whole number may have. -/
def digitLimit : Nat := 4300

def Grammar.integer (g : Grammar) (cs : List Char) : Except IntegerError Int :=
  let (negative, rest) := sign (g.trim cs)
  match g.groups? rest with
  | none => .error .unreadable
  | some digits =>
    if digits.length > digitLimit then .error .tooManyDigits
    else .ok (if negative then -(ofDigits digits : Int) else ofDigits digits)

def integer? (cs : List Char) : Option Int := (Grammar.wide.integer cs).toOption

/-- Digits that may be missing altogether. -/
def Grammar.someDigits? (g : Grammar) (cs : List Char) : Option (List Nat) :=
  if cs.isEmpty then some [] else g.groups? cs

/-- A decimal with an optional fraction and exponent; a digit has to stand on one side of the
point. -/
def Grammar.decimal? (g : Grammar) (negative : Bool) (cs : List Char) : Option Float :=
  let mantissa := cs.takeWhile fun c => c != 'e' && c != 'E'
  let exponent : Option Int := match cs.drop mantissa.length with
    | [] => some 0
    | _ :: rest =>
      let (negative, rest) := sign rest
      (g.groups? rest).map fun ds => if negative then -(ofDigits ds : Int) else ofDigits ds
  let whole := mantissa.takeWhile (· != '.')
  let fraction := (mantissa.drop whole.length).drop 1
  match g.someDigits? whole, g.someDigits? fraction, exponent with
  | some w, some f, some e =>
    if w.isEmpty && f.isEmpty then none
    else some (ofDecimal negative (ofDigits (w ++ f)) (e - f.length))
  | _, _, _ => none

def infinity (negative : Bool) : Float := nearest negative (Nat.pow 2 1024) 1

/-- A number, also one of the words for infinity and for what is no number. -/
def Grammar.float? (g : Grammar) (cs : List Char) : Option Float :=
  let (negative, rest) := sign (g.trim cs)
  let word := String.ofList (lowerAscii rest)
  if word == "inf" || word == "infinity" then some (infinity negative)
  else if word == "nan" then some (0.0 / 0.0)
  else g.decimal? negative rest

def float? (cs : List Char) : Option Float := Grammar.wide.float? cs

end Codemod.Number
