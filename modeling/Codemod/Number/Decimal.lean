import Codemod.Number.Double

/-! Decimals for doubles: the fewest digits that read back, and the digits of a value rounded to a
given number of places. -/
namespace Codemod.Number

/-- `digits * 10 ^ exponent`. -/
structure Decimal where
  digits : Nat
  exponent : Int
  deriving DecidableEq, Repr

def digitCount (n : Nat) : Nat := (Nat.toDigits 10 n).length

/-- `num / den` measured in units of `10 ^ k`, as a quotient of naturals. -/
def inUnits (num den : Nat) (k : Int) : Nat × Nat :=
  match k with
  | .ofNat n => (num, den * Nat.pow 10 n)
  | .negSucc n => (num * Nat.pow 10 (n + 1), den)

/-- The point of the grid of multiples of `10 ^ k` that lies between `low` and `high` (all three over
`den`) and is nearest to `num`; an end counts when `closed`. -/
def gridPoint? (low num high den : Nat) (closed : Bool) (k : Int) : Option Nat :=
  let inside (c : Nat) : Bool :=
    let (l, d) := inUnits low den k
    let (h, _) := inUnits high den k
    if closed then l ≤ c * d && c * d ≤ h else l < c * d && c * d < h
  let (n, d) := inUnits num den k
  let c := n / d
  match inside c, inside (c + 1) with
  | true, true =>
    let r := 2 * (n % d)
    some (if r < d || (r == d && c % 2 == 0) then c else c + 1)
  | true, false => some c
  | false, true => some (c + 1)
  | false, false => none

/-- The decimal with the fewest digits among those nearer to `m * 2 ^ q` than to any other double. The
gap below a power of two is half as wide as the one above it. -/
def shortest (m : Nat) (q : Int) : Decimal :=
  if m = 0 then ⟨0, 0⟩
  else
    let below := if m = Nat.pow 2 52 && q > -1074 then 1 else 2
    let (num, den) := scaled (4 * m) 1 (2 - q)
    let (low, _) := scaled (4 * m - below) 1 (2 - q)
    let (high, _) := scaled (4 * m + 2) 1 (2 - q)
    let top : Int := (digitCount num : Int) - digitCount den + 1
    let grids := (List.range 20).map fun i => top - (i : Nat)
    (grids.findSome? fun k =>
      (gridPoint? low num high den (m % 2 == 0) k).map fun c => Decimal.mk c k).getD
        ⟨divEven num den, 0⟩

/-- The value of `m * 2 ^ q` rounded to `places` significant digits, a half to the even digit. -/
def roundedTo (places : Nat) (m : Nat) (q : Int) : Decimal :=
  if m = 0 then ⟨0, 0⟩
  else
    let (num, den) := scaled m 1 (-q)
    let top : Int := (digitCount num : Int) - digitCount den
    let first : Int := if (let (n, d) := inUnits num den top; n < d) then top - 1 else top
    let k := first - places + 1
    let (n, d) := inUnits num den k
    ⟨divEven n d, k⟩

/-! # How decimals are spelled -/

/-- The choices of a number format. -/
structure Style where
  /-- The least and the greatest exponent of the leading digit that is written positionally. -/
  positional : Int × Int
  /-- Whether a whole number keeps a point and a zero. -/
  pointZero : Bool

/-- The digits without zeros at the end, and the exponent of the first of them. -/
def significand (d : Decimal) : List Char × Int :=
  let digits := Nat.toDigits 10 d.digits
  let kept := (digits.reverse.dropWhile (· == '0')).reverse
  (if kept.isEmpty then ['0'] else kept, d.exponent + digits.length - 1)

def twoDigits (n : Nat) : List Char :=
  let digits := Nat.toDigits 10 n
  if digits.length < 2 then '0' :: digits else digits

/-- Spells `d`. The exponent has a sign and at least two digits. -/
def Style.spell (style : Style) (d : Decimal) : List Char :=
  let (digits, exponent) := significand d
  let exponent := if d.digits = 0 then 0 else exponent
  let fraction (cs : List Char) : List Char :=
    if cs.isEmpty then (if style.pointZero then ".0".toList else []) else '.' :: cs
  if style.positional.1 ≤ exponent && exponent ≤ style.positional.2 then
    match exponent with
    | .ofNat n =>
      let whole := digits.take (n + 1)
      whole ++ List.replicate (n + 1 - whole.length) '0' ++ fraction (digits.drop (n + 1))
    | .negSucc n => '0' :: '.' :: List.replicate n '0' ++ digits
  else
    digits.take 1 ++ (if digits.length > 1 then '.' :: digits.drop 1 else []) ++
      'e' :: (if exponent < 0 then '-' else '+') :: twoDigits exponent.natAbs

/-- Numbers in data: shortest digits, positional from 0.0001 up to below 10^16, and never like an
integer. -/
def dataStyle : Style := ⟨(-4, 15), true⟩

/-- Numbers in messages: six digits, without a fraction that is zero. -/
def messageStyle : Style := ⟨(-4, 5), false⟩

def signed (negative : Bool) (cs : List Char) : List Char := if negative then '-' :: cs else cs

/-- A double with the fewest digits that read back. -/
def spellShortest (style : Style) (x : Float) : String :=
  String.ofList <| match Double.ofFloat x with
    | .nan => "nan".toList
    | .infinite negative => signed negative "inf".toList
    | .finite negative m q => signed negative (style.spell (shortest m q))

/-- A double rounded to six digits. -/
def spellRounded (x : Float) : String :=
  String.ofList <| match Double.ofFloat x with
    | .nan => "nan".toList
    | .infinite negative => signed negative "inf".toList
    | .finite negative m q => signed negative (messageStyle.spell (roundedTo 6 m q))

end Codemod.Number
