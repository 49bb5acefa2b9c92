/-! Doubles taken apart into integers and put together again. A finite double is `m * 2 ^ q` with
`m < 2 ^ 53` and `-1074 ≤ q ≤ 971`; everything that reads or writes decimals works on `m` and `q`. -/
namespace Codemod.Number

inductive Double where
  | finite (negative : Bool) (m : Nat) (q : Int)
  | infinite (negative : Bool)
  | nan
  deriving DecidableEq, Repr

def Double.ofFloat (x : Float) : Double :=
  let bits := x.toBits.toNat
  let negative := bits / Nat.pow 2 63 == 1
  let exponent : Nat := bits / Nat.pow 2 52 % Nat.pow 2 11
  let fraction := bits % Nat.pow 2 52
  if exponent == 2047 then (if fraction == 0 then .infinite negative else .nan)
  else if exponent == 0 then .finite negative fraction (-1074)
  else .finite negative (Nat.pow 2 52 + fraction) ((exponent : Int) - 1075)

/-- The quotient rounded to the nearest integer, a half to the even one. -/
def divEven (num den : Nat) : Nat :=
  let t := num / den
  let r := 2 * (num % den)
  if r < den then t else if r = den then t + t % 2 else t + 1

theorem divEven_exact (n : Nat) {den : Nat} (h : 0 < den) : divEven (n * den) den = n := by
  simp [divEven, Nat.mul_div_cancel _ h, Nat.mul_mod_left, h]

/-- `num / den * 2 ^ (-q)` as a quotient of naturals. -/
def scaled (num den : Nat) (q : Int) : Nat × Nat :=
  match q with
  | .ofNat n => (num, den * Nat.pow 2 n)
  | .negSucc n => (num * Nat.pow 2 (n + 1), den)

/-- The bits of the magnitude nearest to `num / den`, a half to the even one; infinity when it is
too large. -/
def nearestBits (num den : Nat) : Nat :=
  if num = 0 then 0
  else
    let guess : Int := (num.log2 : Int) - den.log2 - 52
    let (a, b) := scaled num den guess
    let q := max (if a / b < Nat.pow 2 52 then guess - 1 else guess) (-1074)
    let (a, b) := scaled num den q
    let m := divEven a b
    let (m, q) := if m = Nat.pow 2 53 then (Nat.pow 2 52, q + 1) else (m, q)
    if q > 971 then 2047 * Nat.pow 2 52
    else if m < Nat.pow 2 52 then m
    else (q + 1075).toNat * Nat.pow 2 52 + (m - Nat.pow 2 52)

/-- The double nearest to `num / den`, with the given sign. -/
def nearest (negative : Bool) (num den : Nat) : Float :=
  Float.ofBits (nearestBits num den + if negative then Nat.pow 2 63 else 0).toUInt64

/-- The double nearest to an integer; infinite when it is too large for one. -/
def ofInt (n : Int) : Float := nearest (n < 0) n.natAbs 1

/-- The double nearest to `digits * 10 ^ exponent`. An exponent beyond the range of doubles is not
multiplied out. -/
def ofDecimal (negative : Bool) (digits : Nat) (exponent : Int) : Float :=
  let size : Int := digits.log2 / 3 + exponent
  if digits = 0 then nearest negative 0 1
  else if size > 400 && exponent > 400 then nearest negative (Nat.pow 2 1024) 1
  else if size + 2 < -400 then nearest negative 0 1
  else match exponent with
    | .ofNat n => nearest negative (digits * Nat.pow 10 n) 1
    | .negSucc n => nearest negative digits (Nat.pow 10 (n + 1))

def isFinite (x : Float) : Bool :=
  match Double.ofFloat x with
  | .finite .. => true
  | _ => false

def isInfinite (x : Float) : Bool :=
  match Double.ofFloat x with
  | .infinite _ => true
  | _ => false

/-- The integer part of a finite double, toward zero. -/
def truncate? (x : Float) : Option Int :=
  match Double.ofFloat x with
  | .finite negative m q =>
    let (a, b) := scaled m 1 (-q)
    some (if negative then -(a / b : Int) else (a / b : Int))
  | _ => none

end Codemod.Number
