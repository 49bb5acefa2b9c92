import Codemod.Datum
import Codemod.Json.Token
import Codemod.Number.Reader

/-! Numbers in literal notation: whole numbers in four bases, decimals, imaginary numbers, with single
underscores between digits. -/
namespace Codemod.Literal
open Text Json

/-- Whether a character may go on a word. What lies beyond ASCII may. -/
def continuesWord (c : Char) : Bool := c.isAlphanum || c == '_' || c.toNat ≥ 128

/-- Whether digits are parted by single underscores. -/
def inGroups (run : List Char) : Bool := (pieces (· == '_') run).all (!·.isEmpty)

def digitRun (p : Char → Bool) (cs : List Char) : List Char := cs.takeWhile fun c => p c || c == '_'

def withoutUnderscores (cs : List Char) : List Char := cs.filter (· != '_')

/-- The words that may stand right behind a number. -/
def wordsAfterNumber : List (List Char) :=
  ["and", "else", "for", "or", "not"].map String.toList

/-- Whether a number may end before this text: no word goes on, or one begins that may stand there. -/
def endsNumber (cs : List Char) : Bool :=
  match cs with
  | [] => true
  | 'i' :: c :: _ => c == 'f' || c == 'n' || c == 's'
  | c :: _ =>
    !continuesWord c ||
      wordsAfterNumber.any fun w => w.isPrefixOf cs && !(cs.drop w.length).head?.any continuesWord

/-- Digits of a base written behind a mark such as `0x`. -/
def based? (base : Nat) (body : List Char) : Option (Datum × Nat) :=
  let run := digitRun (fun c => (hexDigit? c).isSome && (base == 16 || c.isDigit)) body
  let digits := match run with
    | '_' :: rest => rest
    | run => run
  if !inGroups digits || !endsNumber (body.drop run.length) then none
  else
    (((withoutUnderscores digits).mapM hexDigit?).filter (·.all (· < base))).map fun ds =>
      (.int (ds.foldl (fun n d => base * n + d) 0 : Nat), 2 + run.length)

/-- The exponent of a decimal with the length of its text; no length when there is none. -/
def exponent? (cs : List Char) : Option (Int × Nat) :=
  match cs with
  | e :: rest =>
    if e != 'e' && e != 'E' then some (0, 0)
    else
      let (negative, signed) := match rest with
        | '-' :: _ => (true, 1)
        | '+' :: _ => (false, 1)
        | _ => (false, 0)
      let run := digitRun Char.isDigit (rest.drop signed)
      if run.head?.any Char.isDigit then
        if inGroups run then
          let n : Int := digitsValue (withoutUnderscores run)
          some (if negative then -n else n, 1 + signed + run.length)
        else none
      else if signed = 0 && endsNumber cs then some (0, 0) else none
  | [] => some (0, 0)

def decimal? (cs : List Char) : Option (Datum × Nat) :=
  let whole := digitRun Char.isDigit cs
  let point := (cs.drop whole.length).head? == some '.'
  let fraction := if point then digitRun Char.isDigit (cs.drop (whole.length + 1)) else []
  let mantissa := whole.length + (if point then 1 + fraction.length else 0)
  if (!whole.isEmpty && !inGroups whole) || (!fraction.isEmpty && !inGroups fraction) then none
  else (exponent? (cs.drop mantissa)).bind fun (exponent, extra) =>
    let size := mantissa + extra
    let rest := cs.drop size
    let (w, f) := (withoutUnderscores whole, withoutUnderscores fraction)
    let value := Number.ofDecimal false (digitsValue (w ++ f)) (exponent - f.length)
    match rest with
    | j :: after =>
      if j == 'j' || j == 'J' then
        if endsNumber after then some (.complex 0.0 value, size + 1) else none
      else finish rest point extra value w size
    | [] => finish rest point extra value w size
where
  /-- A number that is not imaginary. -/
  finish (rest : List Char) (point : Bool) (extra : Nat) (value : Float) (w : List Char)
      (size : Nat) : Option (Datum × Nat) :=
    if !endsNumber rest then none
    else if point || extra > 0 then some (.float value, size)
    else if w.length > Number.digitLimit then none
    else if w.head? == some '0' && w.any (· != '0') then none
    else some (.int (digitsValue w), size)

/-- The number at the head of a text that begins with a digit, or with a point and a digit; and the
length of its text. -/
def number? (cs : List Char) : Option (Datum × Nat) :=
  match cs with
  | '0' :: mark :: body =>
    match mark.toLower with
    | 'x' => based? 16 body
    | 'o' => based? 8 body
    | 'b' => based? 2 body
    | _ => decimal? cs
  | cs => decimal? cs

end Codemod.Literal
