import Codemod.Literal.Numeral

/-! Quoted texts in literal notation: single, double and triple quotes, letters in front that change
what the text means, and escapes. -/
namespace Codemod.Literal
open Text Json

/-- What the letters in front of a quote ask for. -/
structure Marks where
  raw : Bool
  bytes : Bool
  formatted : Bool

/-- The marks that a word in front of a quote stands for. -/
def marks? (word : List Char) : Option Marks :=
  match String.ofList (lowerAscii word) with
  | "" | "u" => some ⟨false, false, false⟩
  | "r" => some ⟨true, false, false⟩
  | "b" => some ⟨false, true, false⟩
  | "br" | "rb" => some ⟨true, true, false⟩
  | "f" => some ⟨false, false, true⟩
  | "fr" | "rf" => some ⟨true, false, true⟩
  | _ => none

/-- What lies between the quotes, and its length. A character behind a backslash never ends the text;
a line end does so unless the quotes are triple. -/
def body? (quote : Char) (triple escaped : Bool) : List Char → Option (List Char)
  | [] => none
  | c :: cs =>
    if escaped then (body? quote triple false cs).map (c :: ·)
    else if c == quote && (!triple || [quote, quote].isPrefixOf cs) then some []
    else if c == '\n' && !triple then none
    else (body? quote triple (c == '\\') cs).map (c :: ·)

def plainEscape? : Char → Option (List Char)
  | '\n' => some []
  | '\\' => some ['\\']
  | '\'' => some ['\'']
  | '"' => some ['"']
  | 'a' => some ['\x07']
  | 'b' => some ['\x08']
  | 'f' => some ['\x0c']
  | 'n' => some ['\n']
  | 'r' => some ['\r']
  | 't' => some ['\t']
  | 'v' => some ['\x0b']
  | _ => none

/-- The character with a number; surrogates are no characters and become the replacement character. -/
def charOf? (n : Nat) : Option Char :=
  if n > 0x10FFFF then none
  else if 0xD800 ≤ n && n < 0xE000 then some '\uFFFD'
  else some (Char.ofNat n)

/-- A character given by exactly `size` hexadecimal digits. -/
def hexEscape? (size : Nat) (cs : List Char) : Option Char :=
  if cs.length < size then none else (hexValue? (cs.take size)).bind charOf?

def isOctal (c : Char) : Bool := '0' ≤ c && c ≤ '7'

/-- What an escape stands for, and how many characters it takes behind the backslash. -/
def escape? (bytes : Bool) (cs : List Char) : Option (List Char × Nat) :=
  match cs with
  | [] => none
  | c :: rest =>
    match plainEscape? c with
    | some out => some (out, 1)
    | none =>
      if isOctal c then
        let digits := (cs.take 3).takeWhile isOctal
        let n := digits.foldl (fun n d => 8 * n + (d.toNat - 48)) 0
        some ([Char.ofNat (if bytes then n % 256 else n)], digits.length)
      else if c == 'x' then (hexEscape? 2 rest).map fun u => ([u], 3)
      else if bytes then some (['\\', c], 1)
      else if c == 'u' then (hexEscape? 4 rest).map fun u => ([u], 5)
      else if c == 'U' then (hexEscape? 8 rest).map fun u => ([u], 9)
      else if c == 'N' then none
      else some (['\\', c], 1)

/-- A text with its escapes resolved. Escapes that mean nothing stay as they are. `skip` characters
belong to the escape read last. -/
def unescape? (bytes : Bool) (skip : Nat) : List Char → Option (List Char)
  | [] => some []
  | c :: cs =>
    match skip with
    | k + 1 => unescape? bytes k cs
    | 0 =>
      if c == '\\' then
        (escape? bytes cs).bind fun (out, n) => (unescape? bytes n cs).map (out ++ ·)
      else (unescape? bytes 0 cs).map (c :: ·)

def textValue? (m : Marks) (body : List Char) : Option Datum :=
  if m.bytes && body.any (·.toNat ≥ 128) then none
  else
    (if m.raw then some body else unescape? m.bytes 0 body).map fun cs =>
      if m.bytes then .bytes (cs.map Char.toNat) else .str (String.ofList cs)

/-- The quoted text at the head of `cs`, and the length of its text with both quotes. -/
def quotedText? (m : Marks) (cs : List Char) : Option (Datum × Nat) :=
  match cs with
  | quote :: rest =>
    let triple := [quote, quote].isPrefixOf rest
    let edge := if triple then 3 else 1
    (body? quote triple false (cs.drop edge)).bind fun body =>
      (textValue? m body).map fun v => (v, 2 * edge + body.length)
  | [] => none

end Codemod.Literal
