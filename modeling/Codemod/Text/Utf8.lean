/-! UTF-8 read leniently: bytes that are no character are replaced or left out. -/
namespace Codemod.Text

/-- Whether a byte may follow the head byte `a` of a sequence as its second byte. -/
def isSecond (a b : Nat) : Bool :=
  let low := if a = 0xE0 then 0xA0 else if a = 0xF0 then 0x90 else 0x80
  let high := if a = 0xED then 0x9F else if a = 0xF4 then 0x8F else 0xBF
  low ≤ b && b ≤ high

def isTail (b : Nat) : Bool := 0x80 ≤ b && b ≤ 0xBF

/-- The number of bytes of a sequence with the given head byte; none for a byte that is no head. -/
def sequenceLength (a : Nat) : Nat :=
  if a < 0x80 then 1
  else if 0xC2 ≤ a && a ≤ 0xDF then 2
  else if 0xE0 ≤ a && a ≤ 0xEF then 3
  else if 0xF0 ≤ a && a ≤ 0xF4 then 4
  else 0

/-- The bytes behind the head that belong to its sequence; fewer than it needs when it breaks off. -/
def sequenceTail (a : Nat) (rest : List UInt8) : List Nat :=
  match (rest.take (sequenceLength a - 1)).map UInt8.toNat with
  | [] => []
  | b :: more => if isSecond a b then b :: more.takeWhile isTail else []

def sequenceChar (a : Nat) (tail : List Nat) : Char :=
  let head := match tail.length with
    | 0 => a
    | 1 => a % 0x20
    | 2 => a % 0x10
    | _ => a % 0x08
  Char.ofNat (tail.foldl (fun n b => n * 0x40 + b % 0x40) head)

/-- The characters of a byte sequence. A head byte whose sequence breaks off stands, together with
the bytes that do belong to it, for the characters `bad`; so does a byte that is no head. -/
def decodeLenient (bad : List Char) (skip : Nat) : List UInt8 → List Char
  | [] => []
  | byte :: rest =>
    match skip with
    | k + 1 => decodeLenient bad k rest
    | 0 =>
      let a := byte.toNat
      let tail := sequenceTail a rest
      if tail.length + 1 = sequenceLength a then
        sequenceChar a tail :: decodeLenient bad tail.length rest
      else bad ++ decodeLenient bad tail.length rest

/-- Bad sequences become the replacement character. -/
def decodeReplacing (bytes : ByteArray) : String :=
  String.ofList (decodeLenient ['\uFFFD'] 0 bytes.toList)

/-- Bad sequences are left out. -/
def decodeIgnoring (bytes : ByteArray) : String :=
  String.ofList (decodeLenient [] 0 bytes.toList)

end Codemod.Text
