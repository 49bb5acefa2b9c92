import Codemod.Text.Find
import Codemod.Text.Word

/-! The tokens of a JSON text. Reading them never fails: what is no token becomes `bad`, so that a
reader meets every fault at its place. -/
namespace Codemod.Json
open Text

inductive Token where
  | openArray
  | closeArray
  | openObject
  | closeObject
  | comma
  | colon
  | null
  | bool (b : Bool)
  | str (s : List Char)
  /-- A number without fraction and exponent, as its digits. -/
  | whole (negative : Bool) (digits : List Char)
  /-- `digits * 10 ^ exponent`. -/
  | decimal (negative : Bool) (digits : List Char) (exponent : Int)
  | infinite (negative : Bool)
  | nan
  | bad
  deriving DecidableEq, Repr

def isSpace (c : Char) : Bool := c == ' ' || c == '\t' || c == '\n' || c == '\r'

def hexDigit? (c : Char) : Option Nat :=
  if '0' ≤ c && c ≤ '9' then some (c.toNat - 48)
  else if 'a' ≤ c && c ≤ 'f' then some (c.toNat - 87)
  else if 'A' ≤ c && c ≤ 'F' then some (c.toNat - 55)
  else none

def hexValue? (cs : List Char) : Option Nat :=
  cs.foldlM (fun n c => (hexDigit? c).map (16 * n + ·)) 0

/-- The code unit written by four hexadecimal digits, a high surrogate being joined with the low one
after it; a surrogate that stands alone is no character and becomes the replacement character. The
second part tells how many characters of the text the unit takes. -/
def unit? (cs : List Char) : Option (Char × Nat) :=
  if cs.length < 4 then none
  else (hexValue? (cs.take 4)).map fun high =>
    if 0xD800 ≤ high && high < 0xE000 then
      match cs.drop 4 with
      | '\\' :: 'u' :: rest =>
        match (if rest.length < 4 then none else hexValue? (rest.take 4)) with
        | some low =>
          if high < 0xDC00 && 0xDC00 ≤ low && low < 0xE000 then
            (Char.ofNat (0x10000 + (high - 0xD800) * 0x400 + (low - 0xDC00)), 10)
          else ('\uFFFD', 4)
        | none => ('\uFFFD', 4)
      | _ => ('\uFFFD', 4)
    else (Char.ofNat high, 4)

def simpleEscape? : Char → Option Char
  | '"' => some '"'
  | '\\' => some '\\'
  | '/' => some '/'
  | 'b' => some '\x08'
  | 'f' => some '\x0c'
  | 'n' => some '\n'
  | 'r' => some '\r'
  | 't' => some '\t'
  | _ => none

/-- The characters of a string up to its closing quote, and the text after that. Control characters
have to be escaped. `skip` characters belong to an escape already read. -/
def stringBody (skip : Nat) : List Char → Option (List Char × List Char)
  | [] => none
  | c :: rest =>
    match skip with
    | k + 1 => stringBody k rest
    | 0 =>
      if c = '"' then some ([], rest)
      else if c = '\\' then
        match rest with
        | 'u' :: more =>
          (unit? more).bind fun (u, n) =>
            (stringBody (n + 1) rest).map fun (body, after) => (u :: body, after)
        | e :: _ =>
          (simpleEscape? e).bind fun u =>
            (stringBody 1 rest).map fun (body, after) => (u :: body, after)
        | [] => none
      else if c.toNat < 32 then none
      else (stringBody 0 rest).map fun (body, after) => (c :: body, after)

def isAsciiDigit (c : Char) : Bool := '0' ≤ c && c ≤ '9'

/-- The fraction of a number: its digits, when a point and a digit are there. -/
def fractionDigits : List Char → List Char
  | '.' :: rest => rest.takeWhile isAsciiDigit
  | _ => []

/-- The exponent of a number, with the length of its text. -/
def exponent? : List Char → Option (Int × Nat)
  | [] => none
  | e :: rest =>
    if e != 'e' && e != 'E' then none
    else
      let (negative, signLength) := match rest with
        | '-' :: _ => (true, 1)
        | '+' :: _ => (false, 1)
        | _ => (false, 0)
      let digits := (rest.drop signLength).takeWhile isAsciiDigit
      if digits.isEmpty then none
      else
        let value : Int := digitsValue digits
        some (if negative then -value else value, 1 + signLength + digits.length)

/-- The digits before the point; a zero in front stands alone. -/
def wholeDigits : List Char → List Char
  | '0' :: _ => ['0']
  | cs => cs.takeWhile isAsciiDigit

/-- The number at the head of a text that begins with a digit, and the rest. -/
def number? (negative : Bool) (cs : List Char) : Option (Token × List Char) :=
  let whole := wholeDigits cs
  if whole.isEmpty then none
  else
    let fraction := fractionDigits (cs.drop whole.length)
    let read := whole.length + if fraction.isEmpty then 0 else fraction.length + 1
    match exponent? (cs.drop read) with
    | some (e, n) =>
      some (.decimal negative (whole ++ fraction) (e - fraction.length), cs.drop (read + n))
    | none =>
      if fraction.isEmpty then some (.whole negative whole, cs.drop read)
      else some (.decimal negative (whole ++ fraction) (-(fraction.length : Int)), cs.drop read)

/-- The words of the format, with the non-finite numbers it is commonly extended by. -/
def wordTokens : List (List Char × Token) :=
  [("null".toList, .null), ("true".toList, .bool true), ("false".toList, .bool false),
   ("NaN".toList, .nan), ("Infinity".toList, .infinite false), ("-Infinity".toList, .infinite true)]

def punctuation? : Char → Option Token
  | '[' => some .openArray
  | ']' => some .closeArray
  | '{' => some .openObject
  | '}' => some .closeObject
  | ',' => some .comma
  | ':' => some .colon
  | _ => none

/-- The token other than punctuation that begins with `c`, and the text after it. -/
def longToken? (c : Char) (rest : List Char) : Option (Token × List Char) :=
  if c = '"' then (stringBody 0 rest).map fun body => (Token.str body.1, body.2)
  else if c = '-' then
    (number? true rest).or ((after? "Infinity".toList rest).map ((Token.infinite true, ·)))
  else if isAsciiDigit c then number? false (c :: rest)
  else wordTokens.findSome? fun w => (after? w.1 (c :: rest)).map ((w.2, ·))

/-- The token that begins with `c`, and the text after it; after a fault nothing is read. -/
def nextToken (c : Char) (rest : List Char) : Token × List Char :=
  match punctuation? c with
  | some t => (t, rest)
  | none => (longToken? c rest).getD (.bad, [])

theorem stringBody_length {skip : Nat} {cs body after : List Char}
    (h : stringBody skip cs = some (body, after)) : after.length ≤ cs.length := by
  induction cs generalizing skip body after with
  | nil => simp [stringBody] at h
  | cons c rest ih =>
    have step {k : Nat} {f : List Char × List Char → List Char}
        (h : (stringBody k rest).map (fun p => (f p, p.2)) = some (body, after)) :
        after.length ≤ rest.length := by
      obtain ⟨⟨b, a⟩, hp, hq⟩ := Option.map_eq_some_iff.1 h
      obtain ⟨-, rfl⟩ := Prod.mk.inj hq
      exact ih hp
    unfold stringBody at h
    split at h
    · exact Nat.le_succ_of_le (ih h)
    · split at h
      · simp at h; simp [h.2]
      · split at h
        · split at h
          · obtain ⟨⟨u, n⟩, -, h⟩ := Option.bind_eq_some_iff.1 h
            exact Nat.le_succ_of_le (step h)
          · obtain ⟨u, -, h⟩ := Option.bind_eq_some_iff.1 h
            exact Nat.le_succ_of_le (step h)
          · simp at h
        · split at h
          · simp at h
          · exact Nat.le_succ_of_le (step h)

theorem number?_length {negative : Bool} {cs after : List Char} {t : Token}
    (h : number? negative cs = some (t, after)) : after.length < cs.length := by
  have drop {n : Nat} (hw : ¬ (wholeDigits cs).isEmpty = true) (hn : (wholeDigits cs).length ≤ n) :
      (cs.drop n).length < cs.length := by
    have hpos : 0 < (wholeDigits cs).length := List.length_pos_iff.2 (by simpa using hw)
    have : 0 < cs.length := by
      rcases cs with _ | ⟨c, cs⟩
      · simp [wholeDigits] at hpos
      · simp
    simp only [List.length_drop]; omega
  unfold number? at h
  dsimp only at h
  split at h
  · simp at h
  · next hw =>
    split at h
    · obtain ⟨-, rfl⟩ := Prod.mk.inj (Option.some.inj h)
      exact drop hw (by omega)
    · split at h <;>
      · obtain ⟨-, rfl⟩ := Prod.mk.inj (Option.some.inj h)
        exact drop hw (by omega)

theorem after?_length {piece cs rest : List Char} (h : after? piece cs = some rest) :
    piece.length + rest.length = cs.length := by
  simp [after?_eq_some_iff.1 h]

theorem longToken?_length {c : Char} {rest after : List Char} {t : Token}
    (h : longToken? c rest = some (t, after)) : after.length ≤ rest.length := by
  unfold longToken? at h
  split at h
  · obtain ⟨⟨b, a⟩, hp, hq⟩ := Option.map_eq_some_iff.1 h
    obtain ⟨-, rfl⟩ := Prod.mk.inj hq
    exact stringBody_length hp
  · split at h
    · rcases Option.or_eq_some_iff.1 h with h | ⟨-, h⟩
      · exact Nat.le_of_lt (number?_length h)
      · obtain ⟨a, ha, hq⟩ := Option.map_eq_some_iff.1 h
        obtain ⟨-, rfl⟩ := Prod.mk.inj hq
        have := after?_length ha
        omega
    · split at h
      · exact Nat.le_of_lt_succ (number?_length h)
      · obtain ⟨w, hw, h⟩ := List.exists_of_findSome?_eq_some h
        obtain ⟨a, ha, hq⟩ := Option.map_eq_some_iff.1 h
        obtain ⟨-, rfl⟩ := Prod.mk.inj hq
        have hlen := after?_length ha
        have : 0 < w.1.length := by
          simp only [wordTokens, List.mem_cons, List.not_mem_nil, or_false] at hw
          rcases hw with rfl | rfl | rfl | rfl | rfl | rfl <;> decide
        simp only [List.length_cons] at hlen
        omega

theorem nextToken_length (c : Char) (rest : List Char) :
    (nextToken c rest).2.length ≤ rest.length := by
  unfold nextToken
  split
  · exact Nat.le_refl _
  · cases h : longToken? c rest with
    | none => simp
    | some r => exact longToken?_length h

def tokens (cs : List Char) : List Token :=
  match cs with
  | [] => []
  | c :: rest =>
    if isSpace c then tokens rest
    else
      let next := nextToken c rest
      next.1 :: tokens next.2
termination_by cs.length
decreasing_by
  · simp
  · exact Nat.lt_succ_of_le (nextToken_length c rest)

end Codemod.Json
