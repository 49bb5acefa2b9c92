import Codemod.Json.Reader
import Codemod.Text.Find

/-! Where a text stops being JSON, and what would have to stand there instead. -/
namespace Codemod.Json
open Text

inductive Problem where
  | noValue
  | noKey
  | noColon
  | noComma
  /-- Something follows the value. -/
  | extra
  | byteOrderMark
  | unclosedString
  | controlCharacter
  | badEscape
  | badUnit
  deriving DecidableEq, Repr

def Problem.message : Problem → String
  | .noValue => "Expecting value"
  | .noKey => "Expecting property name enclosed in double quotes"
  | .noColon => "Expecting ':' delimiter"
  | .noComma => "Expecting ',' delimiter"
  | .extra => "Extra data"
  | .byteOrderMark => "Unexpected UTF-8 BOM (decode using utf-8-sig)"
  | .unclosedString => "Unterminated string starting at"
  | .controlCharacter => "Invalid control character at"
  | .badEscape => "Invalid \\escape"
  | .badUnit => "Invalid \\uXXXX escape"

/-- A problem at an offset. -/
structure Fault where
  problem : Problem
  offset : Nat
  deriving DecidableEq, Repr

/-- The tokens of a text of `total` characters from its rest `cs` on, each with its offset. -/
def tokensAt (total : Nat) (cs : List Char) : List (Token × Nat) :=
  match cs with
  | [] => []
  | c :: rest =>
    if isSpace c then tokensAt total rest
    else
      let next := nextToken c rest
      (next.1, total - (rest.length + 1)) :: tokensAt total next.2
termination_by cs.length
decreasing_by
  · simp
  · exact Nat.lt_succ_of_le (nextToken_length c rest)

theorem tokensAt_tokens (total : Nat) (cs : List Char) :
    (tokensAt total cs).map (·.1) = tokens cs := by
  fun_induction tokensAt total cs with
  | case1 => rw [tokens]; rfl
  | case2 c rest hc ih => rw [tokens, if_pos hc, ih]
  | case3 c rest hc next ih => rw [tokens, if_neg hc, List.map_cons, ih]

/-- What is wrong with the string whose opening quote stands at offset `start`. The text goes on with
`cs` at `offset`, behind `skip` characters of an escape already read. -/
def stringFault (start offset skip : Nat) : List Char → Fault
  | [] => ⟨.unclosedString, start⟩
  | c :: rest =>
    match skip with
    | k + 1 => stringFault start (offset + 1) k rest
    | 0 =>
      if c = '\\' then
        match rest with
        | [] => ⟨.unclosedString, start⟩
        | 'u' :: more =>
          match unit? more with
          | some (_, n) =>
            if more.length < 5 then ⟨.badUnit, offset + 1⟩
            else stringFault start (offset + 1) (n + 1) rest
          | none => ⟨.badUnit, offset + 1⟩
        | e :: _ =>
          if (simpleEscape? e).isSome then stringFault start (offset + 1) 1 rest
          else ⟨.badEscape, offset⟩
      else if c.toNat < 32 then ⟨.controlCharacter, offset⟩
      else stringFault start (offset + 1) 0 rest

def State.lacks (s : State) : Problem :=
  match s.expect with
  | .value | .firstValue => .noValue
  | .key | .firstKey => .noKey
  | .colon => .noColon
  | .next => if s.stack.isEmpty then .extra else .noComma

def State.takesString (s : State) : Bool := s.expect != .colon && s.expect != .next

/-- The first token that cannot be fed to a state. At the end of the text it is the state that is not
finished. -/
def State.fault (s : State) (text : List Char) : List (Token × Nat) → Fault
  | [] => ⟨s.lacks, text.length⟩
  | (t, offset) :: rest =>
    match s.feed t with
    | .ok s => s.fault text rest
    | .error _ =>
      if s.takesString && text[offset]? == some '"' && t == .bad then
        stringFault offset (offset + 1) 0 (text.drop (offset + 1))
      else ⟨s.lacks, offset⟩

/-- The fault of a text that is not JSON. -/
def fault (text : List Char) : Fault :=
  if text.head? == some '\uFEFF' then ⟨.byteOrderMark, 0⟩
  else State.start.fault text (tokensAt text.length text)

def Fault.message (f : Fault) (text : List Char) : String :=
  let (line, column) := lineColumn text f.offset
  s!"{f.problem.message}: line {line} column {column} (char {f.offset})"

end Codemod.Json
