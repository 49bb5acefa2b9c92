import Codemod.Literal.Expr
import Codemod.Literal.Token

/-! Reading literal notation. Tokens are fed one by one to a stack of open brackets. Everything that an
expression may hold is followed far enough to tell a well formed text from a broken one. -/
namespace Codemod.Literal

/-- A part of an expression that is not finished. -/
inductive Piece where
  | operand (e : Expr)
  | plus (minus : Bool)
  /-- Anything that keeps the expression from being a literal. -/
  | other
  /-- A star in front of the expression. -/
  | star

inductive Kind where
  /-- Outside all brackets. -/
  | top
  | round
  | square
  | curly
  /-- The arguments of a call. -/
  | call
  | index
  deriving DecidableEq, Repr

/-- An open bracket with what has been read behind it; all lists are in reverse order. -/
structure Frame where
  kind : Kind
  items : List Expr := []
  entries : List (Expr × Expr) := []
  /-- Whether a comma has been read. -/
  comma : Bool := false
  /-- A key whose value is being read. -/
  key : Option Expr := none
  pieces : List Piece := []
  /-- How many conditions wait for their alternative. -/
  open' : Nat := 0

/-- What may come next. -/
inductive Phase where
  /-- The beginning of an item. -/
  | item
  /-- An operand; `loose` when a negation may stand in front of it. -/
  | operand (loose : Bool)
  /-- What follows an operand; `text` when that was a text in quotes. -/
  | behind (text : Bool)
  /-- A member name. -/
  | member
  /-- The second word of `not in`. -/
  | within
  /-- Nothing but line ends. -/
  | done
  deriving DecidableEq, Repr

structure State where
  frame : Frame
  outer : List Frame
  phase : Phase

def State.start : State := ⟨{ kind := .top }, [], .item⟩

/-- The most brackets that may be open. -/
def depthLimit : Nat := 200

/-- The expression that pieces (in reverse order) amount to. -/
def exprOf : List Piece → Expr
  | [.operand e] => e
  | [.operand e, .plus negative] => .signed negative e
  | [.operand right, .plus minus, .operand left] => .sum minus left right
  | [.operand right, .plus minus, .operand left, .plus negative] =>
    .sum minus (.signed negative left) right
  | _ => .other

def Frame.starred (f : Frame) : Bool := f.pieces.getLast?.any fun
  | .star => true
  | _ => false

def Frame.finishItem? (f : Frame) : Option Frame :=
  let e := exprOf f.pieces
  let f' := { f with pieces := [], key := none }
  if f.open' > 0 then none
  else match f.kind, f.key with
    | .curly, some k =>
      if f.items.isEmpty then some { f' with entries := (k, e) :: f.entries } else none
    | .curly, none => if f.entries.isEmpty then some { f' with items := e :: f.items } else none
    | _, _ => some { f' with items := e :: f.items }

/-- Adds pieces in front of what may come next. -/
def State.with (s : State) (pieces : List Piece) (phase : Phase) : State :=
  { s with frame := { s.frame with pieces := pieces ++ s.frame.pieces }, phase }

/-- Puts an operand in the place of the last one. -/
def Frame.replaceLast (f : Frame) (e : Expr) : Frame :=
  match f.pieces with
  | .operand _ :: rest => { f with pieces := .operand e :: rest }
  | pieces => { f with pieces := .operand e :: pieces }

def State.openBracket (s : State) (kind : Kind) : Option State :=
  if s.outer.length ≥ depthLimit then none
  else some ⟨{ kind }, s.frame :: s.outer, .item⟩

/-- Whether items are read that would make the frame what it is when it is closed: not behind an
opening bracket or a comma. -/
def Frame.close? (f : Frame) (phase : Phase) : Option Frame :=
  match phase with
  | .item => if f.pieces.isEmpty then some f else none
  | .behind _ => f.finishItem?
  | _ => none

def Frame.expr? (f : Frame) (starred : Bool) : Option Expr :=
  match f.kind with
  | .round =>
    match f.items with
    | [] => some (.tuple [])
    | [e] => if f.comma then some (.tuple [e]) else if starred then none else some e
    | items => some (.tuple items.reverse)
  | .square => some (.list f.items.reverse)
  | .curly =>
    if f.items.isEmpty then some (.dict f.entries.reverse) else some (.set f.items.reverse)
  | _ => none

def closes (kind : Kind) (c : Char) : Bool :=
  match kind with
  | .top => false
  | .round | .call => c == ')'
  | .square | .index => c == ']'
  | .curly => c == '}'

/-- What the last operand becomes when arguments or an index are behind it. -/
def applied (f : Frame) (last : List Piece) : Expr :=
  match f.kind, f.items, last with
  | .call, [], .operand (.word name) :: _ => if name == "set".toList then .emptySet else .other
  | _, _, _ => .other

def State.closeBracket (s : State) (c : Char) : Option State :=
  match s.outer with
  | [] => none
  | outer :: rest =>
    if !closes s.frame.kind c then none
    else (s.frame.close? s.phase).bind fun f =>
      match f.kind with
      | .call => some ⟨outer.replaceLast (applied f outer.pieces), rest, .behind false⟩
      | .index =>
        if f.items.isEmpty then none else some ⟨outer.replaceLast .other, rest, .behind false⟩
      | _ => (f.expr? s.frame.starred).map fun e =>
        ⟨{ outer with pieces := .operand e :: outer.pieces }, rest, .behind false⟩

def State.comma (s : State) : Option State :=
  match s.phase with
  | .behind _ => s.frame.finishItem?.map fun f =>
    { s with frame := { f with comma := true }, phase := .item }
  | _ => none

/-- A colon: between key and value, or between the bounds of an index. -/
def State.colon (s : State) : Option State :=
  match s.frame.kind, s.phase with
  | .curly, .behind _ =>
    if s.frame.key.isSome || !s.frame.items.isEmpty || s.frame.open' > 0 || s.frame.starred then none
    else some { s with
      frame := { s.frame with key := some (exprOf s.frame.pieces), pieces := [] }
      phase := .operand true }
  | .index, .behind _ | .index, .item =>
    some { s with
      frame := { s.frame with items := .other :: s.frame.items, pieces := [] }, phase := .item }
  | _, _ => none

def State.spread (s : State) (double : Bool) : Option State :=
  match s.frame.kind, double with
  | .curly, true =>
    if s.frame.items.isEmpty then
      some { s with frame := { s.frame with key := some .other }, phase := .operand false }
    else none
  | .call, _ => some (s.with [.other] (.operand false))
  | .top, _ | _, true => none
  | _, false => some (s.with [.star] (.operand false))

def binarySigns : List (List Char) :=
  ["*", "/", "//", "%", "@", "**", "<<", ">>", "&", "|", "^", "<", ">", "<=", ">=", "==",
   "!="].map String.toList

/-- The word that the item consists of so far, for a sign that gives it a value. -/
def Frame.isWord (f : Frame) : Bool :=
  match f.pieces with
  | [.operand (.word _)] => true
  | _ => false

def State.signBehind (s : State) (sign : List Char) : Option State :=
  match String.ofList sign with
  | "(" => s.openBracket .call
  | "[" => s.openBracket .index
  | "." => some { s with phase := .member }
  | "+" => some (s.with [.plus false] (.operand false))
  | "-" => some (s.with [.plus true] (.operand false))
  | "=" =>
    if s.frame.kind == .call && s.frame.isWord then some (s.with [.other] (.operand true)) else none
  | ":=" =>
    if s.frame.isWord && s.frame.kind != .top && s.frame.kind != .index && s.frame.key.isNone then
      some (s.with [.other] (.operand true))
    else none
  | _ => if binarySigns.contains sign then some (s.with [.other] (.operand false)) else none

def State.signAhead (s : State) (sign : List Char) : Option State :=
  match String.ofList sign with
  | "(" => s.openBracket .round
  | "[" => s.openBracket .square
  | "\x7b" => s.openBracket .curly
  | "+" => some (s.with [.plus false] (.operand false))
  | "-" => some (s.with [.plus true] (.operand false))
  | "~" => some (s.with [.other] (.operand false))
  | "..." => some (s.with [.operand (.constant .ellipsis)] (.behind false))
  | "*" => if s.phase == .item then s.spread false else none
  | "**" => if s.phase == .item then s.spread true else none
  | _ => none

def State.feedSign (s : State) (sign : List Char) : Option State :=
  match sign with
  | [','] => s.comma
  | [':'] => s.colon
  | [c] =>
    if c == ')' || c == ']' || c == '}' then s.closeBracket c
    else match s.phase with
      | .behind _ => s.signBehind sign
      | .item | .operand _ => s.signAhead sign
      | _ => none
  | _ =>
    match s.phase with
    | .behind _ => s.signBehind sign
    | .item | .operand _ => s.signAhead sign
    | _ => none

def reserved : List (List Char) :=
  ["as", "assert", "async", "break", "class", "continue", "def", "del", "elif", "except",
   "finally", "for", "from", "global", "import", "lambda", "nonlocal", "pass", "raise", "return",
   "try", "while", "with", "yield", "and", "or", "in", "is", "if", "else", "not",
   "await"].map String.toList

def constant? (name : List Char) : Option Datum :=
  match String.ofList name with
  | "None" => some .null
  | "True" => some (.bool true)
  | "False" => some (.bool false)
  | _ => none

def State.wordBehind (s : State) (name : List Char) : Option State :=
  match String.ofList name with
  | "and" | "or" => some (s.with [.other] (.operand true))
  | "in" => some (s.with [.other] (.operand false))
  | "is" => some (s.with [.other] (.operand true))
  | "not" => some (s.with [.other] .within)
  | "if" =>
    some { s.with [.other] (.operand true) with
      frame := { s.frame with pieces := .other :: s.frame.pieces, open' := s.frame.open' + 1 } }
  | "else" =>
    if s.frame.open' = 0 then none
    else some { s with
      frame := { s.frame with pieces := .other :: s.frame.pieces, open' := s.frame.open' - 1 }
      phase := .operand true }
  | _ => none

def State.wordAhead (s : State) (loose : Bool) (name : List Char) : Option State :=
  match constant? name with
  | some v => some (s.with [.operand (.constant v)] (.behind false))
  | none =>
    if name == "not".toList then
      if loose then some (s.with [.other] (.operand true)) else none
    else if name == "await".toList then some (s.with [.other] (.operand false))
    else if reserved.contains name then none
    else some (s.with [.operand (.word name)] (.behind false))

def State.feedWord (s : State) (name : List Char) : Option State :=
  match s.phase with
  | .item => s.wordAhead true name
  | .operand loose => s.wordAhead loose name
  | .behind _ => s.wordBehind name
  | .member =>
    if reserved.contains name || (constant? name).isSome then none
    else some { s with frame := s.frame.replaceLast .other, phase := .behind false }
  | .within => if name == "in".toList then some { s with phase := .operand false } else none
  | .done => none

/-- Two texts that stand side by side are one. -/
def joinTexts? : Expr → Expr → Option Expr
  | .constant (.str a), .constant (.str b) => some (.constant (.str (a ++ b)))
  | .constant (.bytes a), .constant (.bytes b) => some (.constant (.bytes (a ++ b)))
  | .constant (.bytes _), _ | _, .constant (.bytes _) => none
  | _, _ => some .other

def State.feedText (s : State) (e : Expr) : Option State :=
  match s.phase, s.frame.pieces with
  | .item, _ | .operand _, _ => some (s.with [.operand e] (.behind true))
  | .behind true, .operand last :: _ =>
    (joinTexts? last e).map fun e => { s with frame := s.frame.replaceLast e }
  | _, _ => none

def State.lineEnd (s : State) : Option State :=
  match s.phase with
  | .item =>
    if s.frame.items.isEmpty && s.frame.pieces.isEmpty then some s
    else if s.frame.pieces.isEmpty then some { s with phase := .done } else none
  | .behind _ => s.frame.finishItem?.map fun f => { s with frame := f, phase := .done }
  | .done => some s
  | _ => none

def State.feed (s : State) (t : Token) : Option State :=
  match t with
  | .word name => s.feedWord name
  | .number v =>
    match s.phase with
    | .item | .operand _ => some (s.with [.operand (.constant v)] (.behind false))
    | _ => none
  | .text v => s.feedText (.constant v)
  | .template => s.feedText .other
  | .sign sign => s.feedSign sign
  | .newline => if s.outer.isEmpty then s.lineEnd else some s
  | .indent => if s.outer.isEmpty then none else some s
  | .bad => none

def State.finish (s : State) : Option Expr :=
  if !s.outer.isEmpty then none
  else s.lineEnd.bind fun s =>
    match s.frame.items with
    | [] => none
    | [e] => some (if s.frame.comma then .tuple [e] else e)
    | items => some (.tuple items.reverse)

def read? (cs : List Char) : Option Expr :=
  ((tokens (cs.dropWhile fun c => c == ' ' || c == '\t')).foldlM State.feed .start).bind State.finish

/-- The value of a text in literal notation; nothing for any other text. Keys need a plain text. -/
def parse? (cs : List Char) : Except Misfit (Option Datum) :=
  match (read? cs).map Expr.value with
  | none | some (.error .notLiteral) => .ok none
  | some (.error (.misfit m)) => .error m
  | some (.ok v) => if v.hasLongKey then .error .tooManyDigits else .ok (some v)

end Codemod.Literal
