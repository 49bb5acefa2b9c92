import Codemod.Yaml.Scalar
import Codemod.Text.Utf8

/-! The tokens of a YAML text. Where a nested block begins and ends is seen from the indentation, and
that a node is a key only from the colon behind it, so a mark is set before it when that is met. -/
namespace Codemod.Yaml

inductive Token where
  | version (major : Nat)
  | tagDirective (handle expansion : String)
  | otherDirective
  | documentStart
  | documentEnd
  | blockSequenceStart
  | blockMappingStart
  | blockEnd
  | flowSequenceStart
  | flowSequenceEnd
  | flowMappingStart
  | flowMappingEnd
  | flowEntry
  | blockEntry
  | key
  | value
  | alias (name : String)
  | anchor (name : String)
  | tag (handle : Option String) (suffix : String)
  | scalar (text : String) (plain : Bool)
  deriving DecidableEq, Repr

def Token.name : Token → String
  | .version _ | .tagDirective .. | .otherDirective => "<directive>"
  | .documentStart => "<document start>"
  | .documentEnd => "<document end>"
  | .blockSequenceStart => "<block sequence start>"
  | .blockMappingStart => "<block mapping start>"
  | .blockEnd => "<block end>"
  | .flowSequenceStart => "["
  | .flowSequenceEnd => "]"
  | .flowMappingStart => "\x7b"
  | .flowMappingEnd => "\x7d"
  | .flowEntry => ","
  | .blockEntry => "-"
  | .key => "?"
  | .value => ":"
  | .alias _ => "<alias>"
  | .anchor _ => "<anchor>"
  | .tag .. => "<tag>"
  | .scalar .. => "<scalar>"

/-- A token and where it begins and ends. -/
structure Placed where
  start : Mark
  stop : Mark
  token : Token
  deriving DecidableEq, Repr

/-- The tokens of a text as far as they can be told, and what comes behind them: the end of the text,
or a fault. -/
structure Stream where
  tokens : List Placed
  ending : Scan Mark

/-- A node that is a key if a colon follows it. -/
structure Candidate where
  /-- The number of tokens before it. -/
  position : Nat
  /-- Whether it can be nothing but a key. -/
  required : Bool
  start : Cursor

structure Scanner where
  cursor : Cursor
  tokens : List Placed
  /-- The indent of the innermost open block, and those of the blocks around it. -/
  indent : Int
  indents : List Int
  /-- How many brackets are open. -/
  depth : Nat
  /-- Whether a key may begin here. -/
  keyAllowed : Bool
  /-- At each depth the node that may turn out to be a key. -/
  candidates : List (Nat × Candidate)

namespace Scanner

def start (text : List Char) : Scanner := ⟨.start text, [], -1, [], 0, true, []⟩

/-- Adds a token that begins at a mark and ends here. -/
def emit (s : Scanner) (start : Mark) (t : Token) : Scanner :=
  { s with tokens := s.tokens ++ [⟨start, s.cursor.mark, t⟩] }

/-- Adds a token that goes from here to another place. -/
def emitTo (s : Scanner) (c : Cursor) (t : Token) : Scanner :=
  Scanner.emit { s with cursor := c } s.cursor.mark t

/-- Adds a token that is made of the next `n` characters. -/
def take (s : Scanner) (t : Token) (n : Nat) : Scanner := s.emitTo (s.cursor.skip n) t

def inFlow (s : Scanner) : Bool := s.depth != 0

def column (s : Scanner) : Int := s.cursor.column

/-- Complains about this place, whatever was being read. -/
def wrong (s : Scanner) (problem : String) (context : Option String := none) : Scan α :=
  .error (.malformed ⟨context, none, problem, s.cursor.mark⟩)

/-- The greatest distance of a colon from the start of its key. -/
def keyLength : Nat := 1024

/-- Whether a colon here is too far from a candidate. -/
def isStale (s : Scanner) (k : Candidate) : Bool :=
  k.start.line != s.cursor.line || s.cursor.index - k.start.index > keyLength

/-- Complains that a candidate which has to be a key is none. -/
def noColon (s : Scanner) (k : Candidate) : Scan α :=
  s.cursor.complain "while scanning a simple key" k.start.mark "could not find expected ':'"

/-- Drops candidates that can be keys no more; one that has to be a key is a fault. -/
def dropStale (s : Scanner) : Scan Scanner :=
  match s.candidates.find? fun (_, k) => s.isStale k && k.required with
  | some (_, k) => s.noColon k
  | none => .ok { s with candidates := s.candidates.filter fun (_, k) => !s.isStale k }

def dropCandidate (s : Scanner) : Scan Scanner :=
  match s.candidates.lookup s.depth with
  | some k => if k.required then s.noColon k
    else .ok { s with candidates := s.candidates.filter (·.1 != s.depth) }
  | none => .ok s

/-- The node that begins here is a candidate, where one is allowed. -/
def addCandidate (s : Scanner) : Scan Scanner :=
  if s.keyAllowed then do
    let s ← s.dropCandidate
    let k : Candidate := ⟨s.tokens.length, !s.inFlow && s.indent == s.column, s.cursor⟩
    return { s with candidates := (s.depth, k) :: s.candidates }
  else .ok s

/-- Ends the blocks that are indented by more than `column`. -/
def unwindFrom (s : Scanner) (column : Int) : List Int → Scanner
  | [] => s
  | outer :: rest =>
    if s.indent > column then
      unwindFrom { s.take .blockEnd 0 with indent := outer, indents := rest } column rest
    else s

def unwind (s : Scanner) (column : Int) : Scanner :=
  if s.inFlow then s else s.unwindFrom column s.indents

/-- Opens a block here, if this place is indented by more than the block around it. -/
def openBlock (s : Scanner) (t : Token) : Scanner :=
  if s.indent < s.column then
    { s.take t 0 with indent := s.column, indents := s.indent :: s.indents }
  else s

/-- Over the blanks, comments and line ends before the next token. -/
def skipGap (s : Scanner) : (fuel : Nat) → Scanner
  | 0 => s
  | fuel + 1 =>
    let c := s.cursor.dropSpaces.dropComment
    match c.lineBreak? with
    | some (_, c) =>
      skipGap { s with cursor := c, keyAllowed := s.keyAllowed || !s.inFlow } fuel
    | none => { s with cursor := c }

/-- What ends everything that is open at the start or end of a document. -/
def reset (s : Scanner) : Scan Scanner := do
  let s ← (s.unwind (-1)).dropCandidate
  return { s with keyAllowed := false }

/-- A name, and the place behind it, where something has to follow that ends names. -/
def name (context : String) (start : Mark) (ends : Option Char → Bool) (c : Cursor) :
    Scan (String × Cursor) :=
  let (name, c) := c.takeWhile isNameChar
  if name.isEmpty || !ends c.peek then c.expected context start "alphabetic or numeric character"
  else .ok (String.ofList name, c)

def inTag : String := "while scanning a tag"

def inDirective : String := "while scanning a directive"

/-- A handle between two exclamation marks, or a single one before a space. -/
def tagHandle (context : String) (start : Mark) (c : Cursor) : Scan (String × Cursor) :=
  if !c.isAt '!' then c.expected context start "'!'"
  else if c.peekAt 1 == some ' ' then .ok ("!", c.next)
  else
    let (name, c) := c.next.takeWhile isNameChar
    if c.isAt '!' then .ok ("!" ++ String.ofList name ++ "!", c.next)
    else c.expected context start "'!'"

def isTagChar (c : Char) : Bool :=
  isNameChar c || ";/?:@&=+$,.!~*'()[]%".toList.contains c

/-- The bytes written as percent escapes from here on. -/
def percentBytes (context : String) (start : Mark) (c : Cursor) :
    (fuel : Nat) → Scan (List UInt8 × Cursor)
  | 0 => .ok ([], c)
  | fuel + 1 =>
    if !c.isAt '%' then .ok ([], c)
    else match hexNumber 2 c.next with
      | .error bad => c.next.complain context start
        ("expected URI escape sequence of 2 hexadecimal numbers, but found " ++ bad.shown)
      | .ok n => do
        let (more, c) ← percentBytes context start (c.skip 3) fuel
        return (n.toUInt8 :: more, c)

def tagPart (context : String) (start : Mark) (c : Cursor) : (fuel : Nat) → Scan (String × Cursor)
  | 0 => .ok ("", c)
  | fuel + 1 => do
    let (text, c) := c.takeWhile fun x => isTagChar x && x != '%'
    if !c.isAt '%' then return (String.ofList text, c)
    let (bytes, after) ← percentBytes context start c (c.rest.length + 1)
    match String.fromUTF8? ⟨bytes.toArray⟩ with
    | none => c.complain context start "expected escapes of UTF-8"
    | some escaped =>
      let (more, c) ← tagPart context start after fuel
      return (String.ofList text ++ escaped ++ more, c)

/-- The part of a tag behind its handle, in a tag or a directive; it is not empty. -/
def tagSuffix (whole : String) (start : Mark) (c : Cursor) : Scan (String × Cursor) :=
  if c.peek.any isTagChar then tagPart ("while scanning a " ++ whole) start c (c.rest.length + 1)
  else c.expected ("while parsing a " ++ whole) start "URI"

def endOfTag (start : Mark) (handle : Option String) (suffix : String) (c : Cursor) :
    Scan (Token × Cursor) :=
  if endsField c.peek then .ok (.tag handle suffix, c) else c.expected inTag start "' '"

def tag (c : Cursor) : Scan (Token × Cursor) :=
  let start := c.mark
  if c.peekAt 1 == some '<' then do
    let (suffix, c) ← tagSuffix "tag" start (c.skip 2)
    if c.isAt '>' then endOfTag start none suffix c.next
    else c.expected "while parsing a tag" start "'>'"
  else if endsWord (c.peekAt 1) then endOfTag start none "!" c.next
  else
    let rest := c.next.rest.takeWhile fun x => !(x == ' ' || isBreak x)
    if rest.contains '!' then do
      let (handle, c) ← tagHandle inTag start c
      let (suffix, c) ← tagSuffix "tag" start c
      endOfTag start (some handle) suffix c
    else do
      let (suffix, c) ← tagSuffix "tag" start c.next
      endOfTag start (some "!") suffix c

def reference (what : String) (c : Cursor) : Scan (String × Cursor) :=
  name ("while scanning an " ++ what) c.mark
    (fun next => endsWord next || next.any fun x => "?:,]\x7d%@\u0060".toList.contains x) c.next

def directiveNumber (start : Mark) (c : Cursor) : Scan (Nat × Cursor) :=
  let (digits, c) := c.takeWhile Char.isDigit
  if digits.isEmpty then c.expected inDirective start "a digit"
  else .ok (digits.foldl (fun n d => 10 * n + (d.toNat - 48)) 0, c)

/-- Complains unless a field ends here. -/
def endField (start : Mark) (what : String) (c : Cursor) : Scan Unit :=
  if endsField c.peek then .ok () else c.expected inDirective start what

def directive (c : Cursor) : Scan (Token × Cursor) := do
  let start := c.mark
  let (name, c) ← name inDirective start endsField c.next
  match name with
  | "YAML" =>
    let (major, c) ← directiveNumber start c.dropSpaces
    if !c.isAt '.' then c.expected inDirective start "a digit or '.'"
    let (_, c) ← directiveNumber start c.next
    endField start "a digit or ' '" c
    return (.version major, ← c.dropEmptyLine inDirective start)
  | "TAG" =>
    let (handle, c) ← tagHandle inDirective start c.dropSpaces
    if !c.isAt ' ' then c.expected inDirective start "' '"
    let (expansion, c) ← tagSuffix "directive" start c.dropSpaces
    endField start "' '" c
    return (.tagDirective handle expansion, ← c.dropEmptyLine inDirective start)
  | _ => return (.otherDirective, ← (c.dropWhile (!isBreak ·)).dropEmptyLine inDirective start)

/-- A token that may be a key or the start of one. -/
def node (s : Scanner) (keyAllowed : Bool) (scan : Cursor → Scan (Token × Cursor)) : Scan Scanner := do
  let s ← s.addCandidate
  let (t, c) ← scan s.cursor
  return { s.emitTo c t with keyAllowed }

def openFlow (s : Scanner) (t : Token) : Scan Scanner := do
  let s ← s.addCandidate
  return { s.take t 1 with depth := s.depth + 1, keyAllowed := true }

def closeFlow (s : Scanner) (t : Token) : Scan Scanner := do
  let s ← s.dropCandidate
  return { s.take t 1 with depth := s.depth - 1, keyAllowed := false }

/-- A mark that opens an entry of a block at its own column. -/
def entry (s : Scanner) (what : String) (block t : Token) (keyAllowed : Bool) : Scan Scanner := do
  if !s.inFlow && !s.keyAllowed then s.wrong (what ++ " are not allowed here")
  let s := if s.inFlow then s else s.openBlock block
  let s ← s.dropCandidate
  return { s.take t 1 with keyAllowed }

/-- A colon. The candidate before it becomes a key, and may open a mapping. -/
def colon (s : Scanner) : Scan Scanner :=
  match s.candidates.lookup s.depth with
  | none => s.entry "mapping values" .blockMappingStart .value (!s.inFlow)
  | some k =>
    let column : Int := k.start.column
    let opens := !s.inFlow && s.indent < column
    let marks := if opens then [Token.blockMappingStart, .key] else [.key]
    let (indent, indents) := if opens then (column, s.indent :: s.indents) else (s.indent, s.indents)
    .ok (Scanner.take { s with
      tokens := s.tokens.take k.position ++ marks.map (Placed.mk k.start.mark k.start.mark) ++
        s.tokens.drop k.position
      candidates := s.candidates.filter (·.1 != s.depth)
      indent, indents, keyAllowed := false } .value 1)

def plain (s : Scanner) : Scan Scanner := do
  let s ← s.addCandidate
  let indent := (s.indent + 1).toNat
  let (text, broken, c) := plainText s.inFlow indent [] false s.cursor (s.cursor.rest.length + 1)
  return { s.emitTo c (.scalar (String.ofList text) true) with keyAllowed := broken }

def quoted (double : Bool) (c : Cursor) : Scan (Token × Cursor) := do
  let (text, c) ← quotedText double c.mark c.next (c.rest.length + 1)
  return (.scalar (String.ofList text) false, c)

def block (s : Scanner) (folded : Bool) : Scan Scanner := do
  let s ← s.dropCandidate
  let (text, c) ← blockText folded (s.indent + 1).toNat s.cursor.mark s.cursor.next
  return { s.emitTo c (.scalar (String.ofList text) false) with keyAllowed := true }

/-- Characters that a plain scalar cannot begin with, save some before a word. -/
def indicators : List Char := "-?:,[]\x7b\x7d#&*!|>'\"%@\u0060".toList

def beginsPlain (s : Scanner) (x : Char) : Bool :=
  if indicators.contains x then
    !endsWord (s.cursor.peekAt 1) && (x == '-' || (!s.inFlow && (x == '?' || x == ':')))
  else !isSpace x

/-- The token that begins with `x`, which stands here. -/
def token (s : Scanner) (x : Char) : Scan Scanner :=
  let word := endsWord (s.cursor.peekAt 1)
  let atLineStart := s.cursor.column == 0
  if x == '%' && atLineStart then do
    let s ← s.reset
    let (t, c) ← directive s.cursor
    return s.emitTo c t
  else if atLineStart && s.cursor.isMarker '-' then s.reset.map (·.take .documentStart 3)
  else if atLineStart && s.cursor.isMarker '.' then s.reset.map (·.take .documentEnd 3)
  else if x == '[' then s.openFlow .flowSequenceStart
  else if x == '{' then s.openFlow .flowMappingStart
  else if x == ']' then s.closeFlow .flowSequenceEnd
  else if x == '}' then s.closeFlow .flowMappingEnd
  else if x == ',' then s.dropCandidate.map fun s => { s.take .flowEntry 1 with keyAllowed := true }
  else if x == '-' && word then s.entry "sequence entries" .blockSequenceStart .blockEntry true
  else if x == '?' && (s.inFlow || word) then
    s.entry "mapping keys" .blockMappingStart .key (!s.inFlow)
  else if x == ':' && (s.inFlow || word) then s.colon
  else if x == '*' then s.node false fun c => (reference "alias" c).map fun (n, c) => (.alias n, c)
  else if x == '&' then s.node false fun c => (reference "anchor" c).map fun (n, c) => (.anchor n, c)
  else if x == '!' then s.node false tag
  else if x == '|' && !s.inFlow then s.block false
  else if x == '>' && !s.inFlow then s.block true
  else if x == '\'' then s.node false (quoted false)
  else if x == '"' then s.node false (quoted true)
  else if s.beginsPlain x then s.plain
  else s.wrong ("found character " ++ s.cursor.shown ++ " that cannot start any token")
    (some "while scanning for the next token")

/-- Goes on to the next token; nothing if the text ends before one. -/
def step (s : Scanner) : Scan (Scanner × Bool) := do
  let s ← (s.skipGap (s.cursor.rest.length + 1)).dropStale
  let s := s.unwind s.column
  match s.cursor.peek with
  | none => return (← s.reset, true)
  | some x => return (← (← s.token x).dropStale, false)

/-- The tokens before the first one that may yet turn out to be a key. -/
def settled (s : Scanner) : List Placed :=
  s.candidates.foldl (fun ts (_, k) => ts.take k.position) s.tokens

/-- The tokens up to the end or to a fault. A fault comes before the tokens that were not settled when
it is met. -/
def run (s : Scanner) : (fuel : Nat) → Stream
  | 0 => ⟨s.tokens, .ok s.cursor.mark⟩
  | fuel + 1 =>
    match s.step with
    | .error e => ⟨s.settled, .error e⟩
    | .ok (s, true) => ⟨s.tokens, .ok s.cursor.mark⟩
    | .ok (s, false) => run s fuel

end Scanner

def isAllowed (c : Char) : Bool :=
  let n := c.toNat
  n == 9 || n == 10 || n == 13 || (0x20 ≤ n && n ≤ 0x7E) || n == 0x85 || (0xA0 ≤ n && n ≤ 0xFFFD) ||
    0x10000 ≤ n

/-- The tokens of a text, none if it holds a character it may not hold. -/
def tokens (text : List Char) : Stream :=
  let before := text.takeWhile isAllowed
  let text := if text.head? == some '\uFEFF' then text.drop 1 else text
  match text.find? (!isAllowed ·) with
  | some c => ⟨[], .error (.unacceptable c before.length)⟩
  | none => (Scanner.start text).run (text.length + 1)

end Codemod.Yaml
