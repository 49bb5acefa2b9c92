import Codemod.Yaml.Cursor
import Codemod.Text.Find

/-! The texts of scalars: plain, quoted, and in blocks. A line break between two words is a space, and
further ones stand for themselves. -/
namespace Codemod.Yaml

/-- What a gap amounts to that begins with the line break `first` and goes on with `more`. -/
def foldBreaks (first : Char) (more : List Char) : List Char :=
  (if first != '\n' then [first] else if more.isEmpty then [' '] else []) ++ more

def flowMarks : List Char := [',', '?', '[', ']', '{', '}']

/-- The part of a plain scalar that has no blanks. -/
def plainWord (flow : Bool) : List Char → List Char
  | [] => []
  | c :: cs =>
    let endsKey := endsWord cs.head? || (flow && cs.head?.any fun x => x != '?' && flowMarks.contains x)
    if isSpace c || isBreak c || (c == ':' && endsKey) || (flow && flowMarks.contains c) then []
    else c :: plainWord flow cs

/-- The line breaks from here on, with the spaces between them; nothing when a document marker
follows one. -/
def plainBreaks (c : Cursor) : (fuel : Nat) → Option (List Char) × Cursor
  | 0 => (some [], c)
  | fuel + 1 =>
    if c.isAt ' ' then plainBreaks c.next fuel
    else match c.lineBreak? with
      | none => (some [], c)
      | some (b, c) =>
        if c.isDocumentMarker then (none, c)
        else
          let (more, c) := plainBreaks c fuel
          (more.map (b :: ·), c)

/-- What lies between two words of a plain scalar, whether the line ends there, and the place behind
it. Nothing lies there when the scalar has ended. -/
def plainGap (c : Cursor) : List Char × Bool × Cursor :=
  let (spaces, c) := c.takeWhile (· == ' ')
  match c.lineBreak? with
  | none => (spaces, false, c)
  | some (b, c) =>
    if c.isDocumentMarker then ([], true, c)
    else match plainBreaks c (c.rest.length + 1) with
      | (none, c) => ([], true, c)
      | (some more, c) => (foldBreaks b more, true, c)

/-- A plain scalar, whether a line has ended behind it, and the place behind that. Outside of brackets
its lines are indented by at least `indent`. -/
def plainText (flow : Bool) (indent : Nat) (gap : List Char) (broken : Bool) (c : Cursor) :
    (fuel : Nat) → List Char × Bool × Cursor
  | 0 => ([], broken, c)
  | fuel + 1 =>
    let word := if c.isAt '#' then [] else plainWord flow c.rest
    if word.isEmpty then ([], broken, c)
    else
      let (next, broken, c) := plainGap (c.skip word.length)
      if next.isEmpty || c.isAt '#' || (!flow && c.column < indent) then (gap ++ word, broken, c)
      else
        let (more, broken, c) := plainText flow indent next broken c fuel
        (gap ++ word ++ more, broken, c)

def inQuotes : String := "while scanning a quoted scalar"

/-- Line breaks inside quotes, with the blanks around them. -/
def quotedBreaks (start : Mark) (c : Cursor) : (fuel : Nat) → Scan (List Char × Cursor)
  | 0 => .ok ([], c)
  | fuel + 1 =>
    if c.isDocumentMarker then c.complain inQuotes start "found unexpected document separator"
    else
      let c := c.dropWhile isSpace
      match c.lineBreak? with
      | none => .ok ([], c)
      | some (b, c) => do
        let (more, c) ← quotedBreaks start c fuel
        return (b :: more, c)

/-- The blanks and line breaks inside quotes that stand here. -/
def quotedGap (start : Mark) (c : Cursor) : Scan (List Char × Cursor) :=
  let (spaces, c) := c.takeWhile isSpace
  match c.peek, c.lineBreak? with
  | none, _ => c.complain inQuotes start "found unexpected end of stream"
  | _, none => .ok (spaces, c)
  | _, some (b, c) => do
    let (more, c) ← quotedBreaks start c (c.rest.length + 1)
    return (foldBreaks b more, c)

/-- Characters named by one letter behind a backslash. -/
def shortEscapes : List (Char × Char) :=
  [('0', '\x00'), ('a', '\x07'), ('b', '\x08'), ('t', '\t'), ('\t', '\t'), ('n', '\n'), ('v', '\x0b'),
   ('f', '\x0c'), ('r', '\r'), ('e', '\x1b'), (' ', ' '), ('"', '"'), ('\\', '\\'), ('/', '/'),
   ('N', '\u0085'), ('_', '\u00a0'), ('L', '\u2028'), ('P', '\u2029')]

/-- How many digits follow a letter that announces a code point. -/
def escapeDigits : List (Char × Nat) := [('x', 2), ('u', 4), ('U', 8)]

def hexDigit? (c : Char) : Option Nat :=
  if c.isDigit then some (c.toNat - 48)
  else if 'a' ≤ c && c ≤ 'f' then some (c.toNat - 87)
  else if 'A' ≤ c && c ≤ 'F' then some (c.toNat - 55)
  else none

/-- The number that exactly `n` hexadecimal digits from here on stand for, or the place of what is no
such digit. -/
def hexNumber (n : Nat) (c : Cursor) : Except Cursor Nat :=
  let digits := ((c.rest.take n).takeWhile fun x => (hexDigit? x).isSome).filterMap hexDigit?
  if digits.length = n then .ok (digits.foldl (fun a d => 16 * a + d) 0)
  else .error (c.skip digits.length)

def character (n : Nat) : Scan Char :=
  if n < 0x110000 then .ok (if Nat.isValidChar n then Char.ofNat n else '\uFFFD')
  else .error (.misfit (if n < Nat.pow 2 31 then .unknownWord else .beyondRange))

def inDoubleQuotes : String := "while scanning a double-quoted scalar"

def escaped (start : Mark) (c : Cursor) : Scan (List Char × Cursor) :=
  let x := c.peek.getD '\x00'
  match shortEscapes.lookup x, escapeDigits.lookup x with
  | some y, _ => if c.peek.isNone then unknown else .ok ([y], c.next)
  | none, some n =>
    match hexNumber n c.next with
    | .error bad =>
      c.next.complain inDoubleQuotes start
        (s!"expected escape sequence of {n} hexadecimal numbers, but found " ++ bad.shown)
    | .ok code => (character code).map fun y => ([y], c.next.skip n)
  | none, none =>
    match c.lineBreak? with
    | some (_, c) => quotedBreaks start c (c.rest.length + 1)
    | none => unknown
where
  unknown : Scan (List Char × Cursor) :=
    c.complain inDoubleQuotes start ("found unknown escape character " ++ c.shown)

/-- The rest of a quoted scalar, and the place behind its closing quote. -/
def quotedText (double : Bool) (start : Mark) (c : Cursor) : (fuel : Nat) → Scan (List Char × Cursor)
  | 0 => .ok ([], c)
  | fuel + 1 =>
    match c.peek with
    | none => quotedGap start c
    | some x =>
      if x == '\'' && !double && c.peekAt 1 == some '\'' then do
        let (more, c) ← quotedText double start (c.skip 2) fuel
        return ('\'' :: more, c)
      else if x == (if double then '"' else '\'') then .ok ([], c.next)
      else do
        let (part, c) ←
          if double && x == '\\' then escaped start c.next
          else if isSpace x || isBreak x then quotedGap start c
          else .ok ([x], c.next)
        let (more, c) ← quotedText double start c fuel
        return (part ++ more, c)

/-- What becomes of the line breaks at the end of a block. -/
inductive Chomp where
  | strip
  | clip
  | keep
  deriving DecidableEq, Repr

def chompMark? (c : Cursor) : Option Chomp :=
  if c.isAt '+' then some .keep else if c.isAt '-' then some .strip else none

def indentMark? (c : Cursor) : Option Nat :=
  (c.peek.filter Char.isDigit).map fun x => x.toNat - 48

def inBlock : String := "while scanning a block scalar"

/-- The digit in the head of a block, which cannot be zero. -/
def indentDigit (start : Mark) (c : Cursor) : Scan (Option Nat × Cursor) :=
  match indentMark? c with
  | some 0 => c.complain inBlock start "expected indentation indicator in the range 1-9, but found 0"
  | some n => .ok (some n, c.next)
  | none => .ok (none, c)

/-- The marks in the head of a block, in either order, and the place behind its line. -/
def blockHead (start : Mark) (c : Cursor) : Scan (Chomp × Option Nat × Cursor) := do
  let (chomp, indent, c) ← match chompMark? c with
    | some chomp => do
      let (indent, c) ← indentDigit start c.next
      pure (chomp, indent, c)
    | none => do
      let (indent, c) ← indentDigit start c
      match indent, chompMark? c with
      | some n, some chomp => pure (chomp, some n, c.next)
      | _, _ => pure (Chomp.clip, indent, c)
  if !endsField c.peek then c.expected inBlock start "chomping or indentation indicators"
  else return (chomp, indent, ← c.dropEmptyLine inBlock start)

/-- The empty lines at the start of a block, and the widest run of spaces there. -/
def blockMargin (width : Nat) (c : Cursor) : (fuel : Nat) → List Char × Nat × Cursor
  | 0 => ([], width, c)
  | fuel + 1 =>
    if c.isAt ' ' then blockMargin (max width c.next.column) c.next fuel
    else match c.lineBreak? with
      | none => ([], width, c)
      | some (b, c) =>
        let (more, width, c) := blockMargin width c fuel
        (b :: more, width, c)

def dropMargin (indent : Nat) (c : Cursor) : Cursor :=
  c.skip ((c.rest.takeWhile (· == ' ')).take (indent - c.column)).length

/-- The empty lines from here on, and the place where the next line's text begins. -/
def blockBreaks (indent : Nat) (c : Cursor) : (fuel : Nat) → List Char × Cursor
  | 0 => ([], c)
  | fuel + 1 =>
    let c := dropMargin indent c
    match c.lineBreak? with
    | none => ([], c)
    | some (b, c) =>
      let (more, c) := blockBreaks indent c fuel
      (b :: more, c)

/-- The lines of a block. `breaks` are the empty lines before the next line. -/
def blockLines (folded : Bool) (chomp : Chomp) (indent : Nat) (breaks : List Char) (c : Cursor) :
    (fuel : Nat) → List Char × Cursor
  | 0 => ([], c)
  | fuel + 1 =>
    if c.column != indent || c.peek.isNone then
      (if chomp == .keep then breaks else [], c)
    else
      let indented := c.peek.any isSpace
      let (line, c) := c.takeWhile (!isBreak ·)
      let ending := c.lineBreak?.map (·.1)
      let (more, c) := blockBreaks indent c.dropBreak (c.rest.length + 1)
      if c.column == indent && c.peek.isSome then
        let between :=
          if folded && ending == some '\n' && !indented && !c.peek.any isSpace then
            (if more.isEmpty then [' '] else [])
          else ending.toList
        let (rest, c) := blockLines folded chomp indent more c fuel
        (breaks ++ line ++ between ++ rest, c)
      else
        (breaks ++ line ++ (if chomp == .strip then [] else ending.toList) ++
          (if chomp == .keep then more else []), c)

/-- A block scalar behind its opening mark. `parent` is the least indent it may have. -/
def blockText (folded : Bool) (parent : Nat) (start : Mark) (c : Cursor) :
    Scan (List Char × Cursor) := do
  let (chomp, given, c) ← blockHead start c
  let least := max parent 1
  let fuel := c.rest.length + 1
  match given with
  | none =>
    let (breaks, width, c) := blockMargin 0 c fuel
    return blockLines folded chomp (max least width) breaks c fuel
  | some n =>
    let indent := least + n - 1
    let (breaks, c) := blockBreaks indent c fuel
    return blockLines folded chomp indent breaks c fuel

end Codemod.Yaml
