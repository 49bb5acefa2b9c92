import Codemod.Text.Find

/-! What is code and what is literal in a TypeScript source. One reader walks the characters with a
stack of open frames: brackets, string and template literals, comments. The bracket matcher and the
marks of inert text are both runs of this reader, so they cannot disagree about a literal. -/
namespace Codemod.Source

inductive Frame where
  /-- Code inside a bracket that ends at the given character. -/
  | bracket (closer : Char)
  /-- A literal in single or double quotes. -/
  | quoted (quote : Char)
  | template
  | lineComment
  | blockComment
  /-- The next character belongs to what has just been read. -/
  | second
  deriving DecidableEq, Repr

def closer? : Char → Option Char
  | '(' => some ')'
  | '[' => some ']'
  | '{' => some '}'
  | _ => none

def isCloser (c : Char) : Bool := c == ')' || c == ']' || c == '}'

def isQuote (c : Char) : Bool := c == '\'' || c == '"'

/-- Whether a literal in `quote` ends before its line does; a backslash hides the character after
it. A quote that fails this test is plain text, as the apostrophe of markup copy. -/
def closesOnLine (quote : Char) : List Char → Bool
  | [] => false
  | '\\' :: _ :: cs => closesOnLine quote cs
  | c :: cs => c == quote || (c != '\n' && closesOnLine quote cs)

/-- The frames that a quotation mark opens in code, innermost first; none when it opens nothing. -/
def quoteFrames (c : Char) (rest : List Char) : List Frame :=
  if isQuote c then (if closesOnLine c rest then [.quoted c] else [])
  else if c = '`' && !rest.isEmpty then [.template]
  else []

/-- The frames that a character opens in code when it begins a literal or a comment. -/
def inertFrames (c : Char) (rest : List Char) : List Frame :=
  if c = '/' then
    match rest with
    | '/' :: _ => [.lineComment]
    | '*' :: _ => [.second, .blockComment]
    | _ => []
  else quoteFrames c rest

/-- One character further, `rest` being what follows it: the frames that are open afterwards, or
`none` when a bracket is closed by the wrong character. Brackets count only inside a bracket. -/
def step (frames : List Frame) (c : Char) (rest : List Char) : Option (List Frame) :=
  match frames with
  | [] => some (inertFrames c rest)
  | .second :: outer => some outer
  | .quoted quote :: outer =>
    some (if c = '\\' then .second :: frames else if c = quote then outer else frames)
  | .template :: outer =>
    some (if c = '\\' then .second :: frames
      else if c = '$' && rest.head? == some '{' then .second :: .bracket '}' :: frames
      else if c = '`' then outer else frames)
  | .lineComment :: outer => some (if c = '\n' then outer else frames)
  | .blockComment :: outer =>
    some (if c = '*' && rest.head? == some '/' then .second :: outer else frames)
  | .bracket closer :: outer =>
    if isCloser c then (if c = closer then some outer else none)
    else match closer? c with
      | some inner => some (.bracket inner :: frames)
      | none => some (inertFrames c rest ++ frames)

/-- How many characters it takes to close the open frames, the last one included. -/
def extent? (frames : List Frame) : List Char → Option Nat
  | [] => none
  | c :: rest =>
    match step frames c rest with
    | none => none
    | some [] => some 1
    | some next => (extent? next rest).map (· + 1)

/-- The frames close inside the text. -/
theorem extent?_le {frames : List Frame} {cs : List Char} {n : Nat}
    (h : extent? frames cs = some n) : 0 < n ∧ n ≤ cs.length := by
  induction cs generalizing frames n with
  | nil => simp [extent?] at h
  | cons c rest ih =>
    unfold extent? at h
    split at h
    · simp at h
    · simp at h; subst h; simp
    · obtain ⟨m, hm, rfl⟩ := Option.map_eq_some_iff.1 h
      have := ih hm
      simp; omega

/-- How far the bracket that has just been opened reaches, its closing character included. -/
def bracketExtent? (opening : Char) (rest : List Char) : Option Nat :=
  (closer? opening).bind fun closer => extent? [.bracket closer] rest

theorem bracketExtent?_le {opening : Char} {cs : List Char} {n : Nat}
    (h : bracketExtent? opening cs = some n) : 0 < n ∧ n ≤ cs.length := by
  obtain ⟨closer, _, h⟩ := Option.bind_eq_some_iff.1 h
  exact extent?_le h

/-- What a character of a source is to an edit. -/
inductive Mark where
  | live
  /-- The first character of a literal or comment. -/
  | opening
  | inside
  deriving DecidableEq, Repr

/-- The line feed after a line comment is code again. -/
def markOf (before after : List Frame) (c : Char) : Mark :=
  match before with
  | [] => if after.isEmpty then .live else .opening
  | [.lineComment] => if c = '\n' then .live else .inside
  | _ => .inside

/-- The mark of each character when the given frames are open. A mismatch can only happen inside a
template, which then reaches to the end of the text. -/
def marksFrom (frames : List Frame) : List Char → List Mark
  | [] => []
  | c :: rest =>
    match step frames c rest with
    | none => .inside :: rest.map fun _ => .inside
    | some next => markOf frames next c :: marksFrom next rest

def marks (text : List Char) : List Mark := marksFrom [] text

@[simp] theorem length_marksFrom (frames : List Frame) (text : List Char) :
    (marksFrom frames text).length = text.length := by
  induction text generalizing frames with
  | nil => rfl
  | cons c rest ih => unfold marksFrom; split <;> simp [ih]

@[simp] theorem length_marks (text : List Char) : (marks text).length = text.length :=
  length_marksFrom [] text

/-- Whether the character at an offset lies in a literal or comment. -/
def isInert (text : List Char) (offset : Nat) : Bool :=
  match (marks text)[offset]? with
  | some .opening | some .inside => true
  | _ => false

/-- The ranges of literals and comments, in order, each from its first character to the offset after
its last. -/
def inertRanges (text : List Char) : List (Nat × Nat) :=
  go 0 (marks text)
where
  go (pos : Nat) : List Mark → List (Nat × Nat)
    | [] => []
    | .opening :: marks =>
      (pos, pos + 1 + (marks.takeWhile (· == .inside)).length) :: go (pos + 1) marks
    | _ :: marks => go (pos + 1) marks

end Codemod.Source
