import Codemod.Yaml.Tag
import Codemod.Yaml.Token

/-! The tree of a YAML document. An alias stands for the node it names, which has to be complete. -/
namespace Codemod.Yaml

inductive Node where
  | scalar (place : Mark) (tag : Tag) (text : String)
  | sequence (place : Mark) (tag : Tag) (items : List Node)
  | mapping (place : Mark) (tag : Tag) (entries : List (Node × Node))
  deriving Repr

namespace Node

def place : Node → Mark
  | .scalar place .. | .sequence place .. | .mapping place .. => place

def kind : Node → String
  | .scalar .. => "scalar"
  | .sequence .. => "sequence"
  | .mapping .. => "mapping"

/-- A node that is not written. -/
def absent (place : Mark) : Node := .scalar place .null ""

structure Reader where
  tokens : List Placed
  /-- What is behind the tokens. -/
  ending : Scan Mark
  /-- What the handles of tags stand for. -/
  handles : List (String × String)
  /-- The named nodes, where they begin; those that are not complete have no node yet. -/
  anchors : List (String × Mark × Option Node)

abbrev Read (α : Type) := StateT Reader Scan α

def complain (problem : String) (place : Mark) (context : Option String := none)
    (origin : Option Mark := none) : Read α :=
  throw (.malformed ⟨context, origin, problem, place⟩)

/-- The next token, if there is one. A fault before it is raised here. -/
def peek : Read (Option Token) := do
  let r ← get
  match r.tokens, r.ending with
  | t :: _, _ => return some t.token
  | [], .ok _ => return none
  | [], .error e => throw e

/-- The place of the next token, or of the end. -/
def here : Read Mark := do
  let r ← get
  match r.tokens, r.ending with
  | t :: _, _ => return t.start
  | [], .ok place => return place
  | [], .error e => throw e

def found : Read String :=
  return String.ofList (Text.quoted (((← peek).map Token.name).getD "<stream end>").toList)

def drop : Read Unit := modify fun r => { r with tokens := r.tokens.drop 1 }

def accept (t : Token) : Read Bool := do
  if (← peek) == some t then
    drop
    return true
  return false

/-- Takes the next token if it is `t`, and gives the place behind it. -/
def acceptTo (t : Token) : Read (Option Mark) := do
  if (← peek) == some t then
    let stop := ((← get).tokens.head?).map (·.stop)
    drop
    return stop
  return none

/-- Complains about the next token in something that began at a place. -/
def unexpected (context : String) (origin : Mark) (what : String) : Read α := do
  complain ("expected " ++ what ++ (← found)) (← here) (some context) (some origin)

/-- Takes the token that has to end a block or separate items in brackets. -/
def expect (t : Token) (context : String) (origin : Mark) (what : String) : Read Unit := do
  unless ← accept t do unexpected context origin what

def isNext (ts : List Token) : Read Bool := return (← peek).any ts.contains

/-- An anchor that stands here, and where it does. -/
def anchor? : Read (Option (Mark × String)) := do
  match ← peek with
  | some (.anchor name) =>
    let place ← here
    drop
    return some (place, name)
  | _ => return none

/-- A tag that stands here, in its parts, and where it does. -/
def tag? : Read (Option (Mark × Option String × String)) := do
  match ← peek with
  | some (.tag handle suffix) =>
    let place ← here
    drop
    return some (place, handle, suffix)
  | _ => return none

/-- A tag written out; an exclamation mark alone is left as it is. -/
def expand (start : Mark) : Mark × Option String × String → Read String
  | (_, none, suffix) => return suffix
  | (place, some handle, suffix) => do
    match (← get).handles.lookup handle with
    | some expansion => return expansion ++ suffix
    | none =>
      let problem := "found undefined tag handle " ++ String.ofList (Text.quoted handle.toList)
      complain problem place (some "while parsing a node") (some start)

/-- The anchor and the tag before a node, in either order, and where these begin. -/
def properties : Read (Mark × Option String × Option String) := do
  let start ← here
  let (a, t) ← match ← anchor? with
    | some a => pure (some a, ← tag?)
    | none => do
      let t ← tag?
      pure (← anchor?, t)
  return (start, a.map (·.2), ← t.mapM (expand start))

def setAnchor (name : Option String) (place : Mark) (node : Option Node) : Read Unit :=
  match name with
  | none => pure ()
  | some n => modify fun r => { r with anchors := (n, place, node) :: r.anchors }

/-- Where a name is given to a node that was named before, both places are told. -/
def refuseTwice (name : Option String) (place : Mark) : Read Unit := do
  let known := (← get).anchors
  match name, name.bind (known.lookup ·) with
  | some n, some (first, _) =>
    let name := String.ofList (Text.quoted n.toList)
    complain "second occurrence" place (some s!"found duplicate anchor {name}; first occurrence")
      (some first)
  | _, _ => pure ()

def named (name : String) (place : Mark) : Read Node := do
  match (← get).anchors.lookup name with
  | some (_, some node) => return node
  | _ => complain ("found undefined alias " ++ String.ofList (Text.quoted name.toList)) place

/-- The tag of a node that may have been given one. -/
def tagOr (given : Option String) (default : Tag) : Tag :=
  match given with
  | none | some "!" => default
  | some t => .ofString t

def scalarTag (given : Option String) (text : String) (plain : Bool) : Tag :=
  tagOr given (if plain || given.isSome then .ofPlain text else .str)

/-- There are more nodes than tokens, which does not happen. -/
def spent : Read α := complain "too many nodes" ⟨0, 0⟩

def inBlockItems : String := "while parsing a block collection"

def inBlockEntries : String := "while parsing a block mapping"

def inFlowItems : String := "while parsing a flow sequence"

def inFlowEntries : String := "while parsing a flow mapping"

def blockEndFound : String := "<block end>, but found "

mutual

/-- A node. Blocks are nodes only outside of brackets, and a sequence without an indent of its own is
one only as a part of a mapping. -/
def node (block loose : Bool) : (fuel : Nat) → Read Node
  | 0 => spent
  | fuel + 1 => do
    match ← peek with
    | some (.alias name) =>
      let place ← here
      drop
      named name place
    | _ =>
      let (start, name, tag) ← properties
      let _ ← peek
      refuseTwice name start
      setAnchor name start none
      let made ← content block loose start (name.isSome || tag.isSome) tag fuel
      setAnchor name start (some made)
      return made

/-- What a node is besides its anchor. After properties it may be absent. -/
def content (block loose : Bool) (start : Mark) (optional : Bool) (tag : Option String) :
    (fuel : Nat) → Read Node
  | 0 => spent
  | fuel + 1 => do
    let place ← here
    match ← peek with
    | some (.scalar text plain) =>
      drop
      return .scalar start (scalarTag tag text plain) text
    | some .flowSequenceStart =>
      drop
      return .sequence start (tagOr tag .seq) (← flowItems true place fuel)
    | some .flowMappingStart =>
      drop
      return .mapping start (tagOr tag .map) (← flowEntries true place fuel)
    | t =>
      if loose && t == some .blockEntry then
        return .sequence start (tagOr tag .seq) (← looseItems fuel)
      else if block && t == some .blockSequenceStart then
        drop
        return .sequence start (tagOr tag .seq) (← blockItems place fuel)
      else if block && t == some .blockMappingStart then
        drop
        return .mapping start (tagOr tag .map) (← blockEntries place fuel)
      else if optional then return .scalar start (tagOr tag .null) ""
      else
        let style := if block then "block" else "flow"
        unexpected s!"while parsing a {style} node" start "the node content, but found "

/-- A node unless one of the given tokens comes next; one that is absent is at the place before. -/
def optionally (before : Mark) (block loose : Bool) (ends : List Token) : (fuel : Nat) → Read Node
  | 0 => spent
  | fuel + 1 => do
    if ← isNext ends then return absent before
    node block loose fuel

def blockItems (start : Mark) : (fuel : Nat) → Read (List Node)
  | 0 => spent
  | fuel + 1 => do
    match ← acceptTo .blockEntry with
    | some before =>
      let item ← optionally before true false [.blockEntry, .blockEnd] fuel
      return item :: (← blockItems start fuel)
    | none =>
      expect .blockEnd inBlockItems start blockEndFound
      return []

def looseItems : (fuel : Nat) → Read (List Node)
  | 0 => spent
  | fuel + 1 => do
    match ← acceptTo .blockEntry with
    | some before =>
      let item ← optionally before true false [.blockEntry, .key, .value, .blockEnd] fuel
      return item :: (← looseItems fuel)
    | none => return []

/-- The value behind a key, if there is one. -/
def valuePart (block loose : Bool) (ends : List Token) : (fuel : Nat) → Read Node
  | 0 => spent
  | fuel + 1 => do
    match ← acceptTo .value with
    | some before => optionally before block loose ends fuel
    | none => return absent (← here)

def blockEntries (start : Mark) : (fuel : Nat) → Read (List (Node × Node))
  | 0 => spent
  | fuel + 1 => do
    match ← acceptTo .key with
    | some before =>
      let k ← optionally before true true [.key, .value, .blockEnd] fuel
      let v ← valuePart true true [.key, .value, .blockEnd] fuel
      return (k, v) :: (← blockEntries start fuel)
    | none =>
      expect .blockEnd inBlockEntries start blockEndFound
      return []

/-- The items up to the closing bracket. A key among them makes a mapping of one entry. -/
def flowItems (first : Bool) (start : Mark) : (fuel : Nat) → Read (List Node)
  | 0 => spent
  | fuel + 1 => do
    if ← accept .flowSequenceEnd then return []
    if !first then expect .flowEntry inFlowItems start "',' or ']', but got "
    let place ← here
    match ← acceptTo .key with
    | some before =>
      let k ← optionally before false false [.value, .flowEntry, .flowSequenceEnd] fuel
      let v ← valuePart false false [.flowEntry, .flowSequenceEnd] fuel
      return .mapping place .map [(k, v)] :: (← flowItems false start fuel)
    | none =>
      if ← accept .flowSequenceEnd then return []
      let item ← node false false fuel
      return item :: (← flowItems false start fuel)

/-- The entries up to the closing brace. A node without a colon is a key without a value. -/
def flowEntries (first : Bool) (start : Mark) : (fuel : Nat) → Read (List (Node × Node))
  | 0 => spent
  | fuel + 1 => do
    if ← accept .flowMappingEnd then return []
    if !first then expect .flowEntry inFlowEntries start "',' or '\x7d', but got "
    match ← acceptTo .key with
    | some before =>
      let k ← optionally before false false [.value, .flowEntry, .flowMappingEnd] fuel
      let v ← valuePart false false [.flowEntry, .flowMappingEnd] fuel
      return (k, v) :: (← flowEntries false start fuel)
    | none =>
      if ← accept .flowMappingEnd then return []
      let k ← node false false fuel
      return (k, absent (← here)) :: (← flowEntries false start fuel)

end

def dropDocumentEnds : (fuel : Nat) → Read Unit
  | 0 => pure ()
  | fuel + 1 => do
    if ← accept .documentEnd then dropDocumentEnds fuel

/-- The directives before a document: whether there is a version among them, and the handles. -/
def directives (versioned : Bool) : (fuel : Nat) → Read Unit
  | 0 => pure ()
  | fuel + 1 => do
    let place ← here
    match ← peek with
    | some (.version major) =>
      drop
      if versioned then complain "found duplicate YAML directive" place
      if major != 1 then complain "found incompatible YAML document (version 1.* is required)" place
      directives true fuel
    | some (.tagDirective handle expansion) =>
      drop
      if ((← get).handles.lookup handle).isSome then
        complain ("duplicate tag handle " ++ String.ofList (Text.quoted handle.toList)) place
      modify fun r => { r with handles := (handle, expansion) :: r.handles }
      directives versioned fuel
    | some .otherDirective =>
      drop
      directives versioned fuel
    | _ => pure ()

def defaultHandles : List (String × String) := [("!", "!"), ("!!", Tag.base)]

def isDirective : Token → Bool
  | .version _ | .tagDirective .. | .otherDirective => true
  | _ => false

/-- The directives of a document and the mark that has to follow them. -/
def documentHead (fuel : Nat) : Read Unit := do
  modify fun r => { r with handles := [] }
  directives false fuel
  unless ← accept .documentStart do
    complain ("expected '<document start>', but found " ++ (← found)) (← here)

/-- The only document of a text, if there is one. -/
def document (fuel : Nat) : Read (Option Node) := do
  match ← peek with
  | none => return none
  | some t =>
    let explicit := t == .documentStart || isDirective t
    if explicit then documentHead fuel
    modify fun r => { r with handles := r.handles ++ defaultHandles }
    let empty := explicit && (← peek).all fun t =>
      t == .documentStart || t == .documentEnd || isDirective t
    let root ← if empty then absent <$> here else node true false fuel
    dropDocumentEnds fuel
    if (← peek).isSome then
      let place ← here
      documentHead fuel
      complain "but found another document" place (some "expected a single document in the stream")
        (some root.place)
    return some root

/-- The tree of a text; nothing for a text that is empty. -/
def parse (text : List Char) : Scan (Option Node) :=
  let stream := tokens text
  ((document (6 * stream.tokens.length + 6)).run ⟨stream.tokens, stream.ending, [], []⟩).map (·.1)

end Node
end Codemod.Yaml
