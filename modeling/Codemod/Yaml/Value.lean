import Codemod.Yaml.Node

/-! The data in a YAML document: plain values only. -/
namespace Codemod.Yaml

def digitsValue? (base : Nat) (cs : List Char) : Option Int := do
  let digits ← cs.mapM hexDigit?
  if digits.isEmpty || digits.any (· ≥ base) then none
  else some (digits.foldl (fun n d => base * n + d) 0 : Nat)

def invalid : Scan α := .error (.misfit .unknownWord)

def decimal (cs : List Char) : Scan Int :=
  match Number.Grammar.wide.integer cs with
  | .ok n => .ok n
  | .error .tooManyDigits => .error (.misfit .tooManyDigits)
  | .error .unreadable => invalid

def isNegative (cs : List Char) : Bool := cs.head? == some '-'

def intValue (text : String) : Scan Datum := do
  let cs := text.toList.filter (· != '_')
  if cs.isEmpty then .error (.misfit .noSuchPlace)
  let sign : Int := if isNegative cs then -1 else 1
  let orInvalid (n : Option Int) : Scan Int := n.elim invalid .ok
  let size : Scan Int := match Tag.unsigned cs with
    | ['0'] => .ok 0
    | '0' :: 'b' :: ds => orInvalid (digitsValue? 2 ds)
    | '0' :: 'x' :: ds => orInvalid (digitsValue? 16 ds)
    | '0' :: ds => orInvalid (digitsValue? 8 ('0' :: ds))
    | ds =>
      if ds.contains ':' then
        ((Text.pieces (· == ':') ds).mapM decimal).map fun parts =>
          parts.foldl (fun n part => 60 * n + part) 0
      else decimal ds
  size.map fun n => .int (sign * n)

/-- The sum of parts to the base sixty, from the last one on. -/
def sexagesimal (parts : List Float) : Float :=
  (parts.reverse.foldl (fun (sum, base) part => (sum + part * Number.ofInt base, 60 * base))
    ((0.0 : Float), (1 : Int))).1

def floatValue (text : String) : Scan Datum := do
  let cs := Text.lowerAscii (text.toList.filter (· != '_'))
  if cs.isEmpty then .error (.misfit .noSuchPlace)
  let sign : Float := if isNegative cs then -1.0 else 1.0
  let ds := Tag.unsigned cs
  let word := String.ofList ds
  let size : Option Float :=
    if word == ".inf" then some (Number.infinity false)
    else if word == ".nan" then some (0.0 / 0.0)
    else if ds.contains ':' then ((Text.pieces (· == ':') ds).mapM Number.float?).map sexagesimal
    else Number.float? ds
  match size with
  | some x => .ok (.float (sign * x))
  | none => invalid

def boolValue (text : String) : Scan Datum :=
  let word := String.ofList (Text.lowerAscii text.toList)
  match Tag.truths.find? (·.1.contains word) with
  | some (_, b) => .ok (.bool b)
  | none => .error (.misfit .noSuchKey)

def timestampValue (text : String) : Scan Datum :=
  match Timestamp.read? text.toList with
  | some t => if t.isValid then .ok t.toDatum else invalid
  | none => .error (.misfit .noSuchOperation)

def complaint (problem : String) (place : Mark) (context : Option String := none)
    (origin : Option Mark := none) : Fault :=
  .malformed ⟨context, origin, problem, place⟩

/-- The data that a text stands for where a tag says of what kind it is. -/
def scalarValue (place : Mark) (tag : Tag) (text : String) : Scan Datum :=
  match tag with
  | .null => .ok .null
  | .bool => boolValue text
  | .int => intValue text
  | .float => floatValue text
  | .timestamp => timestampValue text
  | .str => .ok (.str text)
  | tag =>
    let name := String.ofList (Text.quoted tag.text.toList)
    .error (complaint ("could not determine a constructor for the tag " ++ name) place)

/-- Whether nodes of a tag are made of other nodes. -/
def Tag.isCollection : Tag → Bool
  | .seq | .map | .set | .omap | .pairs => true
  | _ => false

/-- A value, or a fault and how far below a node it lies. -/
abbrev Made (α : Type) := Except (Nat × Fault) α

def atOnce (x : Scan α) : Made α := x.mapError fun e => (0, e)

def below (x : Made α) : Made α := x.mapError fun (depth, e) => (depth + 1, e)

def wrong (e : Fault) : Made α := .error (0, e)

/-- Two values; of two faults the less deep one, and of two as deep the first. -/
def both : Made α → Made β → Made (α × β)
  | .ok a, .ok b => .ok (a, b)
  | .error e, .ok _ => .error e
  | .ok _, .error e => .error e
  | .error e, .error f => .error (if f.1 < e.1 then f else e)

def inMapping : String := "while constructing a mapping"

namespace Node

def isMergeKey : Node → Bool
  | .scalar _ .merge _ => true
  | _ => false

/-- A plain equals sign is a key like others. -/
def isEqualsKey : Node → Bool
  | .scalar _ .value _ => true
  | _ => false

mutual

/-- The text of a scalar. A mapping has that of the value at its equals sign. -/
def scalarText : Node → Scan String
  | .scalar _ _ text => .ok text
  | .sequence place .. => .error (notScalar "sequence" place)
  | .mapping place _ entries => equalsText place entries

def equalsText (place : Mark) : List (Node × Node) → Scan String
  | [] => .error (notScalar "mapping" place)
  | (k, v) :: rest => if k.isEqualsKey then v.scalarText else equalsText place rest

def notScalar (kind : String) (place : Mark) : Fault :=
  complaint s!"expected a scalar node, but found {kind}" place

end

mutual

/-- What is wrong with the mappings that are merged into the one at `place`. -/
def mergeFault? (place : Mark) : List (Node × Node) → Option Fault
  | [] => none
  | (k, v) :: rest =>
    (if k.isMergeKey then
      match v with
      | .mapping inner _ entries => mergeFault? inner entries
      | .sequence _ _ items => sourceFault? place items
      | .scalar there .. => some (complaint
          "expected a mapping or list of mappings for merging, but found scalar" there inMapping place)
    else none).or (mergeFault? place rest)

def sourceFault? (place : Mark) : List Node → Option Fault
  | [] => none
  | .mapping inner _ entries :: rest => (mergeFault? inner entries).or (sourceFault? place rest)
  | node :: _ => some (complaint s!"expected a mapping for merging, but found {node.kind}"
      node.place inMapping place)

end

/-- What is wrong with a node of one kind that is tagged as a collection of another. -/
def misplaced (place : Mark) (tag : Tag) (kind : String) : Fault :=
  match tag with
  | .omap => complaint s!"expected a sequence, but found {kind}" place "while constructing an ordered map" place
  | .pairs => complaint s!"expected a sequence, but found {kind}" place "while constructing pairs" place
  | .seq => complaint s!"expected a sequence node, but found {kind}" place
  | _ => complaint s!"expected a mapping node, but found {kind}" place

abbrev Entries := List (Datum × Datum)

def joined (a b : Made Entries) : Made Entries := (both a b).map fun (a, b) => a ++ b

/-- The mapping of the entries merged into it and of its own, unless something is wrong with the former. -/
def mapOf (fault : Option Fault) (merged own : Made Entries) : Made Entries :=
  match fault with
  | some e => wrong e
  | none => (joined merged own).map fun es => es.foldl (fun done e => Datum.setEntry e.1 e.2 done) []

/-- A value as a key; one that can change is none. -/
def asKey (owner place : Mark) (v : Made Datum) : Made Datum :=
  let refused : Made Datum := wrong (complaint "found unhashable key" place inMapping owner)
  match v with
  | .ok v => if v.isKey then .ok v else refused
  | .error (0, e) => wrong e
  | .error _ => refused

mutual

/-- The value of a node. Collections are filled only after all that is less deep has been read. -/
def value : Node → Made Datum
  | .scalar place tag text =>
    if tag.isCollection then below (wrong (misplaced place tag "scalar"))
    else atOnce (scalarValue place tag text)
  | .sequence _ .seq items => (below (itemValues items)).map .list
  | .sequence place .omap items => (below (pairValues "an ordered map" place items)).map .list
  | .sequence place .pairs items => (below (pairValues "pairs" place items)).map .list
  | .sequence place tag items =>
    if tag.isCollection then below (wrong (misplaced place tag "sequence"))
    else atOnce (do scalarValue place tag (← (Node.sequence place tag items).scalarText))
  | .mapping place tag entries =>
    match tag with
    | .map =>
      (below (mapOf (mergeFault? place entries) (mergedValues place entries) (ownValues place entries))).map
        .map
    | .set =>
      (below (mapOf (mergeFault? place entries) (mergedValues place entries) (ownValues place entries))).map
        fun map => .set (map.map (·.1))
    | tag =>
      if tag.isCollection then below (wrong (misplaced place tag "mapping"))
      else atOnce (do scalarValue place tag (← equalsText place entries))

def itemValues : List Node → Made (List Datum)
  | [] => .ok []
  | v :: rest => (both v.value (itemValues rest)).map fun (v, vs) => v :: vs

/-- Items that are mappings of one entry each, as pairs. -/
def pairValues (what : String) (place : Mark) : List Node → Made (List Datum)
  | [] => .ok []
  | .mapping inner _ entries :: rest =>
    match entries with
    | [(k, v)] =>
      (both (both k.value v.value) (pairValues what place rest)).map fun ((k, v), ps) =>
        .tuple [k, v] :: ps
    | _ => wrong (complaint s!"expected a single mapping item, but found {entries.length} items" inner
        ("while constructing " ++ what) place)
  | node :: _ => wrong (complaint s!"expected a mapping of length 1, but found {node.kind}" node.place
      ("while constructing " ++ what) place)

/-- The entries that a mapping takes over from others. -/
def mergedValues (place : Mark) : List (Node × Node) → Made Entries
  | [] => .ok []
  | (k, v) :: rest =>
    if k.isMergeKey then
      let taken := match v with
        | .mapping _ _ entries =>
          joined (mergedValues place entries) (ownValues place entries)
        | .sequence _ _ items => sourceValues place items
        | .scalar .. => .ok []
      joined taken (mergedValues place rest)
    else mergedValues place rest

/-- The entries of several mappings, those of the last one first. -/
def sourceValues (place : Mark) : List Node → Made Entries
  | .mapping _ _ entries :: rest =>
    joined (sourceValues place rest) (joined (mergedValues place entries) (ownValues place entries))
  | _ => .ok []

def ownValues (place : Mark) : List (Node × Node) → Made Entries
  | [] => .ok []
  | (k, v) :: rest =>
    if k.isMergeKey then ownValues place rest
    else
      let key := if k.isEqualsKey then .ok (.str "=") else asKey place k.place k.value
      (both (both key v.value) (ownValues place rest)).map fun (e, es) => e :: es

end
end Node

/-- The value of a text whose lines end in line feeds; null when it is empty. -/
def read (text : List Char) : Scan Datum := do
  match ← Node.parse text with
  | none => return .null
  | some root => root.value.mapError (·.2)

end Codemod.Yaml
