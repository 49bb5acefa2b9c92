import Codemod.Diagnostic
import Codemod.Disk
import Codemod.Failure
import Codemod.Text.Find

/-! The report of the type checker, one line for each diagnostic, indented lines going on with its
message. Lines and columns become offsets into the text of the file. -/
namespace Codemod.Report
open Text

/-- Where a diagnostic was found, as the report writes it. -/
inductive Location where
  | place (file : List Char) (line column : Nat)
  /-- Nowhere in particular. -/
  | project
  deriving DecidableEq, Repr

structure Entry where
  location : Location
  code : Nat
  message : List Char
  deriving DecidableEq, Repr

/-- The code and message of a line from the word `error` on. -/
def fault? (cs : List Char) : Option (List Char × List Char) := do
  let (code, cs) ← runAfter? "error TS" isDigit cs
  let message ← after? ": ".toList cs
  some (code, message)

/-- The parts of a line from the bracket behind the file name on: line, column, code, message. -/
def placed? (cs : List Char) : Option (List Char × List Char × List Char × List Char) := do
  let (line, cs) ← runAfter? "(" isDigit cs
  let (column, cs) ← runAfter? "," isDigit cs
  let cs ← after? "): ".toList cs
  let (code, message) ← fault? cs
  some (line, column, code, message)

/-- A line with a place. The file name is as short as it can be, and has one character at least. -/
def located? : List Char → Option (List Char × List Char × List Char × List Char × List Char)
  | [] => none
  | c :: cs =>
    match placed? cs with
    | some parts => some ([c], parts)
    | none => (located? cs).map fun (file, parts) => (c :: file, parts)

/-- The value of digits that are not too many. -/
def value (digits : List Char) : Except Misfit Nat :=
  if digits.length > Number.digitLimit then .error .tooManyDigits else .ok (digitsValue digits)

/-- The entry that a line begins, if it begins one. -/
def entryOf (line : List Char) : Except Misfit (Option Entry) :=
  match located? line with
  | some (file, row, column, code, message) => do
    let code ← value code
    if file.contains nul then throw .notAName
    let row ← value row
    let column ← value column
    return some ⟨.place file row column, code, message⟩
  | none =>
    match fault? line with
    | some (code, message) => return some ⟨.project, ← value code, message⟩
    | none => return none

/-- Adds a further line to the message of the last entry. -/
def continueLast (line : List Char) : List Entry → List Entry
  | [] => []
  | [e] => [{ e with message := e.message ++ '\n' :: trim line }]
  | e :: entries => e :: continueLast line entries

/-- What one more line makes of the entries so far. -/
def addLine (entries : List Entry) (line : List Char) : Except Misfit (List Entry) :=
  if (trim line).isEmpty then .ok entries
  else if line.head?.any isBlank then .ok (continueLast line entries)
  else do return entries ++ (← entryOf line).toList

def entries (output : List Char) : Except Misfit (List Entry) := (lines output).foldlM addLine []

/-- The name that stands for no file. -/
def noFile : String := "unknown"

/-- The span of the identifier at a line and column; empty at the beginning of the text when there is
no such line. -/
def spanAt (text : List Char) (line column : Int) : Span :=
  match offsetAt? text line column with
  | some start => ⟨start, identifierEnd text start, Nat.le_add_right _ _⟩
  | none => .zero

/-- The module that a message says cannot be found. -/
def missingModule? (message : List Char) : Option String :=
  first? (fun cs => (after? "Cannot find module ".toList cs).bind fun cs =>
    (quotedRun? (!isQuoteMark ·) cs).map String.ofList) message

/-- The code for a module that cannot be found. -/
def missingModuleCode : Nat := 2307

/-- The file of an entry, seen from the project. -/
def Entry.file (cwd : List String) (root : Path) (e : Entry) : String :=
  match e.location with
  | .place file .. => toString ((root.join (.ofString (String.ofList file))).resolve cwd)
  | .project => noFile

/-- The span of an entry. It is empty when the file cannot be read as text. -/
def Entry.span (disk : Disk) (root : Path) (e : Entry) : Span :=
  match e.location with
  | .project => .zero
  | .place _ line column =>
    match disk.text? (.ofString (e.file disk.cwd root)) with
    | some text => spanAt text.toList line column
    | none => .zero

def Entry.diagnostic (disk : Disk) (root : Path) (e : Entry) : Diagnostic :=
  { code := e.code, message := String.ofList e.message, file := e.file disk.cwd root,
    span := e.span disk root,
    moduleName := if e.code = missingModuleCode then missingModule? e.message else none }

def diagnostics (disk : Disk) (root : Path) (output : List Char) :
    Except Misfit (List Diagnostic) :=
  (entries output).map fun es => es.map (·.diagnostic disk (root.resolve disk.cwd))

end Codemod.Report
