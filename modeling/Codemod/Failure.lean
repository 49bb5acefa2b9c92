import Codemod.Datum
import Codemod.Disk
import Codemod.Wire.Check

/-! Everything that can go wrong, by its cause, and the words that report it. -/
namespace Codemod

/-- Why diagnostics could not be collected. -/
inductive DiagnosticsError where
  | noCompiler (root : Path)
  | noExecutable (command : List String)
  | timedOut (seconds : Float) (command : List String)
  | exited (code : Int) (output : String) (command : List String)
  /-- What a source other than the compiler reports. -/
  | reported (text : String)

def DiagnosticsError.message : DiagnosticsError → String
  | .noCompiler _ => "TypeScript compiler not found; install typescript in the project."
  | .noExecutable command => "Executable not available: " ++ command.headD ""
  | .timedOut seconds _ => "Diagnostics timed out after " ++ Number.spellRounded seconds ++ "s"
  | .exited code output _ => s!"Diagnostics command exited {code}: {output}"
  | .reported text => text

def DiagnosticsError.details : DiagnosticsError → List (String × Datum)
  | .noCompiler root => [("project_root", .str (toString root))]
  | .noExecutable command | .timedOut _ command =>
    [("command", .list (command.map .str))]
  | .exited code _ command => [("command", .list (command.map .str)), ("exit_code", .int code)]
  | .reported _ => []

inductive ConfigError where
  | unreadable (path : Path) (fault : String)
  | notMapping (path : Path)
  | alreadyThere (path : Path)
  /-- An option has none of the words it may have. -/
  | badChoice (option : String) (allowed : List String) (value : Datum)

def ConfigError.message : ConfigError → String
  | .unreadable _ fault => s!"Failed to parse config: {fault}"
  | .notMapping _ => "Configuration must be a mapping at the top level."
  | .alreadyThere path => s!"Config file already exists: {path}"
  | .badChoice option allowed value =>
    option ++ " must be one of " ++ ", ".intercalate allowed ++ "; got " ++ value.shown

def ConfigError.details : ConfigError → List (String × Datum)
  | .unreadable path _ | .notMapping path | .alreadyThere path => [("path", .str (toString path))]
  | .badChoice option _ value => [(option, value)]

inductive DependencyError where
  | noManifest (root : Path)
  | manifestUnreadable (fault : String)
  | manifestNotObject
  | noExecutable (command : List String)
  | exited (command : List String) (code : Int)

def DependencyError.message : DependencyError → String
  | .noManifest root => s!"package.json not found in {root}"
  | .manifestUnreadable fault => s!"package.json is not valid JSON: {fault}"
  | .manifestNotObject => "package.json must contain an object."
  | .noExecutable command => "Executable not available: " ++ command.headD ""
  | .exited command code => " ".intercalate command ++ s!" failed with code {code}"

inductive GitError where
  | notRepository (root : Path)
  | failed (args : List String) (output : String)
  | commitFailed (output : String)
  | notClean

def GitError.message : GitError → String
  | .notRepository root => s!"Not a git repository: {root}"
  | .failed args output =>
    "git " ++ " ".intercalate args ++ " failed: " ++ (if output == "" then "unknown git error" else output)
  | .commitFailed output => s!"git commit failed: {output}"
  | .notClean => "Working tree not clean. Commit or stash changes first."

/-- Why a reply of a language model is of no use. -/
inductive ReplyError where
  | transport (text : String)
  | format (text : String)
  /-- The reply was read and is not the record that was asked for. -/
  | invalid (issues : List Wire.Issue)

def ReplyError.message? : ReplyError → Option String
  | .transport text | .format text => some text
  | .invalid _ => none

/-- A value that does not fit where it is used and that no check turns away first. -/
inductive Misfit where
  /-- Something that has no items is gone through item by item. -/
  | notIterable
  /-- A value is asked for what values of its kind cannot do. -/
  | noSuchOperation
  /-- Values of its kind have an operation of that name that takes something else. -/
  | otherOperation
  /-- A value that can change is used as a key. -/
  | notAKey
  /-- Too large for a double, or not a whole number at all. -/
  | beyondRange
  | tooManyDigits
  /-- None of the words that are known. -/
  | unknownWord
  /-- Looked up in a table that does not have it. -/
  | noSuchKey
  /-- The first part of something that is empty. -/
  | noSuchPlace
  /-- A name that no file can have. -/
  | notAName
  deriving DecidableEq, Repr

/-- The character that the name of no file has. -/
def nul : Char := '\x00'

/-- The path from the top. Every name on it is looked up on the way, so each has to be one that a file
can have. -/
def Path.resolved (cwd : List String) (p : Path) : Except Misfit Path :=
  if p.parts.any (·.toList.contains nul) then .error .notAName else .ok (p.resolve cwd)

/-- Why a program did not end. -/
inductive ProcessError where
  | missing
  | timedOut
  deriving DecidableEq, Repr

inductive Failure where
  | disk (e : DiskError)
  | notUtf8
  /-- A file no longer holds the text that a change was made for. -/
  | preimage (file : Path)
  | diagnostics (e : DiagnosticsError)
  | config (e : ConfigError)
  | dependency (e : DependencyError)
  | git (e : GitError)
  /-- A program did not end, and nobody expected that. -/
  | process (e : ProcessError)
  | reply (e : ReplyError)
  /-- None of the attempts to get a reply went well. -/
  | exhausted (attempts : Int) (model : String) (last : Option ReplyError)
  | noApiKey
  /-- The connection fails in a way no client expects. -/
  | connection (text : String)
  | misfit (m : Misfit)
  | record (issues : List Wire.Issue)

def preimageMessage (file : Path) : String := s!"Preimage mismatch for {file}"

def exhaustedMessage (attempts : Int) (model : String) : String :=
  s!"Failed to produce schema-valid JSON after {attempts} attempt(s) for model {model}"

/-- The words for failures that have words of their own. -/
def Failure.message? : Failure → Option String
  | .preimage file => some (preimageMessage file)
  | .diagnostics e => some e.message
  | .config e => some e.message
  | .dependency e => some e.message
  | .git e => some e.message
  | .reply e => e.message?
  | .exhausted attempts model _ => some (exhaustedMessage attempts model)
  | .noApiKey => some "An API key is required when using the default transport."
  | _ => none

def Failure.details : Failure → List (String × Datum)
  | .preimage file => [("file", .str (toString file))]
  | .diagnostics e => e.details
  | .config e => e.details
  | _ => []

def Disk.ReadError.failure : Disk.ReadError → Failure
  | .disk e => .disk e
  | .notUtf8 => .notUtf8

end Codemod
