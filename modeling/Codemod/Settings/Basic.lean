import Codemod.Model.Connection
import Codemod.Planning.Context
import Codemod.Run.Loop
import Codemod.Settings.Config

/-! The settings of a project, read from its configuration. A number that is out of place gives way to
its default; a word that is none of the known ones is an error. -/
namespace Codemod

inductive PlannerKind where
  | rules
  | llm
  deriving DecidableEq, Repr

def PlannerKind.word : PlannerKind → String
  | .rules => "rules"
  | .llm => "llm"

def PlannerKind.all : List PlannerKind := [.rules, .llm]

structure Settings where
  projectRoot : Path
  sourceDirs : List String
  mode : Mode
  maxSteps : Int
  transientCodes : List Int
  planner : PlannerKind
  provider : Provider
  model : String
  timeout : Float
  maxAttempts : Int
  retryDelay : Float
  baseUrl : Option String
  apiKey : Option String
  diagnosticsCommand : Option (List String)
  diagnosticsTimeout : Float
  fileLimit : Int
  excerptRadius : Int
  headLimit : Int
  guidanceDocument : Option Path
  guidanceKeywords : List String
  runsDirectory : String

/-- The items of a value that can be gone through: the characters of a text, the keys of a mapping. -/
def Datum.items : Datum → Except Failure (List Datum)
  | .str s => .ok (s.toList.map fun c => .str c.toString)
  | .bytes bs => .ok (bs.map fun (b : Nat) => .int b)
  | .tuple items | .list items | .set items => .ok items
  | .map entries => .ok (entries.map (·.1))
  | _ => .error (.misfit .notIterable)

/-- The plain text of a value. There is none when it would spell out a number that is too long. -/
def Datum.written (v : Datum) : Except Failure String :=
  if v.spellsLong then .error (.misfit .tooManyDigits) else .ok v.plain

/-- The plain texts of the items of a value. -/
def Datum.writtenItems (v : Datum) : Except Failure (List String) := do
  (← v.items).mapM Datum.written

/-- The number of a code that may have letters before it. -/
def codeOf? (text : String) : Option Int :=
  let isLetter (c : Char) (small large : Char) : Bool := c == small || c == large
  match Text.trim text.toList with
  | t :: s :: rest =>
    let marked := isLetter t 't' 'T' && (isLetter s 's' 'S' || s == 'ſ')
    Number.integer? (if marked then rest else t :: s :: rest)
  | cs => Number.integer? cs

/-- The codes in a list of them, in ascending order; what is no code is passed over. -/
def coerceCodes : Option Datum → Except Failure (List Int)
  | none | some .null => .ok transientCodes
  | some v => v.writtenItems.map fun texts => (texts.filterMap codeOf?).eraseDups.mergeSort (· ≤ ·)

namespace Settings

/-- A text that is not blank, without the blanks around it. -/
def text? : Option Datum → Option String
  | some (.str s) =>
    let cs := Text.trim s.toList
    if cs.isEmpty then none else some (String.ofList cs)
  | _ => none

/-- A whole number of at least `least`; fractions are cut off, and infinity fits nowhere. -/
def integer (v : Option Datum) (default least : Int) : Except Failure Int :=
  let atLeast (n : Int) : Int := if least ≤ n then n else default
  match v with
  | some (.int n) => .ok (atLeast n)
  | some (.float x) =>
    match Number.truncate? x with
    | some n => .ok (atLeast n)
    | none => if Number.isInfinite x then .error (.misfit .beyondRange) else .ok default
  | some (.str s) => .ok ((Number.integer? s.toList).elim default atLeast)
  | _ => .ok default

/-- A number of at least `least`. -/
def number (v : Option Datum) (default least : Float) : Except Failure Float :=
  let atLeast (x : Float) : Float := if least ≤ x then x else default
  match v with
  | some (.int n) =>
    let x := Number.ofInt n
    if Number.isFinite x then .ok (atLeast x) else .error (.misfit .beyondRange)
  | some (.float x) => .ok (atLeast x)
  | some (.str s) => .ok ((Number.float? s.toList).elim default atLeast)
  | _ => .ok default

/-- One of a few words, in any case and with blanks around it. -/
def choice (v : Option Datum) (all : List α) (word : α → String) (default : α) (option : String) :
    Except Failure α :=
  match v with
  | none | some .null => .ok default
  | some v => do
    let text := String.ofList (Text.lowerAscii (Text.trim (← v.written).toList))
    (all.find? fun a => word a == text).elim
      (.error (.config (.badChoice option (all.map word) v))) .ok

def section' (config : Config) (name : String) : Config :=
  match Datum.getEntry? config name with
  | some (.map entries) => entries
  | _ => []

def given? (entries : Config) (name : String) : Option Datum :=
  (Datum.getEntry? entries name).filter Datum.isGiven

/-- A command: a text is cut at its blanks. -/
def command? : Option Datum → Except Failure (Option (List String))
  | some (.str s) =>
    let words := (Text.words s.toList).map String.ofList
    .ok (if words.isEmpty then none else some words)
  | some v => v.writtenItems.map some
  | none => .ok none

def keywords : Option Datum → Except Failure (List String)
  | some v => v.writtenItems
  | none => .ok Guidance.defaultKeywords

/-- Directories with sources: a text is one directory. -/
def directories : Option Datum → Except Failure (List String)
  | some (.str s) => .ok [s]
  | some v => v.writtenItems
  | none => .ok ["src"]

/-- A path as an option has it: a relative one is taken from the directory `base`. -/
def pathFrom (cwd : List String) (base : Path) (text : String) : Except Failure Path :=
  let path := Path.ofString text
  if path.isAbsolute then .ok path else ((base.join path).resolved cwd).mapError .misfit

/-- The project's root, seen from the directory of the configuration. -/
def rootOf (cwd : List String) (path : Path) : Option Datum → Except Failure Path
  | some v => do pathFrom cwd path.parent (← v.written)
  | none => pathFrom cwd path.parent "."

def documentOf (cwd : List String) (root : Path) (v : Option Datum) : Except Failure (Option Path) :=
  match text? v with
  | some s => (pathFrom cwd root s).map some
  | none => .ok none

def defaultRuns : String := ".upgrade/runs"

/-- The settings in a configuration that was read from a path. -/
def ofConfig (cwd : List String) (config : Config) (path : Path) : Except Failure Settings := do
  let project := section' config "project"
  let loop := section' config "loop"
  let planner := section' config "planner"
  let diagnostics := section' config "diagnostics"
  let context := section' config "context"
  let guidance := section' config "guidance"
  let paths := section' config "paths"
  let root ← rootOf cwd path (given? project "repo_root")
  let command ← command? (given? diagnostics "command")
  let document ← documentOf cwd root (Datum.getEntry? guidance "document")
  let keywords ← keywords (given? guidance "keywords")
  let sourceDirs ← directories (given? project "source_dirs")
  let mode ← choice (Datum.getEntry? loop "mode") Mode.all Mode.word .focused "loop.mode"
  let maxSteps ← integer (Datum.getEntry? loop "max_steps") 5 0
  let transientCodes ← coerceCodes (Datum.getEntry? loop "transient_codes")
  let kind ← choice (Datum.getEntry? planner "kind") PlannerKind.all PlannerKind.word .rules
    "planner.kind"
  let provider ← choice (Datum.getEntry? planner "provider") Provider.all Provider.word .openai
    "planner.provider"
  let timeout ← number (Datum.getEntry? planner "timeout") 60.0 0.001
  let maxAttempts ← integer (Datum.getEntry? planner "max_attempts") 3 1
  let retryDelay ← number (Datum.getEntry? planner "retry_delay") 0.5 0.0
  let diagnosticsTimeout ← number (Datum.getEntry? diagnostics "timeout") 300.0 0.001
  let fileLimit ← integer (Datum.getEntry? context "file_limit") 100 1
  let excerptRadius ← integer (Datum.getEntry? context "excerpt_radius") 400 0
  let headLimit ← integer (Datum.getEntry? context "head_limit") 800 0
  return {
    projectRoot := root, sourceDirs, mode, maxSteps, transientCodes, planner := kind, provider
    model := (text? (Datum.getEntry? planner "model")).getD Provider.openai.defaultModel
    timeout, maxAttempts, retryDelay
    baseUrl := text? (Datum.getEntry? planner "base_url")
    apiKey := text? (Datum.getEntry? planner "api_key")
    diagnosticsCommand := command, diagnosticsTimeout, fileLimit, excerptRadius, headLimit
    guidanceDocument := document, guidanceKeywords := keywords
    runsDirectory := (text? (Datum.getEntry? paths "runs")).getD defaultRuns }

def load (path : Path) : Act σ Settings := do
  let config ← Config.load path
  let cwd := (← Act.getDisk).cwd
  MonadExcept.ofExcept (ofConfig cwd config (path.resolve cwd))

/-- What has to hold for settings to be of use. -/
structure Valid (s : Settings) : Prop where
  maxSteps : 0 ≤ s.maxSteps
  maxAttempts : 1 ≤ s.maxAttempts
  fileLimit : 1 ≤ s.fileLimit
  excerptRadius : 0 ≤ s.excerptRadius
  headLimit : 0 ≤ s.headLimit
  timeout : 0.001 ≤ s.timeout
  diagnosticsTimeout : 0.001 ≤ s.diagnosticsTimeout
  retryDelay : 0.0 ≤ s.retryDelay

/-- How a client is made: what is not set is left to the provider's defaults. -/
def clientOptions (s : Settings) : Client.Options :=
  { provider := s.provider, apiKey := s.apiKey
    url := s.baseUrl.getD s.provider.defaultUrl
    model := s.model, timeout := .fraction s.timeout
    maxAttempts := s.maxAttempts, retryDelay := .fraction s.retryDelay }

def client (env : Environment) (s : Settings) : Except Failure Client :=
  Client.connecting env s.clientOptions

def scope (s : Settings) : Context.Scope :=
  { projectRoot := s.projectRoot, sourceDirs := s.sourceDirs, fileLimit := s.fileLimit
    excerptRadius := s.excerptRadius, headLimit := s.headLimit
    guidanceDocument := s.guidanceDocument, guidanceKeywords := s.guidanceKeywords }

end Settings
end Codemod
