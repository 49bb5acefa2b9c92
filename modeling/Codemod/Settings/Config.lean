import Codemod.Planning.Guidance
import Codemod.Verdict
import Codemod.World
import Codemod.Yaml.Printer
import Codemod.Yaml.Value

/-! Configuration files: a mapping of sections, laid over the default one. -/
namespace Codemod

/-- A mapping from names, most of them texts, to values. -/
abbrev Config := List (Datum × Datum)

namespace Config

def defaultName : String := "junction.yaml"

def texts (ts : List String) : Datum := .list (ts.map .str)

def mapping (entries : List (String × Datum)) : Datum := .map (entries.map fun (k, v) => (.str k, v))

/-- What holds where a file says nothing. -/
def default : Config :=
  [(.str "project", mapping [("name", .str ""), ("repo_root", .str "."), ("source_dirs", texts ["src"])]),
   (.str "loop", mapping [("mode", .str "focused"), ("max_steps", .int 5),
     ("transient_codes", .list (transientCodes.map .int))]),
   (.str "planner", mapping [("kind", .str "rules"), ("provider", .str "openai"),
     ("model", .str "gpt-4o-mini"), ("timeout", .int 60), ("max_attempts", .int 3),
     ("retry_delay", .float 0.5), ("base_url", .str ""), ("api_key", .str "")]),
   (.str "diagnostics", mapping [("command", .null), ("timeout", .int 300)]),
   (.str "context", mapping [("file_limit", .int 100), ("excerpt_radius", .int 400),
     ("head_limit", .int 800)]),
   (.str "guidance", mapping [("document", .str "../docs/MigrationGuide.md"),
     ("keywords", texts Guidance.defaultKeywords)]),
   (.str "paths", mapping [("runs", .str ".upgrade/runs")])]

mutual

/-- A value laid over the one that is there: a mapping is merged into a mapping, and everything else
takes the other's place. -/
def overlayValue (under : Option Datum) : Datum → Datum
  | .map entries =>
    match under with
    | some (.map old) => .map (overlay old entries)
    | _ => .map entries
  | v => v

/-- The entries of a mapping laid over another one. -/
def overlay (under : Config) : Config → Config
  | [] => under
  | (k, v) :: rest =>
    let old := (under.find? fun e => e.1.same k).map (·.2)
    overlay (Datum.setEntry k (overlayValue old v) under) rest

end

def Fault.failure (path : Path) : Yaml.Fault → Failure
  | .misfit m => .misfit m
  | e => .config (.unreadable path (e.text (toString path)))

/-- The configuration in a text. A document that amounts to nothing leaves the defaults. -/
def ofText (path : Path) (text : String) : Except Failure Config :=
  match Yaml.read text.toList with
  | .error e => .error (Fault.failure path e)
  | .ok (.map entries) => .ok (overlay default entries)
  | .ok v => if v.isGiven then .error (.config (.notMapping path)) else .ok default

/-- The configuration of a file; the default one when there is no such file. -/
def load (path : Path) : Act σ Config := do
  let disk ← Act.getDisk
  if !disk.pathExists path then return default
  match disk.readLines path with
  | .error e => throw e.failure
  | .ok text => MonadExcept.ofExcept (ofText path text)

/-- Writes the default configuration. A file that is there is replaced only if that is asked for. -/
def writeDefault (path : Path) (replace : Bool) : Act σ Unit := do
  if !replace && (← Act.getDisk).pathExists path then throw (.config (.alreadyThere path))
  Act.ensureDirectory path.parent
  Act.write path (Yaml.render (.map default))

end Config
end Codemod
