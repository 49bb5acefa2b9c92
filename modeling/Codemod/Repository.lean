import Codemod.World
import Codemod.Text.Find
import Codemod.Text.Utf8

/-! A repository of a project's files, as far as a migration needs it: its state, branches, tags and
commits. -/
namespace Codemod

structure Repository where
  root : Path
  deriving DecidableEq, Repr

/-- What a command printed, and the code it ended with. -/
structure Printed where
  code : Int
  output : String
  errors : String
  deriving DecidableEq, Repr

namespace Printed

def trimmed (text : String) : String := String.ofList (Text.trim text.toList)

/-- The messages of a command, or its output when there are none. -/
def complaint (p : Printed) : String :=
  if trimmed p.errors != "" then trimmed p.errors else trimmed p.output

def answer (p : Printed) : String := trimmed p.output

end Printed

namespace Repository

def run (launch : Launcher σ) (directory : Path) (args : List String) : Act σ Printed := do
  match ← launch ⟨"git" :: args, directory⟩ with
  | .missing => throw (.process .missing)
  | .timedOut => throw (.process .timedOut)
  | .ended code output errors =>
    return ⟨code, Text.decodeReplacing output, Text.decodeReplacing errors⟩

/-- Whether a path is a directory inside of a repository. -/
def isInside (launch : Launcher σ) (path : Path) : Act σ Bool := do
  if !(← Act.getDisk).isDirectory path then return false
  match ← Act.attempt (run launch path ["rev-parse", "--is-inside-work-tree"]) with
  | .error (.process .missing) => return false
  | .error f => throw f
  | .ok p => return p.code == 0 && p.answer == "true"

def locate (launch : Launcher σ) (path : Path) : Act σ Repository := do
  let root := path.resolve (← Act.getDisk).cwd
  if ← isInside launch root then return ⟨root⟩
  throw (.git (.notRepository root))

def runHere (r : Repository) (launch : Launcher σ) (args : List String) : Act σ Printed :=
  run launch r.root args

/-- Runs a command that has to succeed. -/
def require (r : Repository) (launch : Launcher σ) (args : List String) : Act σ Printed := do
  let p ← r.runHere launch args
  if p.code ≠ 0 then throw (.git (.failed args p.complaint))
  return p

/-- The current branch, unless none is. -/
def currentBranch? (r : Repository) (launch : Launcher σ) : Act σ (Option String) := do
  let p ← r.runHere launch ["rev-parse", "--abbrev-ref", "HEAD"]
  let branch := p.answer
  return if p.code ≠ 0 || branch == "" || branch == "HEAD" then none else some branch

def arrow : List Char := " -> ".toList

/-- A line of a status report: the state of a path, and the path. One that was renamed or copied is
named by its new path. -/
def statusEntry (line : List Char) : String × Path :=
  let status := line.take 2
  let path := line.drop 3
  let moved := line.head? == some 'R' || line.head? == some 'C'
  let path := if moved then ((Text.splitAt? arrow path).map (·.2)).getD path else path
  let word := Text.trim status
  (String.ofList (if word.isEmpty then status else word), .ofString (String.ofList (Text.trim path)))

/-- The paths that differ from the last commit, with their states. -/
def status (r : Repository) (launch : Launcher σ) : Act σ (List (String × Path)) := do
  let p ← r.require launch ["status", "--porcelain"]
  return ((Text.lines p.output.toList).filter (!·.isEmpty)).map statusEntry

def isClean (r : Repository) (launch : Launcher σ) : Act σ Bool := do
  return (← r.status launch).isEmpty

def ensureClean (r : Repository) (launch : Launcher σ) : Act σ Unit := do
  if !(← r.isClean launch) then throw (.git .notClean)

def checkout (r : Repository) (launch : Launcher σ) (branch : String) : Act σ Unit := do
  let _ ← r.require launch ["checkout", branch]

def checkoutNew (r : Repository) (launch : Launcher σ) (branch : String) : Act σ Unit := do
  let _ ← r.require launch ["checkout", "-b", branch]

/-- Tags the current commit, with a message if there is one. -/
def tag (r : Repository) (launch : Launcher σ) (name : String) (message : Option String) :
    Act σ Unit := do
  let _ ← r.require launch <| match message.filter (· != "") with
    | some m => ["tag", "-a", name, "-m", m]
    | none => ["tag", name]

def nothingToCommit : List Char := "nothing to commit".toList

/-- Commits everything: the name of the commit, or nothing when there was nothing to commit. -/
def commitAll (r : Repository) (launch : Launcher σ) (message : String) (allowEmpty : Bool) :
    Act σ (Option String) := do
  let _ ← r.require launch ["add", "--all"]
  let p ← r.runHere launch (["commit", "-m", message] ++ if allowEmpty then ["--allow-empty"] else [])
  if p.code ≠ 0 then
    let complaint := p.complaint
    if (Text.splitAt? nothingToCommit (Text.lowerAscii complaint.toList)).isSome then return none
    throw (.git (.commitFailed complaint))
  return some (← r.require launch ["rev-parse", "HEAD"]).answer

end Repository
end Codemod
