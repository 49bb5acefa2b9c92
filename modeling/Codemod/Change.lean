import Codemod.World

/-! Writing edited files. Each change knows the text it was made for; a file that holds anything else
is left alone. -/
namespace Codemod

/-- The text of a file before and after an edit. -/
structure Change where
  file : Path
  before : String
  after : String
  deriving DecidableEq, Repr

namespace Change

/-- The text that a change would replace, if the file can be read. Other faults of the disk than a
missing file or a directory are passed on. -/
def currentText (file : Path) : Act σ (Option String) := do
  match (← Act.getDisk).readText file with
  | .ok s => return some s
  | .error (.disk .notFound) | .error (.disk .isDirectory) | .error .notUtf8 => return none
  | .error e => throw e.failure

/-- Fails unless the file holds the text the change was made for. -/
def verify (c : Change) : Act σ Unit := do
  if (← currentText c.file) != some c.before then throw (.preimage c.file)

/-- Writes all changes, or none when one of the files has drifted. -/
def applyAll (changes : List Change) : Act σ Unit := do
  if changes.isEmpty then return
  changes.forM verify
  changes.forM fun c => Act.write c.file c.after
  Act.announce "apply.batch" [("files", .arr (changes.map fun c => Act.pathJson c.file))]

/-- Writes one change after checking its file. -/
def apply (c : Change) : Act σ Unit := do
  c.verify
  Act.write c.file c.after
  Act.announce "apply.file" [("file", Act.pathJson c.file)]

/-- Puts back the text before each change, whatever the files hold now. -/
def revertAll (changes : List Change) : Act σ Unit := do
  changes.forM fun c => Act.write c.file c.before
  if !changes.isEmpty then
    Act.announce "revert" [("files", .arr (changes.map fun c => Act.pathJson c.file))]

end Change
end Codemod
