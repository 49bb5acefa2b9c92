import Codemod.Plan.Basic
import Codemod.Source.Splice
import Codemod.Source.Element
import Codemod.Source.ImportEdit
import Codemod.Change

/-! What an operation does to the text of a file, and the changes of files that a plan comes to: one for each
file whose text it alters. -/
namespace Codemod
open Source

/-- The new name of an import that had no alias, when the edit renames it: markup that uses the old
name has to follow. -/
def renamedBinding? (text fromModule : List Char) (fromNamed toNamed : Option (List Char)) :
    Option (List Char × List Char) :=
  match given? fromNamed, given? toNamed with
  | some old, some new =>
    if importedAs? text fromModule old = some old && new != old then some (old, new) else none
  | _, _ => none

def Op.apply (text : List Char) : Op → List Char
  | .editImport _ fromModule fromNamed toModule toNamed =>
    let fromNamed := fromNamed.map String.toList
    let toNamed := toNamed.map String.toList
    let updated := Source.editImport text fromModule.toList fromNamed toModule.toList toNamed
    if updated = text then text
    else match renamedBinding? text fromModule.toList fromNamed toNamed with
      | some (old, new) => Source.renameElement updated old new
      | none => updated
  | .renameElement _ old new => Source.renameElement text old.toList new.toList
  | .removeAttribute _ tag attr => Source.removeAttribute text tag.toList attr.toList
  | .convertAttribute _ tag fromAttr toAttr =>
    Source.convertAttribute text tag.toList fromAttr.toList toAttr.toList
  | .rewriteCall _ callee edits => Source.rewriteCall text callee.toList edits
  | .editText _ anchor before after maxChars =>
    editNearAnchor text (anchor.map String.toList) before.toList after.toList maxChars anchorWindow
  | .formatFiles _ => text

def applyOps (text : List Char) (ops : List Op) : List Char := ops.foldl Op.apply text

/-! # Compiling a plan -/

/-- Where a file is that an operation names: below the project root, when there is one. -/
def located (cwd : List String) (root : Option Path) (file : String) : Path :=
  match root with
  | some root => (root.join (.ofString file)).resolve cwd
  | none => (Path.ofString file).resolve cwd

/-- The file an operation names. The root has been resolved before, so only the name can be one that no
file can have. -/
def operand (cwd : List String) (root : Option Path) (file : String) : Except Misfit Path :=
  if nul ∈ file.toList then .error .notAName else .ok (located cwd root file)

/-- The operations of a plan with the files they edit. -/
def Plan.edits (cwd : List String) (root : Option Path) (plan : Plan) :
    Except Misfit (List (Path × Op)) :=
  (plan.ops.filterMap fun op => op.file?.map (·, op)).mapM fun e =>
    (operand cwd root e.1).map (·, e.2)

/-- The change that operations make to a file. There is none for a file that cannot be read as text,
or whose text stays the same. -/
def changeOf? (disk : Disk) (file : Path) (ops : List Op) : Option Change :=
  (disk.text? file).bind fun before =>
    let after := String.ofList (applyOps before.toList ops)
    if after = before then none else some ⟨file, before, after⟩

/-- The changes of a plan, in the order its files are mentioned first. A file that is not there has none,
but a name that no file can have is a failure. -/
def Plan.compile (disk : Disk) (root : Option Path) (plan : Plan) : Except Misfit (List Change) := do
  let root ← root.mapM (·.resolved disk.cwd)
  let edits ← plan.edits disk.cwd root
  return ((edits.map (·.1)).eraseDups).filterMap fun file =>
    changeOf? disk file ((edits.filter (·.1 == file)).map (·.2))

end Codemod
