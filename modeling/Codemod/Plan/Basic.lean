import Codemod.Source.Call

/-! Plans: the operations a planner may ask for, with its reasons and its confidence. -/
namespace Codemod

/-- An operation. Each names the file it edits, except a request to format files, which edits none. -/
inductive Op where
  | editImport (file fromModule : String) (fromNamed : Option String) (toModule : String)
      (toNamed : Option String)
  | renameElement (file old new : String)
  | removeAttribute (file tag attr : String)
  | convertAttribute (file tag fromAttr toAttr : String)
  | rewriteCall (file callee : String) (edits : List Source.CallEdit)
  | editText (file : String) (anchor : Option String) (before after : String) (maxChars : Nat)
  | formatFiles (files : List String)
  deriving DecidableEq, Repr

def Op.file? : Op → Option String
  | .editImport file .. => some file
  | .renameElement file .. => some file
  | .removeAttribute file .. => some file
  | .convertAttribute file .. => some file
  | .rewriteCall file .. => some file
  | .editText file .. => some file
  | .formatFiles _ => none

def Op.files : Op → List String
  | .formatFiles files => files
  | op => op.file?.toList

structure Plan where
  /-- The diagnostic codes the plan is aimed at. -/
  targetCodes : List Int
  ops : List Op
  why : List String
  confidence : Float

def Plan.empty (reason : Option String) : Plan :=
  ⟨[], [], (reason.filter (· != "")).toList, 0.0⟩

/-- Every file that a plan mentions, in the order of first mention. -/
def Plan.files (plan : Plan) : List String := (plan.ops.flatMap Op.files).eraseDups

end Codemod
