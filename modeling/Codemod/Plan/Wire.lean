import Codemod.Plan.Basic
import Codemod.Wire.Check

/-! Plans as JSON: how they are written, and how those that arrive are checked. -/
namespace Codemod
open Wire

namespace Source

def CallAction.word : CallAction → String
  | .rename => "RENAME"
  | .insertArgument => "INSERT_ARG"
  | .dropArgument => "DROP_ARG"
  | .wrapArgument => "WRAP_ARG"

def CallAction.all : List CallAction := [.rename, .insertArgument, .dropArgument, .wrapArgument]

def CallEdit.toJson (e : CallEdit) : Json :=
  .obj [("op", .str e.action.word), ("index", Json.ofOption .int e.index),
    ("value", Json.ofOption .str e.value)]

def CallEdit.check : Json → Checked CallEdit :=
  record [name "op", name "index", name "value"] fun fields =>
    (both (required fields (name "op") (word (CallAction.all.map fun a => (a.word, a))))
      (both (withDefault fields (name "index") (nullable integer) none)
        (withDefault fields (name "value") (nullable string) none))).map
      fun (action, index, value) => ⟨action, index, value⟩

end Source

namespace Op

def kind : Op → String
  | .editImport .. => "EDIT_IMPORT"
  | .renameElement .. => "RENAME_ELEMENT"
  | .removeAttribute .. => "REMOVE_ATTRIBUTE"
  | .convertAttribute .. => "CONVERT_ATTRIBUTE_TO_ELEMENT"
  | .rewriteCall .. => "REWRITE_CALL"
  | .editText .. => "EDIT_TEXT_NEAR_ANCHOR"
  | .formatFiles .. => "FORMAT_FILES"

/-- The fields of an operation besides its kind. -/
def parts : Op → List (String × Json)
  | .editImport file fromModule fromNamed toModule toNamed =>
    [("file", .str file), ("fromModule", .str fromModule),
     ("fromNamed", Json.ofOption .str fromNamed), ("toModule", .str toModule),
     ("toNamed", Json.ofOption .str toNamed)]
  | .renameElement file old new => [("file", .str file), ("from", .str old), ("to", .str new)]
  | .removeAttribute file tag attr => [("file", .str file), ("tag", .str tag), ("attr", .str attr)]
  | .convertAttribute file tag fromAttr toAttr =>
    [("file", .str file), ("tag", .str tag), ("fromAttr", .str fromAttr), ("toAttr", .str toAttr)]
  | .rewriteCall file callee edits =>
    [("file", .str file), ("calleeName", .str callee),
     ("edits", .arr (edits.map Source.CallEdit.toJson))]
  | .editText file anchor before after maxChars =>
    [("file", .str file), ("anchor", Json.ofOption .str anchor), ("before", .str before),
     ("after", .str after), ("maxChars", .int maxChars)]
  | .formatFiles files => [("files", Json.strings files)]

def toJson (op : Op) : Json := .obj (("kind", .str op.kind) :: op.parts)

/-- The `kind` of a record that is known to be of one kind may be left out. -/
def kindField (fields : Fields) (kind : String) : Checked Unit :=
  withDefault fields (name "kind") (word [(kind, ())]) ()

def file : Name := name "file"

def checkEditImport : Json → Checked Op :=
  let fromModule : Name := ⟨"fromModule", "from_module"⟩
  let fromNamed : Name := ⟨"fromNamed", "from_named"⟩
  let toModule : Name := ⟨"toModule", "to_module"⟩
  let toNamed : Name := ⟨"toNamed", "to_named"⟩
  record [name "kind", file, fromModule, fromNamed, toModule, toNamed] fun fields =>
    (both (kindField fields "EDIT_IMPORT") (both (required fields file string)
      (both (required fields fromModule string)
        (both (withDefault fields fromNamed (nullable string) none)
          (both (required fields toModule string)
            (withDefault fields toNamed (nullable string) none)))))).map
      fun (_, f, m, n, m', n') => .editImport f m n m' n'

def checkRenameElement : Json → Checked Op :=
  let old : Name := ⟨"from", "from_name"⟩
  let new : Name := ⟨"to", "to_name"⟩
  record [name "kind", file, old, new] fun fields =>
    (both (kindField fields "RENAME_ELEMENT") (both (required fields file string)
      (both (required fields old string) (required fields new string)))).map
      fun (_, f, a, b) => .renameElement f a b

def checkRemoveAttribute : Json → Checked Op :=
  record [name "kind", file, name "tag", name "attr"] fun fields =>
    (both (kindField fields "REMOVE_ATTRIBUTE") (both (required fields file string)
      (both (required fields (name "tag") string) (required fields (name "attr") string)))).map
      fun (_, f, t, a) => .removeAttribute f t a

def checkConvertAttribute : Json → Checked Op :=
  let old : Name := ⟨"fromAttr", "from_attr"⟩
  let new : Name := ⟨"toAttr", "to_attr"⟩
  record [name "kind", file, name "tag", old, new] fun fields =>
    (both (kindField fields "CONVERT_ATTRIBUTE_TO_ELEMENT") (both (required fields file string)
      (both (required fields (name "tag") string)
        (both (required fields old string) (required fields new string))))).map
      fun (_, f, t, a, b) => .convertAttribute f t a b

def checkRewriteCall : Json → Checked Op :=
  let callee : Name := ⟨"calleeName", "callee_name"⟩
  record [name "kind", file, callee, name "edits"] fun fields =>
    (both (kindField fields "REWRITE_CALL") (both (required fields file string)
      (both (required fields callee string)
        (withDefault fields (name "edits") (list Source.CallEdit.check) [])))).map
      fun (_, f, c, es) => .rewriteCall f c es

/-- The greatest length of either text of a replacement, unless the plan says otherwise. -/
def defaultMaxChars : Nat := 200

def checkEditText : Json → Checked Op :=
  let maxChars : Name := ⟨"maxChars", "max_chars"⟩
  record [name "kind", file, name "anchor", name "before", name "after", maxChars] fun fields =>
    (both (kindField fields "EDIT_TEXT_NEAR_ANCHOR") (both (required fields file string)
      (both (withDefault fields (name "anchor") (nullable string) none)
        (both (required fields (name "before") string)
          (both (required fields (name "after") string)
            (withDefault fields maxChars natural defaultMaxChars)))))).map
      fun (_, f, a, b, c, n) => .editText f a b c n

def checkFormatFiles : Json → Checked Op :=
  record [name "kind", name "files"] fun fields =>
    (both (kindField fields "FORMAT_FILES")
      (withDefault fields (name "files") (list string) [])).map fun (_, fs) => .formatFiles fs

def check : Json → Checked Op :=
  tagged [("EDIT_IMPORT", checkEditImport), ("RENAME_ELEMENT", checkRenameElement),
    ("REMOVE_ATTRIBUTE", checkRemoveAttribute),
    ("CONVERT_ATTRIBUTE_TO_ELEMENT", checkConvertAttribute), ("REWRITE_CALL", checkRewriteCall),
    ("EDIT_TEXT_NEAR_ANCHOR", checkEditText), ("FORMAT_FILES", checkFormatFiles)]

end Op

namespace Plan

def toJson (plan : Plan) : Json :=
  .obj [("targetCodes", .arr (plan.targetCodes.map .int)), ("ops", .arr (plan.ops.map Op.toJson)),
    ("why", Json.strings plan.why), ("confidence", .float plan.confidence)]

def check : Json → Checked Plan :=
  let codes : Name := ⟨"targetCodes", "target_codes"⟩
  record [codes, name "ops", name "why", name "confidence"] fun fields =>
    (both (withDefault fields codes (list integer) [])
      (both (withDefault fields (name "ops") (list Op.check) [])
        (both (withDefault fields (name "why") (list string) [])
          (withDefault fields (name "confidence") unitInterval 0.0)))).map
      fun (codes, ops, why, confidence) => ⟨codes, ops, why, confidence⟩

end Plan
end Codemod
