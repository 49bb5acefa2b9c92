import Codemod.Plan.Wire
import Codemod.Schema.Basic
import Codemod.Diagnostic
import Codemod.Schema.Described

/-! What a model can be asked for: a record of some kind, by its name, its schema and the check that
turns an answer into it. -/
namespace Codemod

/-! # The schema of plans -/

namespace Schema

def callEdit : Schema :=
  .record [("op", .words (Source.CallAction.all.map Source.CallAction.word)),
    ("index", optional .integer), ("value", optional .text)]

/-- An operation of the given kind on a file. -/
def fileOp (kind : String) (fields : List (String × Schema)) : Schema :=
  .record ([("kind", .words [kind]), ("file", .text)] ++ fields)

def editImport : Schema :=
  fileOp "EDIT_IMPORT" [("fromModule", .text), ("fromNamed", optional .text), ("toModule", .text),
    ("toNamed", optional .text)]

def renameElement : Schema := fileOp "RENAME_ELEMENT" [("from", .text), ("to", .text)]

def removeAttribute : Schema := fileOp "REMOVE_ATTRIBUTE" [("tag", .text), ("attr", .text)]

def convertAttribute : Schema :=
  fileOp "CONVERT_ATTRIBUTE_TO_ELEMENT" [("tag", .text), ("fromAttr", .text), ("toAttr", .text)]

def rewriteCall : Schema :=
  fileOp "REWRITE_CALL" [("calleeName", .text), ("edits", .list callEdit)]

def editText : Schema :=
  fileOp "EDIT_TEXT_NEAR_ANCHOR" [("anchor", optional .text), ("before", .text), ("after", .text),
    ("maxChars", .integer)]

def formatFiles : Schema := .record [("kind", .words ["FORMAT_FILES"]), ("files", .list .text)]

def op : Schema :=
  .anyOf [editImport, renameElement, removeAttribute, convertAttribute, rewriteCall, editText,
    formatFiles]

def plan : Schema :=
  .record [("targetCodes", .list .integer), ("ops", .list op), ("why", .list .text),
    ("confidence", .number)]

end Schema

/-! # Forms -/

structure Form (α : Type) where
  name : String
  schema : Json
  check : Json → Wire.Checked α

namespace Form
open Schema

def map (f : α → β) (form : Form α) : Form β :=
  ⟨form.name, form.schema, fun v => (form.check v).map f⟩

def file : Field := ⟨"file", .text, .needed⟩

def kind (word : String) : Field := ⟨"kind", .word word, .default (.str word)⟩

def needed (name : String) : Field := ⟨name, .text, .needed⟩

def optionalText (name : String) : Field := ⟨name, .optional .text, .default .null⟩

def spanRecord : Description :=
  ⟨"Span", "Character offsets into a file's text.",
    [⟨"start", .natural, .needed⟩, ⟨"end", .natural, .needed⟩]⟩

def diagnosticRecord : Description :=
  ⟨"Diagnostic", "Single problem reported by the diagnostic source.",
    [⟨"code", .integer, .needed⟩, needed "message", file, ⟨"span", .named "Span", .filled⟩,
      optionalText "moduleName"]⟩

def editImportRecord : Description :=
  ⟨"EditImport", "Rename a named import and/or move it to another module.",
    [kind "EDIT_IMPORT", file, needed "fromModule", optionalText "fromNamed", needed "toModule",
      optionalText "toNamed"]⟩

def renameElementRecord : Description :=
  ⟨"RenameElement", "Rename every opening/closing markup element ``from`` to ``to``.",
    [kind "RENAME_ELEMENT", file, needed "from", needed "to"]⟩

def removeAttributeRecord : Description :=
  ⟨"RemoveAttribute", "Drop attribute ``attr`` from every ``tag`` element.",
    [kind "REMOVE_ATTRIBUTE", file, needed "tag", needed "attr"]⟩

def convertAttributeRecord : Description :=
  ⟨"ConvertAttributeToElement",
    "Turn ``fromAttr=\x7bComp\x7d`` into ``toAttr=\x7b<Comp />\x7d`` on ``tag`` elements.",
    [kind "CONVERT_ATTRIBUTE_TO_ELEMENT", file, needed "tag", needed "fromAttr", needed "toAttr"]⟩

def callEditRecord : Description :=
  ⟨"CallEdit", "Single edit applied to each matching call expression.",
    [⟨"op", .words (Source.CallAction.all.map Source.CallAction.word), .needed⟩,
      ⟨"index", .optional .integer, .default .null⟩, optionalText "value"]⟩

def rewriteCallRecord : Description :=
  ⟨"RewriteCall", "Rewrite calls to ``calleeName`` with an ordered list of call edits.",
    [kind "REWRITE_CALL", file, needed "calleeName", ⟨"edits", .list (.named "CallEdit"), .filled⟩]⟩

def editTextRecord : Description :=
  ⟨"EditTextNearAnchor", "Small textual replacement located near an anchor string.",
    [kind "EDIT_TEXT_NEAR_ANCHOR", file, optionalText "anchor", needed "before", needed "after",
      ⟨"maxChars", .natural, .default (.int Op.defaultMaxChars)⟩]⟩

def formatFilesRecord : Description :=
  ⟨"FormatFiles", "Formatting request spanning several files; not compiled into edits.",
    [kind "FORMAT_FILES", ⟨"files", .list .text, .filled⟩]⟩

/-- A form for a record that may refer to others. -/
def ofRecord (d : Description) (others : List Description) (check : Json → Wire.Checked α) : Form α :=
  ⟨d.name, d.schema others, check⟩

def span : Form Span := ofRecord spanRecord [] Span.check

def diagnostic : Form Diagnostic := ofRecord diagnosticRecord [spanRecord] Diagnostic.check

def editImport : Form Op := ofRecord editImportRecord [] Op.checkEditImport

def renameElement : Form Op := ofRecord renameElementRecord [] Op.checkRenameElement

def removeAttribute : Form Op := ofRecord removeAttributeRecord [] Op.checkRemoveAttribute

def convertAttribute : Form Op := ofRecord convertAttributeRecord [] Op.checkConvertAttribute

def callEdit : Form Source.CallEdit := ofRecord callEditRecord [] Source.CallEdit.check

def rewriteCall : Form Op := ofRecord rewriteCallRecord [callEditRecord] Op.checkRewriteCall

def editText : Form Op := ofRecord editTextRecord [] Op.checkEditText

def formatFiles : Form Op := ofRecord formatFilesRecord [] Op.checkFormatFiles

def opRecords : List (String × Description) :=
  [("EDIT_IMPORT", editImportRecord), ("RENAME_ELEMENT", renameElementRecord),
   ("REMOVE_ATTRIBUTE", removeAttributeRecord),
   ("CONVERT_ATTRIBUTE_TO_ELEMENT", convertAttributeRecord), ("REWRITE_CALL", rewriteCallRecord),
   ("EDIT_TEXT_NEAR_ANCHOR", editTextRecord), ("FORMAT_FILES", formatFilesRecord)]

def op : Form Op := ⟨"Annotated", choice opRecords [callEditRecord], Op.check⟩

def integers : Form (List Int) :=
  ⟨"List", .obj [("items", .obj [("type", .str "integer")]), ("type", .str "array")],
    Wire.list Wire.integer⟩

def text : Form String := ⟨"str", .obj [("type", .str "string")], Wire.string⟩

def plan : Form Plan := ⟨"Plan", Schema.plan.toJson, Plan.check⟩

end Form
end Codemod
