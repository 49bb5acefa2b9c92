import Codemod.Planning.Context
import Codemod.Text.Word

/-! Planning by rules: each recognises some diagnostics by code and message and proposes the edits
that answer them. -/
namespace Codemod
open Text

namespace Message

/-- The module and the member of a message that a module does not export a member. -/
def missingExport? (message : List Char) : Option (String × String) :=
  first? (fun cs => do
    let (_, cs) ← runAfter? "Module " isQuoteMark cs
    let (module, cs) ← runAfter? "" (!isQuoteMark ·) cs
    let (_, cs) ← runAfter? "" isQuoteMark cs
    let cs ← after? " has no exported member ".toList cs
    let name ← quotedRun? isIdentifier cs
    some (String.ofList module, String.ofList name)) message

/-- The property of a message that a type does not have a property. -/
def unknownProperty? (message : List Char) : Option String :=
  first? (fun cs => do
    let (name, cs) ← runAfter? "Property '" isIdentifier cs
    let _ ← after? "' does not exist on type".toList cs
    some (String.ofList name)) message

end Message

inductive Rule where
  /-- Answers every diagnostic with no edit. -/
  | noOp (id : String)
  /-- Renames imports of members that `module` no longer exports. -/
  | missingExport (id module : String) (renames : List (String × String))
  /-- Migrates the attributes of `tag` elements that are no longer known. -/
  | routeAttribute (id tag : String)
  deriving Repr

namespace Rule

def id : Rule → String
  | .noOp id => id
  | .missingExport id .. => id
  | .routeAttribute id _ => id

def routerModule : String := "react-router-dom"

def routerRenames : List (String × String) := [("Switch", "Routes"), ("Redirect", "Navigate")]

def noOpRule : Rule := .noOp "example:no-op"

def exportRule : Rule := .missingExport "router:missing-export-rename" routerModule routerRenames

def attributeRule : Rule := .routeAttribute "router:route-attributes" "Route"

/-- The rules for moving a router from version 5 to version 6. -/
def defaults : List Rule := [exportRule, attributeRule]

/-- The member of `module` that a diagnostic misses, with its new name. -/
def renamed? (module : String) (renames : List (String × String)) (d : Diagnostic) :
    Option (String × String) :=
  if d.code != 2305 && d.code != 2724 then none
  else (Message.missingExport? d.message.toList).bind fun (m, name) =>
    if m != module then none else (Json.get? renames name).map fun new => (name, new)

/-- The attribute that a diagnostic no longer finds on a type. -/
def attribute? (d : Diagnostic) : Option String :=
  if d.code != 2322 then none
  else (Message.unknownProperty? d.message.toList).filter fun p => p == "component" || p == "exact"

/-- What a rule makes of a diagnostic: the file, the name in question, and the edit with its
reason. -/
structure Finding where
  file : String
  name : String
  code : Int
  op : Op
  why : String

def finding? (rule : Rule) (d : Diagnostic) : Option Finding :=
  match rule with
  | .noOp _ => none
  | .missingExport _ module renames =>
    (renamed? module renames d).map fun (name, new) =>
      { file := d.file, name, code := d.code,
        op := .editImport d.file module (some name) module (some new),
        why := s!"{module} no longer exports {name}; use {new}." }
  | .routeAttribute _ tag =>
    (attribute? d).map fun name =>
      if name == "component" then
        { file := d.file, name, code := d.code,
          op := .convertAttribute d.file tag "component" "element",
          why := s!"<{tag} component> becomes <{tag} element=" ++ "\x7b<C />\x7d> in v6." }
      else
        { file := d.file, name, code := d.code, op := .removeAttribute d.file tag "exact",
          why := s!"<{tag} exact> is the default in v6." }

/-- The first finding for each file and name. -/
def distinct (findings : List Finding) : List Finding :=
  findings.foldl (fun kept f =>
    if kept.any fun k => k.file == f.file && k.name == f.name then kept else kept ++ [f]) []

/-- Whether a rule has anything to say about the diagnostics. -/
def targets (rule : Rule) (ds : List Diagnostic) : Bool :=
  match rule with
  | .noOp _ => !ds.isEmpty
  | rule => ds.any fun d => (rule.finding? d).isSome

/-- How sure a rule is of the edits it proposes. -/
def confidence : Rule → Float
  | .noOp _ => 0.5
  | .missingExport .. => 0.8
  | .routeAttribute .. => 0.7

def propose (rule : Rule) (ds : List Diagnostic) : Plan :=
  match rule with
  | .noOp _ => ⟨[], [], ["example rule - no ops"], rule.confidence⟩
  | rule =>
    let findings := distinct (ds.filterMap rule.finding?)
    ⟨(findings.map (·.code)).eraseDups, findings.map (·.op), findings.map (·.why),
      if findings.isEmpty then 0.0 else rule.confidence⟩

/-- The proposals of the rules that apply, one after the other; their confidences add up to at most
one. -/
def planAll (rules : List Rule) (ds : List Diagnostic) : Plan :=
  let plans := (rules.filter (·.targets ds)).map (·.propose ds)
  let total := plans.foldl (fun sum p => sum + p.confidence) 0.0
  { targetCodes := (plans.flatMap (·.targetCodes)).eraseDups
    ops := plans.flatMap (·.ops)
    why := plans.flatMap (·.why)
    confidence := if total < 1.0 then total else 1.0 }

def planner (rules : List Rule) : Planner σ := fun c => pure (planAll rules c.diagnostics)

end Rule
end Codemod
