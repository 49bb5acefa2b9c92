import Codemod.Model.Client
import Codemod.Planning.Context

/-! A planner that asks a language model. -/
namespace Codemod.ModelPlanner

def maxDiagnostics : Nat := 40

def maxFiles : Nat := 100

def snippetRadius : Int := 400

def headLimit : Int := 800

/-- Why a plan is empty when the model gave none. -/
def noPlanReason : String := "llm parse failure"

def systemPrompt : String :=
"You are a code migration planner.

Return a single JSON object (and nothing else). Do not include commentary, code fences, or markdown. The JSON MUST match this structure:
\x7b
  \"targetCodes\": number[],   // Diagnostic codes you intend to address
  \"why\": string[],           // Brief high-level rationale for your plan
  \"confidence\": number,      // 0..1 calibrated confidence in proposed edits
  \"ops\": Op[]                // List of editing operations to perform
\x7d

Op (only use these kinds exactly as specified):
- \x7b \"kind\": \"EDIT_IMPORT\", \"file\": string, \"fromModule\": string, \"fromNamed\": string|null, \"toModule\": string, \"toNamed\": string|null \x7d
- \x7b \"kind\": \"RENAME_ELEMENT\", \"file\": string, \"from\": string, \"to\": string \x7d
- \x7b \"kind\": \"REMOVE_ATTRIBUTE\", \"file\": string, \"tag\": string, \"attr\": string \x7d
- \x7b \"kind\": \"CONVERT_ATTRIBUTE_TO_ELEMENT\", \"file\": string, \"tag\": string, \"fromAttr\": string, \"toAttr\": string \x7d
- \x7b \"kind\": \"REWRITE_CALL\", \"file\": string, \"calleeName\": string, \"edits\": [\x7b\"op\": \"RENAME\"|\"INSERT_ARG\"|\"DROP_ARG\"|\"WRAP_ARG\", \"index\": number|null, \"value\": string|null\x7d] \x7d
- \x7b \"kind\": \"EDIT_TEXT_NEAR_ANCHOR\", \"file\": string, \"anchor\": string|null, \"before\": string, \"after\": string, \"maxChars\": number \x7d
- \x7b \"kind\": \"FORMAT_FILES\", \"files\": string[] \x7d

Planning constraints:
- Derive minimal, safe ops from the provided diagnostics and code snippets only.
- Prefer conservative edits that cannot worsen types or runtime behavior.
- If you are unsure, return an empty plan (\"ops\": []).
- Do not propose free-form diffs; only the exact Ops above are allowed.
- When you rename a named import for a JSX component (e.g. Switch to Routes, Redirect to Navigate), also include a matching RENAME_ELEMENT op on the same file so the JSX elements are updated to the new name.
- When a \"target\" is given, address that diagnostic first and keep edits local to its file.
"

/-- A diagnostic with the text around it and the head of its file. -/
def diagnosticJson (disk : Disk) (d : Diagnostic) : Json :=
  let file := Path.ofString d.file
  .obj ([("code", .int d.code), ("message", .str d.message), ("file", .str d.file),
    ("snippet", .str (readExcerpt disk file (some d.span) snippetRadius)),
    ("importsHead", .str (readHead disk file headLimit))] ++
    ((d.moduleName.filter (· != "")).map fun m => ("moduleName", Json.str m)).toList)

def contextJson (disk : Disk) (c : Context) : Json :=
  .obj ([("diagnostics", .arr ((c.diagnostics.take maxDiagnostics).map (diagnosticJson disk))),
    ("files", .arr ((c.files.take maxFiles).map Act.pathJson))] ++ c.targetFields)

def promptLayout : Json.Layout := { Json.Layout.spaced with ascii := false }

def prompt (disk : Disk) (c : Context) : String :=
  "Input (JSON):\n" ++ (contextJson disk c).render promptLayout ++
    "\nReturn ONLY the JSON plan object, no markdown, no fences."

def metadata (c : Context) : List (String × Json) :=
  ("diagnostics", .str (toString c.diagnostics.length)) ::
    (c.target.map fun t => ("target", Json.str s!"TS{t.code}")).toList

def request (disk : Disk) (c : Context) : Request Plan :=
  { prompt := prompt disk c, form := Form.plan, systemPrompt := some systemPrompt
    metadata := metadata c }

/-- Asks for a plan. When every attempt fails the plan is empty. -/
def planner (client : Client) (means : Client.Means σ) : Planner σ := fun c => do
  match ← Act.attempt (client.ask means (fun _ _ => pure ()) (request (← Act.getDisk) c)) with
  | .ok (plan, _) => return plan
  | .error (.exhausted ..) => return Plan.empty (some noPlanReason)
  | .error f => throw f

end Codemod.ModelPlanner
