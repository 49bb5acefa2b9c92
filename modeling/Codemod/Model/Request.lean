import Codemod.Model.Provider
import Codemod.Schema.Form

/-! Requests, and how each provider wants them written. -/
namespace Codemod

structure Request (α : Type) where
  prompt : String
  form : Form α
  /-- The model to ask instead of the client's own. -/
  model : Option String := none
  systemPrompt : Option String := none
  metadata : List (String × Json) := []
  /-- Sent as it is given, unless it is null or zero. -/
  temperature : Json := .float 0.0
  maxAttempts : Option Int := none

namespace Request

def given? (text : Option String) : Option String := text.filter (· != "")

def modelOr (r : Request α) (default : String) : String := (given? r.model).getD default

def temperatureField (r : Request α) : List (String × Json) :=
  match r.temperature with
  | .null | .bool false => []
  | .int n => if n = 0 then [] else [("temperature", .int n)]
  | .float x => if x == 0.0 then [] else [("temperature", .float x)]
  | v => [("temperature", v)]

def metadataLayout : Json.Layout := { Json.Layout.compact with sortKeys := true }

def metadataLength : Nat := 512

/-- A fact as text, shortened when it is long. -/
def metadataText (v : Json) : String :=
  let text := v.str?.getD (v.render metadataLayout)
  if text.length > metadataLength then
    String.ofList (text.toList.take (metadataLength - 3)) ++ "..."
  else text

def metadataField (r : Request α) : List (String × Json) :=
  if r.metadata.isEmpty then []
  else [("metadata", .obj (r.metadata.map fun (k, v) => (k, .str (metadataText v))))]

def inputMessage (role text : String) : Json :=
  .obj [("role", .str role),
    ("content", .arr [.obj [("type", .str "input_text"), ("text", .str text)]])]

def responsesPayload (r : Request α) (model : String) : Json :=
  .obj ([("model", .str (r.modelOr model)),
    ("input", .arr (((given? r.systemPrompt).map (inputMessage "system")).toList ++
      [inputMessage "user" r.prompt])),
    ("text", .obj [("format", .obj [("type", .str "json_schema"), ("name", .str r.form.name),
      ("schema", r.form.schema), ("strict", .bool true)])])] ++
    r.temperatureField ++ r.metadataField)

def maxTokens : Int := 4096

def systemText (r : Request α) : String :=
  let system := Text.trimRight (r.systemPrompt.getD "").toList
  String.ofList (Text.trimLeft (system ++
    "\n\nThe reply must validate against this JSON schema:\n".toList ++
    (r.form.schema.render Json.Layout.compact).toList))

def messagesPayload (r : Request α) (model : String) : Json :=
  .obj ([("model", .str (r.modelOr model)), ("max_tokens", .int maxTokens),
    ("system", .str r.systemText),
    ("messages", .arr [.obj [("role", .str "user"), ("content", .str r.prompt)]])] ++
    r.temperatureField)

def payload (r : Request α) (p : Provider) (model : String) : Json :=
  match p with
  | .openai => r.responsesPayload model
  | .anthropic => r.messagesPayload model

end Request
end Codemod
