import Codemod.Failure
import Codemod.Json.Reader
import Codemod.Text.Blank

/-! The services that answer requests, and where in their responses the answer stands. -/
namespace Codemod

inductive Provider where
  | openai
  | anthropic
  deriving DecidableEq, Repr

namespace Provider

def word : Provider → String
  | .openai => "openai"
  | .anthropic => "anthropic"

def all : List Provider := [.openai, .anthropic]

def title : Provider → String
  | .openai => "OpenAI"
  | .anthropic => "Anthropic"

def defaultModel : Provider → String
  | .openai => "gpt-4o-mini"
  | .anthropic => "claude-3-5-sonnet-latest"

def defaultUrl : Provider → String
  | .openai => "https://api.openai.com/v1/responses"
  | .anthropic => "https://api.anthropic.com/v1/messages"

def keyVariable : Provider → String
  | .openai => "OPENAI_API_KEY"
  | .anthropic => "ANTHROPIC_API_KEY"

def noAnswer : Provider → ReplyError
  | .openai => .format "OpenAI response did not contain output text."
  | .anthropic => .format "Anthropic response did not contain a text block."

/-- A text that is not blank. -/
def spoken? : Option Json → Option String
  | some (.str s) => if s.toList.all Text.isBlank then none else some s
  | _ => none

/-- The first text of an entry: in its content parts, or else in its message. -/
def entryText? (entry : Json) : Option String :=
  let parts := match entry.field? "content" with
    | some (.arr parts) => parts
    | _ => []
  (parts.findSome? fun part => spoken? (part.field? "text")).or
    (((entry.field? "message").bind (Json.field? "content")) |> spoken?)

/-- The first text among the entries; a single entry may stand for a list of one. A number or a truth
value that counts as given has no entries to look at. -/
def firstText? : Option Json → Except Misfit (Option String)
  | some (.arr entries) => .ok (entries.findSome? entryText?)
  | some (.obj fields) => .ok (entryText? (.obj fields))
  | some (.bool true) => .error .notIterable
  | some (.int n) => if n = 0 then .ok none else .error .notIterable
  | some (.float x) => if x == 0.0 then .ok none else .error .notIterable
  | _ => .ok none

def responseText? (response : Json) (raw : String) : Except Misfit String :=
  match spoken? (response.field? "output_text") with
  | some text => .ok text
  | none => do
    match ← firstText? (response.field? "output") with
    | some text => return text
    | none => return (← firstText? (response.field? "choices")).getD raw

/-- The texts of the text blocks, joined; nothing when there is no such block. -/
def blocksText? (blocks : List Json) : Option String :=
  let texts := blocks.filterMap fun block =>
    if block.field? "type" == some (.str "text") then (block.field? "text").bind Json.str? else none
  if texts.isEmpty then none else some ("".intercalate texts)

/-- The answer in a raw response. A response of some other form is the answer itself. -/
def answer? (p : Provider) (raw : String) : Except Misfit (Option String) :=
  if raw.isEmpty then .ok none
  else match Json.parse raw with
    | .error .malformed => .ok (some raw)
    | .error .tooManyDigits => .error .tooManyDigits
    | .ok response =>
      match p with
      | .openai => (responseText? response raw).map some
      | .anthropic => match response.field? "content" with
        | some (.arr blocks) => .ok (blocksText? blocks)
        | _ => .ok (some raw)

end Provider
end Codemod
