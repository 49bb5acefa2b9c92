import Codemod.Model.Client
import Codemod.Text.Utf8

/-! Carrying payloads over HTTP. -/
namespace Codemod

/-- A posted message. -/
structure Posting where
  url : String
  headers : List (String × String)
  body : String
  timeout : Seconds

/-- What became of a posted message. -/
inductive PostResult where
  | timedOut
  | unreachable (reason : String)
  /-- The answer is an error. -/
  | refused (status : Int) (body : ByteArray)
  | answered (status : Int) (body : ByteArray)

abbrev Post (σ : Type) := Posting → Act σ PostResult

namespace Posting

/-- A text without the blanks around it and without the marks of a quoted address. -/
def unwrapped (url : String) : List Char :=
  let cs := Text.trim url.toList
  let cs := if cs.length > 1 && cs.head? == some '<' && cs.getLast? == some '>' then
    Text.trim (cs.drop 1).dropLast else cs
  match cs with
  | 'U' :: 'R' :: 'L' :: ':' :: rest => Text.trim rest
  | cs => cs

/-- Whether a text begins with a scheme. -/
def hasScheme (cs : List Char) : Bool :=
  let scheme := cs.takeWhile fun c => c != '/' && c != ':'
  !scheme.isEmpty && (cs.drop scheme.length).head? == some ':'

/-- An address as it is used: without an empty fragment; nothing when it has no scheme. -/
def address? (url : String) : Option String :=
  let cs := unwrapped url
  let cs := if cs.getLast? == some '#' then cs.dropLast else cs
  if hasScheme (cs.takeWhile (· != '#')) then some (String.ofList cs) else none

end Posting

namespace Client

def authorization (c : Client) : List (String × String) :=
  let key := c.apiKey.getD ""
  match c.provider with
  | .openai => [("authorization", "Bearer " ++ key)]
  | .anthropic => [("x-api-key", key), ("anthropic-version", "2023-06-01")]

/-- A payload as a message; an address without a scheme is of no use. -/
def posting (c : Client) (payload : Json) : Except Failure Posting :=
  match Posting.address? c.url with
  | none => .error (.misfit .unknownWord)
  | some url => .ok
      { url, headers := ("content-type", "application/json") :: c.authorization
        body := payload.render Json.Layout.spaced, timeout := c.timeout }

def response (c : Client) : PostResult → Except Failure String
  | .timedOut => .error (.reply (.transport s!"{c.provider.title} response timed out."))
  | .refused status body =>
    .error (.reply (.transport s!"HTTP {status}: {Text.decodeIgnoring body}"))
  | .unreachable reason =>
    .error (.reply (.transport s!"Failed to reach {c.provider.title} endpoint: {reason}"))
  | .answered status body =>
    if status ≥ 400 then .error (.reply (.transport s!"Unexpected HTTP status {status}"))
    else match String.fromUTF8? body with
      | some text => .ok text
      | none => .error .notUtf8

def overHttp (c : Client) (post : Post σ) : Transport σ := fun payload => do
  let message ← MonadExcept.ofExcept (c.posting payload)
  MonadExcept.ofExcept (c.response (← post message))

end Client
end Codemod
