import Codemod.Model.Request
import Codemod.Reply.Value
import Codemod.World

/-! Clients: asking a model until an answer is of the form that was asked for, or the attempts are
used up. -/
namespace Codemod

/-- A length of time in seconds, as it was given: whole or with a fraction. -/
inductive Seconds where
  | whole (n : Int)
  | fraction (x : Float)
  deriving Repr

def Seconds.toJson : Seconds → Json
  | .whole n => .int n
  | .fraction x => .float x

abbrev Environment := String → Option String

def timeoutVariable : String := "JUNCTION_LLM_TIMEOUT"

/-- The environment may set a timeout that is positive. -/
def resolveTimeout (env : Environment) (given : Seconds) : Seconds :=
  match ((env timeoutVariable).bind fun s => Number.float? s.toList) with
  | some x => if x > 0.0 then .fraction x else given
  | none => given

structure Client where
  provider : Provider
  apiKey : Option String
  url : String
  model : String
  timeout : Seconds
  maxAttempts : Int
  retryDelay : Seconds

namespace Client

/-- What is said about a client; the rest has defaults. -/
structure Options where
  provider : Provider
  apiKey : Option String := none
  url : String := provider.defaultUrl
  model : String := provider.defaultModel
  timeout : Seconds := .fraction 60.0
  maxAttempts : Int := 3
  retryDelay : Seconds := .fraction 0.5

/-- A client; the environment may hold its key and its timeout. -/
def ofOptions (env : Environment) (o : Options) : Client :=
  { o with
    apiKey := (Request.given? o.apiKey).or (env o.provider.keyVariable)
    timeout := resolveTimeout env o.timeout }

/-- A client that will connect to its provider needs a key. -/
def connecting (env : Environment) (o : Options) : Except Failure Client :=
  let client := ofOptions env o
  if (Request.given? client.apiKey).isSome then .ok client else .error .noApiKey

end Client

/-- Whoever carries a payload to a provider and its response back. -/
abbrev Transport (σ : Type) := Json → Act σ String

/-- One attempt: what came back, what was read from it, and what that amounts to. -/
structure Attempt (α : Type) where
  answer : Option String
  data : Option Json
  outcome : Except ReplyError (α × Json)

/-- What a client works with. -/
structure Client.Means (σ : Type) where
  transport : Transport σ
  sleep : Seconds → Act σ Unit

namespace Client

def rejected (text : String) : ReplyError := .transport s!"Transport rejected the request: {text}"

def receive (c : Client) (transport : Transport σ) (payload : Json) : Act σ String := do
  match ← Act.attempt (transport payload) with
  | .error (.connection text) => throw (.reply (rejected text))
  | .error f => throw f
  | .ok raw =>
    match c.provider.answer? raw with
    | .error m => throw (.misfit m)
    | .ok none => throw (.reply c.provider.noAnswer)
    | .ok (some text) => return text

def judge (form : Form α) (answer : String) : Except Failure (Attempt α) :=
  match Reply.parse answer.toList with
  | .error (.reply e) => .ok ⟨some answer, none, .error e⟩
  | .error f => .error f
  | .ok data =>
    match form.check data with
    | .error issues => .ok ⟨some answer, some data, .error (.invalid issues)⟩
    | .ok a => .ok ⟨some answer, some data, .ok (a, data)⟩

/-- Makes one attempt. Failures other than a useless reply are not part of it. -/
def attempt (c : Client) (transport : Transport σ) (request : Request α) : Act σ (Attempt α) := do
  match ← Act.attempt (c.receive transport (request.payload c.provider c.model)) with
  | .error (.reply e) => return ⟨none, none, .error e⟩
  | .error f => throw f
  | .ok answer => liftExcept (judge request.form answer)
where
  liftExcept (r : Except Failure (Attempt α)) : Act σ (Attempt α) := MonadExcept.ofExcept r

/-- Makes up to `left` attempts, of which the first has number `number`, with a pause between any two.
Every attempt is reported. -/
def attempts (c : Client) (means : Means σ) (report : Nat → Attempt α → Act σ Unit)
    (request : Request α) (number : Nat) : (left : Nat) → Act σ (Except (Option ReplyError) (α × Json))
  | 0 => return .error none
  | left + 1 => do
    let made ← c.attempt means.transport request
    report number made
    match made.outcome with
    | .ok r => return .ok r
    | .error e =>
      if left = 0 then return .error (some e)
      else
        means.sleep c.retryDelay
        attempts c means report request (number + 1) left

def attemptLimit (c : Client) (request : Request α) : Int :=
  match request.maxAttempts with
  | none | some 0 => c.maxAttempts
  | some n => n

/-- Asks until an answer has the form of the request: its value and the data it was read from. -/
def ask (c : Client) (means : Means σ) (report : Nat → Attempt α → Act σ Unit)
    (request : Request α) : Act σ (α × Json) := do
  let limit := c.attemptLimit request
  match ← c.attempts means report request 1 limit.toNat with
  | .ok r => return r
  | .error last => throw (.exhausted limit (request.modelOr c.model) last)

end Client
end Codemod
