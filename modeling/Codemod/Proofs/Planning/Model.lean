import Codemod.Planning.Model
import Codemod.Proofs.Act
import Codemod.Proofs.Reply.Misfit

/-! What a planner that asks a model comes to. The first reply that is of use decides, and so does the
first that is neither of use nor turned away; when there is no such reply, the plan is empty. -/
namespace Codemod
open Act

namespace Client

/-- What a client makes of that which its transport brings. -/
inductive Finding (α : Type) where
  | value (a : α) (data : Json)
  | useless (e : ReplyError)
  /-- Neither of use nor turned away. -/
  | fault (f : Failure)

/-- Whether a finding ends the asking. -/
def Finding.settles : Finding α → Bool
  | .useless _ => false
  | .value .. | .fault _ => true

def finding (c : Client) (form : Form α) : Except Failure String → Finding α
  | .error (.connection text) => .useless (rejected text)
  | .error (.reply e) => .useless e
  | .error f => .fault f
  | .ok raw =>
    match c.provider.answer? raw with
    | .error m => .fault (.misfit m)
    | .ok none => .useless c.provider.noAnswer
    | .ok (some answer) =>
      match Reply.parse answer.toList with
      | .error (.reply e) => .useless e
      | .error f => .fault f
      | .ok data =>
        match form.check data with
        | .error issues => .useless (.invalid issues)
        | .ok a => .value a data

/-- What the transport brings in a number of attempts with pauses between them. -/
def brought (c : Client) (means : Means σ) (payload : Json) :
    (attempts : Nat) → World σ → List (Except Failure String)
  | 0, _ => []
  | attempts + 1, w =>
    let (outcome, v) := exec (means.transport payload) w
    outcome :: brought c means payload attempts (exec (means.sleep c.retryDelay) v).2

/-- An attempt comes to what the client finds. -/
theorem exec_attempt (c : Client) (transport : Transport σ) (request : Request α) (w : World σ) :
    match c.finding request.form (exec (transport (request.payload c.provider c.model)) w).1 with
    | .value a data => ∃ made, made.outcome = .ok (a, data) ∧ exec (c.attempt transport request) w =
        (.ok made, (exec (transport (request.payload c.provider c.model)) w).2)
    | .useless e => ∃ made, made.outcome = .error e ∧ exec (c.attempt transport request) w =
        (.ok made, (exec (transport (request.payload c.provider c.model)) w).2)
    | .fault f => exec (c.attempt transport request) w =
        (.error f, (exec (transport (request.payload c.provider c.model)) w).2) := by
  unfold attempt receive finding
  simp only [exec_bind, Act.exec_attempt]
  rcases exec (transport (request.payload c.provider c.model)) w with ⟨f | raw, v⟩
  · cases f with
    | connection text => exact ⟨_, rfl, rfl⟩
    | reply e => exact ⟨_, rfl, rfl⟩
    | _ => rfl
  · dsimp only
    cases c.provider.answer? raw with
    | error m => rfl
    | ok answer? =>
      cases answer? with
      | none => exact ⟨_, rfl, rfl⟩
      | some answer =>
        simp only [exec_pure, attempt.liftExcept, judge]
        cases Reply.parse answer.toList with
        | error f => cases f with
          | reply e => exact ⟨_, rfl, rfl⟩
          | _ => rfl
        | ok data =>
          dsimp only
          cases request.form.check data with
          | error issues => exact ⟨_, rfl, rfl⟩
          | ok a => exact ⟨_, rfl, rfl⟩

/-- Attempts that nobody follows come to the first finding that settles the matter. -/
theorem exec_attempts {c : Client} {means : Means σ}
    (awake : ∀ w, (exec (means.sleep c.retryDelay) w).1 = .ok ()) (request : Request α)
    (number left : Nat) (w : World σ) :
    match ((c.brought means (request.payload c.provider c.model) left w).map
        (c.finding request.form)).find? (·.settles) with
    | some (.value a data) =>
      (exec (c.attempts means (fun _ _ => pure ()) request number left) w).1 = .ok (.ok (a, data))
    | some (.fault f) =>
      (exec (c.attempts means (fun _ _ => pure ()) request number left) w).1 = .error f
    | _ => ∃ last, (exec (c.attempts means (fun _ _ => pure ()) request number left) w).1 =
      .ok (.error last) := by
  induction left generalizing number w with
  | zero => exact ⟨none, rfl⟩
  | succ left ih =>
    have made := exec_attempt c means.transport request w
    unfold brought attempts
    rcases hr : exec (means.transport (request.payload c.provider c.model)) w with ⟨outcome, v⟩
    rw [hr] at made
    dsimp only at made ⊢
    rw [List.map_cons, List.find?_cons]
    cases hf : c.finding request.form outcome with
    | value a data =>
      rw [hf] at made
      obtain ⟨m, ho, hm⟩ := made
      simp only [Finding.settles]
      rw [exec_bind_ok hm, exec_bind_ok (exec_pure _ _), ho]
      rfl
    | fault f =>
      rw [hf] at made
      simp only [Finding.settles]
      rw [exec_bind_error made]
    | useless e =>
      rw [hf] at made
      obtain ⟨m, ho, hm⟩ := made
      simp only [Finding.settles]
      rw [exec_bind_ok hm, exec_bind_ok (exec_pure _ _), ho]
      dsimp only
      have hs := awake v
      rcases hv : exec (means.sleep c.retryDelay) v with ⟨r, u⟩
      rw [hv] at hs
      subst hs
      by_cases hl : left = 0
      · subst hl
        exact ⟨some e, rfl⟩
      · rw [if_neg hl, exec_bind_ok hv]
        exact ih (number + 1) u

/-- The replies that stop a client: those that cannot be looked through, and those whose answer cannot
be read. -/
inductive Trips (c : Client) (raw : String) : Misfit → Prop where
  | digits : raw ≠ "" → Json.parse raw = .error .tooManyDigits → Trips c raw .tooManyDigits
  | bare {response} : raw ≠ "" → c.provider = .openai → Json.parse raw = .ok response →
      Provider.Bare response → Trips c raw .notIterable
  | answer {text m} : c.provider.answer? raw = .ok (some text) →
      Reply.parse text.toList = .error (.misfit m) → m.OfAnswer → Trips c raw m

theorem trips_of_answer? {c : Client} {raw : String} {m : Misfit}
    (h : c.provider.answer? raw = .error m) : c.Trips raw m := by
  obtain ⟨hr, ⟨hj, rfl⟩ | ⟨hp, rfl, response, hj, hb⟩⟩ := Provider.answer?_eq_error_iff.1 h
  · exact .digits hr hj
  · exact .bare hr hp hj hb

theorem answer?_or_parse_of_trips {c : Client} {raw : String} {m : Misfit} (h : c.Trips raw m) :
    c.provider.answer? raw = .error m ∨ ∃ text, c.provider.answer? raw = .ok (some text) ∧
      Reply.parse text.toList = .error (.misfit m) := by
  cases h with
  | digits hr hj => exact .inl (Provider.answer?_eq_error_iff.2 ⟨hr, .inl ⟨hj, rfl⟩⟩)
  | bare hr hp hj hb =>
    exact .inl (Provider.answer?_eq_error_iff.2 ⟨hr, .inr ⟨hp, rfl, _, hj, hb⟩⟩)
  | answer ha hp _ => exact .inr ⟨_, ha, hp⟩

/-- A reply is a fault exactly when it trips the client. -/
theorem finding_eq_fault_iff {c : Client} {form : Form α} {raw : String} {f : Failure} :
    c.finding form (.ok raw) = .fault f ↔ ∃ m, f = .misfit m ∧ c.Trips raw m := by
  constructor
  · intro h
    unfold finding at h
    dsimp only at h
    split at h
    · next m ha =>
      cases h
      exact ⟨m, rfl, trips_of_answer? ha⟩
    · cases h
    · next answer ha =>
      split at h
      · cases h
      · next hnot hp =>
        cases h
        obtain ⟨e, rfl⟩ | ⟨m, rfl, hm⟩ := Reply.of_parse_error hp
        · exact absurd rfl (hnot e)
        · exact ⟨m, rfl, .answer ha hp hm⟩
      · split at h <;> cases h
  · rintro ⟨m, rfl, h⟩
    obtain ha | ⟨text, ha, hp⟩ := answer?_or_parse_of_trips h
    · simp only [finding, ha]
    · simp only [finding, ha, hp]

/-- The transport brings a reply, or fails as transports and connections do; one can sleep for the
delay of the client. -/
structure Means.Expected (means : Means σ) (c : Client) : Prop where
  transport : ∀ payload w, (∃ raw, (exec (means.transport payload) w).1 = .ok raw) ∨
    (∃ text, (exec (means.transport payload) w).1 = .error (.reply (.transport text))) ∨
    ∃ text, (exec (means.transport payload) w).1 = .error (.connection text)
  sleep : ∀ w, (exec (means.sleep c.retryDelay) w).1 = .ok ()

/-- A fault among the findings comes from a reply that trips the client. -/
theorem trips_of_mem_findings {c : Client} {means : Means σ} (h : means.Expected c)
    {form : Form α} {payload : Json} {attempts : Nat} {w : World σ} {f : Failure}
    (hm : .fault f ∈ (c.brought means payload attempts w).map (c.finding form)) :
    ∃ raw m, f = .misfit m ∧ c.Trips raw m := by
  induction attempts generalizing w with
  | zero => cases hm
  | succ attempts ih =>
    rw [brought, List.map_cons, List.mem_cons] at hm
    obtain hf | hm := hm
    · obtain ⟨raw, hr⟩ | ⟨text, hr⟩ | ⟨text, hr⟩ := h.transport payload w
      · rw [hr] at hf
        exact ⟨raw, finding_eq_fault_iff.1 hf.symm⟩
      · rw [hr] at hf
        cases hf
      · rw [hr] at hf
        cases hf
    · exact ih hm

end Client

namespace ModelPlanner

theorem exec_planner (client : Client) (means : Client.Means σ) (context : Context) (w : World σ) :
    (exec (planner client means context) w).1 =
      match (exec (client.attempts means (fun _ _ => pure ()) (request w.disk context) 1
          client.maxAttempts.toNat) w).1 with
      | .ok (.ok (plan, _)) => .ok plan
      | .ok (.error _) | .error (.exhausted ..) => .ok (Plan.empty (some noPlanReason))
      | .error f => .error f := by
  have limit : client.attemptLimit (request w.disk context) = client.maxAttempts := rfl
  unfold planner Client.ask
  simp only [exec_bind, exec_getDisk, Act.exec_attempt, limit]
  rcases exec (client.attempts means (fun _ _ => pure ()) (request w.disk context) 1
    client.maxAttempts.toNat) w with ⟨f | r, v⟩
  · cases f <;> rfl
  · rcases r with last | ⟨plan, data⟩ <;> rfl

/-! A client whose transport fails once and then brings a response with a number for its entries. -/
namespace Sample

def client : Client where
  provider := .openai
  apiKey := none
  url := ""
  model := ""
  timeout := .whole 60
  maxAttempts := 2
  retryDelay := .whole 0

def response : String := "\x7b\"output\": 5\x7d"

def means : Client.Means Bool where
  transport := fun _ w =>
    if w.outside then (.ok response, w)
    else (.error (.connection "refused"), { w with outside := true })
  sleep := fun _ => pure ()

def context : Context := ⟨.absolute ["p"], [], [], none, "", "", none⟩

def world : World Bool := ⟨⟨[], []⟩, [], false, false⟩

end Sample

end ModelPlanner
end Codemod
