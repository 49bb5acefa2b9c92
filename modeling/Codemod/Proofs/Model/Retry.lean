import Mathlib
import Codemod.Model.Client
import Codemod.Proofs.Act

/-! Attempts to get a reply. What a client sends, how often it pauses and what it reports follow from what
its transport brings, one outcome for each call: it stops at the first reply that is of use, or when its
attempts are used up. -/
namespace Codemod
open Act

/-- What a client does to the outside. -/
inductive Dealing (α : Type) where
  | sent (payload : Json)
  | paused (delay : Seconds)
  | reported (number : Nat) (made : Attempt α)

namespace Dealing

def sent? : Dealing α → Option Json
  | .sent payload => some payload
  | _ => none

def paused? : Dealing α → Option Seconds
  | .paused delay => some delay
  | _ => none

def reported? : Dealing α → Option (Nat × Attempt α)
  | .reported number made => some (number, made)
  | _ => none

/-- Writes down a dealing behind those that are there. -/
def log (d : Dealing α) : Act (List (Dealing α)) Unit :=
  modify fun w => { w with outside := w.outside ++ [d] }

/-- How often a payload has been sent. -/
def calls (ds : List (Dealing α)) : Nat := (ds.filterMap sent?).length

/-- Means that write down what is done with them. The transport brings the outcomes of a script, the next
one at each call. -/
def means (script : Nat → Except Failure String) : Client.Means (List (Dealing α)) where
  transport payload := do
    let outcome := script (calls (← get).outside)
    log (.sent payload)
    MonadExcept.ofExcept outcome
  sleep delay := log (.paused delay)

def report (number : Nat) (made : Attempt α) : Act (List (Dealing α)) Unit :=
  log (.reported number made)

theorem exec_log (d : Dealing α) (w : World (List (Dealing α))) :
    exec (log d) w = (.ok (), { w with outside := w.outside ++ [d] }) := rfl

theorem exec_transport (script : Nat → Except Failure String) (payload : Json)
    (w : World (List (Dealing α))) :
    exec ((means script).transport payload) w =
      (script (calls w.outside), { w with outside := w.outside ++ [.sent payload] }) := by
  change exec (log (.sent payload) >>= fun _ => MonadExcept.ofExcept (script (calls w.outside))) w = _
  rw [exec_bind_ok (exec_log _ w)]
  cases script (calls w.outside) <;> rfl

theorem exec_sleep (script : Nat → Except Failure String) (delay : Seconds)
    (w : World (List (Dealing α))) :
    exec ((means script).sleep delay) w =
      (.ok (), { w with outside := w.outside ++ [.paused delay] }) := rfl

theorem exec_report (number : Nat) (made : Attempt α) (w : World (List (Dealing α))) :
    exec (report number made) w =
      (.ok (), { w with outside := w.outside ++ [.reported number made] }) := rfl

end Dealing

namespace Client

/-- What an attempt amounts to, by what its call brought: the text of the answer and the data read from it
as far as it came, with the value of a reply that is of use or the reason why it is of none. -/
inductive Amounts (c : Client) (form : Form α) : Except Failure String → Attempt α → Prop
  | refused (text : String) :
      Amounts c form (.error (.connection text)) ⟨none, none, .error (rejected text)⟩
  | failed (e : ReplyError) : Amounts c form (.error (.reply e)) ⟨none, none, .error e⟩
  | silent {raw : String} (hanswer : c.provider.answer? raw = .ok none) :
      Amounts c form (.ok raw) ⟨none, none, .error c.provider.noAnswer⟩
  | unreadable {raw text : String} {e : ReplyError} (hanswer : c.provider.answer? raw = .ok (some text))
      (hdata : Reply.parse text.toList = .error (.reply e)) :
      Amounts c form (.ok raw) ⟨some text, none, .error e⟩
  | invalid {raw text : String} {data : Json} {issues : List Wire.Issue}
      (hanswer : c.provider.answer? raw = .ok (some text)) (hdata : Reply.parse text.toList = .ok data)
      (hcheck : form.check data = .error issues) :
      Amounts c form (.ok raw) ⟨some text, some data, .error (.invalid issues)⟩
  | good {raw text : String} {data : Json} {a : α}
      (hanswer : c.provider.answer? raw = .ok (some text)) (hdata : Reply.parse text.toList = .ok data)
      (hcheck : form.check data = .ok a) :
      Amounts c form (.ok raw) ⟨some text, some data, .ok (a, data)⟩

/-- An attempt calls once, and comes to what the call amounts to. -/
theorem exec_attempt_of_amounts {c : Client} {transport : Transport σ} {request : Request α}
    {outcome : Except Failure String} {made : Attempt α} {w w' : World σ}
    (hcall : exec (transport (request.payload c.provider c.model)) w = (outcome, w'))
    (h : c.Amounts request.form outcome made) :
    exec (c.attempt transport request) w = (.ok made, w') := by
  unfold attempt receive
  simp only [exec_bind, exec_attempt, hcall]
  cases h with
  | refused text => rfl
  | failed e => rfl
  | silent hanswer =>
    simp only [hanswer]
    rfl
  | unreadable hanswer hdata =>
    simp only [hanswer, exec_pure, attempt.liftExcept, judge, hdata]
    rfl
  | invalid hanswer hdata hcheck | good hanswer hdata hcheck =>
    simp only [hanswer, exec_pure, attempt.liftExcept, judge, hdata, hcheck]
    rfl

/-- The dealings of the attempts before the one with index `k`, all of which fail. -/
def failures (c : Client) (payload : Json) (made : Nat → Attempt α) (k : Nat) : List (Dealing α) :=
  (List.range k).flatMap fun i => [.sent payload, .reported (i + 1) (made i), .paused c.retryDelay]

/-- The dealings of the attempts up to the one with index `k`, which is the last one. -/
def story (c : Client) (payload : Json) (made : Nat → Attempt α) (k : Nat) : List (Dealing α) :=
  failures c payload made k ++ [.sent payload, .reported (k + 1) (made k)]

theorem failures_succ (c : Client) (payload : Json) (made : Nat → Attempt α) (k : Nat) :
    failures c payload made (k + 1) = failures c payload made k ++
      [.sent payload, .reported (k + 1) (made k), .paused c.retryDelay] := by
  simp [failures, List.range_succ]

/-- The payload is sent once for each attempt, with a pause between any two, and each attempt is reported
under its number. -/
structure Dealt (c : Client) (payload : Json) (made : Nat → Attempt α) (count : Nat)
    (dealings : List (Dealing α)) : Prop where
  sent : dealings.filterMap Dealing.sent? = List.replicate count payload
  paused : dealings.filterMap Dealing.paused? = List.replicate (count - 1) c.retryDelay
  reported : dealings.filterMap Dealing.reported? = (List.range count).map fun i => (i + 1, made i)

section
variable (c : Client) (payload : Json) (made : Nat → Attempt α) (k : Nat)

theorem sent_failures :
    (failures c payload made k).filterMap Dealing.sent? = List.replicate k payload := by
  induction k with
  | zero => rfl
  | succ k ih => simp [failures_succ, ih, List.filterMap_cons, Dealing.sent?, List.replicate_succ']

theorem calls_failures : Dealing.calls (failures c payload made k) = k := by
  rw [Dealing.calls, sent_failures, List.length_replicate]

theorem paused_failures :
    (failures c payload made k).filterMap Dealing.paused? = List.replicate k c.retryDelay := by
  induction k with
  | zero => rfl
  | succ k ih => simp [failures_succ, ih, List.filterMap_cons, Dealing.paused?, List.replicate_succ']

theorem reported_failures :
    (failures c payload made k).filterMap Dealing.reported? =
      (List.range k).map fun i => (i + 1, made i) := by
  induction k with
  | zero => rfl
  | succ k ih => simp [failures_succ, ih, List.filterMap_cons, Dealing.reported?, List.range_succ]

theorem dealt_story : c.Dealt payload made (k + 1) (story c payload made k) where
  sent := by simp [story, sent_failures, List.filterMap_cons, Dealing.sent?, List.replicate_succ']
  paused := by simp [story, paused_failures, List.filterMap_cons, Dealing.paused?]
  reported := by simp [story, reported_failures, List.filterMap_cons, Dealing.reported?, List.range_succ]

end

section
variable {c : Client} {request : Request α} {script : Nat → Except Failure String}
  {made : Nat → Attempt α} {w : World (List (Dealing α))}

/-- The next attempt is made and reported. -/
theorem exec_attempt_scripted {k : Nat} (h : c.Amounts request.form (script k) (made k))
    (hcalls : Dealing.calls w.outside = k) :
    exec (c.attempt (Dealing.means script).transport request) w = (.ok (made k),
      { w with outside := w.outside ++ [.sent (request.payload c.provider c.model)] }) := by
  refine exec_attempt_of_amounts ?_ h
  rw [Dealing.exec_transport, hcalls]

/-- The attempt that ends the matter: the first one that is of use, or the last one. -/
theorem exec_attempts_last {k left : Nat} (h : c.Amounts request.form (script k) (made k))
    (hcalls : Dealing.calls w.outside = k) {found : Except (Option ReplyError) (α × Json)}
    (hfound : (∃ r, (made k).outcome = .ok r ∧ found = .ok r) ∨
      ∃ e, (made k).outcome = .error e ∧ left = 0 ∧ found = .error (some e)) :
    exec (c.attempts (Dealing.means script) Dealing.report request (k + 1) (left + 1)) w =
      (.ok found, { w with outside := w.outside ++
        [.sent (request.payload c.provider c.model), .reported (k + 1) (made k)] }) := by
  unfold attempts
  rw [exec_bind_ok (exec_attempt_scripted h hcalls), exec_bind_ok (Dealing.exec_report ..)]
  obtain ⟨r, hr, rfl⟩ | ⟨e, he, rfl, rfl⟩ := hfound
  · simp [hr]
  · simp [he]

/-- A failed attempt with more to come is followed by a pause. -/
theorem exec_attempts_failed {k left : Nat} (h : c.Amounts request.form (script k) (made k))
    (hcalls : Dealing.calls w.outside = k) (hleft : 0 < left) {e : ReplyError}
    (hfailed : (made k).outcome = .error e) :
    exec (c.attempts (Dealing.means script) Dealing.report request (k + 1) (left + 1)) w =
      exec (c.attempts (Dealing.means script) Dealing.report request (k + 2) left)
        { w with outside := w.outside ++ [.sent (request.payload c.provider c.model),
          .reported (k + 1) (made k), .paused c.retryDelay] } := by
  rw [attempts, exec_bind_ok (exec_attempt_scripted h hcalls), exec_bind_ok (Dealing.exec_report ..),
    hfailed]
  dsimp only
  rw [if_neg (Nat.ne_of_gt hleft), exec_bind_ok (Dealing.exec_sleep ..)]
  simp

/-- Failed attempts lead to the next one. -/
theorem exec_attempts_failures {k left : Nat} (hleft : 0 < left)
    (h : ∀ i < k, c.Amounts request.form (script i) (made i))
    (hfailed : ∀ i < k, ∃ e, (made i).outcome = .error e) (w : World (List (Dealing α))) :
    exec (c.attempts (Dealing.means script) Dealing.report request 1 (k + left)) { w with outside := [] } =
      exec (c.attempts (Dealing.means script) Dealing.report request (k + 1) left)
        { w with outside := failures c (request.payload c.provider c.model) made k } := by
  induction k generalizing left with
  | zero =>
    rw [Nat.zero_add]
    rfl
  | succ k ih =>
    obtain ⟨e, he⟩ := hfailed k (Nat.lt_succ_self k)
    rw [Nat.add_right_comm, Nat.add_assoc, ih (Nat.succ_pos left) (fun i hi => h i (by omega))
      (fun i hi => hfailed i (by omega)),
      exec_attempts_failed (h k (Nat.lt_succ_self k)) (calls_failures ..) hleft he, ← failures_succ]

/-- A client gives the first reply that is of use, and fails with the reason of its last attempt when it has
none. Until then it has sent its payload once for each attempt, paused between any two of them, and reported
every attempt once, in order, for what it is itself. -/
theorem ask_ends_at_first_good {n : Nat} (hlimit : c.attemptLimit request = n) (hn : 1 ≤ n)
    (hmade : ∀ i < n, c.Amounts request.form (script i) (made i)) (w : World (List (Dealing α))) :
    (∀ k < n, ∀ value data, (made k).outcome = .ok (value, data) →
      (∀ i < k, ∃ e, (made i).outcome = .error e) →
      ∃ dealings, exec (c.ask (Dealing.means script) Dealing.report request) { w with outside := [] } =
          (.ok (value, data), { w with outside := dealings }) ∧
        c.Dealt (request.payload c.provider c.model) made (k + 1) dealings) ∧
    ((∀ i < n, ∃ e, (made i).outcome = .error e) →
      ∃ e dealings, (made (n - 1)).outcome = .error e ∧
        exec (c.ask (Dealing.means script) Dealing.report request) { w with outside := [] } =
          (.error (.exhausted n (request.modelOr c.model) (some e)), { w with outside := dealings }) ∧
        c.Dealt (request.payload c.provider c.model) made n dealings) := by
  have hasked {k : Nat} (hk : k < n) (hfailed : ∀ i < k, ∃ e, (made i).outcome = .error e)
      {found : Except (Option ReplyError) (α × Json)}
      (hfound : (∃ r, (made k).outcome = .ok r ∧ found = .ok r) ∨
        ∃ e, (made k).outcome = .error e ∧ n - (k + 1) = 0 ∧ found = .error (some e)) :
      exec (c.attempts (Dealing.means script) Dealing.report request 1 n) { w with outside := [] } =
        (.ok found, { w with outside := story c (request.payload c.provider c.model) made k }) := by
    obtain ⟨left, rfl⟩ : ∃ left, n = k + (left + 1) := ⟨n - (k + 1), by omega⟩
    rw [exec_attempts_failures (Nat.succ_pos left) (fun i hi => hmade i (by omega)) hfailed]
    have hleft : k + (left + 1) - (k + 1) = left := by omega
    exact exec_attempts_last (hmade k hk) (calls_failures ..) (hleft ▸ hfound)
  unfold ask
  simp only [hlimit, Int.toNat_natCast]
  constructor
  · intro k hk value data hr hfailed
    refine ⟨_, ?_, dealt_story c _ made k⟩
    rw [exec_bind_ok (hasked hk hfailed (.inl ⟨_, hr, rfl⟩))]
    rfl
  · intro hfailed
    obtain ⟨k, rfl⟩ : ∃ k, n = k + 1 := ⟨n - 1, by omega⟩
    obtain ⟨e, he⟩ := hfailed k (Nat.lt_succ_self k)
    refine ⟨e, _, he, ?_, dealt_story c _ made k⟩
    rw [exec_bind_ok (hasked (Nat.lt_succ_self k) (fun i hi => hfailed i (by omega))
      (.inr ⟨e, he, by omega, rfl⟩))]
    rfl

end

namespace Sample

def persistent : Client where
  provider := .anthropic
  apiKey := none
  url := ""
  model := ""
  timeout := .whole 60
  maxAttempts := 5
  retryDelay := .whole 2

def errand (attempts : Option Int) : Request String :=
  { prompt := "", form := Form.text, maxAttempts := attempts }

/-- No connection, a blank reply, a list where a text is asked for, and then a text. -/
def outcomes : Nat → Except Failure String
  | 0 => .error (.connection "refused")
  | 1 => .ok " "
  | 2 => .ok "[]"
  | _ => .ok "\"done\""

def tries : Nat → Attempt String
  | 0 => ⟨none, none, .error (rejected "refused")⟩
  | 1 => ⟨some " ", none, .error Reply.emptyReply⟩
  | 2 => ⟨some "[]", some (.arr []), .error (.invalid [⟨[], .notString⟩])⟩
  | _ => ⟨some "\"done\"", some (.str "done"), .ok ("done", .str "done")⟩

theorem amounts_tries (i : Nat) : persistent.Amounts Form.text (outcomes i) (tries i) := by
  have hanswer (raw : String) (h : raw = " " ∨ raw = "[]" ∨ raw = "\"done\"") :
      persistent.provider.answer? raw = .ok (some raw) := by
    rcases h with rfl | rfl | rfl <;> cbv
  have hblank : Reply.parse " ".toList = .error (.reply Reply.emptyReply) := by cbv
  have hlist : Reply.parse "[]".toList = .ok (.arr []) := by cbv
  have htext : Reply.parse "\"done\"".toList = .ok (.str "done") := by cbv
  rcases i with _ | _ | _ | i
  · exact .refused "refused"
  · exact .unreadable (hanswer _ (by simp)) hblank
  · exact .invalid (hanswer _ (by simp)) hlist rfl
  · exact .good (hanswer _ (by simp)) htext rfl

end Sample

/-- The fourth attempt brings the text; where three are all, the list is the last word. -/
theorem ask_ends_at_first_good_sample :
    let w : World (List (Dealing String)) := ⟨⟨[], []⟩, [], false, []⟩
    let payload := (Sample.errand none).payload .anthropic ""
    Sample.persistent.attemptLimit (Sample.errand none) = 5 ∧
    (∀ i < 5, Sample.persistent.Amounts Form.text (Sample.outcomes i) (Sample.tries i)) ∧
    (∃ dealings, exec (Sample.persistent.ask (Dealing.means Sample.outcomes) Dealing.report
        (Sample.errand none)) w = (.ok ("done", .str "done"), { w with outside := dealings }) ∧
      Sample.persistent.Dealt payload Sample.tries 4 dealings) ∧
    ∃ dealings, exec (Sample.persistent.ask (Dealing.means Sample.outcomes) Dealing.report
        (Sample.errand (some 3))) w =
        (.error (.exhausted 3 "" (some (.invalid [⟨[], .notString⟩]))), { w with outside := dealings }) ∧
      Sample.persistent.Dealt payload Sample.tries 3 dealings := by
  intro w payload
  have hmade (n : Nat) : ∀ i < n, Sample.persistent.Amounts Form.text (Sample.outcomes i)
      (Sample.tries i) := fun i _ => Sample.amounts_tries i
  have hfailed : ∀ i < 3, ∃ e, (Sample.tries i).outcome = .error e := by
    intro i hi
    match i with
    | 0 | 1 | 2 => exact ⟨_, rfl⟩
  have hfive : Sample.persistent.attemptLimit (Sample.errand none) = (5 : Nat) := rfl
  have hthree : Sample.persistent.attemptLimit (Sample.errand (some 3)) = (3 : Nat) := rfl
  obtain ⟨hgood, -⟩ := ask_ends_at_first_good hfive (by decide) (hmade 5) w
  obtain ⟨-, hlast⟩ := ask_ends_at_first_good hthree (by decide) (hmade 3) w
  obtain ⟨e, dealings, he, hexec, hdealt⟩ := hlast hfailed
  obtain rfl : ReplyError.invalid [⟨[], .notString⟩] = e := Except.error.inj he
  exact ⟨rfl, hmade 5, hgood 3 (by decide) _ _ rfl hfailed, dealings, hexec, hdealt⟩

end Client
end Codemod
