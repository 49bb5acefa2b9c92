import Codemod.Command.Basic
import Codemod.Planning.Model
import Codemod.Planning.Rule
import Codemod.Repository
import Codemod.TypeCheck.Compiler

/-! Performing commands. A command says what it does line by line, and ends with a code; a failure that it
does not expect stops it without one. -/
namespace Codemod

/-- The machine that commands run on. -/
structure Machine (σ : Type) where
  launch : Launcher σ
  post : Post σ
  sleep : Seconds → Act σ Unit
  environment : Environment
  /-- A compiler that is installed on the machine. -/
  compiler : Option String

namespace Command

/-- Why a command stops before its end. -/
inductive Stop where
  | failed
  /-- It was not asked for in the way it has to be. -/
  | misused
  deriving DecidableEq, Repr

def Stop.code : Stop → Nat
  | .failed => 1
  | .misused => 2

abbrev Task (σ α : Type) := ExceptT Stop (Act σ) α

/-- What commands work with. -/
structure Tools (σ : Type) where
  say : String → Act σ Unit
  launch : Launcher σ
  source : Settings → Path → Act σ Snapshot
  /-- The planner that the settings describe. -/
  planner : Settings → Task σ (Planner σ)
  compile : Path → Plan → Act σ (List Change)
  /-- The name of a new session, and the time written into records. -/
  session : String
  time : String

def stop (reason : Stop) : Task σ α := ExceptT.mk (pure (.error reason))

/-- A step whose failures are reported when they are of an expected kind, and stop the command. -/
def expecting (say : String → Act σ Unit) (text? : Failure → Option String) (x : Act σ α) :
    Task σ α := do
  match ← (Act.attempt x : Act σ _) with
  | .ok a => return a
  | .error f =>
    match text? f with
    | some text =>
      say text
      stop .failed
    | none => throwThe Failure f

/-- The client that the settings describe; it needs a key. -/
def clientOf (machine : Machine σ) (say : String → Act σ Unit) (s : Settings) : Task σ Client := do
  match s.client machine.environment with
  | .ok client => return client
  | .error f =>
    let keyName := s.provider.keyVariable
    let reason := f.message?.getD ""
    say s!"No API key given. Set {keyName} or use --planner rules. ({reason})"
    stop .failed

def plannerOf (machine : Machine σ) (say : String → Act σ Unit) (s : Settings) :
    Task σ (Planner σ) := do
  match s.planner with
  | .rules => return Rule.planner Rule.defaults
  | .llm =>
    let client ← clientOf machine say s
    say s!"Using {s.provider.word} planner ({s.model})."
    return ModelPlanner.planner client ⟨client.overHttp machine.post, machine.sleep⟩

def Tools.ofMachine (machine : Machine σ) (say : String → Act σ Unit) (session time : String) :
    Tools σ :=
  { say, launch := machine.launch, session, time
    source := fun s root =>
      Compiler.query ⟨s.diagnosticsCommand, s.diagnosticsTimeout⟩ machine.launch machine.compiler root
    planner := plannerOf machine say
    compile := Act.compile }

def configText? : Failure → Option String
  | .config e => some e.message
  | _ => none

def diagnosticsText? : Failure → Option String
  | .diagnostics e => some s!"Diagnostics failed: {e.message}"
  | _ => none

def gitText? : Failure → Option String
  | .git e => some e.message
  | _ => none

def dependencyText? : Failure → Option String
  | .dependency e => some e.message
  | _ => none

/-- One of a few words that an option may have. -/
def oneOf (all : List α) (word : α → String) (default : α) : Option String → Task σ α
  | none => return default
  | some text =>
    match all.find? fun a => word a == text with
    | some a => return a
    | none => stop .misused

namespace Tools

def settings (t : Tools σ) (target : Target) : Task σ Settings := do
  let s ← expecting t.say configText? (Settings.load target.config)
  let cwd := (← (Act.getDisk : Act σ _)).cwd
  return { s with projectRoot := (target.project.map (·.resolve cwd)).getD s.projectRoot }

/-- The settings with those of the planner that are chosen on the command line. -/
def chosen (t : Tools σ) (target : Target) (choice : Choice) : Task σ Settings := do
  let s ← t.settings target
  let planner ← oneOf PlannerKind.all PlannerKind.word s.planner choice.planner
  let provider ← oneOf Provider.all Provider.word s.provider choice.provider
  return { s with planner, provider, model := (Request.given? choice.model).getD s.model }

def diagnose (t : Tools σ) (s : Settings) : Task σ Snapshot :=
  expecting t.say diagnosticsText? (t.source s s.projectRoot)

def runLoop (t : Tools σ) (s : Settings) (mode : Mode) (maxSteps : Int) (record : Bool) :
    Task σ Outcome := do
  let planner ← t.planner s
  let cwd := (← (Act.getDisk : Act σ _)).cwd
  let root := s.projectRoot.resolve cwd
  let job : Job σ :=
    { root, source := t.source s, planner, compile := t.compile root, mode, maxSteps
      scope := s.scope, allowed := s.transientCodes
      recorder := if record then
        some (.ofSession cwd s.projectRoot t.session s.runsDirectory t.time) else none }
  expecting t.say diagnosticsText? job.run

/-- Commits what has changed. That nothing can be committed is no fault. -/
def commit (t : Tools σ) (root : Path) (message : String) : Act σ Unit := do
  if !(← Repository.isInside t.launch root) then
    t.say "Not a git repository; skipping commit."
  else
    let made : Act σ (Repository × Option String) := do
      let r ← Repository.locate t.launch root
      return (r, ← r.commitAll t.launch message false)
    match ← Act.attempt made with
    | .error (.git e) => t.say s!"Git commit skipped: {e.message}"
    | .error f => throw f
    | .ok (_, none) => t.say "Nothing to commit."
    | .ok (r, some name) =>
      let branch := (← r.currentBranch? t.launch).getD "(detached)"
      let short := String.ofList (name.toList.take 8)
      t.say s!"Committed {short} on branch {branch}"

/-- Says which packages have changed, and installs them if that is asked for. -/
def finishUpkeep (t : Tools σ) (root : Path) (upkeep : Upkeep) (changed : List String)
    (message : String) : Task σ Unit := do
  if changed.isEmpty then t.say "package.json already up to date."
  else t.say ("Updated: " ++ ", ".intercalate changed)
  if upkeep.install then
    t.say s!"Installing dependencies with {upkeep.manager}..."
    expecting t.say dependencyText? (Manifest.install t.launch [upkeep.manager, "install"] root)
  if upkeep.commit && !changed.isEmpty then t.commit root message
  t.say "Done."

def upkeep (t : Tools σ) (upkeep : Upkeep) (change : Path → Act σ (List String)) (message : String) :
    Task σ Unit := do
  let root := upkeep.project.resolve (← (Act.getDisk : Act σ _)).cwd
  let changed ← expecting t.say dependencyText? (change root)
  t.finishUpkeep root upkeep changed message

/-- How many diagnostics there are of each code, the most frequent code first and of equally frequent
ones the lowest. -/
def ranked (s : Snapshot) : List (Int × Nat) :=
  s.byCode.mergeSort fun a b => b.2 < a.2 || (a.2 == b.2 && a.1 ≤ b.1)

def sayCounts (t : Tools σ) (s : Snapshot) : Act σ Unit := do
  t.say s!"Diagnostics: {s.count}"
  if s.count ≠ 0 then
    t.say "By code:"
    for (code, count) in ranked s do
      t.say s!"  TS{code}: {count}"

def stepLine (s : Step) : String :=
  s!"Step {s.index}: Before={s.before} After={s.after} Applied={s.applied.length}" ++
    (if s.rejected.isEmpty then "" else s!" Rejected={s.rejected.length}") ++
    (((s.error.filter (· != "")).map (" Error=" ++ ·)).getD "")

def haltLine (o : Outcome) : String :=
  s!"Halted: {o.reason.word} ({o.initial} -> {o.final} in {o.steps.length} step(s))"

def sayOutcome (t : Tools σ) (s : Settings) (o : Outcome) : Act σ Unit := do
  for step in o.steps do
    t.say (stepLine step)
  t.say (haltLine o)
  if !o.improved && 0 < o.final then t.say "No reduction in diagnostics."
  if let some session := o.session.filter (· != "") then
    t.say s!"Artifacts: {(s.projectRoot.child s.runsDirectory).child session}"

def truthWord (b : Bool) : String := if b then "True" else "False"

/-- Says what became of the only step of a run. -/
def sayApplied (t : Tools σ) (o : Outcome) : Act σ Unit := do
  let step := o.steps.head?
  let after := (step.map fun s => s!" After: {s.after}").getD ""
  t.say s!"Applied: {truthWord (step.any Step.accepted)}. Before: {o.initial}{after}"
  if let some error := (step.bind (·.error)).filter (· != "") then t.say s!"Error: {error}"

/-- Tags the current commit and goes on with a new branch. -/
def prepare (t : Tools σ) (project : Path) (branch : String) (tag : Option String) : Act σ Unit := do
  let r ← Repository.locate t.launch project
  r.ensureClean t.launch
  if let some name := tag.filter (· != "") then
    t.say s!"Tagging current HEAD as {name}"
    r.tag t.launch name (some "Pre-upgrade snapshot")
  t.say s!"Creating and checking out {branch} ..."
  r.checkoutNew t.launch branch

def perform (t : Tools σ) : Command → Task σ Unit
  | .init config replace => do
    expecting t.say configText? (Config.writeDefault config replace)
    t.say s!"Wrote default configuration to {config}"
  | .diagnose target => do
    let s ← t.settings target
    t.say s!"Running diagnostics in {s.projectRoot}..."
    t.sayCounts (← t.diagnose s)
  | .plan target choice focused => do
    let s ← t.chosen target choice
    let snapshot ← t.diagnose s
    if snapshot.count = 0 then t.say "No diagnostics; nothing to plan."
    else
      let aim := if focused then snapshot.diagnostics.head? else none
      let context := s.scope.context (← (Act.getDisk : Act σ _)) snapshot aim
      let planner ← t.planner s
      let plan ← (planner context : Act σ _)
      t.say (plan.toJson.render Json.Layout.indented)
  | .apply target choice commit record => do
    let s ← t.chosen target choice
    let o ← t.runLoop s .simple 1 record
    t.sayApplied o
    if commit && (o.steps.head?).any Step.accepted then
      t.commit s.projectRoot "router-fix: apply agent batch"
    t.say "Done."
  | .run target choice mode maxSteps commit record => do
    let s ← t.chosen target choice
    let mode ← oneOf Mode.all Mode.word s.mode mode
    let o ← t.runLoop s mode (maxSteps.getD s.maxSteps) record
    t.sayOutcome s o
    if commit && o.improved then
      t.commit s.projectRoot s!"router-fix: {o.initial} -> {o.final} diagnostics"
  | .prepare project branch tag => do
    expecting t.say gitText? (t.prepare project branch tag)
    t.say "Done."
  | .upgrade version u =>
    t.upkeep u (Manifest.upgradeRouter version) "deps: upgrade react-router-dom (via router-fix)"
  | .reset u =>
    t.upkeep u Manifest.resetRouter "deps: reset react-router-dom to v5 (via router-fix)"

/-- Does what a command line asks for: the code to end with. -/
def run (t : Tools σ) (args : List String) : Act σ Nat := do
  match read args with
  | none => return Stop.misused.code
  | some .help =>
    t.say usage
    return 0
  | some (.perform command) =>
    match ← (t.perform command).run with
    | .ok () => return 0
    | .error reason => return reason.code

end Tools
end Command
end Codemod
