import Codemod.Command.Flag
import Codemod.Manifest
import Codemod.Settings.Basic

/-! The commands, and how they are written on a command line. -/
namespace Codemod

/-- Where the settings come from, and the project if it is another one than they say. -/
structure Command.Target where
  config : Path
  project : Option Path
  deriving Repr

/-- What takes the place of the settings of the planner. -/
structure Command.Choice where
  planner : Option String
  provider : Option String
  model : Option String
  deriving Repr

/-- What follows a change of the manifest. -/
structure Command.Upkeep where
  project : Path
  /-- Whether the packages are installed, and by whom. -/
  install : Bool
  manager : String
  commit : Bool
  deriving Repr

inductive Command where
  | init (config : Path) (replace : Bool)
  | diagnose (target : Command.Target)
  | plan (target : Command.Target) (choice : Command.Choice) (focused : Bool)
  | apply (target : Command.Target) (choice : Command.Choice) (commit record : Bool)
  | run (target : Command.Target) (choice : Command.Choice) (mode : Option String)
      (maxSteps : Option Int) (commit record : Bool)
  | prepare (project : Path) (branch : String) (tag : Option String)
  | upgrade (version : String) (upkeep : Command.Upkeep)
  | reset (upkeep : Command.Upkeep)
  deriving Repr

namespace Command

/-- What a command line asks for. -/
inductive Asked where
  | help
  | perform (command : Command)
  deriving Repr

def helpFlag : Flag := ⟨"help", none, false⟩

def outerFlags : List Flag := [⟨"verbose", some 'v', false⟩, helpFlag]

def targetFlags : List Flag := [⟨"config", some 'c', true⟩, ⟨"project", some 'p', true⟩]

def choiceFlags : List Flag := [⟨"planner", none, true⟩, ⟨"provider", none, true⟩, ⟨"model", none, true⟩]

def upkeepFlags : List Flag :=
  [⟨"project", some 'p', true⟩, ⟨"install", none, false⟩, ⟨"package-manager", none, true⟩,
   ⟨"git", none, false⟩]

/-- A file or directory that an option names, or the default one. -/
def pathOr (g : Given) (name default : String) : Path := .ofString ((g.value? name).getD default)

def target (g : Given) : Target :=
  ⟨pathOr g "config" Config.defaultName, (g.value? "project").map .ofString⟩

def choice (g : Given) : Choice := ⟨g.value? "planner", g.value? "provider", g.value? "model"⟩

def upkeep (g : Given) : Upkeep :=
  ⟨pathOr g "project" ".", g.has "install", (g.value? "package-manager").getD "pnpm", g.has "git"⟩

/-- The number of steps, which is at least one where it is given. -/
def maxSteps (g : Given) : Option (Option Int) :=
  match g.value? "max-steps" with
  | none => some none
  | some text => ((Number.integer? text.toList).filter (1 ≤ ·)).map some

/-- A command by its name: its options, and what it is once they are given. -/
structure Entry where
  name : String
  flags : List Flag
  make : Given → Option Command

def entries : List Entry :=
  [⟨"init", [⟨"config", some 'c', true⟩, ⟨"force", none, false⟩], fun g =>
      some (.init (pathOr g "config" Config.defaultName) (g.has "force"))⟩,
   ⟨"diagnose", targetFlags, fun g => some (.diagnose (target g))⟩,
   ⟨"plan", targetFlags ++ choiceFlags ++ [⟨"focused", none, false⟩], fun g =>
      some (.plan (target g) (choice g) (g.has "focused"))⟩,
   ⟨"apply", targetFlags ++ choiceFlags ++ [⟨"git", none, false⟩, ⟨"debug", none, false⟩], fun g =>
      some (.apply (target g) (choice g) (g.has "git") (g.has "debug"))⟩,
   ⟨"run", targetFlags ++ choiceFlags ++ [⟨"mode", none, true⟩, ⟨"max-steps", none, true⟩,
      ⟨"debug", none, false⟩, ⟨"git", none, false⟩], fun g =>
      (maxSteps g).map fun n =>
        .run (target g) (choice g) (g.value? "mode") n (g.has "git") (g.has "debug")⟩,
   ⟨"git-prep", [⟨"project", some 'p', true⟩, ⟨"branch", some 'b', true⟩, ⟨"tag", none, true⟩], fun g =>
      some (.prepare (pathOr g "project" ".") ((g.value? "branch").getD "upgrade/router-v6")
        (g.value? "tag"))⟩,
   ⟨"deps-upgrade", ⟨"version", none, true⟩ :: upkeepFlags, fun g =>
      some (.upgrade ((g.value? "version").getD Manifest.newVersion) (upkeep g))⟩,
   ⟨"deps-reset", upkeepFlags, fun g => some (.reset (upkeep g))⟩]

/-- A command with its options. Other arguments have no place behind it. -/
def Entry.read (entry : Entry) (args : List String) : Option Asked := do
  let (given, others) ← readFlags (helpFlag :: entry.flags) true args
  if given.has "help" then return .help
  if others.isEmpty then return .perform (← entry.make given)
  none

/-- What the arguments of a command line ask for; nothing where they make no sense. -/
def read (args : List String) : Option Asked := do
  let (given, rest) ← readFlags outerFlags false args
  if given.has "help" then return .help
  match rest with
  | [] => none
  | name :: args => (← entries.find? (·.name == name)).read args

def usage : String :=
  "\n".intercalate ("Usage: router-fix [--verbose] COMMAND [OPTIONS]" :: "" :: entries.map fun entry =>
    "  " ++ " ".intercalate (entry.name :: entry.flags.map fun f =>
      s!"[--{f.name}" ++ (if f.takesValue then " VALUE]" else "]")))

end Command
end Codemod
