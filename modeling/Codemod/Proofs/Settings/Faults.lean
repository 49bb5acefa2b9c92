import Codemod.Proofs.Number.Overflow
import Codemod.Settings.Basic

/-! What the reading of settings comes to. Each option has its faults, which can be told from its value
alone; settings come out when no option has one, and are valid then. Otherwise the fault that comes
first in the order of reading is the failure: mostly one that no caller expects. -/
namespace Codemod.Settings

/-- The misfits that values of settings run into. -/
def Unforeseen (m : Misfit) : Prop :=
  m = .beyondRange ∨ m = .notIterable ∨ m = .tooManyDigits ∨ m = .notAName

/-- A word that is not known, or a value that does not fit. -/
inductive IsFault : Failure → Prop
  | badChoice (option : String) (words : List String) (v : Datum) :
    IsFault (.config (.badChoice option words v))
  | misfit {m : Misfit} (h : Unforeseen m) : IsFault (.misfit m)

/-! ## Readings that stop at the first fault -/

section

variable {α β : Type} {p : α → Prop} {q : β → Prop} {faults more : List Failure}
  {r : Except Failure α}

/-- Without faults a reading has a result that `p` holds of; else the first of them comes out of it. -/
inductive Reads (p : α → Prop) : List Failure → Except Failure α → Prop
  | ok {a : α} (h : p a) : Reads p [] (.ok a)
  | error {f : Failure} (h : IsFault f) (more : List Failure) : Reads p (f :: more) (.error f)

theorem Reads.bind {next : α → Except Failure β} (h : Reads p faults r)
    (hnext : ∀ a, p a → Reads q more (next a)) : Reads q (faults ++ more) (r >>= next) := by
  cases h with
  | ok h => exact hnext _ h
  | error h rest => exact .error h (rest ++ more)

theorem Reads.map (h : Reads p faults r) (g : α → β) :
    Reads (fun _ => True) faults (r.map g) := by
  cases h with
  | ok => exact .ok trivial
  | error h rest => exact .error h rest

/-- A misfit that stops a reading. -/
theorem reads_misfit {m : Misfit} (h : Unforeseen m) :
    Reads p [.misfit m] (.error (.misfit m) : Except Failure α) := .error (.misfit h) []

end

/-! ## The faults of a value -/

/-- Numbers of too many digits have no plain text. -/
def textFaults (v : Datum) : List Failure :=
  if v.spellsLong then [.misfit .tooManyDigits] else []

/-- Each item of a value that is gone through has a plain text. -/
def itemsFaults (v : Datum) : List Failure :=
  match v.items with
  | .ok items => items.flatMap textFaults
  | .error f => [f]

/-- The faults of a list of codes. -/
def codesFaults : Option Datum → List Failure
  | none | some .null => []
  | some v => itemsFaults v

/-- The faults of an option that may also be one text. -/
def textOrItemsFaults : Option Datum → List Failure
  | none | some (.str _) => []
  | some v => itemsFaults v

/-- A whole number can be infinite only as a fraction. -/
def integerFaults : Option Datum → List Failure
  | some (.float x) => if Number.isInfinite x then [.misfit .beyondRange] else []
  | _ => []

/-- A fraction can be too large only as a whole number. -/
def numberFaults : Option Datum → List Failure
  | some (.int n) => if n.natAbs < Number.overflowBound then [] else [.misfit .beyondRange]
  | _ => []

/-- A value given for a choice is one of the words, but for case and blanks around it. -/
def choiceFaults (words : List String) (option : String) : Option Datum → List Failure
  | none | some .null => []
  | some v => textFaults v ++
    if String.ofList (Text.lowerAscii (Text.trim v.plain.toList)) ∈ words then []
    else [.config (.badChoice option words v)]

/-- A relative path is looked up below `base`, name by name. -/
def pathFaults (base : Path) (text : String) : List Failure :=
  if !(Path.ofString text).isAbsolute &&
      (base.join (.ofString text)).parts.any (·.toList.contains nul) then [.misfit .notAName]
  else []

/-- The root that a configuration names. -/
def rootPath (cwd : List String) (path : Path) (v : Option Datum) : Path :=
  let root := Path.ofString ((v.map Datum.plain).getD ".")
  if root.isAbsolute then root else (path.parent.join root).resolve cwd

def rootFaults (path : Path) : Option Datum → List Failure
  | some v => textFaults v ++ pathFaults path.parent v.plain
  | none => pathFaults path.parent "."

def documentFaults (root : Path) (v : Option Datum) : List Failure :=
  match text? v with
  | some s => pathFaults root s
  | none => []

/-! ## The readings of single options -/

theorem reads_written (v : Datum) : Reads (· = v.plain) (textFaults v) v.written := by
  unfold textFaults Datum.written
  split
  · exact reads_misfit (by simp [Unforeseen])
  · exact .ok rfl

theorem reads_mapM_written (items : List Datum) :
    Reads (fun _ => True) (items.flatMap textFaults) (items.mapM Datum.written) := by
  induction items with
  | nil => exact .ok trivial
  | cons v items ih =>
    rw [List.mapM_cons, List.flatMap_cons, ← List.append_nil (items.flatMap textFaults)]
    exact (reads_written v).bind fun _ _ => ih.bind fun _ _ => .ok trivial

theorem items_error {v : Datum} {f : Failure} (h : v.items = .error f) : f = .misfit .notIterable := by
  cases v <;> simp_all [Datum.items]

theorem reads_writtenItems (v : Datum) : Reads (fun _ => True) (itemsFaults v) v.writtenItems := by
  unfold itemsFaults Datum.writtenItems
  cases h : v.items with
  | error f =>
    obtain rfl := items_error h
    exact reads_misfit (by simp [Unforeseen])
  | ok items => exact reads_mapM_written items

theorem reads_coerceCodes (v : Option Datum) :
    Reads (fun _ => True) (codesFaults v) (coerceCodes v) := by
  rcases v with - | v
  · exact .ok trivial
  · cases v with
    | null => exact .ok trivial
    | _ =>
      simp only [codesFaults, coerceCodes]
      exact (reads_writtenItems _).map _

theorem reads_command (v : Option Datum) :
    Reads (fun _ => True) (textOrItemsFaults v) (command? v) := by
  rcases v with - | v
  · exact .ok trivial
  · cases v with
    | str s => exact .ok trivial
    | _ =>
      simp only [textOrItemsFaults, command?]
      exact (reads_writtenItems _).map _

theorem reads_directories (v : Option Datum) :
    Reads (fun _ => True) (textOrItemsFaults v) (directories v) := by
  rcases v with - | v
  · exact .ok trivial
  · cases v with
    | str s => exact .ok trivial
    | _ =>
      simp only [textOrItemsFaults, directories]
      exact reads_writtenItems _

theorem reads_keywords (v : Option Datum) :
    Reads (fun _ => True) ((v.map itemsFaults).getD []) (keywords v) := by
  cases v with
  | none => exact .ok trivial
  | some v => exact reads_writtenItems v

theorem truncate?_of_isInfinite {x : Float} (h : Number.isInfinite x = true) :
    Number.truncate? x = none := by
  unfold Number.isInfinite at h
  unfold Number.truncate?
  split at h <;> simp_all

/-- A whole number is at least what is asked for, if the default is. -/
theorem reads_integer {default least : Int} (hdefault : least ≤ default) (v : Option Datum) :
    Reads (least ≤ ·) (integerFaults v) (integer v default least) := by
  have hatLeast (n : Int) : least ≤ if least ≤ n then n else default := by split <;> assumption
  rcases v with - | v
  · exact .ok hdefault
  · cases v with
    | int n => exact .ok (hatLeast n)
    | float x =>
      unfold integerFaults integer
      by_cases hx : Number.isInfinite x = true
      · simp only [truncate?_of_isInfinite hx, hx, if_true]
        exact reads_misfit (by simp [Unforeseen])
      · dsimp only
        rw [if_neg hx, if_neg hx]
        split
        · exact .ok (hatLeast _)
        · exact .ok hdefault
    | str s =>
      refine .ok ?_
      cases Number.integer? s.toList with
      | none => exact hdefault
      | some n => exact hatLeast n
    | _ => exact .ok hdefault

/-- So is a fraction. -/
theorem reads_number {default least : Float} (hdefault : least ≤ default) (v : Option Datum) :
    Reads (least ≤ ·) (numberFaults v) (number v default least) := by
  have hatLeast (x : Float) : least ≤ if least ≤ x then x else default := by split <;> assumption
  rcases v with - | v
  · exact .ok hdefault
  · cases v with
    | int n =>
      unfold numberFaults number
      dsimp only
      by_cases hn : n.natAbs < Number.overflowBound
      · rw [if_pos hn, if_pos ((Number.isFinite_ofInt_iff n).2 hn)]
        exact .ok (hatLeast _)
      · rw [if_neg hn, if_neg (mt (Number.isFinite_ofInt_iff n).1 hn)]
        exact reads_misfit (by simp [Unforeseen])
    | float x => exact .ok (hatLeast x)
    | str s =>
      refine .ok ?_
      cases Number.float? s.toList with
      | none => exact hdefault
      | some x => exact hatLeast x
    | _ => exact .ok hdefault

theorem reads_choice {α : Type} (all : List α) (word : α → String) (default : α) (option : String)
    (v : Option Datum) : Reads (fun _ => True) (choiceFaults (all.map word) option v)
      (choice v all word default option) := by
  have hfind (v : Datum) (text : String) : Reads (fun _ => True)
      (if text ∈ all.map word then [] else [.config (.badChoice option (all.map word) v)])
      ((all.find? fun a => word a == text).elim
        (.error (.config (.badChoice option (all.map word) v))) .ok) := by
    cases h : all.find? fun a => word a == text with
    | none =>
      have hno : text ∉ all.map word := by simpa using h
      rw [if_neg hno]
      exact .error (.badChoice option _ _) []
    | some a =>
      have hmem : text ∈ all.map word :=
        List.mem_map.2 ⟨a, List.mem_of_find?_eq_some h, by simpa using List.find?_some h⟩
      rw [if_pos hmem]
      exact .ok trivial
  rcases v with - | v
  · exact .ok trivial
  · cases v with
    | null => exact .ok trivial
    | _ =>
      simp only [choiceFaults, choice]
      refine (reads_written _).bind fun text htext => ?_
      subst htext
      exact hfind _ _

theorem reads_pathFrom (cwd : List String) (base : Path) (text : String) :
    Reads (· = if (Path.ofString text).isAbsolute then Path.ofString text
      else (base.join (.ofString text)).resolve cwd) (pathFaults base text)
      (pathFrom cwd base text) := by
  unfold pathFaults pathFrom Path.resolved
  dsimp only
  by_cases habsolute : (Path.ofString text).isAbsolute = true
  · simp only [habsolute]
    exact .ok rfl
  · by_cases hnul : (base.join (.ofString text)).parts.any (·.toList.contains nul) = true
    · simp only [habsolute, hnul]
      exact reads_misfit (by simp [Unforeseen])
    · simp only [habsolute, hnul]
      exact .ok rfl

theorem reads_rootOf (cwd : List String) (path : Path) (v : Option Datum) :
    Reads (· = rootPath cwd path v) (rootFaults path v) (rootOf cwd path v) := by
  cases v with
  | none => exact reads_pathFrom cwd path.parent "."
  | some v =>
    refine (reads_written v).bind fun text htext => ?_
    subst htext
    exact reads_pathFrom cwd path.parent v.plain

theorem reads_documentOf (cwd : List String) (root : Path) (v : Option Datum) :
    Reads (fun _ => True) (documentFaults root v) (documentOf cwd root v) := by
  unfold documentFaults documentOf
  cases text? v with
  | none => exact .ok trivial
  | some s => exact (reads_pathFrom cwd root s).map _

/-! ## The reading of all options -/

/-- The faults of a configuration, in the order in which its options are read. -/
def faults (cwd : List String) (config : Config) (path : Path) : List Failure :=
  let value (name option : String) := Datum.getEntry? (section' config name) option
  let given (name option : String) := given? (section' config name) option
  List.flatten [
    rootFaults path (given "project" "repo_root"),
    textOrItemsFaults (given "diagnostics" "command"),
    documentFaults (rootPath cwd path (given "project" "repo_root")) (value "guidance" "document"),
    ((given "guidance" "keywords").map itemsFaults).getD [],
    textOrItemsFaults (given "project" "source_dirs"),
    choiceFaults (Mode.all.map Mode.word) "loop.mode" (value "loop" "mode"),
    integerFaults (value "loop" "max_steps"),
    codesFaults (value "loop" "transient_codes"),
    choiceFaults (PlannerKind.all.map PlannerKind.word) "planner.kind" (value "planner" "kind"),
    choiceFaults (Provider.all.map Provider.word) "planner.provider" (value "planner" "provider"),
    numberFaults (value "planner" "timeout"),
    integerFaults (value "planner" "max_attempts"),
    numberFaults (value "planner" "retry_delay"),
    numberFaults (value "diagnostics" "timeout"),
    integerFaults (value "context" "file_limit"),
    integerFaults (value "context" "excerpt_radius"),
    integerFaults (value "context" "head_limit")]

theorem reads_ofConfig (cwd : List String) (config : Config) (path : Path) :
    Reads Valid (faults cwd config path) (ofConfig cwd config path) := by
  unfold faults ofConfig
  dsimp only
  refine (reads_rootOf cwd path _).bind fun root hroot => ?_
  subst hroot
  refine (reads_command _).bind fun command _ => ?_
  refine (reads_documentOf cwd _ _).bind fun document _ => ?_
  refine (reads_keywords _).bind fun keywords _ => ?_
  refine (reads_directories _).bind fun sourceDirs _ => ?_
  refine (reads_choice Mode.all Mode.word .focused "loop.mode" _).bind fun mode _ => ?_
  refine (reads_integer (by decide) _).bind fun maxSteps hmaxSteps => ?_
  refine (reads_coerceCodes _).bind fun codes _ => ?_
  refine (reads_choice PlannerKind.all PlannerKind.word .rules "planner.kind" _).bind fun kind _ => ?_
  refine (reads_choice Provider.all Provider.word .openai "planner.provider" _).bind
    fun provider _ => ?_
  refine (reads_number (by decide +kernel) _).bind fun timeout htimeout => ?_
  refine (reads_integer (by decide) _).bind fun maxAttempts hmaxAttempts => ?_
  refine (reads_number (by decide +kernel) _).bind fun retryDelay hretryDelay => ?_
  refine (reads_number (by decide +kernel) _).bind fun diagnosticsTimeout hdiagnostics => ?_
  refine (reads_integer (by decide) _).bind fun fileLimit hfileLimit => ?_
  refine (reads_integer (by decide) _).bind fun excerptRadius hexcerptRadius => ?_
  refine (reads_integer (by decide) _).bind fun headLimit hheadLimit => ?_
  exact .ok ⟨hmaxSteps, hmaxAttempts, hfileLimit, hexcerptRadius, hheadLimit, htimeout,
    hdiagnostics, hretryDelay⟩

/-- A configuration comes to valid settings when none of its options has a fault, and to its first fault
otherwise: an error of the configuration, or a misfit that nothing on the way turns into one. -/
theorem ofConfig_valid_or_first_fault (cwd : List String) (config : Config) (path : Path) :
    (faults cwd config path = [] ∧ ∃ s, ofConfig cwd config path = .ok s ∧ s.Valid) ∨
      ∃ f more, faults cwd config path = f :: more ∧ ofConfig cwd config path = .error f ∧
        ((∃ option words v, f = .config (.badChoice option words v)) ∨
          ∃ m, f = .misfit m ∧ Unforeseen m) := by
  have hreads := reads_ofConfig cwd config path
  generalize faults cwd config path = fs at hreads
  generalize ofConfig cwd config path = r at hreads
  cases hreads with
  | ok h => exact .inl ⟨rfl, _, rfl, h⟩
  | error h more =>
    refine .inr ⟨_, more, rfl, rfl, ?_⟩
    cases h with
    | badChoice option words v => exact .inl ⟨option, words, v, rfl⟩
    | misfit h => exact .inr ⟨_, rfl, h⟩

end Codemod.Settings
