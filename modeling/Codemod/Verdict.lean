import Codemod.Change
import Codemod.Diagnostic

/-! Keeping or undoing edits by what the diagnostics say. A batch is judged as a whole; a single file
is judged against a baseline that moves only when a file is kept. -/
namespace Codemod

/-- Codes that an unfinished migration may show for a while: names, members and modules that cannot
be found, and type mismatches. -/
def transientCodes : List Int := [2304, 2305, 2307, 2322, 2345, 2552, 2724]

/-- Codes of `after` that are in none of the lists, in ascending order. -/
def newCodes (after : Snapshot) (known : List Int) : List Int :=
  (after.codes.filter fun c => !known.contains c).mergeSort (· ≤ ·)

def codesText (codes : List Int) : String :=
  "[" ++ ", ".intercalate (codes.map toString) ++ "]"

structure BatchVerdict where
  accepted : Bool
  beforeCount : Nat
  afterCount : Nat
  newCodes : List Int
  deriving DecidableEq, Repr

/-- A batch is kept when the count did not grow and no new code appeared. -/
def judgeBatch (before after : Snapshot) : BatchVerdict :=
  let new := newCodes after before.codes
  ⟨after.count ≤ before.count && new.isEmpty, before.count, after.count, new⟩

def BatchVerdict.reason (v : BatchVerdict) : String :=
  if v.accepted then "accepted"
  else if v.afterCount > v.beforeCount then
    s!"diagnostics increased {v.beforeCount} -> {v.afterCount}"
  else "new diagnostic codes " ++ codesText v.newCodes

structure FileVerdict where
  file : Path
  accepted : Bool
  deltaTarget : Int := 0
  localBefore : Int := 0
  localAfter : Int := 0
  newCodes : List Int := []
  afterCount : Option Int := none
  error : Option String := none
  deriving Repr

def FileVerdict.reason (v : FileVerdict) : String :=
  match v.error.filter (· != "") with
  | some e => e
  | none =>
    if !v.accepted && !v.newCodes.isEmpty then "new diagnostic codes " ++ codesText v.newCodes
    else if !v.accepted then s!"file diagnostics increased {v.localBefore} -> {v.localAfter}"
    else if v.deltaTarget < 0 then "target diagnostic reduced"
    else "no local regression"

/-- What a file is judged by. -/
structure Policy where
  baseline : Snapshot
  target : Option Diagnostic
  allowed : List Int
  naming : Naming

/-- A file is kept when it brings no code that is neither in the baseline nor allowed, and either the
target became rarer or the file has no more diagnostics than before. -/
def Policy.judge (p : Policy) (file : Path) (after : Snapshot) : FileVerdict :=
  let delta : Int := match p.target with
    | none => 0
    | some t =>
      let matching (s : Snapshot) : Int := s.countMatching p.naming t.code (.ofString t.file)
      matching after - matching p.baseline
  let new := newCodes after (p.baseline.codes ++ p.allowed)
  let localBefore := p.baseline.countInFile p.naming file
  let localAfter := after.countInFile p.naming file
  { file, accepted := new.isEmpty && (delta < 0 || localAfter ≤ localBefore), deltaTarget := delta,
    localBefore, localAfter, newCodes := new, afterCount := some after.count }

def Policy.advance (p : Policy) (s : Snapshot) : Policy := { p with baseline := s }

end Codemod
