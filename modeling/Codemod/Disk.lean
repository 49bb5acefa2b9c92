import Codemod.Path
import Codemod.Json.Basic

/-! The files a run can see, as a value: directories and byte contents under absolute paths, with the
directory that relative paths start from. -/
namespace Codemod

inductive Node where
  | file (bytes : ByteArray)
  | directory

structure Disk where
  cwd : List String
  entries : List (List String × Node)

inductive DiskError where
  | notFound
  | exists
  | isDirectory
  | notDirectory
  deriving DecidableEq, Repr

namespace Disk

/-- What is at a place; the top is a directory. -/
def node? (d : Disk) (place : List String) : Option Node :=
  if place.isEmpty then some .directory else (d.entries.find? (·.1 == place)).map (·.2)

/-- Entries with the one at `place` replaced, or added behind the others. -/
def setEntry (place : List String) (n : Node) :
    List (List String × Node) → List (List String × Node)
  | [] => [(place, n)]
  | e :: entries => if e.1 == place then (place, n) :: entries else e :: setEntry place n entries

def put (d : Disk) (place : List String) (n : Node) : Disk :=
  { d with entries := setEntry place n d.entries }

theorem find?_setEntry (place other : List String) (n : Node)
    (entries : List (List String × Node)) :
    ((setEntry place n entries).find? (·.1 == other)).map (·.2) =
      if place = other then some n else (entries.find? (·.1 == other)).map (·.2) := by
  induction entries with
  | nil => by_cases h : place = other <;> simp [setEntry, h]
  | cons e entries ih =>
    unfold setEntry
    by_cases he : e.1 = place
    · subst he
      by_cases h : e.1 = other <;> simp [h]
    · rw [if_neg (by simpa using he)]
      by_cases ho : e.1 = other
      · have h : place ≠ other := fun h => he (ho.trans h.symm)
        simp [ho, h]
      · simpa [ho] using ih

/-- A written place holds what was written, and every other place what it held. -/
theorem node?_put (d : Disk) {place : List String} (h : place ≠ []) (n : Node)
    (other : List String) :
    (d.put place n).node? other = if place = other then some n else d.node? other := by
  unfold node? put
  split
  · next ho =>
    have : other = [] := by simpa using ho
    simp [this, h]
  · exact find?_setEntry place other n d.entries

def remove (d : Disk) (place : List String) : Disk :=
  { d with entries := d.entries.filter fun e => !place.isPrefixOf e.1 }

/-- Follows the parts of a path from the directory `at'`. All but the last have to be directories. -/
def walk (d : Disk) (at' : List String) : List String → Except DiskError (List String)
  | [] => .ok at'
  | part :: rest =>
    if part = ".." then walk d at'.dropLast rest
    else if rest.isEmpty then .ok (at' ++ [part])
    else match d.node? (at' ++ [part]) with
      | none => .error .notFound
      | some (.file _) => .error .notDirectory
      | some .directory => walk d (at' ++ [part]) rest

def locate (d : Disk) (p : Path) : Except DiskError (List String) :=
  d.walk (if p.isAbsolute then [] else d.cwd) p.parts

def stat (d : Disk) (p : Path) : Except DiskError Node :=
  (d.locate p).bind fun place =>
    match d.node? place with
    | some n => .ok n
    | none => .error .notFound

def pathExists (d : Disk) (p : Path) : Bool := (d.stat p).toBool

def isDirectory (d : Disk) (p : Path) : Bool :=
  match d.stat p with
  | .ok .directory => true
  | _ => false

def readBytes (d : Disk) (p : Path) : Except DiskError ByteArray :=
  (d.stat p).bind fun
    | .file bytes => .ok bytes
    | .directory => .error .isDirectory

/-- Why a file has no text. -/
inductive ReadError where
  | disk (e : DiskError)
  | notUtf8
  deriving DecidableEq, Repr

/-- The text of a file, line ends and all. -/
def readText (d : Disk) (p : Path) : Except ReadError String :=
  match d.readBytes p with
  | .error e => .error (.disk e)
  | .ok bytes =>
    match String.fromUTF8? bytes with
    | some s => .ok s
    | none => .error .notUtf8

def text? (d : Disk) (p : Path) : Option String := (d.readText p).toOption

/-- The text of a file with every line end read as a line feed. -/
def readLines (d : Disk) (p : Path) : Except ReadError String :=
  (d.readText p).map fun s => String.ofList (Text.unifyLineEnds s.toList)

/-- The disk after the whole content of a file has been written. -/
def write (d : Disk) (p : Path) (content : String) : Except DiskError Disk :=
  (d.locate p).bind fun place =>
    match d.node? place with
    | some .directory => .error .isDirectory
    | _ => .ok (d.put place (.file content.toUTF8))

/-- The disk after a file has been written that was not there before. -/
def create (d : Disk) (p : Path) (content : String) : Except DiskError Disk :=
  (d.locate p).bind fun place =>
    match d.node? place with
    | some _ => .error .exists
    | none => .ok (d.put place (.file content.toUTF8))

def makeDirectory (d : Disk) (p : Path) : Except DiskError Disk :=
  (d.locate p).bind fun place =>
    match d.node? place with
    | some _ => .error .exists
    | none => .ok (d.put place .directory)

/-- The disk with the directories that the first `n` parts of a path name. One that is there already
is kept, and a missing one on the way is made first. -/
def makeDirectories (d : Disk) (p : Path) (n : Nat) : Except DiskError Disk :=
  let here : Path := { p with parts := p.parts.take n }
  match d.makeDirectory here, n with
  | .ok d, _ => .ok d
  | .error .notFound, n + 1 =>
    match makeDirectories d p n with
    | .ok d => if d.isDirectory here then .ok d else d.makeDirectory here
    | .error e => .error e
  | .error e, _ => if d.isDirectory here then .ok d else .error e

/-- The directory of a path is there afterwards, with all directories above it. -/
def ensureDirectory (d : Disk) (p : Path) : Except DiskError Disk :=
  d.makeDirectories p p.parts.length

/-- The files at or below a directory, as the parts that follow it. -/
def filesBelow (d : Disk) (base : List String) : List (List String) :=
  d.entries.filterMap fun (place, n) =>
    match n with
    | .file _ => if base.isPrefixOf place then some (place.drop base.length) else none
    | .directory => none

end Disk
end Codemod
