import Codemod.Text.Blank

/-! File paths. Single dots and repeated slashes vanish when a path is read; double dots stay until it
is resolved against a directory. -/
namespace Codemod

/-- Where a path starts. Exactly two slashes at the front are kept apart from one. -/
inductive PathRoot where
  | relative
  | slash
  | doubleSlash
  deriving DecidableEq, Repr

structure Path where
  root : PathRoot
  parts : List String
  deriving DecidableEq, Repr

namespace Path

def ofString (s : String) : Path :=
  let cs := s.toList
  let slashes := (cs.takeWhile (· == '/')).length
  let root := match slashes with
    | 0 => .relative
    | 2 => .doubleSlash
    | _ => .slash
  ⟨root, ((Text.pieces (· == '/') cs).map String.ofList).filter fun p => p != "" && p != "."⟩

def absolute (parts : List String) : Path := ⟨.slash, parts⟩

def isAbsolute (p : Path) : Bool := p.root != .relative

protected def toString (p : Path) : String :=
  let joined := "/".intercalate p.parts
  match p.root with
  | .relative => if p.parts.isEmpty then "." else joined
  | .slash => "/" ++ joined
  | .doubleSlash => "//" ++ joined

instance : ToString Path := ⟨Path.toString⟩

def join (base p : Path) : Path :=
  if p.isAbsolute then p else { base with parts := base.parts ++ p.parts }

def child (base : Path) (name : String) : Path := base.join (ofString name)

def parent (p : Path) : Path := { p with parts := p.parts.dropLast }

def fileName (p : Path) : String := p.parts.getLast?.getD ""

/-- One part further, a double dot leading back. -/
def stepInto (at' : List String) (part : String) : List String :=
  if part = ".." then at'.dropLast else at' ++ [part]

/-- The parts of the path from the top, seen from the directory `cwd`. -/
def resolveParts (cwd : List String) (p : Path) : List String :=
  p.parts.foldl stepInto (if p.isAbsolute then [] else cwd)

def resolve (cwd : List String) (p : Path) : Path := absolute (p.resolveParts cwd)

theorem resolve_isAbsolute (cwd : List String) (p : Path) : (p.resolve cwd).isAbsolute = true := rfl

/-- What follows `base`, when the path lies at or below it. -/
def relativeTo? (p base : Path) : Option (List String) :=
  if base.parts.isPrefixOf p.parts then some (p.parts.drop base.parts.length) else none

/-- Paths are ordered by their parts. -/
def le (a b : Path) : Bool := compare a.parts b.parts != .gt

end Path
end Codemod
