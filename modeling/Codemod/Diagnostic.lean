import Codemod.Wire.Check
import Codemod.Path

/-! Diagnostics: what the type checker reports about a project at one time, and the counts that are taken of
them. -/
namespace Codemod
open Wire

/-- Character offsets into the text of a file. -/
structure Span where
  start : Nat
  stop : Nat
  start_le_stop : start ≤ stop := by omega
  deriving DecidableEq, Repr

namespace Span

def zero : Span := ⟨0, 0, Nat.le_refl 0⟩

def toJson (s : Span) : Json := .obj [("start", .int s.start), ("end", .int s.stop)]

def check (v : Json) : Checked Span :=
  (record [name "start", name "end"] (fun fields =>
    both (required fields (name "start") natural) (required fields (name "end") natural)) v).bind
    fun (start, stop) => if h : start ≤ stop then .ok ⟨start, stop, h⟩ else fail .inconsistent

end Span

structure Diagnostic where
  code : Int
  message : String
  file : String
  span : Span := .zero
  /-- The module that could not be found, when that is what is wrong. -/
  moduleName : Option String := none
  deriving DecidableEq, Repr

namespace Diagnostic

def toJson (d : Diagnostic) : Json :=
  .obj [("code", .int d.code), ("message", .str d.message), ("file", .str d.file),
    ("span", d.span.toJson), ("moduleName", Json.ofOption .str d.moduleName)]

/-- The record without the field that does not apply. -/
def toShortJson (d : Diagnostic) : Json :=
  .obj ([("code", .int d.code), ("message", .str d.message), ("file", .str d.file),
    ("span", d.span.toJson)] ++ (d.moduleName.map fun m => ("moduleName", Json.str m)).toList)

def check : Json → Checked Diagnostic :=
  let moduleName : Name := ⟨"moduleName", "module_name"⟩
  record [name "code", name "message", name "file", name "span", moduleName] fun fields =>
    (both (required fields (name "code") integer) (both (required fields (name "message") string)
      (both (required fields (name "file") string)
        (both (withDefault fields (name "span") Span.check .zero)
          (withDefault fields moduleName (nullable string) none))))).map
      fun (code, message, file, span, m) => ⟨code, message, file, span, m⟩

end Diagnostic

/-! # All diagnostics of a project -/

/-- How the file names in diagnostics are read: relative ones from the project root when there is one,
and from the working directory otherwise. -/
structure Naming where
  cwd : List String
  root : Option Path

/-- The place a file name stands for; different spellings of a file have one place. -/
def Naming.place (n : Naming) (file : Path) : List String :=
  match n.root with
  | some root => (root.join file).resolveParts n.cwd
  | none => file.resolveParts n.cwd

structure Snapshot where
  diagnostics : List Diagnostic
  deriving DecidableEq, Repr

namespace Snapshot

def count (s : Snapshot) : Nat := s.diagnostics.length

/-- The distinct codes, in the order they appear. -/
def codes (s : Snapshot) : List Int := (s.diagnostics.map (·.code)).eraseDups

/-- How often each code appears, in the order of first appearance. -/
def byCode (s : Snapshot) : List (Int × Nat) :=
  s.codes.map fun c => (c, s.diagnostics.countP (·.code == c))

def countInFile (s : Snapshot) (n : Naming) (file : Path) : Nat :=
  s.diagnostics.countP fun d => n.place (.ofString d.file) == n.place file

/-- How many diagnostics share a code and a file. -/
def countMatching (s : Snapshot) (n : Naming) (code : Int) (file : Path) : Nat :=
  s.diagnostics.countP fun d => d.code == code && n.place (.ofString d.file) == n.place file

end Snapshot
end Codemod
