import Codemod.Planning.Guidance
import Codemod.Plan.Basic
import Codemod.Diagnostic
import Codemod.World

/-! What a planner gets to see: the diagnostics, the project's files, and around the target of the
step some text and guidance. -/
namespace Codemod
open Text

def ignoredDirectories : List String := ["node_modules", "dist", "build", "coverage"]

def sourceSuffixes : List String := [".ts", ".tsx"]

def isHidden (name : String) : Bool := name.startsWith "."

/-- Whether a file below a source directory is a source: neither it nor a directory on the way is
hidden, and no directory on the way is ignored. -/
def isSource (suffixes : List String) (parts : List String) : Bool :=
  match parts.reverse with
  | [] => false
  | name :: directories =>
    !isHidden name && (suffixes.any fun s => name.endsWith s) &&
      directories.all fun d => !isHidden d && !ignoredDirectories.contains d

/-- The sources of a project, in the order of their paths and each once. -/
def sourceFiles (disk : Disk) (root : Path) (dirs suffixes : List String) : List Path :=
  let files := dirs.flatMap fun name =>
    let base := ((root.resolve disk.cwd).child name).resolve disk.cwd
    if disk.isDirectory base then
      ((disk.filesBelow base.parts).filter (isSource suffixes)).map fun parts =>
        Path.absolute (base.parts ++ parts)
    else []
  files.eraseDups.mergeSort Path.le

/-- The text within `radius` characters of a span; the head of the file when there is no span, and
nothing when the file cannot be read. -/
def readExcerpt (disk : Disk) (file : Path) (span : Option Span) (radius : Int) : String :=
  match disk.text? file with
  | none => ""
  | some text =>
    let cs := text.toList
    String.ofList <| match span with
      | none => slice 0 radius cs
      | some s => slice (max 0 ((s.start : Int) - radius)) (min cs.length ((s.stop : Int) + radius)) cs

def readHead (disk : Disk) (file : Path) (limit : Int) : String :=
  match disk.text? file with
  | none => ""
  | some text => String.ofList (slice 0 limit text.toList)

structure Context where
  projectRoot : Path
  diagnostics : List Diagnostic
  files : List Path
  target : Option Diagnostic
  excerpt : String
  fileHead : String
  guidance : Option Guidance

namespace Context

def targetJson (c : Context) (target : Diagnostic) : Json :=
  .obj [("diagnostic", target.toShortJson), ("excerpt", .str c.excerpt),
    ("fileHead", .str c.fileHead)]

/-- The parts of a context that depend on its target. -/
def targetFields (c : Context) : List (String × Json) :=
  (c.target.map fun t => ("target", c.targetJson t)).toList ++
    (c.guidance.map fun g => ("guidance", g.toJson)).toList

def toJson (c : Context) : Json :=
  .obj ([("projectRoot", .str (toString c.projectRoot)),
    ("diagnostics", .arr (c.diagnostics.map Diagnostic.toShortJson)),
    ("files", .arr (c.files.map fun f => .str (toString f)))] ++ c.targetFields)

/-- How much a planner gets to see. -/
structure Scope where
  projectRoot : Path
  sourceDirs : List String := ["src"]
  fileLimit : Int := 100
  excerptRadius : Int := 400
  headLimit : Int := 800
  guidanceDocument : Option Path := none
  guidanceKeywords : List String := Guidance.defaultKeywords

/-- The context of a snapshot. Text and guidance are looked up only for a target. -/
def Scope.context (scope : Scope) (disk : Disk) (s : Snapshot) (target : Option Diagnostic) :
    Context :=
  let files := sourceFiles disk scope.projectRoot scope.sourceDirs sourceSuffixes
  let base : Context :=
    { projectRoot := scope.projectRoot, diagnostics := s.diagnostics,
      files := files.take (clampOffset files.length scope.fileLimit),
      target := none, excerpt := "", fileHead := "", guidance := none }
  match target with
  | none => base
  | some t =>
    let file := scope.projectRoot.join (.ofString t.file)
    let excerpt := readExcerpt disk file (some t.span) scope.excerptRadius
    { base with
      target := some t
      excerpt
      fileHead := readHead disk file scope.headLimit
      guidance := scope.guidanceDocument.bind fun document =>
        Guidance.search disk document (t.message ++ "\n" ++ excerpt) scope.guidanceKeywords }

end Context

abbrev Planner (σ : Type) := Context → Act σ Plan

end Codemod
