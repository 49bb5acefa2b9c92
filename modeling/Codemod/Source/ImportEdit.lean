import Codemod.Source.Import
import Codemod.Source.Splice

/-! Moving and renaming imported names. An edit touches at most two declarations: the one that holds
the name and, when the name changes its module, one that imports from the new module. -/
namespace Codemod.Source
open Text

/-- The declaration that imports `name` from `module` first, and the place of the name in its brace
list. -/
def findImported? (text module name : List Char) :
    Option (Found ImportDecl × Nat × Specifier) :=
  (imports text).findSome? fun f =>
    if f.value.module != module then none
    else
      let items := f.value.named.getD []
      (items.findIdx? (·.imported == name)).bind fun i => (items[i]?).map fun s => (f, i, s)

/-- The name that `name` of `module` has in the text. -/
def importedAs? (text module name : List Char) : Option (List Char) :=
  (findImported? text module name).map (·.2.2.bound)

/-- The offset after the end of the line that holds `offset`. -/
def lineEnd (text : List Char) (offset : Nat) : Nat :=
  match (text.drop offset).idxOf? '\n' with
  | some i => offset + i + 1
  | none => text.length

/-- Items whose bound name an earlier item has already are left out. -/
def dropRebound (items : List Specifier) : List Specifier :=
  items.foldl (fun kept s => if kept.any (·.bound == s.bound) then kept else kept ++ [s]) []

/-- Every declaration from `old` takes its names from `new`. -/
def repointImports (text old new : List Char) : List Char :=
  if old.isEmpty || old == new then text
  else splice text <| ((imports text).filter (·.value.module == old)).map fun f =>
    ⟨f.start, f.stop, { f.value with module := new }.render (f.value.named.getD [])⟩

/-- The declaration with the item at place `i` replaced by `moved`. -/
def renameInPlace (f : Found ImportDecl) (i : Nat) (moved : Specifier) : Edit :=
  ⟨f.start, f.stop, f.value.render (dropRebound ((f.value.named.getD []).set i moved))⟩

/-- The declaration without the item at place `i`; one that would import nothing goes with the rest
of its line. -/
def withoutItem (text : List Char) (f : Found ImportDecl) (i : Nat) : Edit :=
  let remaining := (f.value.named.getD []).eraseIdx i
  if remaining.isEmpty && f.value.defaultName.isNone && f.value.allNames.isNone then
    ⟨f.start, lineEnd text f.stop, []⟩
  else ⟨f.start, f.stop, f.value.render remaining⟩

/-- A declaration that can take a further item: not of types only, and without a `* as` item. -/
def ImportDecl.takesNames (d : ImportDecl) : Bool := d.allNames.isNone && d.typeWord.isEmpty

/-- Where the moved item goes: into a declaration from `module`, or onto a line of its own after the
last import. -/
def addItem (text module : List Char) (origin : Found ImportDecl) (moved : Specifier) : List Edit :=
  let all := imports text
  match all.find? fun f => f.value.module == module && f.start != origin.start &&
      f.value.takesNames with
  | some f =>
    let items := f.value.named.getD []
    if items.any (·.bound == moved.bound) then []
    else
      let braces := if f.value.braces.isEmpty then "\x7b \x7d".toList else f.value.braces
      [⟨f.start, f.stop, { f.value with braces }.render (items ++ [moved])⟩]
  | none =>
    let at' := lineEnd text ((all.getLast?.map (·.stop)).getD 0)
    let lead := if (text.take at').getLast? == some '\n' then [] else ['\n']
    [⟨at', at', lead ++ "import \x7b ".toList ++ moved.render ++ " \x7d from ".toList ++
      origin.value.quote :: module ++ origin.value.quote ::
      (if origin.value.semicolon then [';'] else []) ++ ['\n']⟩]

/-- Renames the imported name `old` of `source` to `new` of `target`, which may be another module.
An alias is kept; a name without one is bound under its new name. -/
def moveImport (text source old target new : List Char) : List Char :=
  match findImported? text source old with
  | none => text
  | some (f, i, s) =>
    let moved : Specifier :=
      ⟨new, if s.bound = s.imported then new else s.bound, s.typeOnly⟩
    if target = source then
      if new = old then text else splice text [renameInPlace f i moved]
    else splice text (withoutItem text f i :: addItem text target f moved)

/-- An absent or empty part stands for its default. -/
def given? (part : Option (List Char)) : Option (List Char) := part.filter (!·.isEmpty)

/-- Repoints a module, or renames and moves one of its names when `named` is given. -/
def editImport (text source : List Char) (named : Option (List Char)) (target : List Char)
    (newName : Option (List Char)) : List Char :=
  let target := (given? (some target)).getD source
  match given? named with
  | none => repointImports text source target
  | some old => moveImport text source old target ((given? newName).getD old)

end Codemod.Source
