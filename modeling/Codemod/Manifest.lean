import Codemod.Json.Fault
import Codemod.World

/-! The manifest of a project, and the router packages in it: pinned to the new line of versions, or
taken back to the old one, which needs packages of its own for types. -/
namespace Codemod.Manifest

abbrev Fields := List (String × Json)

def fileName : String := "package.json"

def router : String := "react-router-dom"

def newVersion : String := "6.30.1"

def oldVersion : String := "^5.3.4"

/-- Packages that only the old line needs, with their versions. -/
def typePackages : List (String × String) :=
  [("@types/react-router-dom", "^5.3.3"), ("@types/history", "^4.7.11")]

/-- A field, set to an empty object when it is not there. -/
def withSection (name : String) (fields : Fields) : Fields :=
  match Json.get? fields name with
  | some _ => fields
  | none => Json.set name (.obj []) fields

/-- The packages of a section. What a list there leads to depends on what is done to it. -/
def packages (fields : Fields) (name : String) (ofList : Misfit) : Except Misfit Fields :=
  match Json.get? fields name with
  | some (.obj packages) => .ok packages
  | some (.arr _) => .error ofList
  | _ => .error .noSuchOperation

/-- Sets the version of a package, and says whether that changed anything. -/
def pin (name version : String) (packages : Fields) : Fields × List String :=
  if (Json.get? packages name).bind Json.str? = some version then (packages, [])
  else (Json.set name (.str version) packages, [name])

/-- Takes a package out. One without a version does not count as changed. -/
def unpin (name : String) (packages : Fields) : Fields × List String :=
  match Json.get? packages name with
  | none => (packages, [])
  | some .null => (Json.erase name packages, [])
  | some _ => (Json.erase name packages, [name])

/-- Applies edits to the packages of a section one after the other, and collects what they changed. -/
def editAll (edits : List (Fields → Fields × List String)) (packages : Fields) :
    Fields × List String :=
  edits.foldl (fun (packages, changed) edit =>
    let (packages, more) := edit packages
    (packages, changed ++ more)) (packages, [])

def dependencies : String := "dependencies"

def devDependencies : String := "devDependencies"

/-- Edits both sections: the manifest afterwards, and the packages that changed. -/
def edit (routerEdit : Fields → Fields × List String)
    (typeEdits : List (Fields → Fields × List String)) (ofList : Misfit) (fields : Fields) :
    Except Misfit (Fields × List String) := do
  let fields := withSection devDependencies (withSection dependencies fields)
  let (needed, changed) := routerEdit (← packages fields dependencies .noSuchOperation)
  let (dev, more) := editAll typeEdits (← packages fields devDependencies ofList)
  return (Json.set devDependencies (.obj dev) (Json.set dependencies (.obj needed) fields),
    changed ++ more)

/-- The manifest with the router on the new line, and the packages that changed. -/
def upgraded (version : String) : Fields → Except Misfit (Fields × List String) :=
  edit (pin router version) (typePackages.map fun p => unpin p.1) .otherOperation

/-- The manifest with the router on the old line, and the packages that changed. -/
def reset : Fields → Except Misfit (Fields × List String) :=
  edit (pin router oldVersion) (typePackages.map fun p => pin p.1 p.2) .noSuchOperation

def read (root : Path) : Act σ Fields := do
  match (← Act.getDisk).readLines (root.child fileName) with
  | .error (.disk .notFound) => throw (.dependency (.noManifest root))
  | .error e => throw e.failure
  | .ok text =>
    match Json.parse text with
    | .error .malformed =>
      throw (.dependency (.manifestUnreadable ((Json.fault text.toList).message text.toList)))
    | .error .tooManyDigits => throw (.misfit .tooManyDigits)
    | .ok (.obj fields) => return fields
    | .ok _ => throw (.dependency .manifestNotObject)

def write (root : Path) (v : Json) : Act σ Unit :=
  Act.write (root.child fileName) (v.render Json.Layout.indented ++ "\n")

/-- Edits the manifest of a project, which is written only when packages change: their names. -/
def update (edit : Fields → Except Misfit (Fields × List String)) (root : Path) :
    Act σ (List String) := do
  match edit (← read root) with
  | .error m => throw (.misfit m)
  | .ok (fields, changed) =>
    if !changed.isEmpty then write root (.obj fields)
    return changed

def upgradeRouter (version : String) (root : Path) : Act σ (List String) :=
  update (upgraded version) root

def resetRouter (root : Path) : Act σ (List String) := update reset root

def install (launch : Launcher σ) (command : List String) (root : Path) : Act σ Unit := do
  match ← launch ⟨command, root⟩ with
  | .missing => throw (.dependency (.noExecutable command))
  | .timedOut => throw (.process .timedOut)
  | .ended code _ _ => if code ≠ 0 then throw (.dependency (.exited command code))

end Codemod.Manifest
