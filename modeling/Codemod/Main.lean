import Codemod.Command.Perform

/-! The program `router-fix`. It works on the files below the directory it is started in. Other programs
and the network are out of its reach, and commands that need them report that. -/
namespace Codemod.Main

/-- Puts everything below a directory on a disk. -/
partial def load (disk : Disk) (place : List String) : IO Disk := do
  let mut disk := disk.put place .directory
  for entry in ← (System.mkFilePath ("/" :: place)).readDir do
    let here := place ++ [entry.fileName]
    if (← entry.path.metadata).type == .dir then disk ← load disk here
    else disk := disk.put here (.file (← IO.FS.readBinFile entry.path))
  return disk

def save (old new : Disk) : IO Unit := do
  for (place, node) in new.entries do
    let path := System.mkFilePath ("/" :: place)
    match node, old.node? place with
    | .directory, none => IO.FS.createDirAll path
    | .file bytes, some (.file before) =>
      if bytes.toList != before.toList then IO.FS.writeBinFile path bytes
    | .file bytes, _ => IO.FS.writeBinFile path bytes
    | .directory, some _ => pure ()
  for (place, _) in old.entries do
    if (new.node? place).isNone then IO.FS.removeFile (System.mkFilePath ("/" :: place))

/-- The machine as seen from here; what commands say is kept. -/
def machine (environment : Environment) : Machine (List String) :=
  { launch := fun _ => return .missing
    post := fun _ => return .unreachable "no network"
    sleep := fun _ => pure ()
    environment, compiler := none }

def say (line : String) : Act (List String) Unit :=
  modify fun w => { w with outside := line :: w.outside }

/-- Words for a failure that a command does not expect. -/
def failureText (f : Failure) : String := f.message?.getD "router-fix: cannot go on"

def environmentNames : List String := timeoutVariable :: Provider.all.map Provider.keyVariable

end Codemod.Main

open Codemod Codemod.Main in
def main (args : List String) : IO UInt32 := do
  let cwd := (Path.ofString (← IO.currentDir).toString).parts
  let above := (List.range cwd.length).map fun n => (cwd.take n, Codemod.Node.directory)
  let disk ← load ⟨cwd, above⟩ cwd
  let known ← environmentNames.mapM fun name => return (name, ← IO.getEnv name)
  let now := toString (← IO.monoMsNow)
  let tools := Command.Tools.ofMachine (machine fun name => (known.lookup name).join) say
    ("session-" ++ now) now
  let (code, w) := (tools.run args).run ⟨disk, [], false, []⟩
  for line in w.outside.reverse do
    IO.println line
  save disk w.disk
  match code with
  | .ok n =>
    if n = Command.Stop.misused.code then IO.eprintln Command.usage
    return n.toUInt32
  | .error f =>
    IO.eprintln (failureText f)
    return 1
