import Codemod.World
import Codemod.Diagnostic
import Codemod.TypeCheck.Report

/-! Asking the type checker of a project for its diagnostics. -/
namespace Codemod

structure Compiler where
  /-- The command to run in place of the compiler of the project. -/
  command : Option (List String) := none
  /-- How many seconds it may take. -/
  timeout : Float := 300.0

namespace Compiler

/-- The options that make the compiler check and report in plain text. -/
def options : List String := ["--noEmit", "--pretty", "false"]

/-- The command for a project: the given one, else the compiler installed in the project, else the one
that was found elsewhere. -/
def commandIn (compiler : Compiler) (found : Option String) (root : Path) : Act σ (List String) := do
  match compiler.command.filter (!·.isEmpty) with
  | some command => return command
  | none =>
    let installed := root.child "node_modules/.bin/tsc"
    if (← Act.getDisk).pathExists installed then return toString installed :: options
    match found with
    | some program => return program :: options
    | none => throw (.diagnostics (.noCompiler root))

/-- What a program printed, its messages behind its output. -/
def printed (output errors : ByteArray) : Act σ (List Char) := do
  match String.fromUTF8? output, String.fromUTF8? errors with
  | some out, some err =>
    return Text.joinWith ['\n'] (([out, err].filter (· != "")).map String.toList)
  | _, _ => throw .notUtf8

def firstLine (cs : List Char) : String :=
  String.ofList ((Text.lines (Text.trim cs)).head?.getD "no output".toList)

/-- The diagnostics that the compiler reports. A compiler that fails has to report some. -/
def query (compiler : Compiler) (launch : Launcher σ) (found : Option String) (root : Path) :
    Act σ Snapshot := do
  let root := root.resolve (← Act.getDisk).cwd
  let command ← compiler.commandIn found root
  match ← launch ⟨command, root⟩ with
  | .missing => throw (.diagnostics (.noExecutable command))
  | .timedOut => throw (.diagnostics (.timedOut compiler.timeout command))
  | .ended code output errors =>
    if code = 0 then return ⟨[]⟩
    let text ← printed output errors
    match Report.diagnostics (← Act.getDisk) root text with
    | .error e => throw (.misfit e)
    | .ok [] => throw (.diagnostics (.exited code (firstLine text) command))
    | .ok ds => return ⟨ds⟩

end Compiler
end Codemod
