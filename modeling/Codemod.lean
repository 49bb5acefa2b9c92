import Codemod.Text.Printable
import Codemod.Plan.Apply
import Codemod.Main
import Codemod.Proofs.Planning.Model
import Codemod.Proofs.Run.Survival
import Codemod.Proofs.Run.Tolerance
import Codemod.Proofs.Run.Stability
import Codemod.Proofs.Run.Rejection
import Codemod.Proofs.Source.Nesting
import Codemod.Proofs.Source.Element
import Codemod.Proofs.Source.Binding
import Codemod.Proofs.Source.ImportChange
import Codemod.Proofs.Source.Outside
import Codemod.Proofs.Source.LineEnd.Basic
import Codemod.Proofs.Source.LineEnd.Markup
import Codemod.Proofs.Source.LineEnd.Call
import Codemod.Proofs.Source.LineEnd.Import
import Codemod.Proofs.Plan.Apply
import Codemod.Proofs.Source.LiveImports
import Codemod.Proofs.Source.Repoint
import Codemod.Proofs.Source.Capture
import Codemod.Proofs.Plan.Compilation
import Codemod.Proofs.Schema.Plan
import Codemod.Proofs.Reply.Wrapped
import Codemod.Proofs.Source.Restored
import Codemod.Proofs.Source.Between
import Codemod.Proofs.Source.TypeOnly
import Codemod.Proofs.Source.LiveItems
import Codemod.Proofs.Settings.Faults
import Codemod.Proofs.TypeCheck.Printed
import Codemod.Proofs.Source.Quoted
import Codemod.Proofs.Source.Removed
import Codemod.Proofs.Source.Converted
import Codemod.Proofs.Source.ReadBack
import Codemod.Proofs.Model.Retry
import Codemod.Proofs.Planning.Prompt
import Codemod.Proofs.Planning.Rule
import Codemod.Proofs.Manifest.Update
import Codemod.Proofs.Planning.Guidance
import Codemod.Proofs.Source.Anchor
import Codemod.Proofs.TypeCheck.Place
import Codemod.Proofs.Source.Scan.Edit
import Codemod.Proofs.Source.Scan.Index
import Codemod.Proofs.Source.AtOnce
import Codemod.Proofs.Reply.Salvaged
