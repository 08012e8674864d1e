import PtrTag.Func.Eval
import PtrTag.Tagging.Run
import PtrTag.Proofs.Edit
import PtrTag.Proofs.Func.Lookup
import PtrTag.Proofs.Func.Coherent
import PtrTag.Proofs.Func.Keep
import PtrTag.Proofs.Func.Reachable
import PtrTag.Proofs.Func.Substitution
import PtrTag.Proofs.Func.Verify
import PtrTag.Proofs.Emission
import PtrTag.Proofs.Word
import PtrTag.Proofs.Tagging.Displacement
import PtrTag.Proofs.Tagging.Tag
import PtrTag.Proofs.Tagging.Step
import PtrTag.Proofs.Tagging.Run
import PtrTag.Proofs.Tagging.Embedding
import PtrTag.Proofs.Tagging.Untagged
import PtrTag.Proofs.Tagging.Atomicity
import PtrTag.Proofs.Func.Enrich
import PtrTag.Proofs.Func.Label
import PtrTag.Proofs.Tagging.WellFormed
import PtrTag.Proofs.Tagging.Split
import PtrTag.Proofs.Tagging.Chain
import PtrTag.Proofs.Tagging.Twice
import PtrTag.Proofs.Tagging.Termination
import PtrTag.Proofs.Tagging.Effect
import PtrTag.Proofs.Tagging.Classify
import PtrTag.Proofs.Layout.Extent
import PtrTag.Proofs.Layout.Path
import PtrTag.Proofs.Tagging.Precedence
import PtrTag.Proofs.Tagging.SplitEffect
import PtrTag.Proofs.Tagging.Site
import PtrTag.Proofs.Tagging.Refusal
import PtrTag.Proofs.Folding
import PtrTag.Proofs.Func.Frame
import PtrTag.Proofs.Tagging.Code
import PtrTag.Proofs.Tagging.Offset
import PtrTag.Proofs.Tagging.ConstantOffset
import PtrTag.Proofs.Ty.Text
import PtrTag.Proofs.Tagging.ZeroIndex
import PtrTag.Proofs.Tagging.ModuleRun
import PtrTag.Proofs.Tagging.Accounts
