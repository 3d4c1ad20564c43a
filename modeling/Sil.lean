import Sil.CommandLine.Run
import Sil.Compile
import Sil.Json.Reader
import Sil.Json.Writer
import Sil.Main
import Sil.Record
import Sil.Service.Http
import Sil.Service.Wire
import Sil.SourceText.Parse
import Sil.Syntax.Estree
import Sil.Proofs.EmissionAcceptance
import Sil.Proofs.BackendAgreement
import Sil.Proofs.Temporaries
import Sil.Proofs.LoweredFlow
import Sil.Proofs.ScopedEmission
import Sil.Proofs.EstreeEncoding
import Sil.Proofs.TreeEdits
import Sil.Proofs.Unplaced
import Sil.Proofs.OperandOrder
import Sil.Proofs.Refusals
import Sil.Proofs.ReadingFaults
import Sil.Proofs.InputAgreement
import Sil.Proofs.RequestReplies
import Sil.Proofs.SupportedPrograms
import Sil.Proofs.Indentation
import Sil.Proofs.DeclaredOnce
import Sil.Proofs.OpenPositions
import Sil.Proofs.DeclaredPositions
import Sil.Proofs.EmittedLines
import Sil.Proofs.DefiniteAssignment
import Sil.Proofs.EarlyClosing
import Sil.Proofs.SourceNesting
import Sil.Proofs.TemporaryStores
import Sil.Proofs.InferredTypes
import Sil.Proofs.Conservation
import Sil.Proofs.Renumbering
import Sil.Proofs.Hoisting
import Sil.Proofs.ListingLines
import Sil.Proofs.EmittedLiterals
import Sil.Proofs.EmissionInvariant
import Sil.Proofs.SpellingIndependence
import Sil.Proofs.RecognisedFields
import Sil.Proofs.CommentsAndParentheses
import Sil.Proofs.NothingPending
import Sil.Proofs.FirstError
