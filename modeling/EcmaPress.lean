import EcmaPress.Main
import EcmaPress.Proofs.Concatenation
import EcmaPress.Proofs.Mappings
import EcmaPress.Proofs.Segments
import EcmaPress.Run.Interrupt
import EcmaPress.Run.World
import EcmaPress.Proofs.Events
import EcmaPress.Proofs.Scopes
import EcmaPress.Proofs.Tables
import EcmaPress.Proofs.Tallies
import EcmaPress.Proofs.Captures
import EcmaPress.Proofs.Courses
import EcmaPress.Proofs.Idempotence
import EcmaPress.Proofs.Pressing
import EcmaPress.Proofs.GeneratedTokens
import EcmaPress.Proofs.Outcomes
import EcmaPress.Proofs.RenamedScopes
import EcmaPress.Proofs.Trailers
import EcmaPress.Proofs.Merging
import EcmaPress.Proofs.Respacing
import EcmaPress.Proofs.Bundles
import EcmaPress.Proofs.GroupedPrograms
import EcmaPress.Proofs.LocalNames
import EcmaPress.Proofs.Semicolons
import EcmaPress.Proofs.Exposure
import EcmaPress.Proofs.Variables
import EcmaPress.Proofs.RelativePaths
import EcmaPress.Proofs.LeadingInputs
import EcmaPress.Proofs.LosslessCharsets
import EcmaPress.Proofs.FaultPositions
import EcmaPress.Proofs.SharedInterrupts
import EcmaPress.Proofs.Heights
import EcmaPress.Proofs.CommentSigns
import EcmaPress.Proofs.Numeration
import EcmaPress.Proofs.GrammarLoops
