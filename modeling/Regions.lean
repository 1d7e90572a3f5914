import Regions.Flow.Report
import Regions.Proofs.Escapes
import Regions.Proofs.BranchJoins
import Regions.Proofs.UnionMembers
import Regions.Proofs.LoopUpdates
import Regions.Proofs.Registration
import Regions.Proofs.StorageClasses
import Regions.Proofs.ParameterIsolation
import Regions.Proofs.PointerWrites
import Regions.Proofs.CapturedVariables
import Regions.Proofs.NameResolution
import Regions.Proofs.Obligations
import Regions.Proofs.Projections
import Regions.Proofs.FaultCauses
import Regions.Proofs.CaptureChains
import Regions.Proofs.MemberListings
import Regions.Proofs.SourceLines
import Regions.Proofs.SingleResults
import Regions.Proofs.PathTexts
import Regions.Proofs.Interning
