import TensorLowering.Session.Serve
import TensorLowering.Proofs.Cache.Solo
import TensorLowering.Proofs.Fingerprint.Soundness
import TensorLowering.Proofs.Lowering.KeySoundness
import TensorLowering.Proofs.Index.Soundness
import TensorLowering.Proofs.Fingerprint.Renaming
import TensorLowering.Proofs.Cache.Moment
import TensorLowering.Proofs.Cache.Reentry
import TensorLowering.Proofs.Lowering.Transparent
import TensorLowering.Proofs.Lowering.Registration
import TensorLowering.Proofs.Lowering.Selection
import TensorLowering.Proofs.Cache.DistinctNames
import TensorLowering.Proofs.Cache.NameSearch
import TensorLowering.Proofs.Cache.Traffic
import TensorLowering.Proofs.Cache.UseCounts
import TensorLowering.Proofs.Cache.Surveys
import TensorLowering.Proofs.Tuning.AnyOrder
import TensorLowering.Proofs.Index.Completeness
import TensorLowering.Proofs.Lowering.InOrder
import TensorLowering.Proofs.EntryPoint.Outputs
import TensorLowering.Proofs.Lowering.FreeVariables
import TensorLowering.Proofs.Lowering.TensorCounts
import TensorLowering.Proofs.Lowering.TwoAspects
import TensorLowering.Proofs.Lowering.Begun
import TensorLowering.Proofs.Lowering.Invocations
import TensorLowering.Proofs.Tuning.Tasks
import TensorLowering.Proofs.Cache.Scopes
import TensorLowering.Proofs.Lowering.ByPriority
import TensorLowering.Proofs.Tensor.Nearest
import TensorLowering.Proofs.Graph.ListingSize
import TensorLowering.Proofs.Lowering.FreshDimensions
