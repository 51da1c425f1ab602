import CausalServe.Config.Writing
import CausalServe.Engine.Report
import CausalServe.Engine.Run
import CausalServe.Model.Synthetic
import CausalServe.Proofs.Cache.Books
import CausalServe.Proofs.Engine.Caching
import CausalServe.Proofs.Engine.Cancelling
import CausalServe.Proofs.Engine.Completion
import CausalServe.Proofs.Engine.Polling
import CausalServe.Proofs.Engine.Sizes
import CausalServe.Proofs.Engine.Stopping
import CausalServe.Proofs.Engine.Tallies
import CausalServe.Proofs.Engine.Vocabulary
import CausalServe.Proofs.Kernel.Buffer
import CausalServe.Proofs.Model.Agreement
import CausalServe.Proofs.Model.Batching
import CausalServe.Proofs.Model.Projection
import CausalServe.Proofs.Model.Rotation
import CausalServe.Proofs.Model.Soundness
import CausalServe.Proofs.Quant.Product
import CausalServe.Proofs.Request.Script
import CausalServe.Proofs.Scheduler.Estimate
import CausalServe.Proofs.Scheduler.Loaded
import CausalServe.Proofs.Scheduler.Reachable
import CausalServe.Proofs.Scheduler.Refusals
import CausalServe.Proofs.Scheduler.Victims
import CausalServe.Proofs.Tensor.RoundTrip
