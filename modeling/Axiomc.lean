import Axiomc.Evaluator.Arithmetic
import Axiomc.ExecutableMir.Refinement
import Axiomc.Executor.DryRun
import Axiomc.Formatter.Idempotence
import Axiomc.Formatter.Report
import Axiomc.Framing.RoundTrip
import Axiomc.Hir.ConstIntsSound
import Axiomc.Host.FileScope
import Axiomc.Package.ArchiveAgreement
import Axiomc.Package.LockfileGuarantees
import Axiomc.Package.OrderIndependence
import Axiomc.Package.ResolverBudgets
import Axiomc.Package.ResolverGraph
import Axiomc.Registry.Republication
import Axiomc.Runtime.LifecycleFrames
import Axiomc.Syntax.LogicalChain
import Axiomc.Trust.Graphs
import Axiomc.Trust.Timestamps
import Axiomc.Trust.Unambiguous
import Axiomc.Trust.VerifyGuarantees
import Axiomc.Workspace.Ownership
