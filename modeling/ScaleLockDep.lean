import ScaleLockDep.OwnerAgreement
import ScaleLockDep.Soundness
import ScaleLockDep.Reacquire
import ScaleLockDep.RbTables
import ScaleLockDep.CycleChains
import ScaleLockDep.WaitChain
import ScaleLockDep.HeldStack
import ScaleLockDep.RegistryInvariants
import ScaleLockDep.Transparency
import ScaleLockDep.EdgeSites
import ScaleLockDep.RbSemaphore
import ScaleLockDep.RbPosts
import ScaleLockDep.ShellQuote
import ScaleLockDep.DeadlockReport
import ScaleLockDep.FastPaths
import ScaleLockDep.FailedCalls
import ScaleLockDep.HookOptions
import ScaleLockDep.RbProgress
import ScaleLockDep.RbWaitFree
import ScaleLockDep.HookBounds
import ScaleLockDep.SerialBackends
import ScaleLockDep.RbDrainPass
import ScaleLockDep.SteadyState
import ScaleLockDep.PotentialReport
import ScaleLockDep.HookGuard
import ScaleLockDep.RegistryProgress
