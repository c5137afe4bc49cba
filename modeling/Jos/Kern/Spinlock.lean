import Jos.Inc.Mmu
import Jos.Lib.Run
import Jos.Lib.Token
import Mathlib.Data.Nat.Notation

/-!
kern/spinlock.c and the places that lock and unlock the kernel: `i386_init` and
`mp_main` of kern/init.c, `trap` of kern/trap.c, `sched_halt` of kern/sched.c
and `env_run` of kern/env.c. Each access to `kernel_lock.locked`, to
`kernel_lock.cpu` and to a `cpu_status` is a step of its own, and the CPUs take
their steps in any order. What the kernel does with the lock held, of which
only how it ends matters here, is a choice: it may run an environment or call
the scheduler, and this may halt the CPU.
-/

namespace Jos

open Jos.Lib

/-- The calls of `lock_kernel`. The two of `trap` know the privilege level of
the interrupted code. -/
inductive LockCall where
  | i386Init | mpMain | trapHalted (user : Bool) | trapUser
  deriving DecidableEq, Repr

/-- The calls of `unlock_kernel`. -/
inductive UnlockCall where
  | envRun | schedHalt
  deriving DecidableEq, Repr

/-- Where a CPU is in `spin_lock`: at the two reads of `holding`, at the `xchg`,
or about to record itself as the holder. -/
inductive SpinLock where
  | holdingLocked | holdingCpu | xchg | record
  deriving DecidableEq, Repr

/-- Where a CPU is in `spin_unlock`. -/
inductive SpinUnlock where
  | holdingLocked | holdingCpu | clear | xchg
  deriving DecidableEq, Repr

/-- What a CPU does next. In `bootAps i` the boot CPU starts CPU `i`, and in
`waitAp i` it waits for it. -/
inductive CpuPc (n : ℕ) where
  | off
  | i386Init
  | mpMain
  | lock (call : LockCall) (pc : SpinLock)
  | bootAps (i : ℕ)
  | waitAp (i : Fin n)
  | dispatch
  | schedYield
  | schedHalt
  | unlock (call : UnlockCall) (pc : SpinUnlock)
  | user
  | halted
  | trap (user : Bool)
  | trapMode (user : Bool)
  | panic
  deriving DecidableEq

inductive CpuStatus where
  | unused | started | halted
  deriving DecidableEq, Repr

/-- `kernel_lock`, the `cpu_status` of every CPU and what the CPUs do. `held`
records who has completed a call of `lock_kernel` and not yet one of
`unlock_kernel`; nothing reads it. -/
structure Smp (n : ℕ) where
  locked : Bool
  cpu : Option (Fin n)
  status : Fin n → CpuStatus
  pc : Fin n → CpuPc n
  held : Fin n → Bool

variable {n : ℕ}

def Smp.goto (s : Smp n) (c : Fin n) (p : CpuPc n) : Smp n :=
  { s with pc := Function.update s.pc c p }

def Smp.setStatus (s : Smp n) (c : Fin n) (st : CpuStatus) : Smp n :=
  { s with status := Function.update s.status c st }

/-- What follows a call of `lock_kernel`. -/
def LockCall.next : LockCall → CpuPc n
  | .i386Init => .bootAps 0
  | .mpMain => .schedYield
  | .trapHalted user => .trapMode user
  | .trapUser => .dispatch

/-- What follows a call of `unlock_kernel`. -/
def UnlockCall.next : UnlockCall → CpuPc n
  | .envRun => .user
  | .schedHalt => .halted

/-- `spin_lock`. -/
def spinLock (s : Smp n) (c : Fin n) (call : LockCall) : SpinLock → Smp n
  | .holdingLocked => s.goto c (.lock call (if s.locked then .holdingCpu else .xchg))
  | .holdingCpu => s.goto c (if s.cpu = some c then .panic else .lock call .xchg)
  | .xchg => { s.goto c (.lock call (if s.locked then .xchg else .record)) with locked := true }
  | .record =>
      { s.goto c call.next with cpu := some c, held := Function.update s.held c true }

/-- `spin_unlock`. -/
def spinUnlock (s : Smp n) (c : Fin n) (call : UnlockCall) : SpinUnlock → Smp n
  | .holdingLocked => s.goto c (if s.locked then .unlock call .holdingCpu else .panic)
  | .holdingCpu => s.goto c (if s.cpu = some c then .unlock call .clear else .panic)
  | .clear => { s.goto c (.unlock call .xchg) with cpu := none }
  | .xchg =>
      { s.goto c call.next with locked := false, held := Function.update s.held c false }

/-- The loop of `boot_aps`, then what `i386_init` does up to its call of
`sched_yield`. -/
def bootAps (s : Smp n) (c : Fin n) (i : ℕ) : Smp n :=
  if h : i < n then
    if (⟨i, h⟩ : Fin n) = c then s.goto c (.bootAps (i + 1))
    else (s.goto ⟨i, h⟩ .mpMain).goto c (.waitAp ⟨i, h⟩)
  else s.goto c .schedYield

/-- A step of CPU `c`; `run` tells what the kernel chooses. -/
def Smp.step (s : Smp n) : Fin n × Bool → Option (Smp n)
  | (c, run) =>
    match s.pc c with
    | .off | .panic => none
    | .i386Init => some (s.goto c (.lock .i386Init .holdingLocked))
    | .mpMain => some ((s.setStatus c .started).goto c (.lock .mpMain .holdingLocked))
    | .lock call pc => some (spinLock s c call pc)
    | .bootAps i => some (bootAps s c i)
    | .waitAp i => some (s.goto c (if s.status i = .started then .bootAps (i + 1) else .waitAp i))
    | .dispatch => some (s.goto c (if run then .unlock .envRun .holdingLocked else .schedYield))
    | .schedYield => some (s.goto c (if run then .unlock .envRun .holdingLocked else .schedHalt))
    | .schedHalt => some ((s.setStatus c .halted).goto c (.unlock .schedHalt .holdingLocked))
    | .unlock call pc => some (spinUnlock s c call pc)
    | .user => some (s.goto c (.trap true))
    | .halted => some (s.goto c (.trap false))
    | .trap user => some ((s.setStatus c .started).goto c
        (if s.status c = .halted then .lock (.trapHalted user) .holdingLocked else .trapMode user))
    | .trapMode user => some (s.goto c (if user then .lock .trapUser .holdingLocked else .dispatch))

/-- After `mp_init`, before the boot CPU locks the kernel. -/
def Smp.init (bsp : Fin n) : Smp n :=
  { locked := false
    cpu := none
    status := fun c => if c = bsp then .started else .unused
    pc := fun c => if c = bsp then .i386Init else .off
    held := fun _ => false }

/-- The states of a run in any order of steps. -/
def Smp.Reach (bsp : Fin n) (s : Smp n) : Prop :=
  Run (fun s l t => Smp.step s l = some t) (fun _ _ => True) (Smp.init bsp) s

end Jos
