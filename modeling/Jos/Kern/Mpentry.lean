import Jos.Kern.Spinlock
import Jos.Pmap.Mmio

/-!
How the other CPUs come up: `boot_aps` and `mp_main` of kern/init.c,
kern/mpentry.S, and `lapic_startap` and `lapic_init` of kern/lapic.c. Here each
access to data that the CPUs share is a step of its own, and the interrupts that
one CPU sends to another arrive in order, but at any time. A CPU that is up goes
on as in kern/spinlock.c.

The loads of a CPU's own control and segment registers are left out, and so are
the de-assertions of INIT, which have no effect on a CPU. CPU `i` is the one
whose local APIC has the id `i`, as `mp_init` assumes.
-/

namespace Jos

open Jos.Lib

/-- The interrupts of the startup algorithm. -/
inductive Ipi where
  | init | startup
  deriving DecidableEq, Repr

/-- Where the boot CPU is in `lapic_startap`. -/
inductive StartAp where
  | init | startup | startupAgain
  deriving DecidableEq, Repr

/-- Where a CPU is in kern/mpentry.S: before paging is on, or about to load its
stack pointer. -/
inductive Mpentry where
  | start | kstack
  deriving DecidableEq, Repr

/-- Where a CPU is in `mp_main`. `mapRegion`, `setBase` and `setLapic` are in
`lapic_init`, the first two of them in its call of `mmio_map_region`, and `tss`
is in `trap_init_percpu`. -/
inductive MpMain where
  | cprintf
  | mapRegion
  | setBase (mappedBase : Word)
  | setLapic (mappedBase : Word)
  | tss
  | started
  deriving DecidableEq

/-- What a CPU does next. One that waits for a STARTUP was halted by an INIT. -/
inductive MpPc (n : ℕ) where
  | off
  | waitStartup
  | mpentry (pc : Mpentry)
  | mpMain (pc : MpMain)
  | startap (i : Fin n) (pc : StartAp)
  | smp (pc : CpuPc n)
  deriving DecidableEq

/-- The state that the CPUs share, the interrupts on their way to each of them,
its stack pointer after kern/mpentry.S and the `ts_esp0` of its `cpu_ts`. Of the
console there are the lines that `mp_main` prints. -/
structure Mp (n : ℕ) where
  locked : Bool
  cpu : Option (Fin n)
  status : Fin n → CpuStatus
  held : Fin n → Bool
  pc : Fin n → MpPc n
  ipis : Fin n → List Ipi
  mpentryKstack : Word
  esp : Fin n → Word
  esp0 : Fin n → Option Word
  base : Word
  lapic : Word
  console : List (Fin n)

variable {n : ℕ}

namespace Mp

def goto (s : Mp n) (c : Fin n) (p : MpPc n) : Mp n :=
  { s with pc := Function.update s.pc c p }

/-- `lapicw(ICRLO, ...)` with the id of CPU `i` in `ICRHI`. -/
def send (s : Mp n) (i : Fin n) (ipi : Ipi) : Mp n :=
  { s with ipis := Function.update s.ipis i (s.ipis i ++ [ipi]) }

/-! ### The state of the lock -/

/-- Where CPU `c` is for the lock: it is on its way to `mp_main` from the first
STARTUP on. -/
def cpuPc (s : Mp n) (c : Fin n) : CpuPc n :=
  match s.pc c with
  | .off | .waitStartup => if Ipi.startup ∈ s.ipis c then .mpMain else .off
  | .mpentry _ | .mpMain _ => .mpMain
  | .startap i .startupAgain => .waitAp i
  | .startap i _ => .bootAps i
  | .smp p => p

def smp (s : Mp n) : Smp n :=
  { locked := s.locked, cpu := s.cpu, status := s.status, pc := s.cpuPc, held := s.held }

/-- A step of CPU `c` in kern/spinlock.c and around it. -/
def kernel (s : Mp n) (c : Fin n) (run : Bool) : Option (Mp n) := do
  let t ← s.smp.step (c, run)
  some { s.goto c (.smp (t.pc c)) with
    locked := t.locked, cpu := t.cpu, status := t.status, held := t.held }

end Mp

/-- `percpu_kstacks[i] + KSTKSIZE`. -/
def kstackEnd (img : Image) (i : ℕ) : Word := kstackKva img i + kstksize

/-- The loop of `boot_aps`, up to the call of `lapic_startap`. -/
def bootApsMp (img : Image) (s : Mp n) (c : Fin n) (i : ℕ) : Mp n :=
  if h : i < n then
    if (⟨i, h⟩ : Fin n) = c then s.goto c (.smp (.bootAps (i + 1)))
    else { s.goto c (.startap ⟨i, h⟩ .init) with mpentryKstack := kstackEnd img i }
  else s.goto c (.smp .schedYield)

/-- `lapic_startap`. -/
def lapicStartap (s : Mp n) (c i : Fin n) : StartAp → Mp n
  | .init => (s.send i .init).goto c (.startap i .startup)
  | .startup => (s.send i .startup).goto c (.startap i .startupAgain)
  | .startupAgain => (s.send i .startup).goto c (.smp (.waitAp i))

/-- An interrupt arrives at CPU `c`: an INIT halts it, and a STARTUP makes it
run kern/mpentry.S if an INIT has halted it. -/
def receive (s : Mp n) (c : Fin n) : Ipi → Mp n
  | .init => s.goto c .waitStartup
  | .startup => if s.pc c = .waitStartup then s.goto c (.mpentry .start) else s

/-- kern/mpentry.S. -/
def mpentry (s : Mp n) (c : Fin n) : Mpentry → Mp n
  | .start => s.goto c (.mpentry .kstack)
  | .kstack =>
      { s.goto c (.mpMain .cprintf) with esp := Function.update s.esp c s.mpentryKstack }

/-- `mp_main`, up to its call of `lock_kernel`. -/
def mpMain (s : Mp n) (c : Fin n) : MpMain → Mp n
  | .cprintf => { s.goto c (.mpMain .mapRegion) with console := s.console ++ [c] }
  | .mapRegion =>
      if s.base + pgsize > mmiolim then s.goto c (.smp .panic)
      else s.goto c (.mpMain (.setBase s.base))
  | .setBase mappedBase =>
      { s.goto c (.mpMain (.setLapic mappedBase)) with base := mappedBase + pgsize }
  | .setLapic mappedBase => { s.goto c (.mpMain .tss) with lapic := mappedBase }
  | .tss =>
      { s.goto c (.mpMain .started) with
        esp0 := Function.update s.esp0 c (some (kstackVa c + kstksize)) }
  | .started =>
      { s.goto c (.smp (.lock .mpMain .holdingLocked)) with
        status := Function.update s.status c .started }

/-- What can take a step: a CPU, or an interrupt on its way to one. -/
inductive Actor (n : ℕ) where
  | cpu (c : Fin n)
  | ipi (c : Fin n)
  deriving DecidableEq

/-- A step; `run` tells what the kernel chooses. -/
def Mp.step (img : Image) (s : Mp n) : Actor n × Bool → Option (Mp n)
  | (.ipi c, _) =>
    match s.ipis c with
    | [] => none
    | ipi :: l => some (receive { s with ipis := Function.update s.ipis c l } c ipi)
  | (.cpu c, run) =>
    match s.pc c with
    | .off | .waitStartup => none
    | .mpentry pc => some (mpentry s c pc)
    | .mpMain pc => some (mpMain s c pc)
    | .startap i pc => some (lapicStartap s c i pc)
    | .smp (.bootAps i) => some (bootApsMp img s c i)
    | .smp _ => s.kernel c run

/-- In `i386_init`, before the boot CPU locks the kernel. It has called
`lapic_init`, and `trap_init_percpu` before that, as CPU 0. -/
def Mp.init (bsp : Fin n) : Mp n :=
  { locked := false
    cpu := none
    status := fun c => if c = bsp then .started else .unused
    held := fun _ => false
    pc := fun c => if c = bsp then .smp .i386Init else .off
    ipis := fun _ => []
    mpentryKstack := 0
    esp := fun _ => 0
    esp0 := fun c => if (c : ℕ) = 0 then some (kstackVa 0 + kstksize) else none
    base := mmiobase + pgsize
    lapic := mmiobase
    console := [] }

/-- The states of a run in any order of steps. -/
def Mp.Reach (img : Image) (bsp : Fin n) (s : Mp n) : Prop :=
  Run (fun s l t => Mp.step img s l = some t) (fun _ _ => True) (Mp.init bsp) s

end Jos
