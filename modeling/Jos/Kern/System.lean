import Jos.Kern.Trap
import Jos.Lib.Run

/-!
The system: `n` CPUs that run user code and enter the kernel. A kernel entry,
from `trap` to `env_run` or `sched_halt`, is one step, since the big kernel
lock is held from one to the other. In between, a CPU whose `cpu_env` is not
null executes that environment: it may load a translation into its TLB and
store to memory it can write. A CPU without one is halted, or has not yet
scheduled for the first time, and calls `sched_yield` next. A panic and the
monitor end a run.
-/

namespace Jos

open Jos.Lib

variable {n : ℕ}

/-! ### The memory-management unit in user mode -/

/-- The frame that user code reads through directory `d` at `va`. -/
def userRead (m : Mem n) (d : ℕ) (va : Word) : Option ℕ :=
  let pde := m.word d (pdx va)
  let pte := m.word (pteFrame pde) (ptx va)
  if Flag pde pteP ∧ Flag pde pteU ∧ Flag pte pteP ∧ Flag pte pteU then some (pteFrame pte)
  else none

/-- The frame that user code can write at `va`. -/
def userWrite (m : Mem n) (d : ℕ) (va : Word) : Option ℕ :=
  let pde := m.word d (pdx va)
  let pte := m.word (pteFrame pde) (ptx va)
  if Flag pde pteW ∧ Flag pte pteW then userRead m d va else none

/-! ### Steps -/

inductive Label (n : ℕ) where
  | trap (c : Fin n) (tf : Trapframe) (input : Word)
  | tick (c : Fin n)
  | fill (c : Fin n) (va : Word)
  | store (c : Fin n) (va w : Word)

/-- The word of a frame at an address. -/
def wordIdx (va : Word) : PtIdx := Fin.ofNat _ (va.toNat % 4096 / 4)

/-- The state in which a computation left the kernel. -/
def left {α : Type} : Outcome (Kernel n) Stop α → Option (Kernel n)
  | .leave t => some t
  | _ => none

variable (M : Machine)

/-- One step, `none` where the label is not possible or the machine stops. -/
def step (s : Kernel n) : Label n → Option (Kernel n)
  | .trap c tf input => if s.cpuEnv c = none then none else left (trap M c tf input s)
  | .tick c => if s.cpuEnv c = none then left (schedYield M c s) else none
  | .fill c va =>
      if s.cpuEnv c = none then none
      else
        (userRead s.mem (s.mem.cr3 c) va).map fun frame =>
          s.setMem { s.mem with
            tlb := Function.update s.mem.tlb c ((pgnum va, frame) :: s.mem.tlb c) }
  | .store c va w =>
      if s.cpuEnv c = none then none
      else
        (userWrite s.mem (s.mem.cr3 c) va).map fun frame =>
          s.setMem (s.mem.store frame (wordIdx va) w)

def Step (s : Kernel n) (l : Label n) (t : Kernel n) : Prop := step M s l = some t

/-- The state after the steps `ls`, if they are possible and pass a check. -/
def steps (check : Kernel n → Label n → Bool) (s : Kernel n) (ls : List (Label n)) :
    Option (Kernel n) :=
  ls.foldlM (fun s l => if check s l then step M s l else none) s

end Jos
