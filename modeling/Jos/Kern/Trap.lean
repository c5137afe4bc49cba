import Jos.Kern.Syscall

/-!
kern/trap.c: what the kernel does with a trap from user mode. The registers
that the processor and `_alltraps` pushed are `tf`. From the copy into
`curenv->env_tf` on, `tf` of the source points at that field.
-/

namespace Jos

open Jos.Lib

variable {n : ℕ}

def tBrkpt : Word := 3
def tPgflt : Word := 14
def tSyscall : Word := 48
def irqOffset : Word := 32
def irqTimer : Word := 0
def irqSpurious : Word := 7

variable (M : Machine)

/-- `page_fault_handler` for a fault in user mode. -/
def pageFaultHandler (c : Fin n) (cur : EnvIdx) : KM n Unit := envDestroy M c cur

def trapDispatch (c : Fin n) (cur : EnvIdx) (input : Word) : KM n Unit := do
  let s ← Comp.get
  let tf := (s.envs cur).envTf
  if tf.tfTrapno = tBrkpt then Comp.stop .monitor
  else if tf.tfTrapno = tPgflt then pageFaultHandler M c cur
  else if tf.tfTrapno = tSyscall then
    let resultado ← syscall M c cur input tf.tfRegs.regEax tf.tfRegs.regEdx tf.tfRegs.regEcx
      tf.tfRegs.regEbx tf.tfRegs.regEdi tf.tfRegs.regEsi
    Comp.modify fun s => s.setEnv cur
      { s.envs cur with envTf := (s.envs cur).envTf.setEax resultado }
  else if tf.tfTrapno = irqOffset + irqSpurious then return ()
  else if tf.tfTrapno = irqOffset + irqTimer then schedYield M c
  else envDestroy M c cur

/-- `trap`, for a trap from user mode. -/
def trap (c : Fin n) (tf : Trapframe) (input : Word) : KM n Unit := do
  let s ← Comp.get
  match s.cpuEnv c with
  | none => Comp.stop (.panic "assertion failed: curenv")
  | some cur =>
      if (s.envs cur).envStatus = .dying then
        envFree M c cur
        Comp.modify fun s => s.setCur c none
        schedYield M c
      else
        Comp.modify fun s => s.setEnv cur { s.envs cur with envTf := tf }
        trapDispatch M c cur input
        let s ← Comp.get
        match s.cpuEnv c with
        | some e => if (s.envs e).envStatus = .running then envRun c e else schedYield M c
        | none => schedYield M c

end Jos
