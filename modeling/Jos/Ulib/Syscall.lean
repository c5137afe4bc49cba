import Jos.Lib.Program
import Jos.System.Refinement

/-!
lib/syscall.c, and what a user program is. A program makes system calls and
accesses memory through the page tables of its environment `e`; in between
other environments, the scheduler and the timer do what they like, except that
nobody else changes `e` or writes to the pages that it has for itself. What the
compiled code keeps on the stack is not part of the program: where it says so it
may store anything in the stack page.
-/

namespace Jos

open Jos.Lib

variable {n : ℕ}

/-- The registers of `int $T_SYSCALL`. -/
structure SysArgs where
  no : Word
  a1 : Word
  a2 : Word
  a3 : Word
  a4 : Word
  a5 : Word

def Trapframe.sysArgs (tf : Trapframe) : SysArgs where
  no := tf.tfRegs.regEax
  a1 := tf.tfRegs.regEdx
  a2 := tf.tfRegs.regEcx
  a3 := tf.tfRegs.regEbx
  a4 := tf.tfRegs.regEdi
  a5 := tf.tfRegs.regEsi

/-- What user code does: it traps into the kernel, finds the result in `eax`
when it is resumed, accesses memory in words or bytes, or stores to its stack. A
call of `panic` does not return. -/
inductive Action where
  | trap (q : SysArgs)
  | result
  | load (va : Word)
  | store (va w : Word)
  | loadByte (va : Word)
  | storeByte (va : Word) (b : BitVec 8)
  | locals
  | panic (msg : String) (r : Word)

abbrev Action.Answer : Action → Type
  | .result | .load _ => Word
  | .loadByte _ => BitVec 8
  | .trap _ | .store _ _ | .storeByte _ _ | .locals => Unit
  | .panic _ _ => Empty

abbrev UserProgram := Program Action.Answer

section

variable (M : Machine) (e : EnvIdx) (stack : Word)

/-- Nobody writes to the pages that `e` has for itself, writable and not marked
as mapped, but for the VGA buffer. -/
def Spares (e : EnvIdx) (s : Kernel n) (l : Label n) : Prop :=
  ∀ {c va w frame}, l = .store c va w → userWrite s.mem (s.mem.cr3 c) va = some frame →
    frame ≠ vgaFrame → ∀ {i j v}, mapping s.mem.word s.dirs e i j = some v → Flag v pteW →
      ¬ Flag v pteMapped → pteFrame v ≠ frame

/-- What happens while the program of `e` is about to do action `a`. An
interrupt that comes right after a system call finds the result in `eax`. -/
inductive Meantime (a : Action) (s : Kernel n) : Kernel n → Prop
  | other {l t} (hok : OnCall (PresentOk M) s l) (hacts : ¬ ActsOn e s l) (hspares : Spares e s l)
      (hstep : Step M s l t) : Meantime a s t
  | interrupt {c tf input t} (hcur : s.cpuEnv c = some e)
      (hno : tf.tfTrapno = irqOffset + irqTimer ∨ tf.tfTrapno = irqOffset + irqSpurious)
      (hresult : a = .result → tf.tfRegs.regEax = (s.envs e).envTf.tfRegs.regEax)
      (hok : OnCall (PresentOk M) s (.trap c tf input)) (hstep : Step M s (.trap c tf input) t) :
      Meantime a s t
  | locals {c va w t} (ha : a = .locals) (hcur : s.cpuEnv c = some e)
      (hva : pageAddr va = pageAddr stack) (hstep : Step M s (.store c va w) t) : Meantime a s t

/-- The actions of `e`. -/
inductive Does (s : Kernel n) : (a : Action) → a.Answer → Kernel n → Prop
  | trap {c tf input t} (hcur : s.cpuEnv c = some e) (hno : tf.tfTrapno = tSyscall)
      (hok : OnCall (PresentOk M) s (.trap c tf input)) (hstep : Step M s (.trap c tf input) t) :
      Does s (.trap tf.sysArgs) () t
  | result {c} (hcur : s.cpuEnv c = some e) : Does s .result (s.envs e).envTf.tfRegs.regEax s
  | load {c va frame} (hcur : s.cpuEnv c = some e)
      (hread : userRead s.mem (s.mem.cr3 c) va = some frame) :
      Does s (.load va) (s.mem.word frame (wordIdx va)) s
  | store {c va w t} (hcur : s.cpuEnv c = some e) (hstep : Step M s (.store c va w) t) :
      Does s (.store va w) () t
  | loadByte {c va frame} (hcur : s.cpuEnv c = some e)
      (hread : userRead s.mem (s.mem.cr3 c) va = some frame) :
      Does s (.loadByte va) (getByte (s.mem.word frame (wordIdx va)) va) s
  | storeByte {c va b frame t} (hcur : s.cpuEnv c = some e)
      (hread : userRead s.mem (s.mem.cr3 c) va = some frame)
      (hstep : Step M s (.store c va (setByte (s.mem.word frame (wordIdx va)) va b)) t) :
      Does s (.storeByte va b) () t
  | locals : Does s .locals () s

/-- Environment `e` among the others. -/
def userArena : Arena Action.Answer (Kernel n) where
  does a s r t := Does M e s a r t
  others a s t := Meantime M e stack a s t

end

/-! ### lib/syscall.c -/

namespace User

def perform (a : Action) : UserProgram a.Answer := Program.perform a

def panic {α : Type} (msg : String) (r : Word) : UserProgram α := .act (.panic msg r) Empty.elim

/-- `if ((r = ...) < 0) panic(msg, r)` -/
def check (msg : String) (r : Word) : UserProgram Unit :=
  if r.slt 0 then panic msg r else pure ()

/-- `int $T_SYSCALL`, with the arguments pushed before. -/
def trap (q : SysArgs) : UserProgram Word := do
  perform .locals
  perform (.trap q)
  perform .result

def syscall (num : Word) (check : Bool) (a1 a2 a3 a4 a5 : Word) : UserProgram Word := do
  let ret ← trap ⟨num, a1, a2, a3, a4, a5⟩
  if check ∧ (0#32).slt ret then panic "syscall %d returned %d (> 0)" ret else return ret

def sysGetenvid : UserProgram Word := syscall 2 false 0 0 0 0 0

def sysPageAlloc (envid va perm : Word) : UserProgram Word := syscall 4 true envid va perm 0 0

def sysPageMap (srcenv srcva dstenv dstva perm : Word) : UserProgram Word :=
  syscall 5 true srcenv srcva dstenv dstva perm

def sysPageUnmap (envid va : Word) : UserProgram Word := syscall 6 true envid va 0 0 0

/-- It is inline in inc/lib.h and leaves the other registers as they are. -/
def sysExofork (regs : SysArgs) : UserProgram Word := trap { regs with no := 7 }

def sysEnvSetStatus (envid status : Word) : UserProgram Word :=
  syscall 8 true envid status 0 0 0

end User

end Jos
