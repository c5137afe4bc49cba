import Jos.Kern.Pmap
import Jos.Lib.Outcome
import Mathlib.Data.List.FinRange

/-!
kern/env.c and kern/sched.c: the environment table and the functions that
create, free, destroy and switch environments.

`env_run` and `sched_halt` do not return: the CPU goes on in user mode or
halts. They are computations that leave, so nothing after a call to
`sched_yield` runs, as in the source.
-/

namespace Jos

open Jos.Lib

/-- An index into `envs`; `NENV` is 1024. -/
abbrev EnvIdx := Fin 1024

inductive EnvStatus where
  | free | dying | runnable | running | notRunnable
  deriving DecidableEq, Repr

structure PushRegs where
  regEdi : Word
  regEsi : Word
  regEbp : Word
  regOesp : Word
  regEbx : Word
  regEdx : Word
  regEcx : Word
  regEax : Word
  deriving DecidableEq

structure Trapframe where
  tfRegs : PushRegs
  tfEs : BitVec 16
  tfDs : BitVec 16
  tfTrapno : Word
  tfErr : Word
  tfEip : Word
  tfCs : BitVec 16
  tfEflags : Word
  tfEsp : Word
  tfSs : BitVec 16
  deriving DecidableEq

structure Env where
  envTf : Trapframe
  envLink : Option EnvIdx
  envId : Word
  envParentId : Word
  envStatus : EnvStatus
  envRuns : Word
  envCpunum : ℕ
  envPgdir : Option ℕ
  envPgfaultUpcall : Word
  envIpcRecving : Bool
  envIpcDstva : Word
  envIpcValue : Word
  envIpcFrom : Word
  envIpcPerm : Word

def zeroTrapframe : Trapframe :=
  { tfRegs := ⟨0, 0, 0, 0, 0, 0, 0, 0⟩, tfEs := 0, tfDs := 0, tfTrapno := 0, tfErr := 0,
    tfEip := 0, tfCs := 0, tfEflags := 0, tfEsp := 0, tfSs := 0 }

def Trapframe.setEax (tf : Trapframe) (v : Word) : Trapframe :=
  { tf with tfRegs := { tf.tfRegs with regEax := v } }

/-- What the kernel did, recorded for the properties of whole runs; no kernel
function reads it. An `envFree` records who was current on every CPU then, and
a send records the frame it transferred. -/
inductive Event (n : ℕ) where
  | envAlloc (e : EnvIdx)
  | envFree (c : Fin n) (e : EnvIdx) (cpuEnv : Fin n → Option EnvIdx)
  | envDestroyed (e : EnvIdx)
  | envRun (c : Fin n) (e : EnvIdx)
  | ipcRecv (e : EnvIdx) (dstva : Word)
  | ipcSend (e : EnvIdx) (value source perm : Word) (page : Option ℕ)

/-- The kernel: physical memory, the environments, `cpu_env` of every CPU, and
the events so far, latest first. -/
structure Kernel (n : ℕ) where
  mem : Mem n
  envs : EnvIdx → Env
  envFreeList : Option EnvIdx
  cpuEnv : Fin n → Option EnvIdx
  log : List (Event n)

/-- Why the kernel stops for good: a panic, the monitor, or an access through
a null page directory, which has no defined meaning. -/
inductive Stop where
  | panic (msg : String)
  | monitor
  | diverge
  | undefined

variable {n : ℕ}

abbrev KM (n : ℕ) := Comp (Kernel n) Stop

namespace Kernel

def setEnv (s : Kernel n) (e : EnvIdx) (v : Env) : Kernel n :=
  { s with envs := Function.update s.envs e v }

def setStatus (s : Kernel n) (e : EnvIdx) (st : EnvStatus) : Kernel n :=
  s.setEnv e { s.envs e with envStatus := st }

def setMem (s : Kernel n) (m : Mem n) : Kernel n := { s with mem := m }

def setCur (s : Kernel n) (c : Fin n) (e : Option EnvIdx) : Kernel n :=
  { s with cpuEnv := Function.update s.cpuEnv c e }

def emit (s : Kernel n) (ev : Event n) : Kernel n := { s with log := ev :: s.log }

def ctx (s : Kernel n) (c : Fin n) : Ctx n :=
  ⟨c, (s.cpuEnv c).map fun e => (s.envs e).envPgdir⟩

end Kernel

/-- Run a function of kern/pmap.c, turning its panics into stops. -/
def runMem {α : Type} (f : Kernel n → Except String (α × Mem n)) : KM n α := fun s =>
  match f s with
  | .ok (a, m) => .ret a (s.setMem m)
  | .error msg => .stop (.panic msg) s

/-- The same for one that only reads memory. -/
def readMem {α : Type} (f : Kernel n → Except String α) : KM n α := fun s =>
  match f s with
  | .ok a => .ret a s
  | .error msg => .stop (.panic msg) s

/-- The same for one that returns nothing. -/
def changeMem (f : Kernel n → Except String (Mem n)) : KM n Unit := fun s =>
  match f s with
  | .ok m => .ret () (s.setMem m)
  | .error msg => .stop (.panic msg) s

variable (M : Machine)

/-! ### Address spaces -/

/-- The entries of a directory below `UTOP`. -/
def userPdes : List PtIdx := (List.finRange 955).map (Fin.castLE (by omega))

/-- The body of the inner loop of `env_free`. -/
def envFreePte (x : Ctx n) (d : ℕ) (pdeno : PtIdx) (pt : ℕ) (m : Mem n) (pteno : PtIdx) :
    Except String (Mem n) :=
  if Flag (m.word pt pteno) pteP then pageRemove M x d (pgaddr pdeno pteno 0#32) m else .ok m

/-- The body of the outer loop of `env_free`. -/
def envFreePde (x : Ctx n) (d : ℕ) (m : Mem n) (pdeno : PtIdx) : Except String (Mem n) :=
  if ¬ Flag (m.word d pdeno) pteP then .ok m
  else do
    let pa := pteAddr (m.word d pdeno)
    let pt ← kaddr M pa
    let m ← (List.finRange 1024).foldlM (envFreePte M x d pdeno pt) m
    let m := m.store d pdeno 0#32
    let pp ← pa2page M pa
    pageDecref pp m

/-- The memory part of `env_free`: user pages, page tables and directory. -/
def envFreeMem (x : Ctx n) (d : ℕ) (m : Mem n) : Except String (Mem n) := do
  let m ← userPdes.foldlM (envFreePde M x d) m
  let pp ← pa2page M (frame2pa d)
  pageDecref pp m

/-- `env_setup_vm`: the new page directory, or `none` for `-E_NO_MEM`. -/
def envSetupVm (x : Ctx n) (m : Mem n) : Except String (Option ℕ × Mem n) := do
  let (p, m) ← pageAlloc M true m
  match p with
  | none => .ok (none, m)
  | some p =>
      let d ← kaddr M (frame2pa p)
      let m := m.fill d (m.word M.kernPgdir)
      let m := m.setRef p ((m.pages p).ppRef + 1)
      let m := m.store d (pdx uvpt) (frame2pa d ||| pteP ||| pteU)
      let page ← pa2page M vgaPhysaddr
      let (r, m) ← pageInsert M x d (some page) vgaUser (pteP ||| pteU ||| pteW ||| pteMapped) m
      if r ≠ 0 then
        .error "assertion failed: !page_insert(e->env_pgdir,page,(void*) VGA_USER, ...)"
      else .ok (some d, m)

/-! ### Creating environments -/

/-- The id `env_alloc` gives to slot `e` whose last id is `old`. -/
def nextEnvId (old : Word) (e : EnvIdx) : Word :=
  let generation := (old + 0x1000#32) &&& ~~~0x3FF#32
  let generation := if BitVec.sle generation 0 then 0x1000#32 else generation
  generation ||| BitVec.ofNat 32 e

/-- `GD_UD | 3`, `GD_UT | 3` and `FL_IF` in the registers of a new
environment. -/
def initialTrapframe : Trapframe :=
  { zeroTrapframe with
    tfDs := 0x23, tfEs := 0x23, tfSs := 0x23, tfEsp := ustacktop, tfCs := 0x1B,
    tfEflags := 0x200 }

/-- `env_alloc`: the new environment, or the error code. -/
def envAlloc (c : Fin n) (parentId : Word) : KM n (Except Word EnvIdx) := do
  let s ← Comp.get
  match s.envFreeList with
  | none => return .error (-eNoFreeEnv)
  | some e =>
      match ← runMem fun s => envSetupVm M (s.ctx c) s.mem with
      | none => return .error (-eNoMem)
      | some d =>
          let old := s.envs e
          Comp.modify fun s => s.setEnv e
            { old with
              envPgdir := some d
              envId := nextEnvId old.envId e
              envParentId := parentId
              envStatus := .runnable
              envRuns := 0
              envTf := initialTrapframe
              envPgfaultUpcall := 0
              envIpcRecving := false }
          Comp.modify fun s => { s with envFreeList := old.envLink }
          Comp.modify fun s => s.emit (.envAlloc e)
          return .ok e

structure Proghdr where
  pType : Word
  pOffset : Word
  pVa : Word
  pFilesz : Word
  pMemsz : Word

/-- A binary in the kernel image: the ELF header fields `load_icode` reads,
its program headers, and its bytes. -/
structure Elf where
  eMagic : Word
  eEntry : Word
  eProghdr : List Proghdr
  byte : Word → BitVec 8

def rounddown (a : Word) : Word := a - a % 0x1000#32
def roundup (a : Word) : Word := rounddown (a + 0x1000#32 - 1)

/-- The loop of `region_alloc`; there are at most 2^20 pages to go. -/
def regionLoop (x : Ctx n) (d : ℕ) (vaFinish : Word) :
    ℕ → Word → Mem n → Except String (Word × Mem n)
  | 0, va, m => .ok (va, m)
  | k + 1, va, m =>
      if va < vaFinish then do
        let (page, m) ← pageAlloc M false m
        match page with
        | none => .error "Page Alloc Fail:region_alloc"
        | some page =>
            let (r, m) ← pageInsert M x d (some page) va (pteU ||| pteW) m
            if r ≠ 0 then .error "Page Insert Fail: region_alloc"
            else regionLoop x d vaFinish k (va + 0x1000#32) m
      else .ok (va, m)

def regionAlloc (x : Ctx n) (d : ℕ) (va len : Word) (m : Mem n) : Except String (Mem n) :=
  if len = 0 then .ok m
  else do
    let vaFinish := roundup (va + len)
    let (va, m) ← regionLoop M x d vaFinish 1048576 (rounddown va) m
    if va ≠ vaFinish then .error "assertion failed: va==va_finish" else .ok m

/-- Replace byte `va % 4` of a word. -/
def setByte (w : Word) (va : Word) (b : BitVec 8) : Word :=
  let shift := 8 * (va.toNat % 4)
  w &&& ~~~(0xFF#32 <<< shift) ||| b.zeroExtend 32 <<< shift

/-- A kernel store of one byte through the loaded directory. -/
def storeByte (c : Fin n) (va : Word) (b : BitVec 8) (m : Mem n) : Except String (Mem n) :=
  match kernWritable c va m with
  | none => .error "Kernel-mode page fault!!\n"
  | some frame =>
      let i : PtIdx := Fin.ofNat _ (va.toNat % 4096 / 4)
      .ok (m.store frame i (setByte (m.word frame i) va b))

/-- Store `k` bytes from `va` on, the `j`-th being `byte j`. -/
def storeBytes (c : Fin n) (va : Word) (byte : ℕ → BitVec 8) (k : ℕ) (m : Mem n) :
    Except String (Mem n) :=
  (List.range k).foldlM (fun m j => storeByte c (va + BitVec.ofNat 32 j) (byte j) m) m

/-- One program header of `load_icode`. -/
def loadSegment (x : Ctx n) (d : ℕ) (elf : Elf) (m : Mem n) (ph : Proghdr) :
    Except String (Mem n) :=
  if ph.pType ≠ 1 then .ok m
  else do
    let m ← regionAlloc M x d ph.pVa ph.pMemsz m
    let m ← storeBytes x.cpu ph.pVa (fun j => elf.byte (ph.pOffset + BitVec.ofNat 32 j))
      ph.pFilesz.toNat m
    storeBytes x.cpu (ph.pVa + ph.pFilesz) (fun _ => 0) (ph.pMemsz - ph.pFilesz).toNat m

/-- The memory part of `load_icode`. The assertion that follows the first load
of `%cr3` reads back what was loaded. -/
def loadIcode (x : Ctx n) (d : ℕ) (elf : Elf) (m : Mem n) : Except String (Mem n) := do
  if m.cr3 x.cpu ≠ M.kernPgdir then .error "assertion failed: rcr3()==PADDR(kern_pgdir)"
  else
    let m := m.lcr3 x.cpu d
    if elf.eMagic ≠ 0x464C457F#32 then .error "Invalid binary"
    else
      let m ← elf.eProghdr.foldlM (loadSegment M x d elf) m
      let m ← regionAlloc M x d (ustacktop - 0x1000#32) 0x1000#32 m
      .ok (m.lcr3 x.cpu M.kernPgdir)

def envCreate (c : Fin n) (elf : Elf) : KM n Unit := do
  match ← envAlloc M c 0 with
  | .error _ => Comp.stop (.panic "env_create: %e")
  | .ok e =>
      let s ← Comp.get
      match (s.envs e).envPgdir with
      | none => Comp.stop .undefined
      | some d =>
          changeMem fun s => loadIcode M (s.ctx c) d elf s.mem
          Comp.modify fun s => s.setEnv e
            { s.envs e with envTf := { (s.envs e).envTf with tfEip := elf.eEntry } }

/-! ### Freeing and switching -/

/-- Memory when `env_free` starts to take the address space apart: the kernel
directory has been loaded if `e` is `curenv`. -/
def Kernel.freeing (s : Kernel n) (c : Fin n) (e : EnvIdx) : Mem n :=
  if s.cpuEnv c = some e then s.mem.lcr3 c M.kernPgdir else s.mem

def envFree (c : Fin n) (e : EnvIdx) : KM n Unit := do
  Comp.modify fun s => s.emit (.envFree c e s.cpuEnv)
  Comp.modify fun s => s.setMem (s.freeing M c e)
  let s ← Comp.get
  match (s.envs e).envPgdir with
  | none => Comp.stop .undefined
  | some d =>
      changeMem fun s => envFreeMem M (s.ctx c) d s.mem
      Comp.modify fun s =>
        { s.setEnv e { s.envs e with
            envPgdir := none, envStatus := .free, envLink := s.envFreeList } with
          envFreeList := some e }

/-- The switch away from a running `curenv` at the start of `env_run`. -/
def Kernel.demote (s : Kernel n) (c : Fin n) : Kernel n :=
  match s.cpuEnv c with
  | some cur => if (s.envs cur).envStatus = .running then s.setStatus cur .runnable else s
  | none => s

/-- `env_run`, with the `env_pop_tf` at its end. -/
def envRun (c : Fin n) (e : EnvIdx) : KM n Unit := do
  Comp.modify fun s => s.demote c
  let s ← Comp.get
  if (s.envs e).envStatus ≠ .runnable then
    Comp.stop (.panic "assertion failed: e->env_status == ENV_RUNNABLE")
  else
    match (s.envs e).envPgdir with
    | none => Comp.stop (.panic "PADDR called with invalid kva")
    | some d =>
        Comp.modify fun s => s.setCur c (some e)
        Comp.modify fun s => s.setEnv e
          { s.envs e with
            envStatus := .running, envRuns := (s.envs e).envRuns + 1, envCpunum := c }
        Comp.modify fun s => s.setMem (s.mem.lcr3 c d)
        Comp.modify fun s => s.emit (.envRun c e)
        Comp.exit

def schedHalt (c : Fin n) : KM n Unit := do
  let s ← Comp.get
  if (List.finRange 1024).any (fun e =>
      (s.envs e).envStatus = .runnable || (s.envs e).envStatus = .running ||
        (s.envs e).envStatus = .dying) then
    Comp.modify fun s => s.setCur c none
    Comp.modify fun s => s.setMem (s.mem.lcr3 c M.kernPgdir)
    Comp.exit
  else
    Comp.stop .monitor

/-- The slots in the order `sched_yield` looks at them: from just after
`curenv`, or from slot 0 when there is none. -/
def schedOrder (cur : Option EnvIdx) : List EnvIdx :=
  (List.range 1024).map fun i =>
    match cur with
    | some e => Fin.ofNat _ (e + 1 + i)
    | none => Fin.ofNat _ i

def schedYield (c : Fin n) : KM n Unit := do
  let s ← Comp.get
  match (schedOrder (s.cpuEnv c)).find? fun e => (s.envs e).envStatus = .runnable with
  | some e => envRun c e
  | none =>
      match s.cpuEnv c with
      | some cur =>
          if (s.envs cur).envStatus = .running then envRun c cur else schedHalt M c
      | none => schedHalt M c

def envDestroy (c : Fin n) (e : EnvIdx) : KM n Unit := do
  let s ← Comp.get
  if (s.envs e).envStatus = .running ∧ s.cpuEnv c ≠ some e then
    Comp.modify fun s => s.setStatus e .dying
  else
    envFree M c e
    let s ← Comp.get
    if s.cpuEnv c = some e then
      Comp.modify fun s => s.setCur c none
      schedYield M c

variable {M}

theorem rounddown_toNat (a : Word) : (rounddown a).toNat = a.toNat / 4096 * 4096 := by
  have hlt : a.toNat < 4294967296 := a.isLt
  rw [rounddown, BitVec.toNat_sub, BitVec.toNat_umod]
  simp only [BitVec.toNat_ofNat, Nat.reducePow, Nat.reduceMod]
  omega

theorem roundup_toNat (a : Word) :
    (roundup a).toNat = (a.toNat + 4095) % 4294967296 / 4096 * 4096 := by
  have hpage : (0x1000#32 : Word).toNat = 4096 := rfl
  have hone : (1 : Word).toNat = 1 := rfl
  have hadd : (a + 0x1000#32 - 1).toNat = (a.toNat + 4095) % 4294967296 := by
    rw [BitVec.toNat_sub, BitVec.toNat_add, hpage, hone]
    omega
  rw [roundup, rounddown_toNat, hadd]

theorem loadIcode_eq_ok {x : Ctx n} {d : ℕ} {elf : Elf} {m m' : Mem n} :
    loadIcode M x d elf m = .ok m' ↔
      m.cr3 x.cpu = M.kernPgdir ∧ elf.eMagic = 0x464C457F#32 ∧
        ∃ m₁, elf.eProghdr.foldlM (loadSegment M x d elf) (m.lcr3 x.cpu d) = .ok m₁ ∧
          ∃ m₂, regionAlloc M x d (ustacktop - 0x1000#32) 0x1000#32 m₁ = .ok m₂ ∧
            m' = m₂.lcr3 x.cpu M.kernPgdir := by
  unfold loadIcode
  split
  · rename_i hcr3
    simp [hcr3]
  · rename_i hcr3
    dsimp only
    split
    · rename_i hmagic
      simp [hmagic]
    · rename_i hmagic
      simp only [bind_eq_ok, not_not.mp hcr3, not_not.mp hmagic, true_and, Except.ok.injEq,
        @eq_comm _ m']

/-- `env_setup_vm` that fails has changed nothing. -/
theorem envSetupVm_none {x : Ctx n} {m m' : Mem n} (h : envSetupVm M x m = .ok (none, m')) :
    m' = m := by
  unfold envSetupVm at h
  simp only [bind_eq_ok] at h
  obtain ⟨⟨page, m₁⟩, halloc, h⟩ := h
  cases page with
  | none =>
      cases h
      exact (pageAlloc_none halloc).2
  | some p =>
      simp only [bind_eq_ok] at h
      obtain ⟨d, -, page, -, ⟨r, m₂⟩, -, h⟩ := h
      split at h <;> cases h

end Jos
