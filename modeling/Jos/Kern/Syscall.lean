import Jos.Kern.Env
import Jos.Kern.Printfmt

/-!
kern/syscall.c: the system calls, for the environment `cur` that is `curenv`
of the calling CPU `c`. The arguments are the words that the registers hold;
a negative result is a word, as in `reg_eax`.
-/

namespace Jos

open Jos.Lib

variable {n : ℕ}

/-- The system call numbers of inc/syscall.h. -/
inductive Sysno where
  | cputs | cgetc | getenvid | envDestroy | pageAlloc | pageMap | pageUnmap | exofork
  | envSetStatus | envSetPgfaultUpcall | yield | ipcTrySend | ipcRecv
  deriving DecidableEq, Repr

def Sysno.ofWord (w : Word) : Option Sysno :=
  match w.toNat with
  | 0 => some .cputs
  | 1 => some .cgetc
  | 2 => some .getenvid
  | 3 => some .envDestroy
  | 4 => some .pageAlloc
  | 5 => some .pageMap
  | 6 => some .pageUnmap
  | 7 => some .exofork
  | 8 => some .envSetStatus
  | 9 => some .envSetPgfaultUpcall
  | 10 => some .yield
  | 11 => some .ipcTrySend
  | 12 => some .ipcRecv
  | _ => none

/-- The statuses a user may ask for, `ENV_RUNNABLE` and `ENV_NOT_RUNNABLE`. -/
def statusOfWord (w : Word) : Option EnvStatus :=
  match w.toNat with
  | 2 => some .runnable
  | 4 => some .notRunnable
  | _ => none

/-- `envid2env`, `none` being `-E_BAD_ENV`. -/
def envid2env (s : Kernel n) (cur : EnvIdx) (envid : Word) (checkperm : Bool) : Option EnvIdx :=
  if envid = 0 then some cur
  else
    let e : EnvIdx := Fin.ofNat _ (envid &&& 0x3FF#32).toNat
    if (s.envs e).envStatus = .free ∨ (s.envs e).envId ≠ envid then none
    else if checkperm ∧ e ≠ cur ∧ (s.envs e).envParentId ≠ (s.envs cur).envId then none
    else some e

/-- The test of `perm` in `sys_page_alloc` and `sys_page_map`. -/
def validPerm (perm : Word) : Prop :=
  perm &&& pteU = pteU ∧ perm &&& pteP = pteP ∧ perm &&& ~~~pteSyscall = 0

instance (perm : Word) : Decidable (validPerm perm) := by
  unfold validPerm
  infer_instance

/-- An address a user may name in a page call: below `UTOP` and aligned. -/
def userPage (va : Word) : Prop := va < utop ∧ va % 0x1000#32 = 0

instance (va : Word) : Decidable (userPage va) := by
  unfold userPage
  infer_instance

/-- Go on with `e->env_pgdir`. -/
def withPgdir {α : Type} (e : EnvIdx) (f : ℕ → KM n α) : KM n α := do
  let s ← Comp.get
  match (s.envs e).envPgdir with
  | none => Comp.stop .undefined
  | some d => f d

variable (M : Machine)

def userMemAssert (c : Fin n) (e : EnvIdx) (va len perm : Word) : KM n Unit :=
  withPgdir e fun d => do
    match ← readMem fun s => userMemCheck M d va len (perm ||| pteU) s.mem with
    | none => return ()
    | some _ => envDestroy M c e

def sysCputs (c : Fin n) (cur : EnvIdx) (str len : Word) : KM n Unit := do
  userMemAssert M c cur str len 0
  let s ← Comp.get
  match (printString (loadByte c s.mem) str len).ending with
  | .done => return ()
  | .fault => Comp.stop (.panic "Kernel-mode page fault!!\n")
  | .diverge => Comp.stop .diverge

def sysGetenvid (cur : EnvIdx) : KM n Word := do
  let s ← Comp.get
  return (s.envs cur).envId

def sysEnvDestroy (c : Fin n) (cur : EnvIdx) (envid : Word) : KM n Word := do
  let s ← Comp.get
  match envid2env s cur envid true with
  | none => return -eBadEnv
  | some e =>
      envDestroy M c e
      Comp.modify fun s => s.emit (.envDestroyed e)
      return 0

def sysExofork (c : Fin n) (cur : EnvIdx) : KM n Word := do
  let s ← Comp.get
  match ← envAlloc M c (s.envs cur).envId with
  | .error r => return r
  | .ok e =>
      Comp.modify fun s => s.setStatus e .notRunnable
      Comp.modify fun s => s.setEnv e
        { s.envs e with envTf := (s.envs cur).envTf.setEax 0 }
      let s ← Comp.get
      return (s.envs e).envId

def sysEnvSetStatus (cur : EnvIdx) (envid status : Word) : KM n Word := do
  let s ← Comp.get
  match statusOfWord status with
  | none => return -eInval
  | some st =>
      match envid2env s cur envid true with
      | none => return -eBadEnv
      | some e =>
          Comp.modify fun s => s.setStatus e st
          return 0

def sysPageAlloc (c : Fin n) (cur : EnvIdx) (envid va perm : Word) : KM n Word := do
  let s ← Comp.get
  match envid2env s cur envid true with
  | none => return -eBadEnv
  | some e =>
      if ¬ (userPage va ∧ validPerm perm) then return -eInval
      else
        match ← runMem fun s => pageAlloc M true s.mem with
        | none => return -eNoMem
        | some page =>
            withPgdir e fun d => do
              let r ← runMem fun s => pageInsert M (s.ctx c) d (some page) va perm s.mem
              if r = -eNoMem then
                changeMem fun s => pageFree page s.mem
                return -eNoMem
              else return 0

def sysPageMap (c : Fin n) (cur : EnvIdx) (srcenvid srcva dstenvid dstva perm : Word) :
    KM n Word := do
  let s ← Comp.get
  match envid2env s cur srcenvid true, envid2env s cur dstenvid true with
  | some source, some destination =>
      if ¬ (userPage srcva ∧ userPage dstva) then return -eInval
      else if ¬ validPerm perm then return -eInval
      else
        withPgdir source fun d => do
          let (pteAddress, srcPage) ← readMem fun s => pageLookup M d srcva s.mem
          let s ← Comp.get
          match pteAddress with
          | none => return -eInval
          | some (pt, i) =>
              if Flag perm pteW ∧ ¬ Flag (s.mem.word pt i) pteW then return -eInval
              else
                withPgdir destination fun d => do
                  let r ← runMem fun s => pageInsert M (s.ctx c) d srcPage dstva perm s.mem
                  if r = -eNoMem then return -eNoMem else return 0
  | _, _ => return -eBadEnv

def sysPageUnmap (c : Fin n) (cur : EnvIdx) (envid va : Word) : KM n Word := do
  let s ← Comp.get
  match envid2env s cur envid true with
  | none => return -eBadEnv
  | some e =>
      if ¬ userPage va then return -eInval
      else
        withPgdir e fun d => do
          changeMem fun s => pageRemove M (s.ctx c) d va s.mem
          return 0

/-- The end of a successful `sys_ipc_try_send`; `page` is the frame that was
transferred and `perm` what `env_ipc_perm` was set to. -/
def ipcDeliver (cur target : EnvIdx) (value perm : Word) (page : Option ℕ) : KM n Word := do
  let s ← Comp.get
  let source := (s.envs cur).envId
  Comp.modify fun s => s.setEnv target
    { s.envs target with
      envIpcPerm := perm
      envIpcRecving := false
      envIpcFrom := source
      envIpcValue := value
      envTf := (s.envs target).envTf.setEax 0
      envStatus := .runnable }
  Comp.modify fun s => s.emit (.ipcSend target value source perm page)
  return 0

def sysIpcTrySend (c : Fin n) (cur : EnvIdx) (envid value srcva perm : Word) : KM n Word := do
  let s ← Comp.get
  match envid2env s cur envid false with
  | none => return -eBadEnv
  | some target =>
      if ¬ (s.envs target).envIpcRecving then return -eIpcNotRecv
      else
        Comp.modify fun s => s.setEnv target { s.envs target with envIpcPerm := 0 }
        let dstva := (s.envs target).envIpcDstva
        if srcva < utop ∧ dstva < utop then
          withPgdir cur fun d => do
            let (pteaddr, srcpg) ← readMem fun s => pageLookup M d srcva s.mem
            let s ← Comp.get
            match pteaddr with
            | none => return -eInval
            | some (pt, i) =>
                if srcva % 0x1000#32 ≠ 0 ∨ (Flag perm pteW ∧ ¬ Flag (s.mem.word pt i) pteW) ∨
                    ¬ Flag perm (pteU ||| pteP) ∨ Flag perm (~~~pteSyscall) then
                  return -eInval
                else if dstva % 0x1000#32 ≠ 0 then
                  Comp.stop (.panic "assertion failed: !((uint32_t) dstva % PGSIZE)")
                else
                  withPgdir target fun d => do
                    let r ← runMem fun s => pageInsert M (s.ctx c) d srcpg dstva perm s.mem
                    if r = -eNoMem then return -eNoMem
                    else ipcDeliver cur target value perm srcpg
        else ipcDeliver cur target value 0 none

def sysIpcRecv (c : Fin n) (cur : EnvIdx) (dstva : Word) : KM n Word := do
  if dstva < utop ∧ dstva % 0x1000#32 ≠ 0 then return -eInval
  else
    Comp.modify fun s => s.setEnv cur
      { s.envs cur with
        envIpcDstva := dstva
        envIpcRecving := true
        envStatus := .notRunnable }
    Comp.modify fun s => s.emit (.ipcRecv cur dstva)
    schedYield M c
    return 0

/-- `syscall`; `input` is the character that the console holds. The call of
`sys_yield` has no `return`, and `SYS_env_set_pgfault_upcall` no case. -/
def syscall (c : Fin n) (cur : EnvIdx) (input : Word) (syscallno a1 a2 a3 a4 a5 : Word) :
    KM n Word :=
  match Sysno.ofWord syscallno with
  | some .cputs => do
      sysCputs M c cur a1 a2
      return 0
  | some .cgetc => return input
  | some .getenvid => sysGetenvid cur
  | some .envDestroy => sysEnvDestroy M c cur a1
  | some .yield => do
      schedYield M c
      sysExofork M c cur
  | some .exofork => sysExofork M c cur
  | some .envSetStatus => sysEnvSetStatus cur a1 a2
  | some .pageAlloc => sysPageAlloc M c cur a1 a2 a3
  | some .pageMap => sysPageMap M c cur a1 a2 a3 a4 a5
  | some .pageUnmap => sysPageUnmap M c cur a1 a2
  | some .ipcTrySend => sysIpcTrySend M c cur a1 a2 a3 a4
  | some .ipcRecv => sysIpcRecv M c cur a1
  | some .envSetPgfaultUpcall | none => return -eInval

end Jos
