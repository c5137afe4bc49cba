import Jos.Kern.System

/-!
What one kernel entry can do. A trap saves the registers, makes at most one
change (`Call`), stores a result in `reg_eax` and ends with `env_run` or
`sched_halt` (`Exit`). The invariants of the system are proved from these two
relations, and only this module looks into the functions of the kernel.
-/

namespace Jos

open Jos.Lib

variable {n : ℕ}

/-! ### States after a change -/

namespace Kernel

def setTf (s : Kernel n) (e : EnvIdx) (tf : Trapframe) : Kernel n :=
  s.setEnv e { s.envs e with envTf := tf }

/-- The rest of `env_run`. -/
def resume (s : Kernel n) (c : Fin n) (e : EnvIdx) (d : ℕ) : Kernel n :=
  (((s.setCur c (some e)).setEnv e
    { s.envs e with
      envStatus := .running, envRuns := (s.envs e).envRuns + 1, envCpunum := c }).setMem
    (s.mem.lcr3 c d)).emit (.envRun c e)

def halt (M : Machine) (s : Kernel n) (c : Fin n) : Kernel n :=
  (s.setCur c none).setMem (s.mem.lcr3 c M.kernPgdir)

/-- Slot `e` after `env_alloc`, with page directory `d`. -/
def allocated (s : Kernel n) (e : EnvIdx) (d : ℕ) (m : Mem n) (parentId : Word) : Kernel n :=
  { (s.setMem m).setEnv e
      { s.envs e with
        envPgdir := some d
        envId := nextEnvId (s.envs e).envId e
        envParentId := parentId
        envStatus := .runnable
        envRuns := 0
        envTf := initialTrapframe
        envPgfaultUpcall := 0
        envIpcRecving := false } with
    envFreeList := (s.envs e).envLink
    log := .envAlloc e :: s.log }

def forked (s : Kernel n) (cur e : EnvIdx) (d : ℕ) (m : Mem n) : Kernel n :=
  let s := (s.allocated e d m (s.envs cur).envId).setStatus e .notRunnable
  s.setTf e ((s.envs cur).envTf.setEax 0)

def freed (s : Kernel n) (c : Fin n) (e : EnvIdx) (m : Mem n) : Kernel n :=
  { ((s.emit (.envFree c e s.cpuEnv)).setMem m).setEnv e
      { s.envs e with envPgdir := none, envStatus := .free, envLink := s.envFreeList } with
    envFreeList := some e }

def ipcPerm0 (s : Kernel n) (target : EnvIdx) : Kernel n :=
  s.setEnv target { s.envs target with envIpcPerm := 0 }

def delivered (s : Kernel n) (cur target : EnvIdx) (value perm : Word) (page : Option ℕ) :
    Kernel n :=
  (s.setEnv target
    { s.envs target with
      envIpcPerm := perm
      envIpcRecving := false
      envIpcFrom := (s.envs cur).envId
      envIpcValue := value
      envTf := (s.envs target).envTf.setEax 0
      envStatus := .runnable }).emit (.ipcSend target value (s.envs cur).envId perm page)

def received (s : Kernel n) (cur : EnvIdx) (dstva : Word) : Kernel n :=
  (s.setEnv cur
    { s.envs cur with
      envIpcDstva := dstva, envIpcRecving := true, envStatus := .notRunnable }).emit
    (.ipcRecv cur dstva)

/-! ### Each change is to one environment -/

section

variable {s : Kernel n} {c : Fin n} {cur e e' : EnvIdx} {d : ℕ} {m : Mem n} {parentId : Word}

theorem resume_self : (s.resume c e d).envs e =
    { s.envs e with
      envStatus := .running, envRuns := (s.envs e).envRuns + 1, envCpunum := c } :=
  Function.update_self _ _ _

theorem resume_of_ne (h : e' ≠ e) : (s.resume c e d).envs e' = s.envs e' :=
  Function.update_of_ne h _ _

theorem allocated_self : (s.allocated e d m parentId).envs e =
    { s.envs e with
      envPgdir := some d
      envId := nextEnvId (s.envs e).envId e
      envParentId := parentId
      envStatus := .runnable
      envRuns := 0
      envTf := initialTrapframe
      envPgfaultUpcall := 0
      envIpcRecving := false } :=
  Function.update_self _ _ _

theorem allocated_of_ne (h : e' ≠ e) : (s.allocated e d m parentId).envs e' = s.envs e' :=
  Function.update_of_ne h _ _

theorem freed_self : (s.freed c e m).envs e =
    { s.envs e with envPgdir := none, envStatus := .free, envLink := s.envFreeList } :=
  Function.update_self _ _ _

theorem freed_of_ne (h : e' ≠ e) : (s.freed c e m).envs e' = s.envs e' :=
  Function.update_of_ne h _ _

theorem delivered_of_ne {target : EnvIdx} {value perm : Word} {page : Option ℕ}
    (h : e' ≠ target) : (s.delivered cur target value perm page).envs e' = s.envs e' :=
  Function.update_of_ne h _ _

theorem received_of_ne {dstva : Word} (h : e' ≠ cur) :
    (s.received cur dstva).envs e' = s.envs e' :=
  Function.update_of_ne h _ _

end

end Kernel

variable (M : Machine)

/-! ### Leaving the kernel -/

inductive Exit (c : Fin n) (s : Kernel n) : Kernel n → Prop
  | run {e d} (hrunnable : ((s.demote c).envs e).envStatus = .runnable)
      (hdir : (s.envs e).envPgdir = some d) : Exit c s ((s.demote c).resume c e d)
  | halt (hcur : ∀ cur, s.cpuEnv c = some cur → (s.envs cur).envStatus ≠ .running)
      (hnone : ∀ e, (s.envs e).envStatus ≠ .runnable) : Exit c s (s.halt M c)

/-! ### System calls -/

/-- What a trap asks for: the system call, if it is one, and its arguments. -/
structure Request where
  no : Option Sysno
  a1 : Word
  a2 : Word
  a3 : Word
  a4 : Word
  a5 : Word

def Trapframe.request (tf : Trapframe) : Request :=
  { no := if tf.tfTrapno = tSyscall then Sysno.ofWord tf.tfRegs.regEax else none
    a1 := tf.tfRegs.regEdx
    a2 := tf.tfRegs.regEcx
    a3 := tf.tfRegs.regEbx
    a4 := tf.tfRegs.regEdi
    a5 := tf.tfRegs.regEsi }

/-- `env_free(e)` ran to its end. -/
inductive Freed (c : Fin n) (e : EnvIdx) (s : Kernel n) : Kernel n → Prop
  | mk {d m} (hdir : (s.envs e).envPgdir = some d)
      (hmem : envFreeMem M (s.ctx c) d (s.freeing M c e) = .ok m) : Freed c e s (s.freed c e m)

/-- The environments that a request may free: `curenv`, and the argument of
`sys_env_destroy` if it is not running elsewhere. -/
inductive MayFree (c : Fin n) (cur : EnvIdx) (q : Request) (s : Kernel n) : EnvIdx → Prop
  | self (hcur : s.cpuEnv c = some cur) : MayFree c cur q s cur
  | other {e} (hno : q.no = some .envDestroy) (he : envid2env s cur q.a1 true = some e)
      (hne : s.cpuEnv c ≠ some e) (hst : (s.envs e).envStatus ≠ .running) : MayFree c cur q s e

/-- The change that one request makes. -/
inductive Call (c : Fin n) (cur : EnvIdx) (q : Request) (s : Kernel n) : Kernel n → Prop
  | skip : Call c cur q s s
  | setStatus {e st} (hno : q.no = some .envSetStatus) (hst : statusOfWord q.a2 = some st)
      (he : envid2env s cur q.a1 true = some e) : Call c cur q s (s.setStatus e st)
  | dying {e} (hno : q.no = some .envDestroy) (he : envid2env s cur q.a1 true = some e)
      (hst : (s.envs e).envStatus = .running) (hne : s.cpuEnv c ≠ some e) :
      Call c cur q s ((s.setStatus e .dying).emit (.envDestroyed e))
  | destroyOther {e u} (hno : q.no = some .envDestroy)
      (he : envid2env s cur q.a1 true = some e) (hne : s.cpuEnv c ≠ some e)
      (hst : (s.envs e).envStatus ≠ .running) (hfree : Freed M c e s u) :
      Call c cur q s (u.emit (.envDestroyed e))
  | destroySelf {u} (hcur : s.cpuEnv c = some cur) (hfree : Freed M c cur s u) :
      Call c cur q s (u.setCur c none)
  | exofork {e d m} (hno : q.no = some .exofork) (he : s.envFreeList = some e)
      (hmem : envSetupVm M (s.ctx c) s.mem = .ok (some d, m)) :
      Call c cur q s (s.forked cur e d m)
  | pageAlloc {e d page m₁ r m₂} (hno : q.no = some .pageAlloc)
      (he : envid2env s cur q.a1 true = some e) (hva : userPage q.a2) (hperm : validPerm q.a3)
      (hdir : (s.envs e).envPgdir = some d)
      (halloc : pageAlloc M true s.mem = .ok (some page, m₁))
      (hinsert : pageInsert M (s.ctx c) d (some page) q.a2 q.a3 m₁ = .ok (r, m₂))
      (hr : r ≠ -eNoMem) : Call c cur q s (s.setMem m₂)
  | pageAllocFail {e d page m₁ m₂ m₃} (hno : q.no = some .pageAlloc)
      (he : envid2env s cur q.a1 true = some e) (hva : userPage q.a2) (hperm : validPerm q.a3)
      (hdir : (s.envs e).envPgdir = some d)
      (halloc : pageAlloc M true s.mem = .ok (some page, m₁))
      (hinsert : pageInsert M (s.ctx c) d (some page) q.a2 q.a3 m₁ = .ok (-eNoMem, m₂))
      (hfree : pageFree page m₂ = .ok m₃) : Call c cur q s (s.setMem m₃)
  | pageMap {src dst ds dd pt i page r m} (hno : q.no = some .pageMap)
      (hsrc : envid2env s cur q.a1 true = some src)
      (hdst : envid2env s cur q.a3 true = some dst) (hsrcva : userPage q.a2)
      (hdstva : userPage q.a4) (hperm : validPerm q.a5)
      (hds : (s.envs src).envPgdir = some ds) (hdd : (s.envs dst).envPgdir = some dd)
      (hlook : pageLookup M ds q.a2 s.mem = .ok (some (pt, i), page))
      (hw : Flag q.a5 pteW → Flag (s.mem.word pt i) pteW)
      (hinsert : pageInsert M (s.ctx c) dd page q.a4 q.a5 s.mem = .ok (r, m)) :
      Call c cur q s (s.setMem m)
  | pageUnmap {e d m} (hno : q.no = some .pageUnmap)
      (he : envid2env s cur q.a1 true = some e) (hva : userPage q.a2)
      (hdir : (s.envs e).envPgdir = some d)
      (hremove : pageRemove M (s.ctx c) d q.a2 s.mem = .ok m) : Call c cur q s (s.setMem m)
  | ipcFail {target} (hno : q.no = some .ipcTrySend)
      (he : envid2env s cur q.a1 false = some target)
      (hrecv : (s.envs target).envIpcRecving = true) : Call c cur q s (s.ipcPerm0 target)
  | ipcValue {target} (hno : q.no = some .ipcTrySend)
      (he : envid2env s cur q.a1 false = some target)
      (hrecv : (s.envs target).envIpcRecving = true)
      (hpage : ¬ (q.a3 < utop ∧ (s.envs target).envIpcDstva < utop)) :
      Call c cur q s ((s.ipcPerm0 target).delivered cur target q.a2 0 none)
  | ipcPage {target ds dd pt i page r m} (hno : q.no = some .ipcTrySend)
      (he : envid2env s cur q.a1 false = some target)
      (hrecv : (s.envs target).envIpcRecving = true)
      (hsrcva : userPage q.a3) (hdstva : userPage (s.envs target).envIpcDstva)
      (hup : Flag q.a4 (pteU ||| pteP)) (hperm : ¬ Flag q.a4 (~~~pteSyscall))
      (hds : (s.envs cur).envPgdir = some ds) (hdd : (s.envs target).envPgdir = some dd)
      (hlook : pageLookup M ds q.a3 s.mem = .ok (some (pt, i), page))
      (hw : Flag q.a4 pteW → Flag (s.mem.word pt i) pteW)
      (hinsert : pageInsert M (s.ctx c) dd page (s.envs target).envIpcDstva q.a4 s.mem =
        .ok (r, m)) (hr : r ≠ -eNoMem) :
      Call c cur q s (((s.ipcPerm0 target).setMem m).delivered cur target q.a2 q.a4 page)
  | ipcRecv (hno : q.no = some .ipcRecv) (hdstva : q.a1 < utop → q.a1 % 0x1000#32 = 0) :
      Call c cur q s (s.received cur q.a1)

/-- What is left in the log when a request stops the machine: the change may
have been made, or `env_free` has begun. -/
inductive Stopped (c : Fin n) (cur : EnvIdx) (q : Request) (s : Kernel n) : Kernel n → Prop
  | after {u t} (hcall : Call M c cur q s u) (hlog : t.log = u.log) : Stopped c cur q s t
  | freeing {e t} (hfree : MayFree c cur q s e)
      (hlog : t.log = .envFree c e s.cpuEnv :: s.log) : Stopped c cur q s t

/-! ### The kernel functions -/

theorem wp_runMem {α : Type} {f : Kernel n → Except String (α × Mem n)} {s : Kernel n}
    {R : α → Kernel n → Prop} {E H : Kernel n → Prop} :
    Comp.wp (runMem f) R E H s ↔
      (∀ a m, f s = .ok (a, m) → R a (s.setMem m)) ∧ (∀ msg, f s = .error msg → H s) := by
  unfold Comp.wp runMem
  cases hf : f s with
  | ok r =>
      obtain ⟨a, m⟩ := r
      simp
  | error msg => simp

theorem wp_readMem {α : Type} {f : Kernel n → Except String α} {s : Kernel n}
    {R : α → Kernel n → Prop} {E H : Kernel n → Prop} :
    Comp.wp (readMem f) R E H s ↔
      (∀ a, f s = .ok a → R a s) ∧ (∀ msg, f s = .error msg → H s) := by
  unfold Comp.wp readMem
  cases hf : f s <;> simp

theorem wp_changeMem {f : Kernel n → Except String (Mem n)} {s : Kernel n}
    {R : Unit → Kernel n → Prop} {E H : Kernel n → Prop} :
    Comp.wp (changeMem f) R E H s ↔
      (∀ m, f s = .ok m → R () (s.setMem m)) ∧ (∀ msg, f s = .error msg → H s) := by
  unfold Comp.wp changeMem
  cases hf : f s <;> simp

theorem changeMem_ok {f : Kernel n → Except String (Mem n)} {s : Kernel n} {m : Mem n}
    (hf : f s = .ok m) : changeMem f s = .ret () (s.setMem m) := by
  unfold changeMem
  rw [hf]

variable {M : Machine} {c : Fin n} {cur e : EnvIdx} {s : Kernel n}

theorem demote_eq_self
    (h : ∀ {cur}, s.cpuEnv c = some cur → (s.envs cur).envStatus ≠ .running) :
    s.demote c = s := by
  unfold Kernel.demote
  split
  · rename_i cur hcur
    exact if_neg (h hcur)
  · rfl

theorem demote_running (hcur : s.cpuEnv c = some cur) (hst : (s.envs cur).envStatus = .running) :
    s.demote c = s.setStatus cur .runnable := by
  unfold Kernel.demote
  rw [hcur]
  exact if_pos hst

/-- A running `curenv` becomes runnable, and nothing else changes. -/
theorem demote_cases (s : Kernel n) (c : Fin n) : s.demote c = s ∨
    ∃ cur, s.cpuEnv c = some cur ∧ (s.envs cur).envStatus = .running ∧
      s.demote c = s.setStatus cur .runnable := by
  by_cases h : ∃ cur, s.cpuEnv c = some cur ∧ (s.envs cur).envStatus = .running
  · obtain ⟨cur, hcur, hst⟩ := h
    exact Or.inr ⟨cur, hcur, hst, demote_running hcur hst⟩
  · exact Or.inl (demote_eq_self fun hcur hst => h ⟨_, hcur, hst⟩)

@[simp] theorem demote_log : (s.demote c).log = s.log := by
  rcases demote_cases s c with h | ⟨cur, -, -, h⟩ <;> rw [h]
  rfl

@[simp] theorem demote_mem : (s.demote c).mem = s.mem := by
  rcases demote_cases s c with h | ⟨cur, -, -, h⟩ <;> rw [h]
  rfl

theorem demote_cpuEnv (s : Kernel n) (c : Fin n) : (s.demote c).cpuEnv = s.cpuEnv := by
  rcases demote_cases s c with h | ⟨cur, -, -, h⟩ <;> rw [h]
  rfl

@[simp] theorem demote_pgdir (e : EnvIdx) :
    ((s.demote c).envs e).envPgdir = (s.envs e).envPgdir := by
  rcases demote_cases s c with h | ⟨cur, -, -, h⟩ <;> rw [h]
  simp only [Kernel.setStatus, Kernel.setEnv, Function.update_apply]
  split <;> simp [*]

theorem envRun_wp : Comp.wp (envRun c e) (fun _ _ => False) (Exit M c s)
    (fun t => t.log = s.log) s := by
  unfold envRun
  simp only [Comp.wp_bind, Comp.wp_modify, Comp.wp_get, Comp.wp_ite, Comp.wp_stop, demote_log,
    implies_true, true_and]
  intro hrunnable
  cases hdir : ((s.demote c).envs e).envPgdir with
  | none => simp
  | some d =>
      simp only [Comp.wp_bind, Comp.wp_modify, Comp.wp_exit]
      exact Exit.run (not_not.mp hrunnable) (by simpa using hdir)

theorem schedHalt_wp (hcur : ∀ cur, s.cpuEnv c = some cur → (s.envs cur).envStatus ≠ .running)
    (hnone : ∀ e, (s.envs e).envStatus ≠ .runnable) :
    Comp.wp (schedHalt M c) (fun _ _ => False) (Exit M c s) (fun t => t.log = s.log) s := by
  unfold schedHalt
  simp only [Comp.wp_bind, Comp.wp_modify, Comp.wp_get, Comp.wp_ite, Comp.wp_stop, Comp.wp_exit]
  exact ⟨fun _ => .halt hcur hnone, fun _ => trivial⟩

theorem mem_schedOrder (cur : Option EnvIdx) (e : EnvIdx) : e ∈ schedOrder cur := by
  have he : (e : ℕ) < 1024 := e.isLt
  simp only [schedOrder, List.mem_map, List.mem_range]
  cases cur with
  | none => exact ⟨e, he, by ext; simp⟩
  | some a =>
      have ha : (a : ℕ) < 1024 := a.isLt
      refine ⟨(e + 1023 - a) % 1024, by omega, ?_⟩
      ext
      simp only [Fin.val_ofNat]
      omega

theorem schedYield_wp : Comp.wp (schedYield M c) (fun _ _ => False) (Exit M c s)
    (fun t => t.log = s.log) s := by
  unfold schedYield
  simp only [Comp.wp_bind, Comp.wp_get]
  generalize horder : schedOrder (s.cpuEnv c) = order
  have hmem : ∀ e, e ∈ order := fun e => horder ▸ mem_schedOrder _ e
  cases hfind : order.find? fun e => (s.envs e).envStatus = .runnable with
  | some e => exact envRun_wp
  | none =>
      have hnone (e : EnvIdx) : (s.envs e).envStatus ≠ .runnable := by
        simpa using List.find?_eq_none.mp hfind e (hmem e)
      cases hcur : s.cpuEnv c with
      | none => exact schedHalt_wp (by simp [hcur]) hnone
      | some cur =>
          simp only [Comp.wp_ite]
          refine ⟨fun _ => envRun_wp, fun hst => schedHalt_wp ?_ hnone⟩
          intro cur' hcur'
          rwa [← Option.some.inj (hcur.symm.trans hcur')]

theorem envFree_wp : Comp.wp (envFree M c e) (fun _ t => Freed M c e s t) (fun _ => False)
    (fun t => t.log = .envFree c e s.cpuEnv :: s.log) s := by
  unfold envFree
  simp only [Comp.wp_bind, Comp.wp_modify, Comp.wp_get]
  split
  · exact Comp.wp_stop _ |>.mpr rfl
  · rename_i d hdir
    simp only [Comp.wp_bind, wp_changeMem, Comp.wp_modify]
    exact ⟨fun m hmem => .mk hdir hmem, fun _ _ => rfl⟩

theorem Freed.cpuEnv {u : Kernel n} (h : Freed M c e s u) : u.cpuEnv = s.cpuEnv := by
  cases h
  rfl

/-- A computation handles request `q` of `curenv`. -/
def Handles {α : Type} (M : Machine) (c : Fin n) (cur : EnvIdx) (q : Request) (s : Kernel n)
    (m : KM n α) : Prop :=
  Comp.wp m (fun _ t => Call M c cur q s t) (fun t => ∃ u, Call M c cur q s u ∧ Exit M c u t)
    (Stopped M c cur q s) s

variable {q : Request}

theorem stopped_of_log {t : Kernel n} (h : t.log = s.log) : Stopped M c cur q s t :=
  .after .skip h

theorem yield_after {R : Unit → Kernel n → Prop} {u : Kernel n} (hcall : Call M c cur q s u) :
    Comp.wp (schedYield M c) R (fun t => ∃ u, Call M c cur q s u ∧ Exit M c u t)
      (Stopped M c cur q s) u :=
  schedYield_wp.mono (fun _ _ h => h.elim) (fun _ h => ⟨_, hcall, h⟩)
    (fun _ h => .after hcall h)

theorem envDestroy_self {R : Unit → Kernel n → Prop} (hcur : s.cpuEnv c = some cur) :
    Comp.wp (envDestroy M c cur) R (fun t => ∃ u, Call M c cur q s u ∧ Exit M c u t)
      (Stopped M c cur q s) s := by
  unfold envDestroy
  simp only [Comp.wp_bind, Comp.wp_get, Comp.wp_ite, hcur, ne_eq, not_true, and_false,
    false_implies, not_false_eq_true, true_implies, true_and]
  refine envFree_wp.mono (fun _ u hfree => ?_) (fun _ h => h.elim)
    (fun _ h => .freeing (.self hcur) h)
  simp only [hfree.cpuEnv, hcur, Comp.wp_modify, true_implies, not_true, false_implies, and_true]
  exact yield_after (.destroySelf hcur hfree)

theorem sysEnvDestroy_handles (hcur : s.cpuEnv c = some cur) (hno : q.no = some .envDestroy) :
    Handles M c cur q s (sysEnvDestroy M c cur q.a1) := by
  unfold Handles sysEnvDestroy
  simp only [Comp.wp_bind, Comp.wp_get]
  cases he : envid2env s cur q.a1 true with
  | none => exact (Comp.wp_pure _).mpr .skip
  | some e =>
      simp only [Comp.wp_bind, Comp.wp_modify, Comp.wp_pure]
      by_cases hself : s.cpuEnv c = some e
      · obtain rfl : cur = e := Option.some.inj (hcur.symm.trans hself)
        exact envDestroy_self hcur
      · unfold envDestroy
        simp only [Comp.wp_bind, Comp.wp_get, Comp.wp_ite, Comp.wp_modify]
        refine ⟨fun h => .dying hno he h.1 h.2, fun h => ?_⟩
        have hst : (s.envs e).envStatus ≠ .running := fun hst => h ⟨hst, hself⟩
        refine envFree_wp.mono (fun _ u hfree => ?_) (fun _ h => h.elim)
          (fun _ h => .freeing (.other hno he hself hst) h)
        rw [hfree.cpuEnv]
        exact ⟨fun h => absurd h hself, fun _ =>
          (Comp.wp_pure _).mpr (.destroyOther hno he hself hst hfree)⟩

theorem sysCputs_handles {str len : Word} (hcur : s.cpuEnv c = some cur) :
    Handles M c cur q s (sysCputs M c cur str len) := by
  unfold Handles sysCputs userMemAssert withPgdir
  simp only [Comp.wp_bind, Comp.wp_get]
  cases hdir : (s.envs cur).envPgdir with
  | none => exact (Comp.wp_stop _).mpr (stopped_of_log rfl)
  | some d =>
      simp only [Comp.wp_bind, wp_readMem]
      refine ⟨fun addr _ => ?_, fun _ _ => stopped_of_log rfl⟩
      cases addr with
      | none =>
          simp only [Comp.wp_pure]
          cases (printString (loadByte c s.mem) str len).ending with
          | done => exact (Comp.wp_pure _).mpr .skip
          | fault => exact (Comp.wp_stop _).mpr (stopped_of_log rfl)
          | diverge => exact (Comp.wp_stop _).mpr (stopped_of_log rfl)
      | some addr => exact envDestroy_self hcur

theorem sysGetenvid_handles : Handles M c cur q s (sysGetenvid cur) := by
  unfold Handles sysGetenvid
  simp only [Comp.wp_bind, Comp.wp_get, Comp.wp_pure]
  exact .skip

theorem sysEnvSetStatus_handles (hno : q.no = some .envSetStatus) :
    Handles M c cur q s (sysEnvSetStatus cur q.a1 q.a2) := by
  unfold Handles sysEnvSetStatus
  simp only [Comp.wp_bind, Comp.wp_get]
  cases hst : statusOfWord q.a2 with
  | none => exact (Comp.wp_pure _).mpr .skip
  | some st =>
      cases he : envid2env s cur q.a1 true with
      | none => exact (Comp.wp_pure _).mpr Call.skip
      | some e =>
          simp only [Comp.wp_bind, Comp.wp_modify, Comp.wp_pure]
          exact .setStatus hno hst he

theorem sysIpcRecv_handles (hno : q.no = some .ipcRecv) :
    Handles M c cur q s (sysIpcRecv M c cur q.a1) := by
  unfold Handles sysIpcRecv
  simp only [Comp.wp_ite, Comp.wp_bind, Comp.wp_modify, Comp.wp_pure]
  refine ⟨fun _ => .skip, fun h => ?_⟩
  have hdstva : q.a1 < utop → q.a1 % 0x1000#32 = 0 := fun hlt =>
    Classical.byContradiction fun hne => h ⟨hlt, hne⟩
  exact yield_after (.ipcRecv hno hdstva)

theorem sysPageUnmap_handles (hno : q.no = some .pageUnmap) :
    Handles M c cur q s (sysPageUnmap M c cur q.a1 q.a2) := by
  unfold Handles sysPageUnmap withPgdir
  simp only [Comp.wp_bind, Comp.wp_get]
  cases he : envid2env s cur q.a1 true with
  | none => exact (Comp.wp_pure _).mpr .skip
  | some e =>
      simp only [Comp.wp_ite, Comp.wp_pure, Comp.wp_bind, Comp.wp_get]
      refine ⟨fun _ => .skip, fun hva => ?_⟩
      cases hdir : (s.envs e).envPgdir with
      | none => exact (Comp.wp_stop _).mpr (stopped_of_log rfl)
      | some d =>
          simp only [Comp.wp_bind, wp_changeMem, Comp.wp_pure]
          exact ⟨fun m hremove => .pageUnmap hno he (not_not.mp hva) hdir hremove,
            fun _ _ => stopped_of_log rfl⟩

theorem sysPageAlloc_handles (hno : q.no = some .pageAlloc) :
    Handles M c cur q s (sysPageAlloc M c cur q.a1 q.a2 q.a3) := by
  unfold Handles sysPageAlloc withPgdir
  simp only [Comp.wp_bind, Comp.wp_get]
  cases he : envid2env s cur q.a1 true with
  | none => exact (Comp.wp_pure _).mpr .skip
  | some e =>
      simp only [Comp.wp_ite, Comp.wp_pure, Comp.wp_bind, wp_runMem]
      refine ⟨fun _ => .skip, fun harg => ⟨fun page m₁ halloc => ?_, fun _ _ => stopped_of_log rfl⟩⟩
      obtain ⟨hva, hperm⟩ := not_not.mp harg
      cases page with
      | none =>
          obtain ⟨-, rfl⟩ := pageAlloc_none halloc
          exact (Comp.wp_pure _).mpr .skip
      | some page =>
          simp only [Comp.wp_bind, Comp.wp_get]
          split
          · exact (Comp.wp_stop _).mpr (stopped_of_log rfl)
          · rename_i d hdir
            simp only [Comp.wp_bind, wp_runMem, Comp.wp_ite, wp_changeMem, Comp.wp_pure]
            refine ⟨fun r m₂ hinsert => ⟨?_, ?_⟩, fun _ _ => stopped_of_log rfl⟩
            · rintro rfl
              exact ⟨fun m₃ hfree =>
                .pageAllocFail hno he hva hperm hdir halloc hinsert hfree,
                fun _ _ => stopped_of_log rfl⟩
            · exact fun hr => .pageAlloc hno he hva hperm hdir halloc hinsert hr

theorem sysPageMap_handles (hno : q.no = some .pageMap) :
    Handles M c cur q s (sysPageMap M c cur q.a1 q.a2 q.a3 q.a4 q.a5) := by
  unfold Handles sysPageMap withPgdir
  simp only [Comp.wp_bind, Comp.wp_get]
  cases hsrc : envid2env s cur q.a1 true with
  | none => exact (Comp.wp_pure _).mpr .skip
  | some src =>
      cases hdst : envid2env s cur q.a3 true with
      | none => exact (Comp.wp_pure _).mpr Call.skip
      | some dst =>
          simp only [Comp.wp_ite, Comp.wp_pure, Comp.wp_bind, Comp.wp_get]
          refine ⟨fun _ => .skip, fun hva => ⟨fun _ => .skip, fun hperm => ?_⟩⟩
          obtain ⟨hsrcva, hdstva⟩ := not_not.mp hva
          cases hds : (s.envs src).envPgdir with
          | none => exact (Comp.wp_stop _).mpr (stopped_of_log rfl)
          | some ds =>
              simp only [Comp.wp_bind, wp_readMem, Comp.wp_get]
              refine ⟨fun look hlook => ?_, fun _ _ => stopped_of_log rfl⟩
              obtain ⟨pte, page⟩ := look
              cases pte with
              | none => exact (Comp.wp_pure _).mpr Call.skip
              | some a =>
                  simp only [Comp.wp_ite, Comp.wp_pure, Comp.wp_bind, Comp.wp_get]
                  refine ⟨fun _ => .skip, fun hw => ?_⟩
                  cases hdd : (s.envs dst).envPgdir with
                  | none => exact (Comp.wp_stop _).mpr (stopped_of_log rfl)
                  | some dd =>
                      simp only [Comp.wp_bind, wp_runMem, Comp.wp_ite, Comp.wp_pure]
                      refine ⟨fun r m hinsert => ?_, fun _ _ => stopped_of_log rfl⟩
                      have hcall : Call M c cur q s (s.setMem m) :=
                        .pageMap hno hsrc hdst hsrcva hdstva (not_not.mp hperm) hds hdd hlook
                          (fun hpw => Classical.byContradiction fun hn => hw ⟨hpw, hn⟩) hinsert
                      exact ⟨fun _ => hcall, fun _ => hcall⟩

/-- `env_alloc` takes the first free slot, or changes nothing. -/
theorem envAlloc_wp {parentId : Word} : Comp.wp (envAlloc M c parentId)
    (fun r t => match r with
      | .error _ => t = s
      | .ok e => ∃ d m, s.envFreeList = some e ∧
          envSetupVm M (s.ctx c) s.mem = .ok (some d, m) ∧ t = s.allocated e d m parentId)
    (fun _ => False) (fun t => t.log = s.log) s := by
  unfold envAlloc
  simp only [Comp.wp_bind, Comp.wp_get]
  cases he : s.envFreeList with
  | none => exact (Comp.wp_pure _).mpr rfl
  | some e =>
      simp only [Comp.wp_bind, wp_runMem]
      refine ⟨fun d m hsetup => ?_, fun _ _ => trivial⟩
      cases d with
      | none =>
          obtain rfl := envSetupVm_none hsetup
          exact (Comp.wp_pure _).mpr rfl
      | some d =>
          simp only [Comp.wp_bind, Comp.wp_modify, Comp.wp_pure]
          exact ⟨d, m, trivial, hsetup, rfl⟩

theorem sysExofork_handles (hno : q.no = some .exofork) :
    Handles M c cur q s (sysExofork M c cur) := by
  unfold Handles sysExofork
  simp only [Comp.wp_bind, Comp.wp_get]
  refine envAlloc_wp.mono (fun r t h => ?_) (fun _ h => h.elim) fun _ h => stopped_of_log h
  cases r with
  | error code =>
      obtain rfl : t = s := h
      exact (Comp.wp_pure _).mpr .skip
  | ok e =>
      obtain ⟨d, m, he, hsetup, rfl⟩ := h
      simp only [Comp.wp_bind, Comp.wp_modify, Comp.wp_pure, Comp.wp_get]
      have hcall : Call M c cur q s (s.forked cur e d m) := .exofork hno he hsetup
      exact hcall

@[simp] theorem ipcPerm0_pgdir (target e : EnvIdx) :
    ((s.ipcPerm0 target).envs e).envPgdir = (s.envs e).envPgdir := by
  simp only [Kernel.ipcPerm0, Kernel.setEnv, Function.update_apply]
  split <;> simp [*]

theorem ctx_ipcPerm0 (target : EnvIdx) : (s.ipcPerm0 target).ctx c = s.ctx c := by
  simp only [Kernel.ctx, ipcPerm0_pgdir]
  rfl

theorem sysIpcTrySend_handles (hno : q.no = some .ipcTrySend) :
    Handles M c cur q s (sysIpcTrySend M c cur q.a1 q.a2 q.a3 q.a4) := by
  unfold Handles sysIpcTrySend withPgdir ipcDeliver
  simp only [Comp.wp_bind, Comp.wp_get]
  cases he : envid2env s cur q.a1 false with
  | none => exact (Comp.wp_pure _).mpr .skip
  | some target =>
      simp only [Comp.wp_bind, Comp.wp_get, Comp.wp_ite, Comp.wp_pure, Comp.wp_modify]
      refine ⟨fun _ => .skip, fun hrecv => ?_⟩
      rw [Bool.not_eq_true, Bool.not_eq_false] at hrecv
      have hfail : Call M c cur q s (s.ipcPerm0 target) := .ipcFail hno he hrecv
      refine ⟨fun hpage => ?_, fun hpage => Call.ipcValue hno he hrecv hpage⟩
      split
      · exact (Comp.wp_stop _).mpr (stopped_of_log rfl)
      · rename_i ds hds
        have hds : (s.envs cur).envPgdir = some ds := (ipcPerm0_pgdir target cur).symm.trans hds
        simp only [Comp.wp_bind, wp_readMem, Comp.wp_get]
        refine ⟨fun look hlook => ?_, fun _ _ => stopped_of_log rfl⟩
        obtain ⟨pte, page⟩ := look
        cases pte with
        | none => exact (Comp.wp_pure _).mpr hfail
        | some a =>
            simp only [Comp.wp_ite, Comp.wp_pure, Comp.wp_bind, Comp.wp_get, Comp.wp_stop]
            refine ⟨fun _ => hfail, fun hcheck => ⟨fun _ => stopped_of_log rfl, fun halign => ?_⟩⟩
            split
            · exact (Comp.wp_stop _).mpr (stopped_of_log rfl)
            · rename_i dd hdd
              have hdd : (s.envs target).envPgdir = some dd :=
                (ipcPerm0_pgdir target target).symm.trans hdd
              simp only [Comp.wp_bind, wp_runMem, Comp.wp_ite, Comp.wp_pure, Comp.wp_get,
                Comp.wp_modify]
              refine ⟨fun r m hinsert => ⟨?_, fun hr => ?_⟩, fun _ _ => stopped_of_log rfl⟩
              · rintro rfl
                rcases pageInsert_ret hinsert with h0 | ⟨-, rfl⟩
                · exact absurd h0 (by decide)
                · exact hfail
              · simp only [not_or, not_and, not_not] at hcheck halign
                change pageInsert M ((s.ipcPerm0 target).ctx c) _ _ _ _ _ = _ at hinsert
                rw [ctx_ipcPerm0] at hinsert
                exact Call.ipcPage hno he hrecv ⟨hpage.1, hcheck.1⟩ ⟨hpage.2, halign⟩
                  hcheck.2.2.1 hcheck.2.2.2 hds hdd hlook hcheck.2.1 hinsert hr

/-- A send returns, and changes no environment but the one it is addressed to,
when that is receiving. -/
theorem sysIpcTrySend_envs {envid value srcva perm : Word} :
    Comp.wp (sysIpcTrySend M c cur envid value srcva perm)
      (fun _ u => ∀ e, u.envs e ≠ s.envs e → envid2env s cur envid false = some e ∧
        (s.envs e).envIpcRecving = true)
      (fun _ => False) (fun _ => True) s := by
  unfold sysIpcTrySend withPgdir ipcDeliver
  simp only [Comp.wp_bind, Comp.wp_get]
  cases he : envid2env s cur envid false with
  | none => exact (Comp.wp_pure _).mpr fun e hne => absurd rfl hne
  | some target =>
      simp only [Comp.wp_bind, Comp.wp_get, Comp.wp_ite, Comp.wp_pure, Comp.wp_modify]
      refine ⟨fun _ e hne => absurd rfl hne, fun hrecv => ?_⟩
      rw [Bool.not_eq_true, Bool.not_eq_false] at hrecv
      have htarget {u : Kernel n} (hother : ∀ e, e ≠ target → u.envs e = s.envs e) (e : EnvIdx)
          (hne : u.envs e ≠ s.envs e) :
          some target = some e ∧ (s.envs e).envIpcRecving = true := by
        obtain rfl : e = target := by
          by_contra heq
          exact hne (hother e heq)
        exact ⟨rfl, hrecv⟩
      refine ⟨fun _ => ?_, fun _ => htarget fun e hne => ?_⟩
      · split
        · exact (Comp.wp_stop _).mpr trivial
        · simp only [Comp.wp_bind, wp_readMem, Comp.wp_get]
          refine ⟨fun look _ => ?_, fun _ _ => trivial⟩
          obtain ⟨pte, page⟩ := look
          cases pte with
          | none =>
              refine (Comp.wp_pure _).mpr (htarget fun e hne => ?_)
              simp [Kernel.setEnv, hne]
          | some a =>
              simp only [Comp.wp_ite, Comp.wp_pure, Comp.wp_bind, Comp.wp_get, Comp.wp_stop]
              refine ⟨fun _ => htarget fun e hne => ?_, fun _ => ⟨fun _ => trivial, fun _ => ?_⟩⟩
              · simp [Kernel.setEnv, hne]
              split
              · exact (Comp.wp_stop _).mpr trivial
              · simp only [Comp.wp_bind, wp_runMem, Comp.wp_ite, Comp.wp_pure, Comp.wp_get,
                  Comp.wp_modify]
                refine ⟨fun _ _ _ => ⟨fun _ => htarget fun e hne => ?_,
                  fun _ => htarget fun e hne => ?_⟩, fun _ _ => trivial⟩
                · simp [Kernel.setEnv, Kernel.setMem, hne]
                · simp [Kernel.setEnv, Kernel.setMem, Kernel.emit, hne]
      · simp [Kernel.setEnv, Kernel.emit, hne]

theorem syscall_handles {input : Word} {tf : Trapframe} (hcur : s.cpuEnv c = some cur)
    (htf : tf.tfTrapno = tSyscall) :
    Handles M c cur tf.request s
      (syscall M c cur input tf.tfRegs.regEax tf.tfRegs.regEdx tf.tfRegs.regEcx
        tf.tfRegs.regEbx tf.tfRegs.regEdi tf.tfRegs.regEsi) := by
  have hno : tf.request.no = Sysno.ofWord tf.tfRegs.regEax := if_pos htf
  unfold syscall
  cases hsys : Sysno.ofWord tf.tfRegs.regEax with
  | none => exact (Comp.wp_pure _).mpr Call.skip
  | some no =>
      rw [hsys] at hno
      cases no with
      | cputs =>
          refine Comp.wp_bind.mpr ?_
          exact (sysCputs_handles hcur).mono (fun _ _ h => (Comp.wp_pure _).mpr h)
            (fun _ h => h) (fun _ h => h)
      | cgetc => exact (Comp.wp_pure _).mpr Call.skip
      | getenvid => exact sysGetenvid_handles
      | envDestroy => exact sysEnvDestroy_handles hcur hno
      | pageAlloc => exact sysPageAlloc_handles hno
      | pageMap => exact sysPageMap_handles hno
      | pageUnmap => exact sysPageUnmap_handles hno
      | exofork => exact sysExofork_handles hno
      | envSetStatus => exact sysEnvSetStatus_handles hno
      | envSetPgfaultUpcall => exact (Comp.wp_pure _).mpr Call.skip
      | yield => exact Comp.wp_bind.mpr (yield_after Call.skip)
      | ipcTrySend => exact sysIpcTrySend_handles hno
      | ipcRecv => exact sysIpcRecv_handles hno

/-- The result of a system call goes into the saved registers of the caller. -/
def Returned (cur : EnvIdx) (tf : Trapframe) (u v : Kernel n) : Prop :=
  v = u ∨ tf.tfTrapno = tSyscall ∧ ∃ r, v = u.setTf cur ((u.envs cur).envTf.setEax r)

theorem trap_apply {tf : Trapframe} {input : Word} (hcur : s.cpuEnv c = some cur)
    (hst : (s.envs cur).envStatus ≠ .dying) :
    trap M c tf input s = (trapDispatch M c cur input >>= fun _ =>
      Comp.get >>= fun s => match s.cpuEnv c with
        | some e => if (s.envs e).envStatus = .running then envRun c e else schedYield M c
        | none => schedYield M c) (s.setTf cur tf) := by
  simp only [trap, Comp.bind_apply, Comp.get_apply, hcur, if_neg hst, Comp.modify_apply]
  rfl

/-- A trap of an environment that is not being destroyed. -/
theorem trap_wp {tf : Trapframe} {input : Word} (hcur : s.cpuEnv c = some cur)
    (hst : (s.envs cur).envStatus ≠ .dying) :
    Comp.wp (trap M c tf input) (fun _ _ => False)
      (fun t => ∃ u v, Call M c cur tf.request (s.setTf cur tf) u ∧ Returned cur tf u v ∧
        Exit M c v t)
      (Stopped M c cur tf.request (s.setTf cur tf)) s := by
  unfold trap
  simp only [Comp.wp_bind, Comp.wp_get, hcur, Comp.wp_ite, hst, false_implies, not_false_eq_true,
    true_implies, true_and, Comp.wp_modify]
  change Comp.wp (trapDispatch M c cur input) _ _ _ (s.setTf cur tf)
  have hcur' : (s.setTf cur tf).cpuEnv c = some cur := hcur
  have htf : ((s.setTf cur tf).envs cur).envTf = tf := by simp [Kernel.setTf, Kernel.setEnv]
  -- the end of `trap`, once the request has returned
  have hend {u v : Kernel n} (hcall : Call M c cur tf.request (s.setTf cur tf) u)
      (hret : Returned cur tf u v) (hlog : v.log = u.log) :
      Comp.wp (match v.cpuEnv c with
        | some e => if (v.envs e).envStatus = .running then envRun c e else schedYield M c
        | none => schedYield M c : KM n Unit) (fun _ _ => False)
        (fun t => ∃ u v, Call M c cur tf.request (s.setTf cur tf) u ∧ Returned cur tf u v ∧
          Exit M c v t) (Stopped M c cur tf.request (s.setTf cur tf)) v := by
    have hexit {m : KM n Unit} (hm : Comp.wp m (fun _ _ => False) (Exit M c v)
        (fun t => t.log = v.log) v) :
        Comp.wp m (fun _ _ => False)
          (fun t => ∃ u v, Call M c cur tf.request (s.setTf cur tf) u ∧ Returned cur tf u v ∧
            Exit M c v t) (Stopped M c cur tf.request (s.setTf cur tf)) v :=
      hm.mono (fun _ _ h => h) (fun t h => ⟨u, v, hcall, hret, h⟩)
        (fun t h => .after hcall (h.trans hlog))
    cases v.cpuEnv c with
    | none => exact hexit schedYield_wp
    | some e =>
        simp only [Comp.wp_ite]
        exact ⟨fun _ => hexit envRun_wp, fun _ => hexit schedYield_wp⟩
  have hleave {m : KM n Unit} (hm : Comp.wp m (fun _ _ => False)
      (fun t => ∃ u, Call M c cur tf.request (s.setTf cur tf) u ∧ Exit M c u t)
      (Stopped M c cur tf.request (s.setTf cur tf)) (s.setTf cur tf)) {R : Unit → Kernel n → Prop} :
      Comp.wp m R (fun t => ∃ u v, Call M c cur tf.request (s.setTf cur tf) u ∧
        Returned cur tf u v ∧ Exit M c v t)
        (Stopped M c cur tf.request (s.setTf cur tf)) (s.setTf cur tf) :=
    hm.mono (fun _ _ h => h.elim) (fun t h => h.imp fun u h => ⟨u, h.1, .inl rfl, h.2⟩)
      (fun _ h => h)
  unfold trapDispatch pageFaultHandler
  simp only [Comp.wp_bind, Comp.wp_get, Comp.wp_ite, Comp.wp_stop, Comp.wp_modify, Comp.wp_pure,
    htf]
  refine ⟨fun _ => stopped_of_log rfl, fun _ => ⟨fun _ => hleave (envDestroy_self hcur'),
    fun _ => ⟨fun hsys => ?_, fun _ => ⟨fun _ => hend .skip (.inl rfl) rfl,
      fun _ => ⟨fun _ => hleave (yield_after .skip), fun _ => hleave (envDestroy_self hcur')⟩⟩⟩⟩⟩
  refine (syscall_handles hcur' hsys).mono (fun r u hcall => ?_)
    (fun t h => h.imp fun u h => ⟨u, h.1, .inl rfl, h.2⟩) (fun _ h => h)
  exact hend hcall (.inr ⟨hsys, r, rfl⟩) rfl

/-- A trap of a zombie. -/
theorem trap_dying_wp {tf : Trapframe} {input : Word} (hcur : s.cpuEnv c = some cur)
    (hst : (s.envs cur).envStatus = .dying) :
    Comp.wp (trap M c tf input) (fun _ _ => False)
      (fun t => ∃ u, Freed M c cur s u ∧ Exit M c (u.setCur c none) t)
      (fun t => t.log = .envFree c cur s.cpuEnv :: s.log) s := by
  unfold trap
  simp only [Comp.wp_bind, Comp.wp_get, hcur, Comp.wp_ite, hst, not_true, false_implies,
    true_implies, and_true, Comp.wp_modify]
  refine envFree_wp.mono (fun _ u hfree => ?_) (fun _ h => h.elim) (fun _ h => h)
  refine schedYield_wp.mono (fun _ _ h => h) (fun t hexit => ⟨u, hfree, hexit⟩) fun t hlog => ?_
  cases hfree
  exact hlog

/-! ### Steps -/

/-- What a step is: the last trap of a zombie, a kernel entry with one change,
or a CPU that starts to schedule, fills its TLB or stores a word. -/
inductive Taken (M : Machine) (s : Kernel n) : Label n → Kernel n → Prop
  | zombie {c tf input cur u t} (hcur : s.cpuEnv c = some cur)
      (hst : (s.envs cur).envStatus = .dying) (hfree : Freed M c cur s u)
      (hexit : Exit M c (u.setCur c none) t) : Taken M s (.trap c tf input) t
  | entry {c tf input cur u v t} (hcur : s.cpuEnv c = some cur)
      (hst : (s.envs cur).envStatus ≠ .dying)
      (hcall : Call M c cur tf.request (s.setTf cur tf) u) (hret : Returned cur tf u v)
      (hexit : Exit M c v t) : Taken M s (.trap c tf input) t
  | tick {c t} (hidle : s.cpuEnv c = none) (hexit : Exit M c s t) : Taken M s (.tick c) t
  | fill {c va frame} (hexec : s.cpuEnv c ≠ none)
      (hread : userRead s.mem (s.mem.cr3 c) va = some frame) :
      Taken M s (.fill c va) (s.setMem { s.mem with
        tlb := Function.update s.mem.tlb c ((pgnum va, frame) :: s.mem.tlb c) })
  | store {c va w frame} (hexec : s.cpuEnv c ≠ none)
      (hwrite : userWrite s.mem (s.mem.cr3 c) va = some frame) :
      Taken M s (.store c va w) (s.setMem (s.mem.store frame (wordIdx va) w))

theorem left_eq_some {α : Type} {o : Outcome (Kernel n) Stop α} {t : Kernel n} :
    left o = some t ↔ o = .leave t := by
  cases o <;> simp [left]

theorem Step.taken {l : Label n} {t : Kernel n} (h : Step M s l t) : Taken M s l t := by
  unfold Step step at h
  cases l with
  | trap c tf input =>
      simp only [Option.ite_none_left_eq_some, left_eq_some] at h
      obtain ⟨hexec, hrun⟩ := h
      obtain ⟨cur, hcur⟩ := Option.ne_none_iff_exists'.mp hexec
      by_cases hst : (s.envs cur).envStatus = .dying
      · obtain ⟨u, hfree, hexit⟩ := (trap_dying_wp hcur hst).leave hrun
        exact .zombie hcur hst hfree hexit
      · obtain ⟨u, v, hcall, hret, hexit⟩ := (trap_wp hcur hst).leave hrun
        exact .entry hcur hst hcall hret hexit
  | tick c =>
      simp only [Option.ite_none_right_eq_some, left_eq_some] at h
      exact .tick h.1 (schedYield_wp.leave h.2)
  | fill c va =>
      simp only [Option.ite_none_left_eq_some, Option.map_eq_some_iff] at h
      obtain ⟨hexec, frame, hread, rfl⟩ := h
      exact .fill hexec hread
  | store c va w =>
      simp only [Option.ite_none_left_eq_some, Option.map_eq_some_iff] at h
      obtain ⟨hexec, frame, hwrite, rfl⟩ := h
      exact .store hexec hwrite

end Jos
