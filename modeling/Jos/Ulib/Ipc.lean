import Jos.Kern.Syscall

/-!
lib/ipc.c without pages: `ipc_send` and `ipc_recv` with a null `pg`, for which
they pass `UTOP` to the kernel. What the two system calls then do is a
rendezvous on a few fields of `struct Env`.
-/

namespace Jos

open Jos.Lib

/-- The fields of `struct Env` that a send of a value reads and writes. `ready`
tells that the environment may execute. -/
structure Ipc (V : Type) where
  recving : Bool
  value : V
  ready : Bool

/-- `sys_ipc_recv`. -/
def Ipc.recv {V : Type} (e : Ipc V) : Ipc V := { e with recving := true, ready := false }

/-- A successful `sys_ipc_try_send`. -/
def Ipc.deliver {V : Type} (e : Ipc V) (value : V) : Ipc V :=
  { e with recving := false, value := value, ready := true }

/-! ### The kernel -/

def Env.ipc (e : Env) : Ipc Word :=
  ⟨e.envIpcRecving, e.envIpcValue, e.envStatus = .runnable ∨ e.envStatus = .running⟩

variable {n : ℕ} {M : Machine} {s : Kernel n} {c : Fin n} {cur : EnvIdx}

theorem ipcDeliver_ipc (target : EnvIdx) (value perm : Word) (page : Option ℕ) :
    ∃ t, ipcDeliver cur target value perm page s = .ret 0 t ∧
      ∀ e, (t.envs e).ipc =
        if e = target then (s.envs e).ipc.deliver value else (s.envs e).ipc := by
  refine ⟨_, rfl, fun e => ?_⟩
  simp only [Kernel.emit, Kernel.setEnv]
  by_cases he : e = target
  · subst he
    rw [Function.update_self, if_pos rfl]
    rfl
  · rw [Function.update_of_ne he, if_neg he]

/-- A send of a value fails where the target does not wait, and changes nothing
then; else it is a delivery to the target. -/
theorem sysIpcTrySend_ipc (envid value perm : Word) :
    (envid2env s cur envid false = none ∧
      sysIpcTrySend M c cur envid value utop perm s = .ret (-eBadEnv) s) ∨
    ∃ target, envid2env s cur envid false = some target ∧
      if (s.envs target).ipc.recving then
        ∃ t, sysIpcTrySend M c cur envid value utop perm s = .ret 0 t ∧
          ∀ e, (t.envs e).ipc =
            if e = target then (s.envs e).ipc.deliver value else (s.envs e).ipc
      else sysIpcTrySend M c cur envid value utop perm s = .ret (-eIpcNotRecv) s := by
  have hutop : ¬ (utop < utop) := by decide
  cases htarget : envid2env s cur envid false with
  | none => exact Or.inl ⟨rfl, by simp [sysIpcTrySend, Comp.bind_apply, htarget]⟩
  | some target =>
      refine Or.inr ⟨target, rfl, ?_⟩
      show if (s.envs target).envIpcRecving then _ else _
      cases hrecv : (s.envs target).envIpcRecving with
      | false => simp [sysIpcTrySend, Comp.bind_apply, htarget, hrecv]
      | true =>
          -- the page fields are reset first, which the receiver does not see
          let s₁ := s.setEnv target { s.envs target with envIpcPerm := 0 }
          have hs₁ (e : EnvIdx) : (s₁.envs e).ipc = (s.envs e).ipc := by
            simp only [s₁, Kernel.setEnv]
            by_cases he : e = target
            · subst he
              rw [Function.update_self]
              rfl
            · rw [Function.update_of_ne he]
          obtain ⟨t, hdeliver, ht⟩ := @ipcDeliver_ipc n s₁ cur target value 0 none
          refine ⟨t, ?_, fun e => ?_⟩
          · rw [← hdeliver]
            simp [sysIpcTrySend, Comp.bind_apply, htarget, hrecv, s₁]
          · rw [ht, hs₁]

/-- `sys_ipc_recv` blocks the caller and gives up the CPU. -/
theorem sysIpcRecv_ipc : ∃ t : Kernel n,
    sysIpcRecv M c cur utop s = (schedYield M c >>= fun _ => pure 0) t ∧
      ∀ e, (t.envs e).ipc = if e = cur then (s.envs e).ipc.recv else (s.envs e).ipc := by
  have hutop : ¬ (utop < utop ∧ utop % 0x1000#32 ≠ 0) := by decide
  let s₁ := s.setEnv cur { s.envs cur with
    envIpcDstva := utop, envIpcRecving := true, envStatus := .notRunnable }
  refine ⟨s₁.emit (.ipcRecv cur utop), ?_, fun e => ?_⟩
  · rw [sysIpcRecv, if_neg hutop]
    simp only [Comp.bind_apply, Comp.modify_apply, s₁]
  simp only [Kernel.emit, Kernel.setEnv, s₁]
  by_cases he : e = cur
  · subst he
    rw [Function.update_self, if_pos rfl]
    rfl
  · rw [Function.update_of_ne he, if_neg he]

end Jos
