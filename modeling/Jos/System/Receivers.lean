import Jos.Lib.Since
import Jos.System.Execution

/-!
Receivers. `sys_ipc_recv` sets `env_ipc_recving` and blocks the caller, and a
send undoes both. In the runs where `sys_env_set_status` wakes no receiver, an
environment that is receiving is blocked, and a send only completes the
`sys_ipc_recv` that its target made last.
-/

namespace Jos

open Jos.Lib

variable {n : ℕ} {M : Machine} {L : Layout M} {b c : Fin n} {s t u : Kernel n}
  {cur e : EnvIdx} {k : Option (Fin n)} {q : Request} {tf : Trapframe} {ev : Event n}

/-! ### Receiving -/

def Event.beginsRecv (e : EnvIdx) : Event n → Prop
  | .ipcRecv e' _ => e' = e
  | _ => False

/-- The environment runs again, has got a value, or is a new one. -/
def Event.endsRecv (e : EnvIdx) : Event n → Prop
  | .envAlloc e' => e' = e
  | .envRun _ e' => e' = e
  | .ipcSend e' _ _ _ _ => e' = e
  | _ => False

/-- `e` has called `sys_ipc_recv`, has not run since, and no send has
completed the call. -/
def AwaitsSend (e : EnvIdx) : List (Event n) → Prop :=
  Since (Event.beginsRecv e) (Event.endsRecv e)

/-- A receiver is blocked in `sys_ipc_recv`. -/
structure Blocked (s : Kernel n) (e : EnvIdx) : Prop where
  status : (s.envs e).envStatus = .notRunnable
  idle : ∀ c, s.cpuEnv c ≠ some e
  awaits : AwaitsSend e s.log

/-- Every receiver is blocked; what has been sent has completed a
`sys_ipc_recv`; and a send that comes next changes no environment but one that
is blocked. -/
structure ReceiversBlocked (M : Machine) (s : Kernel n) : Prop where
  blocked : ∀ e, (s.envs e).envStatus ≠ .free → (s.envs e).envIpcRecving = true → Blocked s e
  sends : ∀ {l₁ l₂ e value source perm page},
    s.log = l₁ ++ Event.ipcSend e value source perm page :: l₂ → AwaitsSend e l₂
  unaffected : ∀ {c cur tf envid value srcva perm r u e}, s.cpuEnv c = some cur →
    sysIpcTrySend M c cur envid value srcva perm (s.setTf cur tf) = .ret r u →
    u.envs e ≠ ((s.setTf cur tf).envs e) → Blocked s e

/-- `sys_env_set_status` and `sys_env_destroy` respect the environments that
execute on other CPUs, and `sys_env_set_status` wakes no receiver. -/
structure RecvOk (c : Fin n) (cur : EnvIdx) (q : Request) (s : Kernel n) : Prop where
  status : StatusOk c cur q s
  destroy : DestroyOk c cur q s
  wake : ∀ {e}, q.no = some .envSetStatus → statusOfWord q.a2 = some .runnable →
    envid2env s cur q.a1 true = some e → (s.envs e).envIpcRecving = false

/-! ### The invariant -/

/-- A live environment that is receiving does not execute, but for the one that
has just called `sys_ipc_recv` on CPU `k`. -/
structure RecvInv (k : Option (Fin n)) (s : Kernel n) : Prop where
  status : ∀ {e}, (s.envs e).envStatus ≠ .free → (s.envs e).envIpcRecving = true →
    (s.envs e).envStatus = .notRunnable
  idle : ∀ {e c}, (s.envs e).envStatus ≠ .free → (s.envs e).envIpcRecving = true →
    s.cpuEnv c = some e → k = some c
  awaits : ∀ {e}, (s.envs e).envStatus ≠ .free → (s.envs e).envIpcRecving = true →
    AwaitsSend e s.log
  sends : ∀ {l₁ l₂ e value source perm page},
    s.log = l₁ ++ Event.ipcSend e value source perm page :: l₂ → AwaitsSend e l₂

namespace RecvInv

theorem enter (h : RecvInv none s) : RecvInv (some c) s :=
  ⟨h.status, fun hlive hrecv hc => absurd (h.idle hlive hrecv hc) (by simp), h.awaits, h.sends⟩

/-- An environment that is not blocked is not receiving. -/
theorem recving (h : RecvInv k s) (hlive : (s.envs e).envStatus ≠ .free)
    (hst : (s.envs e).envStatus ≠ .notRunnable) : (s.envs e).envIpcRecving = false := by
  by_contra hrecv
  exact hst (h.status hlive (by simpa using hrecv))

/-- No event, and no environment becomes a receiver or leaves its status as
one. -/
theorem congr (h : RecvInv k s) (hcpu : ∀ c e, t.cpuEnv c = some e → s.cpuEnv c = some e)
    (hlog : t.log = s.log)
    (hrecv : ∀ e, (t.envs e).envStatus ≠ .free → (t.envs e).envIpcRecving = true →
      (s.envs e).envStatus ≠ .free ∧ (s.envs e).envIpcRecving = true ∧
        ((s.envs e).envStatus = .notRunnable → (t.envs e).envStatus = .notRunnable)) :
    RecvInv k t where
  status {e} hlive hr := by
    obtain ⟨hlive', hr', hst⟩ := hrecv e hlive hr
    exact hst (h.status hlive' hr')
  idle {e c} hlive hr hc := by
    obtain ⟨hlive', hr', -⟩ := hrecv e hlive hr
    exact h.idle hlive' hr' (hcpu c e hc)
  awaits {e} hlive hr := by
    obtain ⟨hlive', hr', -⟩ := hrecv e hlive hr
    rw [hlog]
    exact h.awaits hlive' hr'
  sends := by
    rw [hlog]
    exact h.sends

theorem setEnv {v : Env} (h : RecvInv k s)
    (hrecv : v.envStatus ≠ .free → v.envIpcRecving = true →
      (s.envs e).envStatus ≠ .free ∧ (s.envs e).envIpcRecving = true ∧
        ((s.envs e).envStatus = .notRunnable → v.envStatus = .notRunnable)) :
    RecvInv k (s.setEnv e v) := by
  refine h.congr (fun _ _ => id) rfl fun e' hlive hr => ?_
  by_cases he : e' = e
  · subst he
    simp only [Kernel.setEnv, Function.update_self] at hlive hr ⊢
    exact hrecv hlive hr
  · simp only [Kernel.setEnv, Function.update_of_ne he] at hlive hr ⊢
    exact ⟨hlive, hr, id⟩

/-- Environment `e` stops being a receiver, or never was one. -/
theorem setEnv_idle {v : Env} (h : RecvInv k s) (hrecv : v.envIpcRecving = false) :
    RecvInv k (s.setEnv e v) := h.setEnv fun _ hr => by simp [hrecv] at hr

theorem setMem {m : Mem n} (h : RecvInv k s) : RecvInv k (s.setMem m) :=
  h.congr (fun _ _ => id) rfl fun _ hlive hr => ⟨hlive, hr, id⟩

theorem setCur (h : RecvInv k s) : RecvInv k (s.setCur c none) := by
  refine h.congr (fun c' e hc => ?_) rfl fun _ hlive hr => ⟨hlive, hr, id⟩
  by_cases heq : c' = c
  · subst heq
    simp [Kernel.setCur] at hc
  · simpa [Kernel.setCur, heq] using hc

theorem setTf (h : RecvInv k s) : RecvInv k (s.setTf e tf) :=
  h.setEnv fun hlive hr => ⟨hlive, hr, id⟩

/-- An event that ends no call of a receiver. -/
theorem emit (h : RecvInv k s)
    (hends : ∀ e, (s.envs e).envStatus ≠ .free → (s.envs e).envIpcRecving = true →
      ¬ ev.endsRecv e)
    (hsend : ∀ {e value source perm page}, ev = .ipcSend e value source perm page →
      AwaitsSend e s.log) : RecvInv k (s.emit ev) where
  status := h.status
  idle := h.idle
  awaits {e} hlive hr := Or.inr ⟨hends e hlive hr, h.awaits hlive hr⟩
  sends {l₁ l₂ e value source perm page} hlog := by
    cases l₁ with
    | nil =>
        obtain ⟨heq, rfl⟩ := List.cons.inj hlog
        exact hsend heq
    | cons a l₁ => exact h.sends (List.cons.inj hlog).2

/-! ### Requests -/

theorem freed {m : Mem n} (h : RecvInv k s) : RecvInv k (s.freed c e m) := by
  have hemit : RecvInv k (s.emit (.envFree c e s.cpuEnv)) :=
    h.emit (fun _ _ _ => id) nofun
  have hset := hemit.setMem (m := m) |>.setEnv (e := e)
    (v := { s.envs e with envPgdir := none, envStatus := .free, envLink := s.envFreeList })
    fun hlive => absurd rfl hlive
  exact hset.congr (fun _ _ => id) rfl fun _ hlive hr => ⟨hlive, hr, id⟩

theorem forked {d : ℕ} {m : Mem n} (h : RecvInv k s) : RecvInv k (s.forked cur e d m) := by
  have hset := h.setMem (m := m) |>.setEnv_idle (e := e)
    (v := { s.envs e with
      envPgdir := some d, envId := nextEnvId (s.envs e).envId e
      envParentId := (s.envs cur).envId, envStatus := .runnable, envRuns := 0,
      envTf := initialTrapframe, envPgfaultUpcall := 0, envIpcRecving := false }) rfl
  have hemit := @emit _ _ _ (.envAlloc e) hset (fun e' hlive hr => ?_) nofun
  · have halloc : RecvInv k (s.allocated e d m (s.envs cur).envId) :=
      hemit.congr (fun _ _ => id) rfl fun _ hlive hr => ⟨hlive, hr, id⟩
    refine (halloc.setEnv_idle ?_).setTf
    simp [Kernel.allocated_self]
  · rintro rfl
    simp [Kernel.setEnv] at hr

theorem delivered {target : EnvIdx} {value perm : Word} {page : Option ℕ} (h : RecvInv k s)
    (hlive : (s.envs target).envStatus ≠ .free)
    (hrecv : (s.envs target).envIpcRecving = true) :
    RecvInv k (s.delivered cur target value perm page) := by
  have hawaits := h.awaits hlive hrecv
  refine RecvInv.emit (h.setEnv_idle rfl) (fun e' _ hr => ?_) fun heq => ?_
  · rintro rfl
    simp [Kernel.setEnv] at hr
  · obtain ⟨rfl, -⟩ := Event.ipcSend.inj heq
    exact hawaits

/-- The caller becomes a receiver, which no other CPU executes. -/
theorem received {dstva : Word} (h : RecvInv (some c) s) (henvs : EnvInv (some c) s)
    (hcur : s.cpuEnv c = some cur) : RecvInv (some c) (s.received cur dstva) where
  status {e} hlive hr := by
    by_cases he : e = cur
    · subst he
      simp [Kernel.received, Kernel.setEnv, Kernel.emit]
    · rw [Kernel.received_of_ne he] at hlive hr ⊢
      exact h.status hlive hr
  idle {e c'} hlive hr hc := by
    by_cases he : e = cur
    · subst he
      rw [henvs.uniq hc hcur]
    · rw [Kernel.received_of_ne he] at hlive hr
      exact h.idle hlive hr hc
  awaits {e} hlive hr := by
    by_cases he : e = cur
    · subst he
      exact Or.inl rfl
    · rw [Kernel.received_of_ne he] at hlive hr
      exact Or.inr ⟨id, h.awaits hlive hr⟩
  sends {l₁ l₂ e value source perm page} hlog := by
    cases l₁ with
    | nil => cases (List.cons.inj hlog).1
    | cons a l₁ => exact h.sends (List.cons.inj hlog).2

theorem call (h : RecvInv (some c) s) (henvs : EnvInv (some c) s) (hcur : s.cpuEnv c = some cur)
    (hok : RecvOk c cur q s) (hcall : Call M c cur q s u) : RecvInv (some c) u := by
  cases hcall with
  | skip => exact h
  | @setStatus e st hno hst he =>
      refine h.setEnv fun hlive hr => ⟨henvs.not_free hcur he, hr, fun _ => ?_⟩
      rcases statusOfWord_cases hst with rfl | rfl
      · rw [hok.wake hno hst he] at hr
        cases hr
      · rfl
  | @dying e hno he hst hne =>
      refine (h.setEnv_idle ?_).emit (fun _ _ _ => id) nofun
      exact h.recving (henvs.not_free hcur he) (by simp [hst])
  | destroyOther _ _ _ _ hfree =>
      cases hfree with
      | mk => exact h.freed.emit (fun _ _ _ => id) nofun
  | destroySelf _ hfree =>
      cases hfree with
      | mk => exact h.freed.setCur
  | exofork => exact h.forked
  | pageAlloc => exact h.setMem
  | pageAllocFail => exact h.setMem
  | pageMap => exact h.setMem
  | pageUnmap => exact h.setMem
  | ipcFail => exact h.setEnv fun hlive hr => ⟨hlive, hr, id⟩
  | @ipcValue target _ he hrecv _ =>
      have hperm : RecvInv (some c) (s.ipcPerm0 target) :=
        h.setEnv fun hlive hr => ⟨hlive, hr, id⟩
      refine hperm.delivered ?_ ?_
      · simpa [Kernel.ipcPerm0, Kernel.setEnv] using henvs.not_free hcur he
      · simpa [Kernel.ipcPerm0, Kernel.setEnv] using hrecv
  | @ipcPage target _ _ _ _ _ _ m _ he hrecv =>
      have hperm : RecvInv (some c) (s.ipcPerm0 target) :=
        h.setEnv fun hlive hr => ⟨hlive, hr, id⟩
      refine (hperm.setMem (m := m)).delivered ?_ ?_
      · simpa [Kernel.ipcPerm0, Kernel.setEnv, Kernel.setMem] using henvs.not_free hcur he
      · simpa [Kernel.ipcPerm0, Kernel.setEnv, Kernel.setMem] using hrecv
  | ipcRecv => exact h.received henvs hcur

/-- `env_run` picks no receiver, and a CPU that halts gives up its own. -/
theorem exit (h : RecvInv (some c) s) (hexit : Exit M c s t) : RecvInv none t := by
  cases hexit with
  | @run e d hrunnable hdir =>
      have hdemote : RecvInv (some c) (s.demote c) := by
        rcases demote_cases s c with heq | ⟨cur, -, hst, heq⟩ <;> rw [heq]
        · exact h
        · exact h.setEnv_idle (h.recving (by simp [hst]) (by simp [hst]))
      have hidle : ((s.demote c).envs e).envIpcRecving = false :=
        hdemote.recving (by simp [hrunnable]) (by simp [hrunnable])
      have hother {e' : EnvIdx} (hr : (((s.demote c).resume c e d).envs e').envIpcRecving = true) :
          e' ≠ e := by
        rintro rfl
        simp [Kernel.resume_self, hidle] at hr
      have henv {e' : EnvIdx} (he : e' ≠ e) :
          ((s.demote c).resume c e d).envs e' = (s.demote c).envs e' := Kernel.resume_of_ne he
      refine ⟨fun {e'} hlive hr => ?_, fun {e' c'} hlive hr hc => ?_, fun {e'} hlive hr => ?_,
        fun {l₁ l₂ e' value source perm page} hlog => ?_⟩
      · have he := hother hr
        rw [henv he] at hlive hr ⊢
        exact hdemote.status hlive hr
      · have he := hother hr
        rw [henv he] at hlive hr
        have hcpu : Function.update (s.demote c).cpuEnv c (some e) c' = some e' := hc
        by_cases heq : c' = c
        · subst heq
          rw [Function.update_self] at hcpu
          exact absurd (Option.some.inj hcpu).symm he
        · rw [Function.update_of_ne heq] at hcpu
          exact absurd (Option.some.inj (hdemote.idle hlive hr hcpu)).symm heq
      · have he := hother hr
        rw [henv he] at hlive hr
        exact Or.inr ⟨he.symm, hdemote.awaits hlive hr⟩
      · cases l₁ with
        | nil => cases (List.cons.inj hlog).1
        | cons a l₁ => exact hdemote.sends (List.cons.inj hlog).2
  | halt =>
      refine ⟨h.status, fun {e c'} hlive hr hc => ?_, h.awaits, h.sends⟩
      have hcpu : Function.update s.cpuEnv c none c' = some e := hc
      by_cases heq : c' = c
      · subst heq
        rw [Function.update_self] at hcpu
        cases hcpu
      · rw [Function.update_of_ne heq] at hcpu
        exact absurd (Option.some.inj (h.idle hlive hr hcpu)).symm heq

theorem returned (h : RecvInv k s) (hret : Returned cur tf s t) : RecvInv k t := by
  rcases hret with rfl | ⟨-, r, rfl⟩
  · exact h
  · exact h.setTf

/-- The conditions imply those of `EnvInv`: the target of a send does not
execute. -/
theorem elsewhere (h : RecvInv (some c) s) (henvs : EnvInv (some c) s)
    (hcur : s.cpuEnv c = some cur) (hok : RecvOk c cur q s) : ElsewhereOk M c cur q s := by
  refine ⟨hok.status, fun hsend => ?_, hok.destroy⟩
  rintro ⟨c', hc, hexec⟩
  have hlive := henvs.not_free hcur hsend.2.1
  exact hc (Option.some.inj (h.idle hlive hsend.2.2.1 hexec)).symm

/-- One step of the system. -/
theorem step {l : Label n} (h : RecvInv none s) (henvs : EnvInv none s)
    (hok : OnCall (fun c => RecvOk c) s l) (hstep : Step M s l t) :
    RecvInv none t ∧ EnvInv none t := by
  have henter {c cur} (hcur : s.cpuEnv c = some cur) (hst : (s.envs cur).envStatus ≠ .dying) :
      EnvInv (some c) s := henvs.enter fun cur' hcur' => by
    rwa [← Option.some.inj (hcur.symm.trans hcur')]
  have helse : OnCall (ElsewhereOk M) s l := fun {c tf input cur} hl hcur hst =>
    have hsaved : EnvInv (some c) (s.setTf cur tf) := (henter hcur hst).setEnv rfl rfl rfl
    h.enter.setTf.elsewhere hsaved hcur (hok hl hcur hst)
  refine ⟨?_, henvs.step helse hstep⟩
  cases hstep.taken with
  | zombie _ _ hfree hexit =>
      cases hfree with
      | mk => exact h.enter.freed.setCur.exit hexit
  | @entry c tf _ cur _ _ _ hcur hst hcall hret hexit =>
      have hsaved : EnvInv (some c) (s.setTf cur tf) := (henter hcur hst).setEnv rfl rfl rfl
      have hcalled := h.enter.setTf.call hsaved hcur (hok rfl hcur hst) hcall
      exact (hcalled.returned hret).exit hexit
  | tick _ hexit => exact h.enter.exit hexit
  | fill => exact h.setMem
  | store => exact h.setMem

/-- At the start nothing is receiving and nothing has been sent. -/
theorem booted (hboot : Booted L b s) : RecvInv none s := by
  have hinv : BootInv L True s := hboot.inv
  have hsends : ∀ e value source perm page,
      Event.ipcSend e value source perm page ∉ s.log := by
    clear hinv
    induction hboot with
    | init => simp [initial]
    | create _ _ hrun ih =>
        cases envCreate_wp.ret hrun with
        | mk => simpa [Kernel.setTf, Kernel.setEnv, Kernel.setMem, Kernel.allocated] using ih
  refine ⟨fun {e} _ hr => ?_, fun {e c} _ hr => ?_, fun {e} _ hr => ?_,
    fun {_ _ e value source perm page} hlog => ?_⟩
  · simp [hinv.recving e] at hr
  · simp [hinv.recving e] at hr
  · simp [hinv.recving e] at hr
  · refine absurd ?_ (hsends e value source perm page)
    rw [hlog]
    simp

theorem receiversBlocked (h : RecvInv none s) (henvs : EnvInv none s) : ReceiversBlocked M s where
  blocked e hlive hr := ⟨h.status hlive hr, fun c hc => by simpa using h.idle hlive hr hc,
    h.awaits hlive hr⟩
  sends := h.sends
  unaffected {c cur tf envid value srcva perm r u e} hcur hrun hne := by
    obtain ⟨he, hr⟩ := sysIpcTrySend_envs.ret hrun e hne
    have hlive : ((s.setTf cur tf).envs e).envStatus ≠ .free := by
      rcases envid2env_eq_some he with rfl | hlive
      · simpa [Kernel.setTf, Kernel.setEnv] using henvs.live_of_exec hcur
      · exact hlive.1
    have hsaved : RecvInv none (s.setTf cur tf) := h.setTf
    have hstatus : ((s.setTf cur tf).envs e).envStatus = (s.envs e).envStatus := by
      by_cases hec : e = cur
      · subst hec
        simp [Kernel.setTf, Kernel.setEnv]
      · simp [Kernel.setTf, Kernel.setEnv, hec]
    exact ⟨hstatus ▸ hsaved.status hlive hr, fun c hc => by simpa using hsaved.idle hlive hr hc,
      hsaved.awaits hlive hr⟩

end RecvInv

/-- In the runs that wake no receiver every receiver is blocked. -/
theorem receivers_blocked (hboot : Booted L b s)
    (hrun : Run (Step M) (OnCall fun c => RecvOk c) s t) : ReceiversBlocked M t := by
  have hinv := hrun.invariant (I := fun s => RecvInv none s ∧ EnvInv none s)
    (fun h hok hstep => h.1.step h.2 hok hstep) ⟨RecvInv.booted hboot, hboot.envs⟩
  exact hinv.1.receiversBlocked hinv.2

/-! ### Two runs -/

/-- `sys_env_set_status` and `sys_env_destroy` have a target that no other CPU
executes, and it is not receiving. -/
def checkRecv (s : Kernel n) : Label n → Bool
  | .trap c tf _ =>
      (s.cpuEnv c).all fun cur =>
        let q := tf.request
        match q.no with
        | some .envSetStatus | some .envDestroy =>
            (envid2env (s.setTf cur tf) cur q.a1 true).all fun e =>
              idleElsewhere s c e && !((s.setTf cur tf).envs e).envIpcRecving
        | _ => true
  | _ => true

theorem recvOk_of_check {l : Label n} (h : checkRecv s l = true) :
    OnCall (fun c => RecvOk c) s l := by
  rintro c tf input cur rfl hcur -
  have hidle {e : EnvIdx} (hidle : idleElsewhere s c e = true) :
      ¬ Elsewhere (s.setTf cur tf) c e := by
    rintro ⟨c', hc, hexec⟩
    exact of_decide_eq_true hidle c' hc hexec
  simp only [checkRecv, hcur, Option.all_some] at h
  refine ⟨fun hno _ he => ?_, fun hno he helse => ?_, fun hno _ he => ?_⟩
  · simp only [hno, he, Option.all_some, Bool.and_eq_true] at h
    exact hidle h.1
  · simp only [hno, he, Option.all_some, Bool.and_eq_true] at h
    exact absurd helse (hidle h.1)
  · simp only [hno, he, Option.all_some, Bool.and_eq_true] at h
    simpa using h.2

/-- A child that another CPU executes receives, and the parent sends. -/
def sendToChild : List (Label 2) :=
  forkRun ++ [.trap 1 (syscallTf 12 0xF0000000 0 0 0 0) 0,
    .trap 0 (syscallTf 11 0x1001 5 0xF0000000 0 0) 0]

theorem receivers_blocked_send : ∃ s t, Booted sampleLayout (0 : Fin 2) s ∧
    Run (Step sampleMachine) (OnCall fun c => RecvOk c) s t ∧
    ((t.envs 1).envIpcValue = 5 ∧ (t.envs 1).envStatus = .runnable) ∧
    ReceiversBlocked sampleMachine t := by
  obtain ⟨s, t, hboot, hrun, htest⟩ := sample_run 0 checkRecv sendToChild
    (fun t => (t.envs 1).envIpcValue = 5 ∧ (t.envs 1).envStatus = .runnable) recvOk_of_check
    (by decide +kernel)
  exact ⟨s, t, hboot, hrun, by simpa using htest, receivers_blocked hboot hrun⟩

/-- The parent wakes the receiver instead. -/
def wakeReceiver : List (Label 2) :=
  forkRun ++ [.trap 1 (syscallTf 12 0xF0000000 0 0 0 0) 0,
    .trap 0 (syscallTf 8 0x1001 2 0 0 0) 0]

theorem not_receivers_blocked : ¬ ∀ s t : Kernel 2, Booted sampleLayout 0 s →
    Run (Step sampleMachine) (fun _ _ => True) s t → ReceiversBlocked sampleMachine t := by
  intro h
  obtain ⟨s, t, hboot, hrun, htest⟩ := sample_run 0 (fun _ _ => true) wakeReceiver
    (fun t => (t.envs 1).envIpcRecving = true ∧ (t.envs 1).envStatus = .runnable)
    (fun _ => trivial) (by decide +kernel)
  obtain ⟨hrecv, hst⟩ : (t.envs 1).envIpcRecving = true ∧ (t.envs 1).envStatus = .runnable := by
    simpa using htest
  have hblocked := (h s t hboot hrun).blocked 1 (by simp [hst]) hrecv
  exact absurd (hblocked.status.symm.trans hst) (by decide)

end Jos
