import Jos.Lib.Alternate
import Jos.System.Boot

/-!
Who executes. In the runs whose requests leave the status of an environment
that executes on another CPU alone, no environment executes on two CPUs, and
an environment that executes is running or dying.
-/

namespace Jos

open Jos.Lib

variable {n : ℕ} {M : Machine} {L : Layout M} {b c : Fin n} {s t u : Kernel n}
  {cur e : EnvIdx} {q : Request} {tf : Trapframe}

/-! ### Exclusive execution -/

/-- No environment executes on two CPUs, and `sched_yield` selects none that
executes. -/
structure Exclusive (s : Kernel n) : Prop where
  unique : ∀ c c' e, s.cpuEnv c = some e → s.cpuEnv c' = some e → c = c'
  status : ∀ c e, s.cpuEnv c = some e →
    (s.envs e).envStatus = .running ∨ (s.envs e).envStatus = .dying
  unselected : ∀ c e cur, s.cpuEnv c = some e →
    (schedOrder cur).find? (fun e => (s.envs e).envStatus = .runnable) ≠ some e

theorem EnvInv.exclusive (h : EnvInv none s) : Exclusive s where
  unique _ _ _ := h.uniq
  status _ _ hc := h.exec hc (by simp)
  unselected c e cur hc hfind := by
    have hst : (s.envs e).envStatus = .runnable := by simpa using List.find?_some hfind
    rcases h.exec hc (by simp) with hactive | hactive <;> simp [hst] at hactive

theorem envInv_run (hboot : Booted L b s) (hrun : Run (Step M) (OnCall (ElsewhereOk M)) s t) :
    EnvInv none t :=
  hrun.invariant (fun h hok hstep => h.step hok hstep) hboot.envs

theorem exclusive_execution (hboot : Booted L b s)
    (hrun : Run (Step M) (OnCall (ElsewhereOk M)) s t) : Exclusive t :=
  (envInv_run hboot hrun).exclusive

/-- A parent forks a child and wakes it up, and another CPU executes it. -/
def forkRun : List (Label 2) :=
  [.tick 0, .trap 0 (syscallTf 7 0 0 0 0 0) 0, .trap 0 (syscallTf 8 0x1001 2 0 0 0) 0, .tick 1]

theorem exclusive_execution_fork : ∃ s t, Booted sampleLayout (0 : Fin 2) s ∧
    Run (Step sampleMachine) (OnCall (ElsewhereOk sampleMachine)) s t ∧
    (t.cpuEnv 0 = some 0 ∧ t.cpuEnv 1 = some 1) ∧ Exclusive t := by
  obtain ⟨s, t, hboot, hrun, htest⟩ := sample_run 0 checkElsewhere forkRun
    (fun t => t.cpuEnv 0 = some 0 ∧ t.cpuEnv 1 = some 1) elsewhereOk_of_check
    (by decide +kernel)
  exact ⟨s, t, hboot, hrun, by simpa using htest, exclusive_execution hboot hrun⟩

/-- Then the parent wakes the child up once more, and yields to it. -/
def wakeTwice : List (Label 2) :=
  forkRun ++ [.trap 0 (syscallTf 8 0x1001 2 0 0 0) 0, .trap 0 (syscallTf 10 0 0 0 0 0) 0]

theorem not_exclusive_execution : ¬ ∀ s t : Kernel 2, Booted sampleLayout 0 s →
    Run (Step sampleMachine) (fun _ _ => True) s t → Exclusive t := by
  intro h
  obtain ⟨s, t, hboot, hrun, htest⟩ := sample_run 0 (fun _ _ => true) wakeTwice
    (fun t => t.cpuEnv 0 = some 1 ∧ t.cpuEnv 1 = some 1) (fun _ => trivial) (by decide +kernel)
  obtain ⟨h0, h1⟩ : t.cpuEnv 0 = some 1 ∧ t.cpuEnv 1 = some 1 := by simpa using htest
  exact absurd ((h s t hboot hrun).unique 0 1 1 h0 h1) (by decide)

/-! ### Freeing -/

/-- The events that begin and end an incarnation of slot `e`. -/
def Event.life (e : EnvIdx) : Event n → Option Bool
  | .envAlloc e' => if e' = e then some true else none
  | .envFree _ e' _ => if e' = e then some false else none
  | _ => none

theorem life_envAlloc (e : EnvIdx) : Event.life e (.envAlloc e : Event n) = some true :=
  if_pos rfl

theorem life_envFree (c : Fin n) (e : EnvIdx) (cpus : Fin n → Option EnvIdx) :
    Event.life e (.envFree c e cpus) = some false := if_pos rfl

/-- The log of the frees is in order: `env_free` never met the environment on
another CPU, and the slots that are not free are those whose last event is an
allocation. -/
structure FreeInv (s : Kernel n) : Prop where
  alone : ∀ {c e cpus}, Event.envFree c e cpus ∈ s.log → ∀ c', c' ≠ c → cpus c' ≠ some e
  life : ∀ e, phase (Event.life e) s.log = some (decide ((s.envs e).envStatus ≠ .free))

namespace FreeInv

/-- Events that are no allocations and no frees. -/
theorem congr (h : FreeInv s) (hlog : t.log = s.log)
    (hst : ∀ e, (t.envs e).envStatus = .free ↔ (s.envs e).envStatus = .free) : FreeInv t where
  alone := by
    rw [hlog]
    exact h.alone
  life e := by
    rw [hlog, h.life]
    simp [hst]

theorem emit {a : Event n} (h : FreeInv s) (hev : ∀ e, Event.life e a = none) :
    FreeInv (s.emit a) where
  alone {c e cpus} hmem := by
    rcases List.mem_cons.mp hmem with rfl | hmem
    · simpa [Event.life] using hev e
    · exact h.alone hmem
  life e := (phase_cons_none (hev e)).trans (h.life e)

theorem setEnv {v : Env} (h : FreeInv s)
    (hst : v.envStatus = .free ↔ (s.envs e).envStatus = .free) : FreeInv (s.setEnv e v) := by
  refine h.congr rfl fun e' => ?_
  by_cases he : e' = e
  · subst he
    simpa [Kernel.setEnv] using hst
  · simp [Kernel.setEnv, he]

theorem freed {m : Mem n} (h : FreeInv s) (hlive : (s.envs e).envStatus ≠ .free)
    (halone : ∀ c', c' ≠ c → s.cpuEnv c' ≠ some e) : FreeInv (s.freed c e m) where
  alone {c' e' cpus} hmem := by
    rcases List.mem_cons.mp hmem with heq | hmem
    · obtain ⟨rfl, rfl, rfl⟩ : c' = c ∧ e' = e ∧ cpus = s.cpuEnv := by simpa using heq
      exact halone
    · exact h.alone hmem
  life e' := by
    change phase (Event.life e') (.envFree c e s.cpuEnv :: s.log) = _
    by_cases he : e' = e
    · subst he
      rw [phase_cons_some (b := false) (by simp [Event.life]) (by simp [h.life, hlive])]
      simp [Kernel.freed_self]
    · rw [phase_cons_none (by simp [Event.life, Ne.symm he]), h.life, Kernel.freed_of_ne he]

theorem allocated {d : ℕ} {m : Mem n} {parentId : Word} (h : FreeInv s)
    (hfree : (s.envs e).envStatus = .free) : FreeInv (s.allocated e d m parentId) where
  alone {c' e' cpus} hmem := by
    rcases List.mem_cons.mp hmem with heq | hmem
    · cases heq
    · exact h.alone hmem
  life e' := by
    change phase (Event.life e') (.envAlloc e :: s.log) = _
    by_cases he : e' = e
    · subst he
      rw [phase_cons_some (b := true) (by simp [Event.life]) (by simp [h.life, hfree])]
      simp [Kernel.allocated_self]
    · rw [phase_cons_none (by simp [Event.life, Ne.symm he]), h.life, Kernel.allocated_of_ne he]

theorem call (h : FreeInv s) (henvs : EnvInv (some c) s) (hcur : s.cpuEnv c = some cur)
    (hdestroy : DestroyOk c cur q s) (hcall : Call M c cur q s u) : FreeInv u := by
  cases hcall with
  | skip => exact h
  | setStatus _ hst he =>
      exact h.setEnv (iff_of_false (statusOfWord_ne hst).1 (henvs.not_free hcur he))
  | dying _ _ hst => exact (h.setEnv (by simp [hst])).emit fun _ => rfl
  | @destroyOther e u hno he hne hst hfree =>
      cases hfree with
      | mk =>
          refine (h.freed (henvs.not_free hcur he) fun c' hc hexec => ?_).emit fun _ => rfl
          exact hst (hdestroy hno he ⟨c', hc, hexec⟩)
  | destroySelf _ hfree =>
      cases hfree with
      | mk =>
          refine (h.freed (henvs.cur rfl hcur).1 fun c' hc hexec => ?_).congr rfl fun _ => Iff.rfl
          exact hc (henvs.uniq hexec hcur)
  | exofork _ hhead _ =>
      refine ((h.allocated (henvs.head_free hhead)).setEnv ?_).setEnv ?_
      · simp [Kernel.allocated_self]
      · simp [Kernel.allocated_self, Kernel.setStatus, Kernel.setEnv]
  | pageAlloc => exact h.congr rfl fun _ => Iff.rfl
  | pageAllocFail => exact h.congr rfl fun _ => Iff.rfl
  | pageMap => exact h.congr rfl fun _ => Iff.rfl
  | pageUnmap => exact h.congr rfl fun _ => Iff.rfl
  | ipcFail => exact h.setEnv Iff.rfl
  | @ipcValue target _ he _ _ =>
      have hlive := henvs.not_free hcur he
      have hperm : FreeInv (s.ipcPerm0 target) := h.setEnv Iff.rfl
      refine (hperm.setEnv (iff_of_false (by simp) ?_)).emit fun _ => rfl
      simpa [Kernel.ipcPerm0, Kernel.setEnv] using hlive
  | @ipcPage target _ _ _ _ _ _ m _ he =>
      have hlive := henvs.not_free hcur he
      have hperm : FreeInv (s.ipcPerm0 target) := h.setEnv Iff.rfl
      have hmem : FreeInv ((s.ipcPerm0 target).setMem m) := hperm.congr rfl fun _ => Iff.rfl
      refine (hmem.setEnv (iff_of_false (by simp) ?_)).emit fun _ => rfl
      simpa [Kernel.ipcPerm0, Kernel.setEnv, Kernel.setMem] using hlive
  | ipcRecv =>
      exact (h.setEnv (iff_of_false (by simp) (henvs.cur rfl hcur).1)).emit fun _ => rfl

theorem exit (h : FreeInv s) (hexit : Exit M c s t) : FreeInv t := by
  cases hexit with
  | @run e d hrunnable hdir =>
      have hdemote : FreeInv (s.demote c) := by
        rcases demote_cases s c with heq | ⟨cur, -, hst, heq⟩ <;> rw [heq]
        · exact h
        · exact h.setEnv (by simp [hst])
      have hrun := hdemote.setEnv (e := e) (v := { (s.demote c).envs e with
        envStatus := .running, envRuns := ((s.demote c).envs e).envRuns + 1, envCpunum := c })
        (iff_of_false (by simp) (by simp [hrunnable]))
      exact (hrun.congr (t := { (s.demote c).resume c e d with log := (s.demote c).log }) rfl
        fun _ => Iff.rfl).emit (a := .envRun c e) fun _ => rfl
  | halt => exact h.congr rfl fun _ => Iff.rfl

theorem setTf (h : FreeInv s) : FreeInv (s.setTf e tf) := h.setEnv Iff.rfl

theorem returned (h : FreeInv s) (hret : Returned cur tf s t) : FreeInv t := by
  rcases hret with rfl | ⟨-, r, rfl⟩
  · exact h
  · exact h.setTf

theorem zombie (h : FreeInv s) (henvs : EnvInv none s) (hcur : s.cpuEnv c = some cur)
    (hfree : Freed M c cur s u) : FreeInv u := by
  cases hfree with
  | mk => exact h.freed (henvs.live_of_exec hcur) fun c' hc hexec => hc (henvs.uniq hexec hcur)

theorem step {l : Label n} (h : FreeInv s) (henvs : EnvInv none s)
    (hok : OnCall (ElsewhereOk M) s l) (hstep : Step M s l t) : FreeInv t := by
  cases hstep.taken with
  | @zombie c _ _ _ u _ hcur _ hfree hexit =>
      have hfreed : FreeInv (u.setCur c none) :=
        (h.zombie henvs hcur hfree).congr rfl fun _ => Iff.rfl
      exact hfreed.exit hexit
  | @entry c tf _ cur _ _ _ hcur hst hcall hret hexit =>
      have henter : EnvInv (some c) s := henvs.enter fun cur' hcur' => by
        rwa [← Option.some.inj (hcur.symm.trans hcur')]
      have hsaved : EnvInv (some c) (s.setTf cur tf) := henter.setEnv rfl rfl rfl
      have hcalled := h.setTf.call hsaved hcur (hok rfl hcur hst).destroy hcall
      exact (hcalled.returned hret).exit hexit
  | tick _ hexit => exact h.exit hexit
  | fill => exact h.congr rfl fun _ => Iff.rfl
  | store => exact h.congr rfl fun _ => Iff.rfl

/-- At the start nothing has been freed. -/
theorem booted (hboot : Booted L b s) : FreeInv s := by
  induction hboot with
  | init => exact ⟨nofun, fun _ => rfl⟩
  | create hs _ hrun ih =>
      have henvs := hs.envs
      cases envCreate_wp.ret hrun with
      | mk hhead =>
          refine FreeInv.setTf (FreeInv.congr ?_ rfl fun _ => Iff.rfl)
          exact ih.allocated (henvs.head_free hhead)

end FreeInv

/-- The machine stops in the middle of a kernel entry, with the log of `t`. -/
inductive Stops (M : Machine) (s : Kernel n) : Label n → Kernel n → Prop
  | trap {c tf input why t} (hexec : s.cpuEnv c ≠ none)
      (hrun : trap M c tf input s = .stop why t) : Stops M s (.trap c tf input) t
  | tick {c why t} (hidle : s.cpuEnv c = none) (hrun : schedYield M c s = .stop why t) :
      Stops M s (.tick c) t

/-- What the log says about the calls of `env_free`: it never meets the
environment on another CPU, and each incarnation of a slot is freed exactly
once, after it has been allocated. -/
structure FreesOnce (log : List (Event n)) : Prop where
  alone : ∀ {c e cpus}, Event.envFree c e cpus ∈ log → ∀ c', c' ≠ c → cpus c' ≠ some e
  atMostOnce : ∀ {e c c' cpus cpus' l₁ l₂ l₃},
    log = l₁ ++ Event.envFree c e cpus :: l₂ ++ Event.envFree c' e cpus' :: l₃ →
      Event.envAlloc e ∈ l₂
  atLeastOnce : ∀ {e l₁ l₂ l₃},
    log = l₁ ++ Event.envAlloc e :: l₂ ++ Event.envAlloc e :: l₃ →
      ∃ c cpus, Event.envFree c e cpus ∈ l₂
  afterAlloc : ∀ {e c cpus l₁ l₂}, log = l₁ ++ Event.envFree c e cpus :: l₂ →
    Event.envAlloc e ∈ l₂

theorem life_true {ev : Event n} (h : ev.life e = some true) : ev = .envAlloc e := by
  cases ev <;> simp_all [Event.life]

theorem life_false {ev : Event n} (h : ev.life e = some false) :
    ∃ c cpus, ev = .envFree c e cpus := by
  cases ev <;> simp_all [Event.life]

theorem FreeInv.freesOnce (h : FreeInv s) : FreesOnce s.log := by
  have hphase (e : EnvIdx) : phase (Event.life e) s.log ≠ none := by simp [h.life]
  refine ⟨h.alone, fun hlog => ?_, fun hlog => ?_, fun hlog => ?_⟩
  · obtain ⟨ev, hev, hlife⟩ := phase_between (hlog ▸ hphase _) (life_envFree _ _ _)
      (life_envFree _ _ _)
    exact life_true hlife ▸ hev
  · obtain ⟨ev, hev, hlife⟩ := phase_between (hlog ▸ hphase _) (life_envAlloc _)
      (life_envAlloc _)
    obtain ⟨c, cpus, rfl⟩ := life_false hlife
    exact ⟨c, cpus, hev⟩
  · obtain ⟨ev, hev, hlife⟩ := phase_begun (hlog ▸ hphase _) (life_envFree _ _ _)
    exact life_true hlife ▸ hev

/-- The same when a kernel entry stops the machine. -/
theorem FreeInv.stops {l : Label n} (h : FreeInv s) (henvs : EnvInv none s)
    (hok : OnCall (ElsewhereOk M) s l) (hstop : Stops M s l t) : FreesOnce t.log := by
  cases hstop with
  | @trap c tf input why t hexec hrun =>
      obtain ⟨cur, hcur⟩ := Option.ne_none_iff_exists'.mp hexec
      by_cases hst : (s.envs cur).envStatus = .dying
      · rw [(trap_dying_wp hcur hst).stop hrun]
        exact (h.freed (m := s.mem) (henvs.live_of_exec hcur) fun c' hc hexec =>
          hc (henvs.uniq hexec hcur)).freesOnce
      · have henter : EnvInv (some c) s := henvs.enter fun cur' hcur' => by
          rwa [← Option.some.inj (hcur.symm.trans hcur')]
        have hsaved : EnvInv (some c) (s.setTf cur tf) := henter.setEnv rfl rfl rfl
        cases (trap_wp hcur hst).stop hrun with
        | after hcall hlog =>
            rw [hlog]
            exact (h.setTf.call hsaved hcur (hok rfl hcur hst).destroy hcall).freesOnce
        | freeing hfree hlog =>
            rw [hlog]
            cases hfree with
            | self =>
                exact (h.setTf.freed (m := s.mem) (hsaved.cur rfl hcur).1 fun c' hc hexec =>
                  hc (hsaved.uniq hexec hcur)).freesOnce
            | other hno he hne hrunning =>
                exact (h.setTf.freed (m := s.mem) (hsaved.not_free hcur he) fun c' hc hexec =>
                  hrunning ((hok rfl hcur hst).destroy hno he ⟨c', hc, hexec⟩)).freesOnce
  | tick _ hrun =>
      rw [schedYield_wp.stop hrun]
      exact h.freesOnce

/-- The page directory that an executing environment runs on, and its page
tables, are in use. -/
def DirsInUse (s : Kernel n) : Prop :=
  ∀ {c e}, s.cpuEnv c = some e → (s.envs e).envPgdir = some (s.mem.cr3 c) ∧
    ¬ s.mem.pool.On (s.mem.cr3 c) ∧
    ∀ i : PtIdx, (i : ℕ) < 955 → Flag (s.mem.word (s.mem.cr3 c) i) pteP →
      ¬ s.mem.pool.On (pteFrame (s.mem.word (s.mem.cr3 c) i))

theorem SysInv.dirsInUse {nullOk : Prop} (h : SysInv L nullOk none s) : DirsInUse s := by
  intro c e hc
  have hd := h.cpu.exec hc
  refine ⟨hd, h.mem.not_on_of_slot (x := .pgdir e) hd, fun i hi hP => ?_⟩
  refine h.mem.not_on_of_slot (x := .table e i) ?_
  change tableAt s.mem.word s.dirs e i = _
  rw [tableAt_of_dir hi hd, present_of_flag hP]
  rfl

theorem sysInv_run {nullOk : Prop} (hboot : Booted L b s) (hnull : nullOk)
    (hrun : Run (Step M) (OnCall (CallOk M)) s t) : SysInv L nullOk none t :=
  hrun.invariant (fun h hok hstep => h.step hok (Or.inl hnull) hstep) hboot.sys

theorem OnCall.elsewhere {l : Label n} (h : OnCall (CallOk M) s l) :
    OnCall (ElsewhereOk M) s l := fun hl hcur hst => (h hl hcur hst).elsewhere

theorem free_not_executing (hboot : Booted L b s)
    (hrun : Run (Step M) (OnCall (CallOk M)) s t) :
    FreesOnce t.log ∧ DirsInUse t ∧
      ∀ {l u}, OnCall (CallOk M) t l → Stops M t l u → FreesOnce u.log := by
  have hinv := hrun.invariant (I := fun s => EnvInv none s ∧ FreeInv s)
    (fun h hok hstep => ⟨h.1.step hok.elsewhere hstep, h.2.step h.1 hok.elsewhere hstep⟩)
    ⟨hboot.envs, .booted hboot⟩
  exact ⟨hinv.2.freesOnce, (sysInv_run hboot trivial hrun).dirsInUse,
    fun hok hstop => hinv.2.stops hinv.1 hok.elsewhere hstop⟩

/-- The parent destroys the child while it executes, and the next trap of the
child frees it. -/
def destroyRun : List (Label 2) :=
  forkRun ++ [.trap 0 (syscallTf 3 0x1001 0 0 0 0) 0, .trap 1 (syscallTf 10 0 0 0 0 0) 0]

theorem free_not_executing_destroy : ∃ s t, Booted sampleLayout (0 : Fin 2) s ∧
    Run (Step sampleMachine) (OnCall (CallOk sampleMachine)) s t ∧
    (t.cpuEnv 0 = some 0 ∧ (t.envs 1).envStatus = .free) ∧ FreesOnce t.log ∧ DirsInUse t := by
  obtain ⟨s, t, hboot, hrun, htest⟩ := sample_run 0
    (fun s l => checkElsewhere s l && roomy s l) destroyRun
    (fun t => t.cpuEnv 0 = some 0 ∧ (t.envs 1).envStatus = .free) callOk_of_check
    (by decide +kernel)
  have hsafe := free_not_executing hboot hrun
  exact ⟨s, t, hboot, hrun, by simpa using htest, hsafe.1, hsafe.2.1⟩

/-- The parent destroys the child twice while it executes. -/
def destroyTwice : List (Label 2) :=
  forkRun ++ [.trap 0 (syscallTf 3 0x1001 0 0 0 0) 0, .trap 0 (syscallTf 3 0x1001 0 0 0 0) 0]

/-- The log holds a free of an environment that another CPU was executing. -/
def freedElsewhere (s : Kernel n) : Bool :=
  s.log.any fun
    | .envFree c e cpus => decide (∃ c', c' ≠ c ∧ cpus c' = some e)
    | _ => false

theorem not_free_not_executing : ¬ ∀ s t : Kernel 2, Booted sampleLayout 0 s →
    Run (Step sampleMachine) (fun _ _ => True) s t → FreesOnce t.log := by
  intro h
  obtain ⟨s, t, hboot, hrun, htest⟩ := sample_run 0 (fun _ _ => true) destroyTwice
    freedElsewhere (fun _ => trivial) (by decide +kernel)
  obtain ⟨ev, hev, htest⟩ := List.any_eq_true.mp htest
  cases ev with
  | envFree c e cpus =>
      obtain ⟨c', hc, hexec⟩ := of_decide_eq_true htest
      exact (h s t hboot hrun).alone hev c' hc hexec
  | _ => cases htest

end Jos
