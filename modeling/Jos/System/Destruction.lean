import Jos.Lib.Since
import Jos.System.Execution

/-!
Destruction is final. Between `sys_env_destroy` and the next trap of an
environment that executes elsewhere its status is `ENV_DYING`, and it still
passes `envid2env`. In the runs where no other request writes that status, a
destroyed environment does not execute again.
-/

namespace Jos

open Jos.Lib

variable {n : ℕ} {M : Machine} {L : Layout M} {b c : Fin n} {s t u : Kernel n}
  {cur e : EnvIdx} {q : Request} {tf : Trapframe}

/-- The request does not set the status of a dying environment: not with
`sys_env_set_status`, and not by completing its `sys_ipc_recv`. -/
structure DyingOk (M : Machine) (cur : EnvIdx) (q : Request) (s : Kernel n) : Prop where
  status : ∀ {st e}, q.no = some .envSetStatus → statusOfWord q.a2 = some st →
    envid2env s cur q.a1 true = some e → (s.envs e).envStatus ≠ .dying
  send : ∀ {e}, Sends M cur q s e → (s.envs e).envStatus ≠ .dying

/-- `sys_env_destroy` has returned 0 for the incarnation of slot `e` that was
allocated last. -/
def Destroyed (e : EnvIdx) : List (Event n) → Prop :=
  Since (· = .envDestroyed e) (· = .envAlloc e)

theorem destroyed_cons {ev : Event n} {l : List (Event n)} (hD : ev ≠ .envDestroyed e)
    (hA : ev ≠ .envAlloc e) : Destroyed e (ev :: l) ↔ Destroyed e l := since_cons_of_not hD hA

/-- That incarnation has been freed. -/
def FreedSince (e : EnvIdx) : List (Event n) → Prop :=
  Since (fun ev => ∃ c cpus, ev = .envFree c e cpus) (· = .envAlloc e)

/-- A destroyed environment is dying or has been freed, and none was entered
after it had been destroyed. -/
structure DestroyInv (s : Kernel n) : Prop where
  status : ∀ {e}, Destroyed e s.log →
    (s.envs e).envStatus = .dying ∨ (s.envs e).envPgdir = none ∧ FreedSince e s.log
  runs : ∀ {l₁ l₂ c e}, s.log = l₁ ++ Event.envRun c e :: l₂ → ¬ Destroyed e l₂

namespace DestroyInv

/-- No event: dying environments stay so, and what has no page directory gets
none. -/
theorem congr (h : DestroyInv s) (hlog : t.log = s.log)
    (hst : ∀ e, (s.envs e).envStatus = .dying → (t.envs e).envStatus = .dying)
    (hdir : ∀ e, (s.envs e).envPgdir = none → (t.envs e).envPgdir = none) : DestroyInv t where
  status {e} hdest := by
    rw [hlog] at hdest ⊢
    exact (h.status hdest).imp (hst e) fun hfreed => ⟨hdir e hfreed.1, hfreed.2⟩
  runs := by
    rw [hlog]
    exact h.runs

theorem setEnv {v : Env} (h : DestroyInv s)
    (hst : (s.envs e).envStatus = .dying → v.envStatus = .dying)
    (hdir : v.envPgdir = (s.envs e).envPgdir) : DestroyInv (s.setEnv e v) := by
  refine h.congr rfl (fun e' => ?_) fun e' => ?_
  · by_cases he : e' = e
    · subst he
      simpa [Kernel.setEnv] using hst
    · simp [Kernel.setEnv, he]
  · by_cases he : e' = e
    · subst he
      simp [Kernel.setEnv, hdir]
    · simp [Kernel.setEnv, he]

/-- An event that neither creates nor destroys. -/
theorem emit {a : Event n} (h : DestroyInv s)
    (hev : ∀ e, a ≠ .envDestroyed e ∧ a ≠ .envAlloc e)
    (hrun : ∀ c e, a = .envRun c e → ¬ Destroyed e s.log) : DestroyInv (s.emit a) where
  status {e} hdest := by
    have hdest' : Destroyed e s.log := (destroyed_cons (hev e).1 (hev e).2).mp hdest
    exact (h.status hdest').imp id fun hfreed => ⟨hfreed.1, Or.inr ⟨(hev e).2, hfreed.2⟩⟩
  runs {l₁ l₂ c e} hlog := by
    cases l₁ with
    | nil =>
        obtain ⟨heq, rfl⟩ := List.cons.inj hlog
        exact hrun c e heq
    | cons a l₁ => exact h.runs (List.cons.inj hlog).2

/-- `sys_env_destroy` returns 0. -/
theorem destroyed (h : DestroyInv s)
    (he : (s.envs e).envStatus = .dying ∨ (s.envs e).envPgdir = none ∧ FreedSince e s.log) :
    DestroyInv (s.emit (.envDestroyed e)) where
  status {e'} hdest := by
    have hstep (hfreed : (s.envs e').envPgdir = none ∧ FreedSince e' s.log) :
        (s.envs e').envPgdir = none ∧ FreedSince e' (.envDestroyed e :: s.log) :=
      ⟨hfreed.1, Or.inr ⟨by simp, hfreed.2⟩⟩
    by_cases heq : e' = e
    · subst heq
      exact he.imp id hstep
    · have hdest' : Destroyed e' s.log :=
        (destroyed_cons (by simpa using Ne.symm heq) (by simp)).mp hdest
      exact (h.status hdest').imp id hstep
  runs {l₁ l₂ c e'} hlog := by
    cases l₁ with
    | nil => exact nomatch (List.cons.inj hlog).1
    | cons a l₁ => exact h.runs (List.cons.inj hlog).2

theorem freed {m : Mem n} (h : DestroyInv s) :
    DestroyInv (s.freed c e m) ∧ ((s.freed c e m).envs e).envPgdir = none ∧
      FreedSince e (s.freed c e m).log := by
  have hself : (s.freed c e m).envs e = { s.envs e with
      envPgdir := none, envStatus := .free, envLink := s.envFreeList } := Kernel.freed_self
  have hlog : (s.freed c e m).log = .envFree c e s.cpuEnv :: s.log := rfl
  have hfreed : FreedSince e (s.freed c e m).log := Or.inl ⟨c, _, rfl⟩
  refine ⟨⟨fun {e'} hdest => ?_, fun {l₁ l₂ c' e'} heq => ?_⟩, by rw [hself], hfreed⟩
  · by_cases he : e' = e
    · subst he
      exact Or.inr ⟨by rw [hself], hfreed⟩
    · rw [Kernel.freed_of_ne he]
      have hdest' : Destroyed e' s.log :=
        (destroyed_cons (by simp) (by simp)).mp (hlog ▸ hdest)
      exact (h.status hdest').imp id fun hfreed => ⟨hfreed.1, Or.inr ⟨by simp, hfreed.2⟩⟩
  · rw [hlog] at heq
    cases l₁ with
    | nil => exact nomatch (List.cons.inj heq).1
    | cons a l₁ => exact h.runs (List.cons.inj heq).2

/-- A new incarnation is not destroyed. -/
theorem allocated {d : ℕ} {m : Mem n} {parentId : Word} (h : DestroyInv s) :
    DestroyInv (s.allocated e d m parentId) ∧ ¬ Destroyed e (s.allocated e d m parentId).log := by
  have hother (e' : EnvIdx) (he : e' ≠ e) :
      (s.allocated e d m parentId).envs e' = s.envs e' := Kernel.allocated_of_ne he
  have hlog : (s.allocated e d m parentId).log = .envAlloc e :: s.log := rfl
  have hnew : ¬ Destroyed e (s.allocated e d m parentId).log := by
    rw [hlog]
    rintro (heq | ⟨hne, -⟩)
    · cases heq
    · exact hne rfl
  refine ⟨⟨fun {e'} hdest => ?_, fun {l₁ l₂ c' e'} heq => ?_⟩, hnew⟩
  · have he : e' ≠ e := by
      rintro rfl
      exact hnew hdest
    rw [hother e' he]
    have hne : (Event.envAlloc e : Event n) ≠ .envAlloc e' := by simpa using Ne.symm he
    have hdest' : Destroyed e' s.log := (destroyed_cons (by simp) hne).mp (hlog ▸ hdest)
    exact (h.status hdest').imp id fun hfreed => ⟨hfreed.1, Or.inr ⟨hne, hfreed.2⟩⟩
  · rw [hlog] at heq
    cases l₁ with
    | nil => exact nomatch (List.cons.inj heq).1
    | cons a l₁ => exact h.runs (List.cons.inj heq).2

/-! ### The steps -/

theorem call (h : DestroyInv s) (hst : (s.envs cur).envStatus ≠ .dying)
    (hok : DyingOk M cur q s) (hcall : Call M c cur q s u) : DestroyInv u := by
  have hsend {e : EnvIdx} {m : Mem n} {perm : Word} {page : Option ℕ}
      (hsends : Sends M cur q s e) :
      DestroyInv (((s.ipcPerm0 e).setMem m).delivered cur e q.a2 perm page) := by
    have hperm : DestroyInv (s.ipcPerm0 e) := h.setEnv id rfl
    have hmem : DestroyInv ((s.ipcPerm0 e).setMem m) :=
      hperm.congr rfl (fun _ => id) fun _ => id
    unfold Kernel.delivered
    refine emit (hmem.setEnv (fun hdying => absurd ?_ (hok.send hsends)) rfl) (by simp) (by simp)
    simpa [Kernel.ipcPerm0, Kernel.setEnv, Kernel.setMem] using hdying
  cases hcall with
  | skip => exact h
  | setStatus hno hst he =>
      exact h.setEnv (fun hdying => absurd hdying (hok.status hno hst he)) rfl
  | @dying e =>
      have hset : DestroyInv (s.setStatus e .dying) := h.setEnv (fun _ => rfl) rfl
      exact hset.destroyed (Or.inl (by simp [Kernel.setStatus, Kernel.setEnv]))
  | destroyOther _ _ _ _ hfree =>
      cases hfree with
      | mk =>
          obtain ⟨hfreed, hdir⟩ := h.freed
          exact hfreed.destroyed (Or.inr hdir)
  | destroySelf _ hfree =>
      cases hfree with
      | mk => exact h.freed.1.congr rfl (fun _ => id) fun _ => id
  | @exofork e d m =>
      have halloc : DestroyInv (s.allocated e d m (s.envs cur).envId) := h.allocated.1
      have hstatus : DestroyInv ((s.allocated e d m (s.envs cur).envId).setStatus e .notRunnable) :=
        halloc.setEnv (fun hdying => by simp [Kernel.allocated_self] at hdying) rfl
      exact hstatus.setEnv id rfl
  | pageAlloc => exact h.congr rfl (fun _ => id) fun _ => id
  | pageAllocFail => exact h.congr rfl (fun _ => id) fun _ => id
  | pageMap => exact h.congr rfl (fun _ => id) fun _ => id
  | pageUnmap => exact h.congr rfl (fun _ => id) fun _ => id
  | ipcFail => exact h.setEnv id rfl
  | ipcValue hno he hrecv hpage =>
      exact hsend (m := s.mem) (sends_value hno he hrecv hpage)
  | ipcPage hno he hrecv hsrcva _ hup hperm hds hdd hlook hw hinsert hr =>
      exact hsend (sends_page hno he hrecv hsrcva hup hperm hds hdd hlook hw hinsert hr)
  | ipcRecv =>
      have hset : DestroyInv (s.setEnv cur { s.envs cur with
          envIpcDstva := q.a1, envIpcRecving := true, envStatus := .notRunnable }) :=
        h.setEnv (fun hdying => absurd hdying hst) rfl
      exact hset.emit (by simp) (by simp)

theorem exit (h : DestroyInv s) (hexit : Exit M c s t) : DestroyInv t := by
  cases hexit with
  | @run e d hrunnable hdir =>
      have hdemote : DestroyInv (s.demote c) := by
        rcases demote_cases s c with heq | ⟨cur, -, hst, heq⟩ <;> rw [heq]
        · exact h
        · exact h.setEnv (fun hdying => by simp [hst] at hdying) rfl
      -- a destroyed environment is neither runnable nor has it a directory
      have hnot : ¬ Destroyed e (s.demote c).log := fun hdest => by
        rcases hdemote.status hdest with hdying | ⟨hnone, -⟩
        · simp [hrunnable] at hdying
        · simp [hdir] at hnone
      have hrun := hdemote.setEnv (e := e) (v := { (s.demote c).envs e with
        envStatus := .running, envRuns := ((s.demote c).envs e).envRuns + 1, envCpunum := c })
        (fun hdying => by simp [hrunnable] at hdying) rfl
      refine (hrun.congr (t := { (s.demote c).resume c e d with log := (s.demote c).log }) rfl
        (fun _ => id) fun _ => id).emit (a := .envRun c e) (by simp) fun c' e' heq => ?_
      obtain ⟨rfl, rfl⟩ : c = c' ∧ e = e' := by simpa using heq
      exact hnot
  | halt => exact h.congr rfl (fun _ => id) fun _ => id

theorem step {l : Label n} (h : DestroyInv s) (hok : OnCall (fun _ => DyingOk M) s l)
    (hstep : Step M s l t) : DestroyInv t := by
  cases hstep.taken with
  | @zombie c _ _ _ u _ _ _ hfree hexit =>
      have hfreed : DestroyInv (u.setCur c none) := by
        cases hfree with
        | mk => exact h.freed.1.congr rfl (fun _ => id) fun _ => id
      exact hfreed.exit hexit
  | @entry c tf _ cur u v _ hcur hst hcall hret hexit =>
      have hsaved : DestroyInv (s.setTf cur tf) := h.setEnv id rfl
      have hst' : ((s.setTf cur tf).envs cur).envStatus ≠ .dying := by
        simpa [Kernel.setTf, Kernel.setEnv] using hst
      have hcalled := hsaved.call hst' (hok rfl hcur hst) hcall
      have hreturned : DestroyInv v := by
        rcases hret with rfl | ⟨-, r, rfl⟩
        · exact hcalled
        · exact hcalled.setEnv id rfl
      exact hreturned.exit hexit
  | tick _ hexit => exact h.exit hexit
  | fill => exact h.congr rfl (fun _ => id) fun _ => id
  | store => exact h.congr rfl (fun _ => id) fun _ => id

/-- At the start nothing has been destroyed. -/
theorem booted (hboot : Booted L b s) : DestroyInv s := by
  induction hboot with
  | init => exact ⟨fun hdest => hdest.elim, fun hlog => by simp [initial] at hlog⟩
  | create _ _ hrun ih =>
      cases envCreate_wp.ret hrun with
      | @mk e d m m' =>
          have halloc : DestroyInv ((_ : Kernel n).allocated e d m 0) := ih.allocated.1
          have hload := halloc.congr (t := ((_ : Kernel n).allocated e d m 0).setMem m') rfl
            (fun _ => id) fun _ => id
          exact hload.setEnv id rfl

end DestroyInv

/-- What the log and the state say about destroyed environments. -/
structure DestroyedForGood (s : Kernel n) : Prop where
  notRun : ∀ {c e l₁ l₂ l₃},
    s.log = l₁ ++ Event.envRun c e :: l₂ ++ Event.envDestroyed e :: l₃ → Event.envAlloc e ∈ l₂
  dying : ∀ {e}, Destroyed e s.log → ¬ FreedSince e s.log → (s.envs e).envStatus = .dying

theorem destruction_final (hboot : Booted L b s)
    (hrun : Run (Step M) (OnCall fun _ => DyingOk M) s t) : DestroyedForGood t := by
  have hinv : DestroyInv t :=
    hrun.invariant (fun h hok hstep => h.step hok hstep) (.booted hboot)
  refine ⟨fun {c e l₁ l₂ l₃} hlog => ?_, fun hdest hfreed => ?_⟩
  · by_contra hmem
    rw [List.append_assoc, List.cons_append] at hlog
    refine hinv.runs hlog (since_iff.mpr ⟨l₂, _, l₃, rfl, rfl, fun ev hev heq => ?_⟩)
    exact hmem (heq ▸ hev)
  · exact (hinv.status hdest).resolve_right fun h => hfreed h.2

/-- A check of `DyingOk` that takes every send for a successful one. -/
def checkDying (s : Kernel n) : Label n → Bool
  | .trap c tf _ =>
      (s.cpuEnv c).all fun cur =>
        let q := tf.request
        let alive (e : EnvIdx) := decide (((s.setTf cur tf).envs e).envStatus ≠ .dying)
        match q.no with
        | some .envSetStatus => (envid2env (s.setTf cur tf) cur q.a1 true).all alive
        | some .ipcTrySend => (envid2env (s.setTf cur tf) cur q.a1 false).all alive
        | _ => true
  | _ => true

theorem dyingOk_of_check {l : Label n} (h : checkDying s l = true) :
    OnCall (fun _ => DyingOk M) s l := by
  rintro c tf input cur rfl hcur -
  simp only [checkDying, hcur, Option.all_some] at h
  refine ⟨fun hno _ he => ?_, fun hsend => ?_⟩
  · simp only [hno, he, Option.all_some, decide_eq_true_eq] at h
    exact h
  · simp only [hsend.1, hsend.2.1, Option.all_some, decide_eq_true_eq] at h
    exact h

theorem destruction_final_destroy : ∃ s t, Booted sampleLayout (0 : Fin 2) s ∧
    Run (Step sampleMachine) (OnCall fun _ => DyingOk sampleMachine) s t ∧
    (t.envs 1).envStatus = .free ∧ DestroyedForGood t := by
  obtain ⟨s, t, hboot, hrun, htest⟩ := sample_run 0 checkDying destroyRun
    (fun t => (t.envs 1).envStatus = .free) dyingOk_of_check (by decide +kernel)
  exact ⟨s, t, hboot, hrun, by simpa using htest, destruction_final hboot hrun⟩

/-- The parent destroys the child while it executes, makes it runnable and
yields to it. -/
def wakeDestroyed : List (Label 2) :=
  forkRun ++ [.trap 0 (syscallTf 3 0x1001 0 0 0 0) 0, .trap 0 (syscallTf 8 0x1001 2 0 0 0) 0,
    .trap 0 (syscallTf 10 0 0 0 0 0) 0]

theorem not_destruction_final : ¬ ∀ s t : Kernel 2, Booted sampleLayout 0 s →
    Run (Step sampleMachine) (fun _ _ => True) s t → DestroyedForGood t := by
  intro h
  obtain ⟨s, t, hboot, hrun, htest⟩ := sample_run 0 (fun _ _ => true) wakeDestroyed
    (fun t => match t.log with
      | .envRun _ e :: .envRun _ _ :: .envRun _ _ :: .envDestroyed e' :: _ => decide (e = e')
      | _ => false) (fun _ => trivial) (by decide +kernel)
  split at htest
  · rename_i c e c₁ e₁ c₂ e₂ e' l hlog
    obtain rfl := of_decide_eq_true htest
    have hmem := (h s t hboot hrun).notRun
      (show t.log = [] ++ .envRun c e :: [.envRun c₁ e₁, .envRun c₂ e₂] ++ .envDestroyed e :: l
        from hlog)
    simp at hmem
  · cases htest

end Jos
