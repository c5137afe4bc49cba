import Jos.Kern.Effects
import Jos.Lib.Scan

/-!
kern/sched.c as a scheduler: which kernel entries end with a decision of
`sched_yield`, from where it scans the environments, and what it picks.
-/

namespace Jos

open Jos.Lib

variable {n : ℕ} {M : Machine} {c : Fin n} {cur e e' : EnvIdx} {s t u v : Kernel n}
  {tf : Trapframe} {input : Word} {q : Request}

/-! ### Where a scan starts -/

/-- The slot after `curenv`, or slot 0. -/
def scanStart (cur : Option EnvIdx) : ℕ := cur.elim 0 fun e => e + 1

theorem scanStart_le (cur : Option EnvIdx) : scanStart cur ≤ 1024 := by
  cases cur with
  | none => exact Nat.zero_le _
  | some e => exact e.isLt

theorem schedOrder_eq (cur : Option EnvIdx) : schedOrder cur = scanFrom 1024 (scanStart cur) := by
  cases cur with
  | none =>
      simp only [schedOrder, scanFrom, scanStart, Option.elim_none, Nat.zero_add]
  | some e => rfl

/-- The first environment that is runnable, in the order of a scan. -/
def pick (s : Kernel n) (cur : Option EnvIdx) : Option EnvIdx :=
  (schedOrder cur).find? fun e => (s.envs e).envStatus = .runnable

/-! ### What is picked -/

theorem envRun_leave (h : envRun c e s = .leave t) :
    ((s.demote c).envs e).envStatus = .runnable ∧ ∃ d, t = (s.demote c).resume c e d := by
  have hwp : Comp.wp (envRun c e) (fun _ _ => False)
      (fun t => ((s.demote c).envs e).envStatus = .runnable ∧
        ∃ d, t = (s.demote c).resume c e d) (fun _ => True) s := by
    unfold envRun
    simp only [Comp.wp_bind, Comp.wp_modify, Comp.wp_get, Comp.wp_ite, Comp.wp_stop, implies_true,
      true_and]
    intro hrunnable
    cases hdir : ((s.demote c).envs e).envPgdir with
    | none => simp
    | some d =>
        simp only [Comp.wp_bind, Comp.wp_modify, Comp.wp_exit]
        exact ⟨not_not.mp hrunnable, d, rfl⟩
  exact hwp.leave h

theorem resume_cpuEnv {d : ℕ} : (s.resume c e d).cpuEnv = Function.update s.cpuEnv c (some e) := rfl

theorem resume_status {d : ℕ} : ((s.resume c e d).envs e').envStatus =
    if e' = e then .running else (s.envs e').envStatus := by
  by_cases he : e' = e
  · subst he
    rw [Kernel.resume_self, if_pos rfl]
  · rw [Kernel.resume_of_ne he, if_neg he]

/-- `env_run` changes the status of the environment it runs and of `curenv`
only. -/
theorem demote_status (he : s.cpuEnv c ≠ some e') :
    ((s.demote c).envs e').envStatus = (s.envs e').envStatus := by
  rcases demote_cases s c with h | ⟨cur, hcur, -, h⟩ <;> rw [h]
  have hne : e' ≠ cur := by
    rintro rfl
    exact he hcur
  simp [Kernel.setStatus, Kernel.setEnv, hne]

/-- With a runnable environment `sched_yield` runs the first that its scan
finds. -/
theorem schedYield_leave (h : schedYield M c s = .leave t)
    (he : (s.envs e).envStatus = .runnable) :
    ∃ x, pick s (s.cpuEnv c) = some x ∧ envRun c x s = .leave t := by
  unfold schedYield at h
  unfold pick
  simp only [Comp.bind_apply, Comp.get_apply] at h
  cases hfind : (schedOrder (s.cpuEnv c)).find? fun e => (s.envs e).envStatus = .runnable with
  | some x =>
      rw [hfind] at h
      exact ⟨x, rfl, h⟩
  | none =>
      have hnone := List.find?_eq_none.mp hfind e (mem_schedOrder _ e)
      simp [he] at hnone

/-! ### Exits -/

/-- `trap_dispatch` destroys the environment that took the trap. -/
def destroysSelf (M : Machine) (cur : EnvIdx) (tf : Trapframe) (s : Kernel n) : Bool :=
  if tf.tfTrapno = tBrkpt then false
  else if tf.tfTrapno = tPgflt then true
  else if tf.tfTrapno = tSyscall then
    match Sysno.ofWord tf.tfRegs.regEax with
    | some .cputs =>
        (s.envs cur).envPgdir.any fun d =>
          match userMemCheck M d tf.tfRegs.regEdx tf.tfRegs.regEcx (0 ||| pteU) s.mem with
          | .ok (some _) => true
          | _ => false
    | some .envDestroy => decide (envid2env s cur tf.tfRegs.regEdx true = some cur)
    | _ => false
  else if tf.tfTrapno = irqOffset + irqSpurious then false
  else decide (tf.tfTrapno ≠ irqOffset + irqTimer)

/-- The step is the exit of `curenv`. -/
def exits (M : Machine) (s : Kernel n) : Label n → Bool
  | .trap c tf _ =>
      (s.cpuEnv c).any fun cur =>
        decide ((s.envs cur).envStatus = .dying) || destroysSelf M cur tf (s.setTf cur tf)
  | _ => false

/-! ### How the CPU is given up -/

/-- State `v`, in which `sched_yield` is called, as seen from the request:
`curenv` is what it was, or, under `exit`, it has been freed. -/
inductive GivesUp (exit : Prop) (c : Fin n) (s v : Kernel n) : Prop
  | keeps (hcpu : v.cpuEnv c = s.cpuEnv c)
  | frees (hexit : exit) (hcpu : v.cpuEnv c = none)

/-- A computation left through `sched_yield`. -/
def Leaves (exit : Prop) (M : Machine) (c : Fin n) (s t : Kernel n) : Prop :=
  ∃ v, GivesUp exit c s v ∧ schedYield M c v = .leave t

variable {exit exit' : Prop}

theorem GivesUp.of_setTf (h : GivesUp exit c (s.setTf e tf) v) : GivesUp exit c s v := by
  cases h with
  | keeps hcpu => exact .keeps hcpu
  | frees hexit hcpu => exact .frees hexit hcpu

theorem Leaves.of_setTf (h : Leaves exit M c (s.setTf e tf) t) : Leaves exit M c s t := by
  obtain ⟨v, hgives, hyield⟩ := h
  exact ⟨v, hgives.of_setTf, hyield⟩

/-- The computation returns with `curenv` as it was, or leaves through
`sched_yield`. -/
def Schedules {α : Type} (exit : Prop) (M : Machine) (c : Fin n) (s : Kernel n) (m : KM n α) :
    Prop :=
  Comp.wp m (fun _ t => t.cpuEnv c = s.cpuEnv c) (Leaves exit M c s) (fun _ => True) s

theorem leaves_yield {R : Unit → Kernel n → Prop} (h : GivesUp exit c s v) :
    Comp.wp (schedYield M c) R (Leaves exit M c s) (fun _ => True) v :=
  Comp.wp_intro (fun _ _ hret => (schedYield_wp.ret hret).elim) (fun _ hleave => ⟨v, h, hleave⟩)
    fun _ _ _ => trivial

theorem envDestroy_schedules (hcur : s.cpuEnv c = some cur) (hexit : e = cur → exit) :
    Schedules exit M c s (envDestroy M c e) := by
  unfold Schedules envDestroy
  simp only [Comp.wp_bind, Comp.wp_get, Comp.wp_ite, Comp.wp_modify]
  refine ⟨fun _ => rfl, fun _ => ?_⟩
  refine envFree_wp.mono (fun _ u hfree => ?_) (fun _ h => h.elim) fun _ _ => trivial
  simp only [hfree.cpuEnv, hcur]
  refine ⟨fun he => ?_, fun _ => (Comp.wp_pure _).mpr (by rw [hfree.cpuEnv, hcur])⟩
  obtain rfl := Option.some.inj he
  exact leaves_yield (.frees (hexit rfl) (Function.update_self _ _ _))

theorem sysCputs_schedules {str len : Word} (hcur : s.cpuEnv c = some cur)
    (hexit : ∀ {d va}, (s.envs cur).envPgdir = some d →
      userMemCheck M d str len (0 ||| pteU) s.mem = .ok (some va) → exit) :
    Schedules exit M c s (sysCputs M c cur str len) := by
  unfold Schedules sysCputs userMemAssert withPgdir
  simp only [Comp.wp_bind, Comp.wp_get]
  cases hdir : (s.envs cur).envPgdir with
  | none => exact (Comp.wp_stop _).mpr trivial
  | some d =>
      simp only [Comp.wp_bind, wp_readMem]
      refine ⟨fun r hcheck => ?_, fun _ _ => trivial⟩
      cases r with
      | none =>
          refine (Comp.wp_pure _).mpr ?_
          split
          · exact (Comp.wp_pure _).mpr rfl
          · exact (Comp.wp_stop _).mpr trivial
          · exact (Comp.wp_stop _).mpr trivial
      | some va =>
          refine (envDestroy_schedules hcur fun _ => hexit hdir hcheck).mono (fun _ v hv => ?_)
            (fun _ h => h) fun _ h => h
          split
          · exact (Comp.wp_pure _).mpr hv
          · exact (Comp.wp_stop _).mpr trivial
          · exact (Comp.wp_stop _).mpr trivial

/-- A computation that does not give up the CPU. -/
def Stays {α : Type} (m : KM n α) : Prop :=
  ∀ s, Comp.wp m (fun _ t => t.cpuEnv = s.cpuEnv) (fun _ => False) (fun _ => True) s

section

variable {α β : Type} {m : KM n α} {f : α → KM n β}

theorem Stays.schedules (hm : Stays m) : Schedules exit M c s m :=
  (hm s).mono (fun _ _ h => congrFun h c) (fun _ h => h.elim) fun _ h => h

theorem Stays.bind (hm : Stays m) (hf : ∀ a, Stays (f a)) : Stays (m >>= f) := fun s =>
  Comp.wp_bind.mpr <| (hm s).mono
    (fun a t ht => (hf a t).mono (fun _ _ hu => hu.trans ht) (fun _ h => h) fun _ h => h)
    (fun _ h => h) fun _ h => h

theorem stays_pure (a : α) : Stays (pure a : KM n α) := fun _ => (Comp.wp_pure _).mpr rfl

theorem stays_ite {p : Prop} [Decidable p] {m' : KM n α} (hm : Stays m) (hm' : Stays m') :
    Stays (if p then m else m') := by
  split
  · exact hm
  · exact hm'

theorem stays_get : Stays (Comp.get : KM n (Kernel n)) := fun _ => Comp.wp_get.mpr rfl

theorem stays_modify {g : Kernel n → Kernel n} (hg : ∀ s, (g s).cpuEnv = s.cpuEnv) :
    Stays (Comp.modify g : KM n Unit) := fun s => Comp.wp_modify.mpr (hg s)

theorem stays_stop (why : Stop) : Stays (Comp.stop why : KM n α) := fun _ =>
  (Comp.wp_stop _).mpr trivial

theorem stays_runMem (g : Kernel n → Except String (α × Mem n)) : Stays (runMem g) := fun _ =>
  wp_runMem.mpr ⟨fun _ _ _ => rfl, fun _ _ => trivial⟩

theorem stays_readMem (g : Kernel n → Except String α) : Stays (readMem g) := fun _ =>
  wp_readMem.mpr ⟨fun _ _ => rfl, fun _ _ => trivial⟩

theorem stays_changeMem (g : Kernel n → Except String (Mem n)) : Stays (changeMem g) := fun _ =>
  wp_changeMem.mpr ⟨fun _ _ => rfl, fun _ _ => trivial⟩

theorem stays_withPgdir {g : ℕ → KM n α} (hg : ∀ d, Stays (g d)) : Stays (withPgdir e g) := by
  refine stays_get.bind fun s => ?_
  cases (s.envs e).envPgdir with
  | none => exact stays_stop _
  | some d => exact hg d

end

theorem sysExofork_stays : Stays (sysExofork M c cur) := by
  refine stays_get.bind fun s => Stays.bind ?_ fun r => ?_
  · refine stays_get.bind fun s => ?_
    cases s.envFreeList with
    | none => exact stays_pure _
    | some e =>
        refine (stays_runMem _).bind fun d => ?_
        cases d with
        | none => exact stays_pure _
        | some d =>
            refine (stays_modify fun _ => by rfl).bind fun _ => ?_
            refine (stays_modify fun _ => by rfl).bind fun _ => ?_
            exact (stays_modify fun _ => by rfl).bind fun _ => stays_pure _
  · cases r with
    | error r => exact stays_pure _
    | ok e =>
        refine (stays_modify fun _ => by rfl).bind fun _ => ?_
        exact (stays_modify fun _ => by rfl).bind fun _ => stays_get.bind fun _ => stays_pure _

theorem sysEnvSetStatus_stays {envid status : Word} :
    Stays (sysEnvSetStatus cur envid status : KM n Word) := by
  refine stays_get.bind fun s => ?_
  cases statusOfWord status with
  | none => exact stays_pure _
  | some st =>
      cases envid2env s cur envid true with
      | none => exact stays_pure _
      | some e => exact (stays_modify fun _ => by rfl).bind fun _ => stays_pure _

theorem sysPageAlloc_stays {envid va perm : Word} : Stays (sysPageAlloc M c cur envid va perm) := by
  refine stays_get.bind fun s => ?_
  cases envid2env s cur envid true with
  | none => exact stays_pure _
  | some e =>
      refine stays_ite (stays_pure _) ?_
      refine (stays_runMem _).bind fun page => ?_
      cases page with
      | none => exact stays_pure _
      | some page =>
          refine stays_withPgdir fun d => (stays_runMem _).bind fun r => ?_
          exact stays_ite ((stays_changeMem _).bind fun _ => stays_pure _) (stays_pure _)

theorem sysPageMap_stays {srcenvid srcva dstenvid dstva perm : Word} :
    Stays (sysPageMap M c cur srcenvid srcva dstenvid dstva perm) := by
  refine stays_get.bind fun s => ?_
  cases envid2env s cur srcenvid true with
  | none => exact stays_pure _
  | some src =>
      cases envid2env s cur dstenvid true with
      | none => exact stays_pure _
      | some dst =>
          refine stays_ite (stays_pure _) (stays_ite (stays_pure _) ?_)
          refine stays_withPgdir fun d => (stays_readMem _).bind fun look =>
            stays_get.bind fun s => ?_
          cases look.1 with
          | none => exact stays_pure _
          | some a =>
              refine stays_ite (stays_pure _) (stays_withPgdir fun d => ?_)
              exact (stays_runMem _).bind fun r => stays_ite (stays_pure _) (stays_pure _)

theorem sysPageUnmap_stays {envid va : Word} : Stays (sysPageUnmap M c cur envid va) := by
  refine stays_get.bind fun s => ?_
  cases envid2env s cur envid true with
  | none => exact stays_pure _
  | some e =>
      refine stays_ite (stays_pure _) (stays_withPgdir fun d => ?_)
      exact (stays_changeMem _).bind fun _ => stays_pure _

theorem ipcDeliver_stays {target : EnvIdx} {value perm : Word} {page : Option ℕ} :
    Stays (ipcDeliver cur target value perm page : KM n Word) :=
  stays_get.bind fun _ => (stays_modify fun _ => by rfl).bind fun _ =>
    (stays_modify fun _ => by rfl).bind fun _ => stays_pure _

theorem sysIpcTrySend_stays {envid value srcva perm : Word} :
    Stays (sysIpcTrySend M c cur envid value srcva perm) := by
  refine stays_get.bind fun s => ?_
  cases envid2env s cur envid false with
  | none => exact stays_pure _
  | some target =>
      refine stays_ite (stays_pure _) ((stays_modify fun _ => by rfl).bind fun _ => ?_)
      refine stays_ite (stays_withPgdir fun d => ?_) ipcDeliver_stays
      refine (stays_readMem _).bind fun look => stays_get.bind fun s => ?_
      cases look.1 with
      | none => exact stays_pure _
      | some a =>
          refine stays_ite (stays_pure _) (stays_ite (stays_stop _) (stays_withPgdir fun d => ?_))
          exact (stays_runMem _).bind fun r => stays_ite (stays_pure _) ipcDeliver_stays

theorem syscall_schedules (hcur : s.cpuEnv c = some cur) (htrapno : tf.tfTrapno = tSyscall) :
    Schedules (destroysSelf M cur tf s = true) M c s
      (syscall M c cur input tf.tfRegs.regEax tf.tfRegs.regEdx tf.tfRegs.regEcx
        tf.tfRegs.regEbx tf.tfRegs.regEdi tf.tfRegs.regEsi) := by
  have hself : destroysSelf M cur tf s = match Sysno.ofWord tf.tfRegs.regEax with
      | some .cputs =>
          (s.envs cur).envPgdir.any fun d =>
            match userMemCheck M d tf.tfRegs.regEdx tf.tfRegs.regEcx (0 ||| pteU) s.mem with
            | .ok (some _) => true
            | _ => false
      | some .envDestroy => decide (envid2env s cur tf.tfRegs.regEdx true = some cur)
      | _ => false := by
    unfold destroysSelf
    rw [if_neg (by rw [htrapno]; decide), if_neg (by rw [htrapno]; decide), if_pos htrapno]
  unfold syscall
  cases hno : Sysno.ofWord tf.tfRegs.regEax with
  | none => exact (stays_pure _).schedules
  | some no =>
      rw [hno] at hself
      cases no with
      | cputs =>
          refine Comp.wp_bind.mpr ((sysCputs_schedules hcur fun {d va} hd hcheck => ?_).mono
            (fun _ _ h => (Comp.wp_pure _).mpr h) (fun _ h => h) fun _ h => h)
          simp only [hself, hd, hcheck, Option.any_some]
      | envDestroy =>
          unfold Schedules sysEnvDestroy
          simp only [Comp.wp_bind, Comp.wp_get]
          cases he : envid2env s cur tf.tfRegs.regEdx true with
          | none => exact (Comp.wp_pure _).mpr rfl
          | some e =>
              simp only [Comp.wp_bind, Comp.wp_modify, Comp.wp_pure]
              refine (envDestroy_schedules hcur fun heq => ?_).mono (fun _ _ h => h) (fun _ h => h)
                fun _ h => h
              rw [hself, he, heq, decide_eq_true_eq]
      | yield => exact Comp.wp_bind.mpr (leaves_yield (.keeps rfl))
      | ipcRecv =>
          unfold Schedules sysIpcRecv
          simp only [Comp.wp_ite, Comp.wp_bind, Comp.wp_modify]
          exact ⟨fun _ => (Comp.wp_pure _).mpr rfl, fun _ => leaves_yield (.keeps rfl)⟩
      | cgetc => exact (stays_pure _).schedules
      | getenvid => exact (stays_get.bind fun _ => stays_pure _).schedules
      | pageAlloc => exact sysPageAlloc_stays.schedules
      | pageMap => exact sysPageMap_stays.schedules
      | pageUnmap => exact sysPageUnmap_stays.schedules
      | exofork => exact sysExofork_stays.schedules
      | envSetStatus => exact sysEnvSetStatus_stays.schedules
      | envSetPgfaultUpcall => exact (stays_pure _).schedules
      | ipcTrySend => exact sysIpcTrySend_stays.schedules

theorem trapDispatch_schedules (hcur : s.cpuEnv c = some cur) (htf : (s.envs cur).envTf = tf) :
    Schedules (destroysSelf M cur tf s = true) M c s (trapDispatch M c cur input) := by
  subst htf
  unfold Schedules trapDispatch pageFaultHandler
  simp only [Comp.wp_bind, Comp.wp_get, Comp.wp_ite, Comp.wp_stop, Comp.wp_pure, implies_true,
    true_and]
  refine fun hbrk => ⟨fun hflt => ?_, fun hflt => ⟨fun hsys => ?_, fun hsys hspur =>
    ⟨fun _ => leaves_yield (.keeps rfl), fun htimer => ?_⟩⟩⟩
  · refine envDestroy_schedules hcur fun _ => ?_
    rw [destroysSelf, if_neg hbrk, if_pos hflt]
  · exact (syscall_schedules hcur hsys).mono (fun _ _ h => Comp.wp_modify.mpr h) (fun _ h => h)
      fun _ h => h
  · refine envDestroy_schedules hcur fun _ => ?_
    rw [destroysSelf, if_neg hbrk, if_neg hflt, if_neg hsys, if_neg hspur, decide_eq_true htimer]

/-! ### Decisions -/

/-- The step ends with a decision of `sched_yield`: it is the first of a CPU or
its first after a halt, or a trap that does not return to a running
`curenv`. -/
def decides (M : Machine) (s : Kernel n) : Label n → Bool
  | .trap c tf input =>
      (s.cpuEnv c).any fun cur =>
        decide ((s.envs cur).envStatus = .dying) ||
          match trapDispatch M c cur input (s.setTf cur tf) with
          | .ret () v => !(v.cpuEnv c).any fun e => (v.envs e).envStatus = .running
          | _ => true
  | .tick _ => true
  | _ => false

/-- A trap ends with a decision, or `curenv` goes on. -/
theorem trap_decides (h : trap M c tf input s = .leave t) (hcur : s.cpuEnv c = some cur) :
    (decides M s (.trap c tf input) = true ∧
      Leaves (exits M s (.trap c tf input) = true) M c s t) ∨
      (decides M s (.trap c tf input) = false ∧ t.cpuEnv c = some cur) := by
  by_cases hst : (s.envs cur).envStatus = .dying
  · left
    refine ⟨by simp [decides, hcur, hst], ?_⟩
    have hexit : exits M s (.trap c tf input) = true := by simp [exits, hcur, hst]
    have hwp : Comp.wp (trap M c tf input) (fun _ _ => True)
        (Leaves (exits M s (.trap c tf input) = true) M c s) (fun _ => True) s := by
      unfold trap
      simp only [Comp.wp_bind, Comp.wp_get, hcur, Comp.wp_ite, hst, not_true, false_implies,
        true_implies, and_true, Comp.wp_modify]
      exact envFree_wp.mono
        (fun _ u hfree => leaves_yield (.frees hexit (Function.update_self _ _ _)))
        (fun _ h => h.elim) fun _ _ => trivial
    exact hwp.leave h
  · have hexit : exits M s (.trap c tf input) = destroysSelf M cur tf (s.setTf cur tf) := by
      simp [exits, hcur, hst]
    have hdecides : decides M s (.trap c tf input) =
        match trapDispatch M c cur input (s.setTf cur tf) with
        | .ret () v => !(v.cpuEnv c).any fun e => (v.envs e).envStatus = .running
        | _ => true := by
      simp only [decides, hcur, Option.any_some, hst, decide_false, Bool.false_or]
    have hwp : Schedules (destroysSelf M cur tf (s.setTf cur tf) = true) M c (s.setTf cur tf)
        (trapDispatch M c cur input) :=
      trapDispatch_schedules hcur (by simp [Kernel.setTf, Kernel.setEnv])
    rw [trap_apply hcur hst, Comp.bind_apply] at h
    rw [hdecides, hexit]
    cases hrun : trapDispatch M c cur input (s.setTf cur tf) with
    | leave u =>
        rw [hrun] at h
        cases h
        exact Or.inl ⟨rfl, (hwp.leave hrun).of_setTf⟩
    | stop why u =>
        rw [hrun] at h
        cases h
    | ret r v =>
        rw [hrun] at h
        simp only [Comp.bind_apply, Comp.get_apply] at h
        have hcpu : v.cpuEnv c = some cur := (hwp.ret hrun).trans hcur
        simp only [hcpu] at h
        split at h
        · rename_i hrunning
          obtain ⟨-, d, rfl⟩ := envRun_leave h
          refine Or.inr ⟨by simp [hcpu, hrunning], ?_⟩
          rw [resume_cpuEnv, Function.update_self]
        · rename_i hrunning
          have hyield : Leaves (destroysSelf M cur tf (s.setTf cur tf) = true) M c
              (s.setTf cur tf) t := ⟨v, .keeps (hwp.ret hrun), h⟩
          exact Or.inl ⟨by simp [hcpu, hrunning], hyield.of_setTf⟩

end Jos
