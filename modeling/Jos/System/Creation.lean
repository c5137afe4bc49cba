import Jos.System.PageCalls

/-!
Creating an environment when memory runs out. `env_alloc` has two failures of
its own and returns an error for both, but between them lies a third, in the
page table of the VGA buffer, which it asserts away.
-/

namespace Jos

open Jos.Lib

variable {n : ℕ} {M : Machine} {L : Layout M} {nullOk : Prop} {c : Fin n} {cur e : EnvIdx}
  {s t : Kernel n} {parentId : Word} {d p q : ℕ} {m : Mem n}

/-! ### What the functions return -/

/-- An environment id is no error code. -/
theorem nextEnvId_nonneg (old : Word) (e : EnvIdx) : (nextEnvId old e).slt 0#32 = false := by
  have hslot : (BitVec.ofNat 32 e).msb = false := by
    have he : (e : ℕ) < 1024 := e.isLt
    rw [BitVec.msb_eq_false_iff_two_mul_lt, BitVec.toNat_ofNat]
    omega
  rw [BitVec.slt_zero_eq_msb, nextEnvId, BitVec.msb_or, hslot, Bool.or_false]
  split
  · decide
  · rename_i hpos
    by_contra hmsb
    refine hpos ?_
    rw [Bool.not_eq_false] at hmsb
    have hneg := BitVec.toInt_neg_of_msb_true hmsb
    rw [BitVec.sle, decide_eq_true_eq]
    exact hneg.le

theorem envAlloc_noFreeEnv (hhead : s.envFreeList = none) :
    envAlloc M c parentId s = .ret (.error (-eNoFreeEnv)) s := by
  simp only [envAlloc, Comp.bind_apply, Comp.get_apply, hhead]
  rfl

theorem envAlloc_noMem (hhead : s.envFreeList = some e)
    (hsetup : envSetupVm M (s.ctx c) s.mem = .ok (none, s.mem)) :
    envAlloc M c parentId s = .ret (.error (-eNoMem)) s := by
  simp only [envAlloc, Comp.bind_apply, Comp.get_apply, hhead, runMem, hsetup]
  rfl

theorem envAlloc_stop {msg : String} (hhead : s.envFreeList = some e)
    (hsetup : envSetupVm M (s.ctx c) s.mem = .error msg) :
    envAlloc M c parentId s = .stop (.panic msg) s := by
  simp only [envAlloc, Comp.bind_apply, Comp.get_apply, hhead, runMem, hsetup]

theorem envAlloc_done (hhead : s.envFreeList = some e)
    (hsetup : envSetupVm M (s.ctx c) s.mem = .ok (some d, m)) :
    envAlloc M c parentId s = .ret (.ok e) (s.allocated e d m parentId) := by
  simp only [envAlloc, Comp.bind_apply, Comp.get_apply, hhead, runMem, hsetup]
  rfl

theorem sysExofork_error {r : Word}
    (halloc : envAlloc M c (s.envs cur).envId s = .ret (.error r) t) :
    sysExofork M c cur s = .ret r t := by
  simp only [sysExofork, Comp.bind_apply, Comp.get_apply, halloc]
  rfl

theorem sysExofork_done
    (halloc : envAlloc M c (s.envs cur).envId s =
      .ret (.ok e) (s.allocated e d m (s.envs cur).envId)) :
    sysExofork M c cur s = .ret (nextEnvId (s.envs e).envId e) (s.forked cur e d m) := by
  have hid : ((s.forked cur e d m).envs e).envId = nextEnvId (s.envs e).envId e := by
    simp [Kernel.forked, Kernel.setTf, Kernel.setStatus, Kernel.allocated, Kernel.setEnv]
  simp only [sysExofork, Comp.bind_apply, Comp.get_apply, halloc, Comp.modify_apply]
  change Outcome.ret ((s.forked cur e d m).envs e).envId (s.forked cur e d m) = _
  rw [hid]

/-! ### Exhaustion -/

/-- `env_alloc` succeeds, or returns one of its errors with the state as it
was. -/
def AllocatesOrFails (M : Machine) (c : Fin n) (parentId : Word) (s : Kernel n) : Prop :=
  ∃ r t, envAlloc M c parentId s = .ret r t ∧
    ∀ code, r = .error code → (code = -eNoFreeEnv ∨ code = -eNoMem) ∧ t = s

/-- The same of `sys_exofork`. -/
def ForksOrFails (M : Machine) (c : Fin n) (cur : EnvIdx) (s : Kernel n) : Prop :=
  ∃ r t, sysExofork M c cur s = .ret r t ∧
    (r.slt 0#32 = true → (r = -eNoFreeEnv ∨ r = -eNoMem) ∧ t = s)

/-- There is one free page, and an environment to be had. -/
def OnePageLeft (s : Kernel n) : Prop :=
  s.envFreeList ≠ none ∧ ∃ p, s.mem.pageFreeList = some p ∧ (s.mem.pages p).ppLink = none

theorem fails_of_error {code : Word} (hcode : code = -eNoFreeEnv ∨ code = -eNoMem)
    (halloc : ∀ parentId, envAlloc M c parentId s = .ret (.error code) s) :
    AllocatesOrFails M c parentId s ∧ ForksOrFails M c cur s := by
  refine ⟨⟨_, s, halloc parentId, fun code' hcode' => ?_⟩,
    _, s, sysExofork_error (halloc _), fun _ => ⟨hcode, rfl⟩⟩
  obtain rfl := Except.error.inj hcode'
  exact ⟨hcode, rfl⟩

/-- `env_alloc` and `sys_exofork` do not panic unless there is exactly one
free page. -/
theorem creation_exhausted (h : Ready L nullOk s) :
    (AllocatesOrFails M c parentId s ∧ ForksOrFails M c cur s) ↔ ¬ OnePageLeft s := by
  cases hhead : s.envFreeList with
  | none =>
      exact iff_of_true (fails_of_error (Or.inl rfl) fun _ => envAlloc_noFreeEnv hhead)
        fun hone => hone.1 hhead
  | some e =>
      have hnone : s.dirs e = none := h.pgdir.mpr (h.head hhead)
      cases hfree : s.mem.pageFreeList with
      | none =>
          refine iff_of_true (fails_of_error (Or.inr rfl) fun _ =>
            envAlloc_noMem hhead (envSetupVm_full hfree)) ?_
          rintro ⟨-, p, hp, -⟩
          rw [hfree] at hp
          cases hp
      | some p =>
          cases hnext : (s.mem.pages p).ppLink with
          | none =>
              have hone : OnePageLeft s := ⟨by simp [hhead], p, hfree, hnext⟩
              refine iff_of_false ?_ fun hnot => hnot hone
              rintro ⟨⟨r, t, hret, -⟩, -⟩
              rw [envAlloc_stop hhead (envSetupVm_one h.mem hnone hfree hnext)] at hret
              cases hret
          | some q =>
              obtain ⟨m, hsetup⟩ : ∃ m, envSetupVm M (s.ctx c) s.mem = .ok (some p, m) :=
                envSetupVm_two h.mem hnone hfree hnext
              have halloc (parentId : Word) : envAlloc M c parentId s = _ :=
                envAlloc_done hhead hsetup
              refine iff_of_true ⟨⟨_, _, halloc parentId, fun _ herr => by cases herr⟩,
                _, _, sysExofork_done (halloc _), fun hneg => ?_⟩ ?_
              · rw [nextEnvId_nonneg] at hneg
                cases hneg
              · rintro ⟨-, p', hp', hlast⟩
                obtain rfl := Option.some.inj (hfree.symm.trans hp')
                rw [hnext] at hlast
                cases hlast

/-- With two free pages left an environment can be created. -/
theorem creation_exhausted_two : ∃ s t : Kernel 1, Booted smallLayout 0 s ∧
    Run (Step smallMachine) (OnCall (CallOk smallMachine)) s t ∧
    AllocatesOrFails smallMachine 0 0 t ∧ ForksOrFails smallMachine 0 0 t := by
  obtain ⟨s, t, hboot, hrun, hready, htest⟩ := small_ready (0 : Fin 1)
    [.tick 0, .trap 0 (syscallTf 4 0 belowStack 7 0 0) 0]
    (fun t => t.mem.pageFreeList.any fun p => (t.mem.pages p).ppLink.isSome) (by decide +kernel)
  refine ⟨s, t, hboot, hrun, (creation_exhausted hready).mpr ?_⟩
  rintro ⟨-, p, hp, hlast⟩
  simp [hp, hlast] at htest

/-- The first environment leaves one page and forks. -/
theorem not_creation_exhausted : ¬ ∀ (s t : Kernel 1) (cur : EnvIdx), Booted smallLayout 0 s →
    Run (Step smallMachine) (fun _ _ => True) s t → t.cpuEnv 0 = some cur →
    ∀ parentId, AllocatesOrFails smallMachine 0 parentId t ∧ ForksOrFails smallMachine 0 cur t := by
  intro h
  have hcomputed : (scenario smallMachine (smallMem 1) 0 [sampleElf] (fun _ _ => true) exhaust).map
      (fun t => decide (t.cpuEnv 0 = some 0) &&
        !(sysExofork smallMachine 0 0 t).returns fun _ _ => true) = some true := by decide +kernel
  obtain ⟨s, t, hboot, hrun, htest⟩ :
      ∃ s t, Booted smallLayout 0 s ∧ Run (Step smallMachine) (fun _ _ => True) s t ∧ _ = true :=
    scenario_run (small_init 1) sampleElf_wellFormed (fun _ => trivial) hcomputed
  obtain ⟨hcpu, hstop⟩ := Bool.and_eq_true_iff.mp htest
  obtain ⟨-, r, u, hret, -⟩ := h s t 0 hboot hrun (of_decide_eq_true hcpu) 0
  rw [hret] at hstop
  cases hstop

end Jos
