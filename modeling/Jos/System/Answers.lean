import Jos.System.Creation
import Jos.System.Ids
import Jos.System.Progress
import Jos.System.Refinement
import Jos.System.RoundRobin

/-!
What the kernel answers. For the system calls that a program makes to edit
address spaces and to create an environment: the result, as the program finds
it, and what has become of the world, for arguments that pass the checks. The
only errors left are those for want of memory or of an environment.
-/

namespace Jos

open Jos.Lib

variable {n : ℕ} {M : Machine} {L : Layout M} {c : Fin n} {cur e e' : EnvIdx}
  {s t u : Kernel n} {q : Jos.Request} {tf : Trapframe} {input id va perm : Word}

/-! ### Traps -/

/-- Who is scheduled changes nothing that processes see but their turns. -/
theorem exit_keeps {O : Set EnvIdx} (hexit : Exit M c s t) : World.Kept O s.world t.world :=
  World.leaves_keeps (exit_leaves hexit)

/-- The end of `trap`. -/
theorem goOn_wp (v : Kernel n) : Comp.wp (match v.cpuEnv c with
    | some e => if (v.envs e).envStatus = .running then envRun c e else schedYield M c
    | none => schedYield M c : KM n Unit) (fun _ _ => False) (Exit M c v) (fun _ => True) v := by
  cases v.cpuEnv c with
  | none => exact schedYield_wp.mono (fun _ _ h => h) (fun _ h => h) fun _ _ => trivial
  | some e =>
      simp only [Comp.wp_ite]
      exact ⟨fun _ => envRun_wp.mono (fun _ _ h => h) (fun _ h => h) fun _ _ => trivial,
        fun _ => schedYield_wp.mono (fun _ _ h => h) (fun _ h => h) fun _ _ => trivial⟩

/-- A trap that is served leaves a state in which the CPU schedules. -/
theorem trap_served {R : Kernel n → Prop} (hcur : s.cpuEnv c = some cur)
    (hst : (s.envs cur).envStatus ≠ .dying)
    (hserve : Comp.wp (trapDispatch M c cur input) (fun _ v => R v)
      (fun t => ∃ v, R v ∧ Exit M c v t) (fun _ => True) (s.setTf cur tf))
    (hstep : Step M s (.trap c tf input) t) : ∃ v, R v ∧ Exit M c v t := by
  have hleave : trap M c tf input s = .leave t := (step_trap (by simp [hcur])).mp hstep
  rw [trap_apply hcur hst] at hleave
  have hwp : Comp.wp (trapDispatch M c cur input >>= fun _ =>
      Comp.get >>= fun s => match s.cpuEnv c with
        | some e => if (s.envs e).envStatus = .running then envRun c e else schedYield M c
        | none => schedYield M c) (fun _ _ => False) (fun t => ∃ v, R v ∧ Exit M c v t)
      (fun _ => True) (s.setTf cur tf) := by
    rw [Comp.wp_bind]
    refine hserve.mono (fun _ v hv => ?_) (fun _ h => h) fun _ _ => trivial
    rw [Comp.wp_bind, Comp.wp_get]
    exact (goOn_wp v).mono (fun _ _ h => h) (fun _ hexit => ⟨v, hv, hexit⟩) fun _ _ => trivial
  exact hwp.leave hleave

/-- A system call that returns puts its result into `eax`. -/
theorem trap_returns {R : Word → Kernel n → Prop} (hcur : s.cpuEnv c = some cur)
    (hst : (s.envs cur).envStatus ≠ .dying) (htf : tf.tfTrapno = tSyscall)
    (hcall : Comp.wp (syscall M c cur input tf.tfRegs.regEax tf.tfRegs.regEdx tf.tfRegs.regEcx
      tf.tfRegs.regEbx tf.tfRegs.regEdi tf.tfRegs.regEsi) R (fun _ => False) (fun _ => True)
      (s.setTf cur tf)) (hstep : Step M s (.trap c tf input) t) :
    ∃ r u, R r u ∧ Exit M c (u.setTf cur ((u.envs cur).envTf.setEax r)) t := by
  have hsaved : ((s.setTf cur tf).envs cur).envTf = tf := by simp [Kernel.setTf, Kernel.setEnv]
  have hserved := trap_served
    (R := fun v => ∃ r u, R r u ∧ v = u.setTf cur ((u.envs cur).envTf.setEax r)) hcur hst ?_ hstep
  · obtain ⟨v, ⟨r, u, hru, rfl⟩, hexit⟩ := hserved
    exact ⟨r, u, hru, hexit⟩
  · have hbrkpt : tf.tfTrapno ≠ tBrkpt := by
      rw [htf]
      decide
    have hpgflt : tf.tfTrapno ≠ tPgflt := by
      rw [htf]
      decide
    unfold trapDispatch
    simp only [Comp.wp_bind, Comp.wp_get, hsaved, if_neg hbrkpt, if_neg hpgflt, if_pos htf]
    exact hcall.mono (fun r u hru => Comp.wp_modify.mpr ⟨r, u, hru, rfl⟩) (fun _ h => h.elim)
      fun _ _ => trivial

/-- An interrupt saves the registers and reschedules. -/
theorem trap_interrupt (hcur : s.cpuEnv c = some cur) (hst : (s.envs cur).envStatus ≠ .dying)
    (hno : tf.tfTrapno = irqOffset + irqTimer ∨ tf.tfTrapno = irqOffset + irqSpurious)
    (hstep : Step M s (.trap c tf input) t) : Exit M c (s.setTf cur tf) t := by
  have hsaved : ((s.setTf cur tf).envs cur).envTf = tf := by simp [Kernel.setTf, Kernel.setEnv]
  have hserved := trap_served (R := fun v => v = s.setTf cur tf) hcur hst ?_ hstep
  · obtain ⟨v, rfl, hexit⟩ := hserved
    exact hexit
  · have hother : tf.tfTrapno ≠ tBrkpt ∧ tf.tfTrapno ≠ tPgflt ∧ tf.tfTrapno ≠ tSyscall := by
      rcases hno with h | h <;> rw [h] <;> decide
    unfold trapDispatch
    simp only [Comp.wp_bind, Comp.wp_get, hsaved, if_neg hother.1, if_neg hother.2.1,
      if_neg hother.2.2]
    rcases hno with h | h
    · have hspurious : tf.tfTrapno ≠ irqOffset + irqSpurious := by
        rw [h]
        decide
      rw [if_neg hspurious, if_pos h]
      exact schedYield_wp.mono (fun _ _ h => h.elim) (fun t hexit => ⟨_, rfl, hexit⟩)
        fun _ _ => trivial
    · rw [if_pos h]
      exact (Comp.wp_pure _).mpr rfl

/-! ### Calls -/

theorem envid2env_world (s : Kernel n) (cur : EnvIdx) (id : Word) (checkperm : Bool) :
    s.world.envid2env cur id checkperm = envid2env s cur id checkperm := rfl

theorem sysPageAlloc_world (h : Conserved L (some c) s)
    (he : envid2env s cur id true = some e) (hva : userPage va) (hperm : validPerm perm) :
    Comp.wp (sysPageAlloc M c cur id va perm)
      (fun r u => r = -eNoMem ∧ u.world = s.world ∨
        r = 0 ∧ ∃ p, p ∉ devices ∧ (∀ o, ¬ s.world.spaces.Maps o p) ∧
          u.world = s.world.pageAlloc e va perm p)
      (fun _ => False) (fun _ => True) s := by
  have hpass : ¬ ¬ (userPage va ∧ validPerm perm) := not_not.mpr ⟨hva, hperm⟩
  unfold sysPageAlloc withPgdir
  simp only [Comp.wp_bind, Comp.wp_get, he, if_neg hpass, wp_runMem]
  refine ⟨fun page m₁ halloc => ?_, fun _ _ => trivial⟩
  cases page with
  | none =>
      obtain ⟨-, rfl⟩ := pageAlloc_none halloc
      exact (Comp.wp_pure _).mpr (.inl ⟨rfl, rfl⟩)
  | some page =>
      simp only [Comp.wp_bind, Comp.wp_get]
      have hdir : ((s.setMem m₁).envs e).envPgdir = s.dirs e := rfl
      rw [hdir]
      cases hd : s.dirs e with
      | none => exact (Comp.wp_stop _).mpr trivial
      | some d =>
          simp only [Comp.wp_bind, wp_runMem, Comp.wp_ite, wp_changeMem, Comp.wp_pure]
          refine ⟨fun r m₂ hinsert => ⟨?_, fun hr => ?_⟩, fun _ _ => trivial⟩
          · rintro rfl
            obtain ⟨-, rfl⟩ := (pageInsert_ret hinsert).resolve_left (by decide)
            exact ⟨fun m₃ hfree => .inl ⟨trivial, world_putBack h halloc hfree⟩, fun _ _ => trivial⟩
          · obtain rfl := (pageInsert_ret hinsert).resolve_right fun hfail => hr hfail.1
            obtain ⟨hworld, hdevice, hunused⟩ := world_pageAlloc h halloc hd (pdx_userPage hva)
              (perm_lt_of_valid hperm) hinsert
            exact .inr ⟨trivial, page, hdevice, hunused, hworld⟩

/-- A page that is mapped at `q.a2` is entered elsewhere. -/
theorem sysPageMap_world {src dst : EnvIdx} {p : ℕ} {w : Word} (h : Conserved L (some c) s)
    (hok : PresentOk M c cur q s) (hno : q.no = some .pageMap)
    (hsrc : envid2env s cur q.a1 true = some src) (hdst : envid2env s cur q.a3 true = some dst)
    (hva : userPage q.a2 ∧ userPage q.a4) (hperm : validPerm q.a5)
    (hpage : s.world.spaces.map src (pageAddr q.a2) = some (p, w))
    (hW : Flag q.a5 pteW → Flag w pteW) :
    Comp.wp (sysPageMap M c cur q.a1 q.a2 q.a3 q.a4 q.a5)
      (fun r u => r = -eNoMem ∧ u.world = s.world ∨
        r = 0 ∧ u.world = s.world.pageMap dst q.a4 q.a5 p)
      (fun _ => False) (fun _ => True) s := by
  have hpass : ¬ ¬ (userPage q.a2 ∧ userPage q.a4) := not_not.mpr hva
  obtain ⟨v, hv, heq⟩ := Option.map_eq_some_iff.mp
    (show (mapping s.mem.word s.dirs src (pdx q.a2) (ptx q.a2)).map
      (fun w => (pteFrame w, w &&& 0xFFF#32)) = some (p, w) from hpage)
  obtain ⟨rfl, rfl⟩ := Prod.mk.inj heq
  unfold sysPageMap withPgdir
  simp only [Comp.wp_bind, Comp.wp_get, hsrc, hdst, if_neg hpass, if_neg (not_not.mpr hperm)]
  have hdsrc : (s.envs src).envPgdir = s.dirs src := rfl
  rw [hdsrc]
  cases hds : s.dirs src with
  | none => exact (Comp.wp_stop _).mpr trivial
  | some ds =>
      simp only [Comp.wp_bind, wp_readMem, Comp.wp_get]
      refine ⟨fun looked hlook => ?_, fun _ _ => trivial⟩
      obtain ⟨r, page⟩ := looked
      obtain ⟨htable, hpage', -⟩ := pageLookup_spec hds (pdx_userPage hva.1) hlook
      rw [hv, Option.map_some] at hpage'
      subst hpage'
      obtain ⟨pt, ht, -, rfl⟩ := mapping_eq_some.mp hv
      rw [ht, Option.map_some] at htable
      subst htable
      have hwrite : ¬ (Flag q.a5 pteW ∧ ¬ Flag (s.mem.word pt (ptx q.a2)) pteW) := fun hbad =>
        hbad.2 ((flag_and_low (by decide)).mp (hW hbad.1))
      have hddst : (s.envs dst).envPgdir = s.dirs dst := rfl
      simp only [if_neg hwrite, hddst, Comp.wp_bind, Comp.wp_get]
      cases hdd : s.dirs dst with
      | none => exact (Comp.wp_stop _).mpr trivial
      | some dd =>
          simp only [Comp.wp_bind, wp_runMem, Comp.wp_ite, Comp.wp_pure]
          refine ⟨fun r m hinsert => ⟨?_, fun hr => ?_⟩, fun _ _ => trivial⟩
          · rintro rfl
            obtain ⟨-, rfl⟩ := (pageInsert_ret hinsert).resolve_left (by decide)
            exact .inl ⟨trivial, rfl⟩
          · obtain rfl := (pageInsert_ret hinsert).resolve_right fun hfail => hr hfail.1
            have hins : Inserts M cur q s _ dd q.a4 := .map hno hsrc hdst hva.1 hva.2 hperm hds
              hdd hlook (fun hW' => (flag_and_low (by decide)).mp (hW hW'))
              (pageInsert_room hinsert (by decide))
            have hload := h.sys.mem.load_lt h.sys.bounded
              (pageTarget_counted (h.sys.mem.tables.page hv) (h.mapped_lt hv))
              (hok.call.room.insert hins)
            exact .inr ⟨trivial, world_pageMap h hv hload hdd (pdx_userPage hva.2)
              (perm_lt_of_valid hperm) hinsert⟩

theorem sysPageUnmap_world (h : Conserved L (some c) s) (he : envid2env s cur id true = some e)
    (hva : userPage va) :
    Comp.wp (sysPageUnmap M c cur id va) (fun r u => r = 0 ∧ u.world = s.world.pageUnmap e va)
      (fun _ => False) (fun _ => True) s := by
  unfold sysPageUnmap withPgdir
  simp only [Comp.wp_bind, Comp.wp_get, he, if_neg (not_not.mpr hva)]
  have hdir : (s.envs e).envPgdir = s.dirs e := rfl
  rw [hdir]
  cases hd : s.dirs e with
  | none => exact (Comp.wp_stop _).mpr trivial
  | some d =>
      simp only [Comp.wp_bind, wp_changeMem, Comp.wp_pure]
      exact ⟨fun m hremove => ⟨trivial, world_pageUnmap h hd (pdx_userPage hva) hremove⟩,
        fun _ _ => trivial⟩

/-- A new environment, as `sys_exofork` leaves it. -/
theorem sysExofork_world (h : Conserved L (some c) s) (hcur : s.cpuEnv c = some cur) :
    Comp.wp (sysExofork M c cur)
      (fun r u => (r = -eNoFreeEnv ∨ r = -eNoMem) ∧ u.world = s.world ∨
        ∃ e, (s.envs e).envStatus = .free ∧ r = nextEnvId (s.envs e).envId e ∧
          u.world = s.world.forked cur e)
      (fun _ => False) (fun _ => True) s := by
  unfold sysExofork envAlloc
  simp only [Comp.wp_bind, Comp.wp_get]
  cases hhead : s.envFreeList with
  | none => exact (Comp.wp_pure _).mpr ((Comp.wp_pure _).mpr (.inl ⟨.inl rfl, rfl⟩))
  | some e =>
      simp only [Comp.wp_bind, wp_runMem]
      refine ⟨fun r m hsetup => ?_, fun _ _ => trivial⟩
      cases r with
      | none =>
          obtain rfl := envSetupVm_none hsetup
          exact (Comp.wp_pure _).mpr ((Comp.wp_pure _).mpr (.inl ⟨.inr rfl, rfl⟩))
      | some d =>
          have hfree : (s.envs e).envStatus = .free := h.ready.head hhead
          have hne : cur ≠ e := by
            rintro rfl
            exact (h.sys.envs.cur rfl hcur).1 hfree
          have hid : ((s.forked cur e d m).envs e).envId = nextEnvId (s.envs e).envId e := by
            simp [Kernel.forked, Kernel.setTf, Kernel.setStatus, Kernel.allocated, Kernel.setEnv]
          simp only [Comp.wp_bind, Comp.wp_modify, Comp.wp_pure, Comp.wp_get]
          exact .inr ⟨e, hfree, hid, world_exofork h hne hhead hsetup⟩

theorem sysEnvSetStatus_world {st : EnvStatus} {status : Word}
    (hst : statusOfWord status = some st) (he : envid2env s cur id true = some e) :
    Comp.wp (sysEnvSetStatus cur id status)
      (fun r u => r = 0 ∧ u.world = s.world.setStatus e st) (fun _ => False) (fun _ => True) s := by
  unfold sysEnvSetStatus
  simp only [Comp.wp_bind, Comp.wp_get, hst, he, Comp.wp_modify, Comp.wp_pure]
  exact ⟨trivial, world_setStatus⟩

/-! ### Ids -/

/-- An id that slot `e` can have. -/
structure IdOf (e : EnvIdx) (id : Word) : Prop where
  slot : envx id = e
  pos : 0 < id.toInt

theorem nextEnvId_idOfSlot (old : Word) (e : EnvIdx) : IdOf e (nextEnvId old e) := by
  obtain ⟨g, hg, hlow, hpos⟩ := nextEnvId_parts old e
  have hne : nextEnvId old e ≠ 0#32 := fun hzero =>
    hpos (BitVec.or_eq_zero_iff.mp (hg.symm.trans hzero)).1
  constructor
  · have he := e.isLt
    ext
    rw [envx, hg, BitVec.and_or_distrib_right, hlow, BitVec.zero_or, Fin.val_ofNat, and_3ff,
      BitVec.toNat_ofNat]
    omega
  · have hnonneg : ¬ (nextEnvId old e).toInt < (0#32 : Word).toInt :=
      of_decide_eq_false (nextEnvId_nonneg old e)
    have hne' : (nextEnvId old e).toInt ≠ (0#32 : Word).toInt := fun heq =>
      hne (BitVec.toInt_inj.mp heq)
    have hzero : (0#32 : Word).toInt = 0 := rfl
    omega

theorem IdOf.ne_zero (h : IdOf e id) : id ≠ 0 := by
  rintro rfl
  exact absurd h.pos (by decide)

theorem IdOf.not_neg (h : IdOf e id) : id.slt 0#32 = false := by
  have hzero : (0#32 : Word).toInt = 0 := rfl
  exact decide_eq_false (by have := h.pos; omega)

namespace World

variable {σ τ : World n}

/-- Every process that is alive has an id of its slot. -/
def Slotted (σ : World n) : Prop := ∀ e, (σ.procs e).status ≠ .free → IdOf e (σ.procs e).id

/-- An id names the process that has it, to itself and to its parent. -/
theorem envid2env_child (hid : IdOf e (σ.procs e).id) (hlive : (σ.procs e).status ≠ .free)
    (hparent : (σ.procs e).parentId = (σ.procs cur).id) :
    σ.envid2env cur (σ.procs e).id true = some e := by
  have hslot : Fin.ofNat 1024 ((σ.procs e).id &&& 0x3FF#32).toNat = e := hid.slot
  unfold envid2env
  simp only [if_neg hid.ne_zero, hslot, hlive, hparent]
  simp

theorem envid2env_live {checkperm : Bool} (hcur : (σ.procs cur).status ≠ .free)
    (h : σ.envid2env cur id checkperm = some e) : (σ.procs e).status ≠ .free := by
  unfold envid2env at h
  split at h
  · cases h
    exact hcur
  · dsimp only at h
    split at h
    · cases h
    · rename_i hfound
      rw [not_or] at hfound
      split at h
      · cases h
      · cases h
        exact hfound.1

theorem Slotted.update {v : Process} (h : σ.Slotted)
    (hprocs : τ.procs = Function.update σ.procs e v) (hv : v.status ≠ .free → IdOf e v.id) :
    τ.Slotted := by
  intro e' hlive
  rw [hprocs] at hlive ⊢
  by_cases heq : e' = e
  · subst heq
    rw [Function.update_self] at hlive ⊢
    exact hv hlive
  · rw [Function.update_of_ne heq] at hlive ⊢
    exact h e' hlive

theorem Slotted.setProc {v : Process} (h : σ.Slotted) (hv : v.status ≠ .free → IdOf e v.id) :
    (σ.setProc e v).Slotted := h.update rfl hv

/-- A request of a process that is alive. -/
theorem Slotted.request (h : σ.Slotted) (hcur : (σ.procs cur).status ≠ .free)
    (hrequest : σ.Request c cur q τ) : τ.Slotted := by
  have hfound {id : Word} {checkperm : Bool} {e : EnvIdx}
      (he : σ.envid2env cur id checkperm = some e) : IdOf e (σ.procs e).id :=
    h e (envid2env_live hcur he)
  cases hrequest with
  | skip => exact h
  | setStatus _ _ he => exact h.setProc fun _ => hfound he
  | dying _ he => exact h.setProc fun _ => hfound he
  | destroyOther => exact h.setProc fun hlive => absurd rfl hlive
  | destroySelf => exact h.setProc fun hlive => absurd rfl hlive
  | exofork => exact h.setProc fun _ => nextEnvId_idOfSlot _ _
  | pageAlloc => exact h
  | pageMap => exact h
  | pageUnmap => exact h
  | ipcFail _ he => exact h.setProc fun _ => hfound he
  | ipcValue _ he => exact h.setProc fun _ => hfound he
  | ipcPage _ he => exact h.setProc fun _ => hfound he
  | ipcRecv => exact h.setProc fun _ => h cur hcur

theorem Slotted.of_sameProc (h : σ.Slotted) (hsame : ∀ e, SameProc (σ.procs e) (τ.procs e)) :
    τ.Slotted := by
  intro e hlive
  rw [(hsame e).id]
  refine h e fun hfree => hlive ?_
  rcases (hsame e).status with heq | ⟨hturn | hturn, -⟩
  · rw [heq, hfree]
  · rw [hfree] at hturn
    cases hturn
  · rw [hfree] at hturn
    cases hturn

theorem Slotted.leaves (h : σ.Slotted) (hleaves : σ.Leaves c τ) : τ.Slotted :=
  h.of_sameProc fun e => (leaves_keeps (O := Set.univ) hleaves).proc e trivial

end World

/-- One step keeps the ids in their slots. -/
theorem slotted_step {l : Label n} (h : Conserved L none s) (hslot : s.world.Slotted)
    (hok : OnCall (PresentOk M) s l) (hstep : Step M s l t) : t.world.Slotted := by
  have hlive {c : Fin n} {cur : EnvIdx} (hcur : s.cpuEnv c = some cur) :
      (s.world.procs cur).status ≠ .free := by
    have hactive := h.sys.envs.exec hcur (by simp)
    intro hfree
    have hfree' : (s.envs cur).envStatus = .free := hfree
    rcases hactive with hst | hst <;> rw [hfree'] at hst <;> cases hst
  have hset {cur : EnvIdx} {tf : Trapframe} (hlive : (s.world.procs cur).status ≠ .free) :
      (s.world.setTf cur tf).Slotted := hslot.setProc fun _ => hslot cur hlive
  have hsaved {cur : EnvIdx} {tf : Trapframe} (hlive : (s.world.procs cur).status ≠ .free) :
      ((s.world.setTf cur tf).procs cur).status ≠ .free := by
    simpa [World.setTf, World.setProc] using hlive
  have hsim := step_simulates h hok hstep
  generalize t.world = τ at hsim
  cases hsim with
  | @zombie c tf input cur _ hcur hst hleaves =>
      have hfreed : ((s.world.freed cur).setCur c none).Slotted :=
        hslot.setProc fun hlive => absurd rfl hlive
      exact hfreed.leaves hleaves
  | @entry c tf input cur ρ _ hcur hst hrequest hleaves =>
      exact ((hset (hlive hcur)).request (hsaved (hlive hcur)) hrequest).leaves hleaves
  | @answer c tf input cur ρ _ r hcur hst hsys hrequest hleaves =>
      have hρ := (hset (hlive hcur)).request (hsaved (hlive hcur)) hrequest
      have hanswered : (ρ.setTf cur ((ρ.procs cur).tf.setEax r)).Slotted :=
        hρ.setProc fun hlive' => hρ cur hlive'
      exact hanswered.leaves hleaves
  | tick _ hleaves => exact hslot.leaves hleaves
  | fill => exact hslot
  | store => exact hslot

theorem Prepared.slotted {b : Fin n} (h : Prepared L b s) : s.world.Slotted := by
  induction h with
  | init =>
      intro e hlive
      exact absurd rfl hlive
  | @create s t elf _ _ hrun ih =>
      have hcreated : Created M _ elf s t := envCreate_wp.ret hrun
      cases hcreated with
      | @mk e d m m' hhead hsetup hload =>
          have henvs : (((s.allocated e d m 0).setMem m').setTf e
              { ((s.allocated e d m 0).envs e).envTf with tfEip := elf.eEntry }).envs =
                Function.update s.envs e
                  { (s.allocated e d m 0).envs e with
                    envTf :=
                      { ((s.allocated e d m 0).envs e).envTf with tfEip := elf.eEntry } } := by
            simp [Kernel.setTf, Kernel.setEnv, Kernel.setMem, Kernel.allocated]
          refine ih.update (procs_update henvs) fun _ => ?_
          have hid : ((s.allocated e d m 0).envs e).envId = nextEnvId (s.envs e).envId e :=
            congrArg Env.envId Kernel.allocated_self
          change IdOf e ((s.allocated e d m 0).envs e).envId
          rw [hid]
          exact nextEnvId_idOfSlot _ e

/-- In every run ids stay in their slots. -/
theorem slotted_run {b : Fin n} (hboot : Prepared L b s)
    (hrun : Run (Step M) (OnCall (PresentOk M)) s t) : t.world.Slotted := by
  have hinv : Conserved L none t ∧ t.world.Slotted := by
    refine Run.invariant (I := fun s => Conserved L none s ∧ s.world.Slotted) ?_ hrun
      ⟨hboot.conserved, hboot.slotted⟩
    intro u l v h hok hstep
    exact ⟨h.1.step hok hstep, slotted_step h.1 h.2 hok hstep⟩
  exact hinv.2

end Jos
