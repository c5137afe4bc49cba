import Jos.Pmap.Release
import Jos.System.Boot

/-!
States in order. They are those from which the functions of the kernel can be
shown to return, and every run whose requests meet the conditions of the system
stays in them.
-/

namespace Jos

open Jos.Lib

variable {n : ℕ} {M : Machine} {L : Layout M} {nullOk : Prop} {b c : Fin n}
  {cur e : EnvIdx} {s t u : Kernel n} {k : Option (Fin n)} {q : Request} {tf : Trapframe}
  {elf : Elf} {m : Mem n} {d : ℕ}

/-- If it waits for a page, then at an aligned address. -/
def Env.Awaits (v : Env) : Prop :=
  v.envIpcRecving = true → v.envIpcDstva < utop → v.envIpcDstva % 0x1000#32 = 0

/-- The state is in order: memory is, the environments in use are those with a
page directory, the first slot of the free list is free, and a receiver waits
for a page at an aligned address. -/
structure Ready (L : Layout M) (nullOk : Prop) (s : Kernel n) : Prop where
  mem : Tidy L nullOk none s.dirs s.mem
  pgdir : ∀ {e}, (s.envs e).envPgdir = none ↔ (s.envs e).envStatus = .free
  head : ∀ {e}, s.envFreeList = some e → (s.envs e).envStatus = .free
  awaits : ∀ e, (s.envs e).Awaits

theorem EnvInv.ready (h : EnvInv k s) (hmem : Tidy L nullOk none s.dirs s.mem)
    (hawaits : ∀ e, (s.envs e).Awaits) : Ready L nullOk s :=
  ⟨hmem, h.pgdir, h.head_free, hawaits⟩

/-! ### At the start -/

/-- `page_init` links the pages of the free list and no others. -/
theorem MemInit.tidy (h : MemInit L m) (hlinks : m.pool.Unlinked) (hvga : vgaFrame < M.npages) :
    Tidy L nullOk none (fun _ => none) m :=
  ⟨h.loading.inv, hlinks, nofun, hvga⟩

theorem initial_ready (h : MemInit L m) (hlinks : m.pool.Unlinked) (hvga : vgaFrame < M.npages) :
    Ready L nullOk (initial m) :=
  (envInit_inv m).ready (h.tidy hlinks hvga) fun _ hrecv => by cases hrecv

theorem BootInv.ready (h : BootInv L nullOk s) (hmem : Tidy L nullOk none s.dirs s.mem) :
    Ready L nullOk s :=
  h.envs.ready hmem fun e hrecv => by
    rw [h.recving e] at hrecv
    cases hrecv

theorem Ready.created (h : Ready L nullOk s) (hboot : BootInv L nullOk s) (helf : elf.WellFormed)
    (hcreated : Created M c elf s t) : Ready L nullOk t := by
  have hboot' := hboot.created helf hcreated
  refine hboot'.ready ?_
  cases hcreated with
  | @mk e d m m' hhead hsetup hload =>
      have hnone : s.dirs e = none := hboot.envs.pgdir.mpr (hboot.envs.head_free hhead)
      have hloading := hboot.loading.setUp hnone hsetup
      have htidy := h.mem.setUp hnone hsetup
      have hdirs : (s.allocated e d m 0).dirs = Function.update s.dirs e (some d) := dirs_setEnv _
      rw [dirs_setTf, dirs_setMem, hdirs]
      exact loadIcode_tidy hloading htidy (Function.update_self _ _ _) helf hload

theorem bootWith_ready {elfs : List Elf} (hinit : MemInit L m) (hlinks : m.pool.Unlinked)
    (hvga : vgaFrame < M.npages) (helfs : ∀ elf ∈ elfs, elf.WellFormed)
    (hboot : bootWith M m c elfs = some s) : Ready L nullOk s := by
  have hboth : BootInv L nullOk s ∧ Ready L nullOk s := by
    refine bootWith_induct (P := fun s => BootInv L nullOk s ∧ Ready L nullOk s)
      ⟨(Booted.init (c := c) hinit).inv, initial_ready hinit hlinks hvga⟩ ?_ hboot
    intro s t elf hmem hs hrun
    have hcreated := envCreate_wp.ret hrun
    have helf := helfs elf hmem
    exact ⟨hs.1.created helf hcreated, hs.2.created hs.1 helf hcreated⟩
  exact hboth.2

/-! ### Along a run -/

/-- Changing one environment. -/
theorem awaits_update {v : Env} (henvs : t.envs = Function.update s.envs e v)
    (h : ∀ e, (s.envs e).Awaits) (hv : v.Awaits) (e' : EnvIdx) : (t.envs e').Awaits := by
  rw [henvs]
  by_cases he : e' = e
  · subst he
    rwa [Function.update_self]
  · rw [Function.update_of_ne he]
    exact h e'

theorem awaits_freed (h : ∀ e, (s.envs e).Awaits) (hfree : Freed M c e s u) :
    ∀ e', (u.envs e').Awaits := by
  cases hfree with
  | mk => exact awaits_update rfl h (h e)

theorem awaits_delivered {target : EnvIdx} {value perm : Word} {page : Option ℕ}
    (h : ∀ e, (s.envs e).Awaits) : ∀ e, ((s.delivered cur target value perm page).envs e).Awaits :=
  awaits_update rfl h fun hrecv => by cases hrecv

theorem awaits_ipcPerm0 {target : EnvIdx} (h : ∀ e, (s.envs e).Awaits) :
    ∀ e, ((s.ipcPerm0 target).envs e).Awaits := awaits_update rfl h (h target)

theorem awaits_call (h : ∀ e, (s.envs e).Awaits) (hcall : Call M c cur q s u) :
    ∀ e, (u.envs e).Awaits := by
  cases hcall with
  | skip => exact h
  | setStatus => exact awaits_update rfl h (h _)
  | dying => exact awaits_update rfl h (h _)
  | destroyOther _ _ _ _ hfree =>
      have hfreed := awaits_freed h hfree
      exact hfreed
  | destroySelf _ hfree =>
      have hfreed := awaits_freed h hfree
      exact hfreed
  | @exofork e d m _ _ _ =>
      have halloc : ∀ e', ((s.allocated e d m (s.envs cur).envId).envs e').Awaits :=
        awaits_update rfl h fun hrecv => by cases hrecv
      have hstatus : ∀ e', (((s.allocated e d m (s.envs cur).envId).setStatus e
          .notRunnable).envs e').Awaits := awaits_update rfl halloc (halloc e)
      exact awaits_update rfl hstatus (hstatus e)
  | pageAlloc => exact h
  | pageAllocFail => exact h
  | pageMap => exact h
  | pageUnmap => exact h
  | ipcFail => exact awaits_ipcPerm0 h
  | ipcValue => exact awaits_delivered (awaits_ipcPerm0 h)
  | @ipcPage target _ _ _ _ _ _ m =>
      have hperm : ∀ e, (((s.ipcPerm0 target).setMem m).envs e).Awaits := awaits_ipcPerm0 h
      exact awaits_delivered hperm
  | ipcRecv _ hdstva => exact awaits_update rfl h fun _ => hdstva

theorem awaits_demote (h : ∀ e, (s.envs e).Awaits) : ∀ e, ((s.demote c).envs e).Awaits := by
  rcases demote_cases s c with heq | ⟨cur, -, -, heq⟩ <;> rw [heq]
  · exact h
  · exact awaits_update rfl h (h _)

theorem awaits_exit (h : ∀ e, (s.envs e).Awaits) (hexit : Exit M c s t) :
    ∀ e, (t.envs e).Awaits := by
  cases hexit with
  | run => exact awaits_update rfl (awaits_demote h) (awaits_demote h _)
  | halt => exact h

/-! ### Memory along a run -/

theorem Tidy.freeing {held : Option ℕ} {dirs : Dirs} (h : Tidy L nullOk held dirs s.mem) :
    Tidy L nullOk held dirs (s.freeing M c e) :=
  h.congr (freeing_pages s c e).2 (freeing_word s c e)

/-- `env_free` keeps memory tidy. -/
theorem tidy_freed (h : Tidy L nullOk none s.dirs s.mem) (hb : Bounded L 65536 s.dirs s.mem)
    (hfree : Freed M c e s u) : Tidy L nullOk none u.dirs u.mem := by
  cases hfree with
  | mk hdir hmem =>
      rw [dirs_freed]
      exact (envFreeMem_frees h.freeing hb.freeing le_rfl hdir hmem).tidy

/-- A page that was looked up is in use. -/
theorem looked_off {va : Word} {r : Option (ℕ × PtIdx)} {p : ℕ} {dirs : Dirs}
    (h : MemInv L nullOk none dirs m) (hd : dirs e = some d) (hi : (pdx va : ℕ) < 955)
    (hlook : pageLookup M d va m = .ok (r, some p)) : ¬ m.pool.On p := by
  obtain ⟨-, hpage, -⟩ := pageLookup_spec hd hi hlook
  obtain ⟨w, hw, rfl⟩ := Option.map_eq_some_iff.mp hpage.symm
  exact h.not_on_page hw

/-- A request keeps memory tidy, if it keeps it in order. -/
theorem tidy_call (h : Tidy L nullOk none s.dirs s.mem) (hsys : CpuSys L nullOk c s)
    (hfresh : q.no = some .exofork → ∀ {e}, s.envFreeList = some e → s.dirs e = none)
    (hinv : MemInv L nullOk none u.dirs u.mem) (hcall : Call M c cur q s u) :
    Tidy L nullOk none u.dirs u.mem := by
  have hloaded : Loaded M s.dirs s.mem c := hsys.loaded
  cases hcall with
  | skip => exact h
  | setStatus =>
      rw [dirs_setStatus]
      exact h
  | dying =>
      rw [dirs_emit, dirs_setStatus]
      exact h
  | destroyOther _ _ _ _ hfree =>
      have hfreed := tidy_freed h hsys.bounded hfree
      exact hfreed
  | destroySelf _ hfree =>
      have hfreed := tidy_freed h hsys.bounded hfree
      exact hfreed
  | exofork hno hhead hsetup =>
      rw [dirs_forked]
      exact h.setUp (hfresh hno hhead) hsetup
  | pageAlloc _ _ hva _ hdir halloc hinsert =>
      have hal := pageAlloc_spec h.toMemInv halloc
      refine (h.allocated halloc).inserted hdir (pdx_userPage hva) (fun p hp => ?_)
        (fun hnone => by cases hnone) hinv hinsert
      obtain rfl := Option.some.inj hp
      exact hal.off
  | pageAllocFail _ _ hva _ hdir halloc hinsert hfree =>
      have hal := pageAlloc_spec h.toMemInv halloc
      obtain ⟨-, rfl⟩ := (pageInsert_ret hinsert).resolve_left (by decide)
      exact (h.allocated halloc).putBack hal.pool hal.off hal.unref hfree
  | @pageMap src dst ds dd pt i page r m _ _ _ hsrcva hdstva _ hds hdd hlook _ hinsert =>
      refine h.inserted hdd (pdx_userPage hdstva) (fun p hp => ?_) (fun _ => hloaded) hinv hinsert
      subst hp
      exact looked_off h.toMemInv hds (pdx_userPage hsrcva) hlook
  | pageUnmap _ _ hva hdir hremove =>
      exact h.removed hdir (pdx_userPage hva) (fun w _ hw => hsys.bounded _ hw) hremove
  | ipcFail =>
      rw [dirs_ipcPerm0]
      exact h
  | ipcValue =>
      rw [dirs_delivered, dirs_ipcPerm0]
      exact h
  | @ipcPage target ds dd pt i page r m _ _ _ hsrcva hdstva _ _ hds hdd hlook _ hinsert _ =>
      rw [dirs_delivered, dirs_setMem, dirs_ipcPerm0] at hinv ⊢
      refine h.inserted hdd (pdx_userPage hdstva) (fun p hp => ?_) (fun _ => hloaded) hinv hinsert
      subst hp
      exact looked_off h.toMemInv hds (pdx_userPage hsrcva) hlook
  | ipcRecv =>
      rw [dirs_received]
      exact h

/-! ### The steps -/

namespace Ready

theorem call (h : Ready L nullOk s) (hsys : SysInv L nullOk (some c) s)
    (hcur : s.cpuEnv c = some cur) (hok : CallOk M c cur q s)
    (hsource : nullOk ∨ SourceOk M cur q s) (hcall : Call M c cur q s u) : Ready L nullOk u :=
  have hsys' := hsys.call hcur hok hsource hcall
  hsys'.envs.ready (tidy_call h.mem (hsys.cpuSys c) (fun _ _ => hsys.fresh) hsys'.mem hcall)
    (awaits_call h.awaits hcall)

theorem setTf (h : Ready L nullOk s) (hsys : SysInv L nullOk k s) :
    Ready L nullOk (s.setTf e tf) := by
  refine hsys.setTf.envs.ready ?_ (awaits_update rfl h.awaits (h.awaits e))
  rw [dirs_setTf]
  exact h.mem

theorem returned (h : Ready L nullOk s) (hsys : SysInv L nullOk k s)
    (hret : Returned cur tf s t) : Ready L nullOk t := by
  rcases hret with rfl | ⟨-, r, rfl⟩
  · exact h
  · exact h.setTf hsys

theorem exit (h : Ready L nullOk s) (hsys : SysInv L nullOk (some c) s) (hexit : Exit M c s t) :
    Ready L nullOk t := by
  obtain ⟨d, hloads⟩ := hexit.loads
  refine (hsys.exit hexit).envs.ready ?_ (awaits_exit h.awaits hexit)
  rw [hloads.dirs]
  exact h.mem.congr hloads.pool hloads.word

/-- A store of user code. -/
theorem store {frame : ℕ} {i : PtIdx} {va w : Word} (h : Ready L nullOk s)
    (hsys : SysInv L nullOk none s) (hexec : s.cpuEnv c ≠ none)
    (hwrite : userWrite s.mem (s.mem.cr3 c) va = some frame) :
    Ready L nullOk (s.setMem (s.mem.store frame i w)) := by
  obtain ⟨e, he⟩ := Option.ne_none_iff_exists'.mp hexec
  obtain ⟨-, -, hcounted, hplain⟩ := SysInv.write_plain hsys.mem (hsys.cpu.exec he) hwrite
  exact ⟨h.mem.write_plain hplain hcounted rfl fun q hq => Function.update_of_ne hq _ _,
    h.pgdir, h.head, h.awaits⟩

theorem step {l : Label n} (h : Ready L nullOk s) (hsys : SysInv L nullOk none s)
    (hok : OnCall (CallOk M) s l) (hsource : nullOk ∨ OnCall (fun _ => SourceOk M) s l)
    (hstep : Step M s l t) : Ready L nullOk t := by
  cases hstep.taken with
  | @zombie c _ _ cur u _ hcur _ hfree hexit =>
      have htidy := tidy_freed h.mem hsys.bounded hfree
      have hawaits := awaits_freed h.awaits hfree
      have hfreed : Ready L nullOk (u.setCur c none) :=
        (hsys.zombie hcur hfree).envs.ready htidy hawaits
      exact hfreed.exit (hsys.zombie hcur hfree) hexit
  | @entry c tf _ cur _ _ _ hcur hst hcall hret hexit =>
      have henter : SysInv L nullOk (some c) s := hsys.enter fun cur' hcur' => by
        rwa [← Option.some.inj (hcur.symm.trans hcur')]
      have hset : Ready L nullOk (s.setTf cur tf) := h.setTf henter
      have hpage : nullOk ∨ SourceOk M cur tf.request (s.setTf cur tf) :=
        hsource.imp id fun hok => hok rfl hcur hst
      have hcall' := hset.call henter.setTf hcur (hok rfl hcur hst) hpage hcall
      have hcalled := henter.setTf.call hcur (hok rfl hcur hst) hpage hcall
      exact (hcall'.returned hcalled hret).exit (hcalled.returned hret) hexit
  | tick hidle hexit =>
      exact h.exit (hsys.enter fun cur hcur => by rw [hidle] at hcur; cases hcur) hexit
  | fill => exact ⟨h.mem.congr rfl rfl, h.pgdir, h.head, h.awaits⟩
  | store hexec hwrite => exact h.store hsys hexec hwrite

end Ready

/-- Every state of a run that starts in order is in order. -/
theorem ready_run (hsys : SysInv L True none s) (h : Ready L True s)
    (hrun : Run (Step M) (OnCall (CallOk M)) s t) : Ready L True t :=
  (hrun.invariant (I := fun s => SysInv L True none s ∧ Ready L True s)
    (fun h hok hstep => ⟨h.1.step hok (Or.inl trivial) hstep,
      h.2.step h.1 hok (Or.inl trivial) hstep⟩)
    ⟨hsys, h⟩).2

/-! ### Computed runs -/

/-- A computed run whose last state is in order and satisfies a test. -/
theorem scenario_ready {elfs : List Elf} {check : Kernel n → Label n → Bool}
    {ls : List (Label n)} {test : Kernel n → Bool} (hinit : MemInit L m)
    (hlinks : m.pool.Unlinked) (hvga : vgaFrame < M.npages)
    (helfs : ∀ elf ∈ elfs, elf.WellFormed)
    (hok : ∀ {s l}, check s l = true → OnCall (CallOk M) s l)
    (h : (scenario M m c elfs check ls).map test = some true) :
    ∃ s t, Booted L c s ∧ Run (Step M) (OnCall (CallOk M)) s t ∧ Ready L True t ∧
      test t = true := by
  obtain ⟨t, ht, htest⟩ := Option.map_eq_some_iff.mp h
  obtain ⟨s, hs, ht⟩ := Option.bind_eq_some_iff.mp ht
  have hboot := bootWith_booted hinit helfs hs
  have hready : Ready L True s := bootWith_ready hinit hlinks hvga helfs hs
  have hrun := steps_run hok ht
  exact ⟨s, t, hboot, hrun, ready_run hboot.sys hready hrun, htest⟩

theorem sample_unlinked (n : ℕ) : (sampleMem n).pool.Unlinked := by
  intro p hoff
  obtain ⟨l, hl, -, hmem⟩ := (sample_init n).list
  by_cases hp : 1024 < p ∧ p < 2048
  · exact absurd ⟨l, hl, (hmem p).mpr ⟨hp.1.le, hp.2⟩⟩ hoff
  · exact if_neg hp

theorem sample_vga : vgaFrame < sampleMachine.npages := by decide

/-- A run of the sample machine in which no frame is entered anew by the calls
that could overflow its count. -/
theorem sample_ready (c : Fin n) (ls : List (Label n)) (test : Kernel n → Bool)
    (h : (scenario sampleMachine (sampleMem n) c [sampleElf]
      (fun s l => checkElsewhere s l && roomy s l) ls).map test = some true) :
    ∃ s t, Booted sampleLayout c s ∧ Run (Step sampleMachine) (OnCall (CallOk sampleMachine)) s t ∧
      Ready sampleLayout True t ∧ test t = true :=
  scenario_ready (sample_init n) (sample_unlinked n) sample_vga sampleElf_wellFormed
    callOk_of_check h

/-- The same machine with less memory, which leaves seven pages. -/
def smallMachine : Machine := { sampleMachine with npages := 1031, npages_le := by decide }

theorem small_pool {p : ℕ} (hp : 1024 ≤ p ∧ p < 1031) : sampleLayout.pool p :=
  ⟨hp.1, hp.2.trans (by norm_num)⟩

def smallLayout : Layout smallMachine where
  pool p := 1024 ≤ p ∧ p < 1031
  kern := sampleKern
  pool_lt h := h.2
  pool_ne_vga h := sampleLayout.pool_ne_vga (small_pool h)
  pgdir_not_pool h := sampleLayout.pgdir_not_pool (small_pool h)
  pgdir_ne_vga := sampleLayout.pgdir_ne_vga
  pgdir_user := sampleLayout.pgdir_user
  table_not_pool hi hne hP :=
    (sampleLayout.table_not_pool hi hne hP).imp (fun hnot h => hnot (small_pool h)) id
  user_not_pool hi hne hP hP' hU h :=
    sampleLayout.user_not_pool hi hne hP hP' hU (small_pool h)
  user_readonly := sampleLayout.user_readonly

def smallMem (n : ℕ) : Mem n :=
  { sampleMem n with
    pages := fun p =>
      { ppLink := if 1024 < p ∧ p < 1031 then some (p - 1) else none
        ppRef := if p < 1024 then 1 else 0 }
    pageFreeList := some 1030 }

theorem small_init (n : ℕ) : MemInit smallLayout (smallMem n) where
  list := by
    have hlt : 1024 < 1031 := by norm_num
    refine linked_down hlt fun p _ hp => ?_
    simp [smallMem, hp]
  ref {p} hp := by
    have hp' : 1024 ≤ p ∧ p < 1031 := hp
    simp only [smallMem]
    rw [if_neg (by omega)]
  vga := by simp [smallMem, vgaFrame]
  word _ := rfl
  cr3 _ := rfl
  tlb _ := rfl

theorem small_unlinked (n : ℕ) : (smallMem n).pool.Unlinked := by
  intro p hoff
  obtain ⟨l, hl, -, hmem⟩ := (small_init n).list
  by_cases hp : 1024 < p ∧ p < 1031
  · exact absurd ⟨l, hl, (hmem p).mpr ⟨hp.1.le, hp.2⟩⟩ hoff
  · exact if_neg hp

theorem small_vga : vgaFrame < smallMachine.npages := by decide

theorem small_ready (c : Fin n) (ls : List (Label n)) (test : Kernel n → Bool)
    (h : (scenario smallMachine (smallMem n) c [sampleElf]
      (fun s l => checkElsewhere s l && roomy s l) ls).map test = some true) :
    ∃ s t, Booted smallLayout c s ∧ Run (Step smallMachine) (OnCall (CallOk smallMachine)) s t ∧
      Ready smallLayout True t ∧ test t = true :=
  scenario_ready (small_init n) (small_unlinked n) small_vga sampleElf_wellFormed
    callOk_of_check h

end Jos
