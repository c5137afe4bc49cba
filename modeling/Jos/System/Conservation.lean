import Jos.Pmap.Contents
import Jos.System.Isolation
import Jos.System.Ready

/-!
No page is lost. In every state of a run the pages of the allocator are either
on the free list or referred to by the address space of an environment that is
alive, so once all environments are gone every page is free again.
-/

namespace Jos

open Jos.Lib

variable {n : ℕ} {M : Machine} {L : Layout M} {nullOk : Prop} {b c : Fin n}
  {cur e : EnvIdx} {s t u v : Kernel n} {k : Option (Fin n)} {q : Request} {tf : Trapframe}
  {m : Mem n} {l : Label n}

/-- The states in which the boot CPU may start to schedule, on a machine with a
VGA buffer whose pages off the free list have no link, as `page_init` leaves
them. -/
inductive Prepared (L : Layout M) (c : Fin n) : Kernel n → Prop
  | init {m : Mem n} (h : MemInit L m) (hlinks : m.pool.Unlinked) (hvga : vgaFrame < M.npages) :
      Prepared L c (initial m)
  | create {s t : Kernel n} {elf : Elf} (h : Prepared L c s) (helf : elf.WellFormed)
      (hrun : envCreate M c elf s = .ret () t) : Prepared L c t

theorem Prepared.booted (h : Prepared L c s) : Booted L c s := by
  induction h with
  | init h => exact .init h
  | create _ helf hrun ih => exact .create ih helf hrun

/-- Every page of the pool is on the list that `page_init` makes. -/
theorem MemInit.supplied (h : MemInit L m) (hlinks : m.pool.Unlinked)
    (hvga : vgaFrame < M.npages) : Supplied L nullOk (fun _ => none) m := by
  refine ⟨h.loading, h.tidy hlinks hvga, fun p hp _ => ?_⟩
  obtain ⟨l, hl, -, hmem⟩ := h.list
  exact ⟨l, hl, (hmem p).mpr hp⟩

theorem Prepared.supplied (h : Prepared L c s) : Supplied L nullOk s.dirs s.mem := by
  induction h with
  | init h hlinks hvga => exact h.supplied hlinks hvga
  | @create s t elf h helf hrun ih =>
      have hboot : BootInv L nullOk s := h.booted.inv
      cases envCreate_wp.ret hrun with
      | @mk e d m m' hhead hsetup hload =>
          have hnone := hboot.envs.pgdir.mpr (hboot.envs.head_free hhead)
          have hdirs : (s.allocated e d m 0).dirs = Function.update s.dirs e (some d) :=
            dirs_setEnv _
          rw [dirs_setTf, dirs_setMem, hdirs]
          exact loadIcode_supplied (ih.setUp hnone hsetup) (Function.update_self _ _ _) helf hload

theorem Prepared.ready (h : Prepared L c s) : Ready L nullOk s :=
  h.booted.inv.ready h.supplied.tidy

/-! ### Along a run -/

/-- The system in order, and no page lost. -/
structure Conserved (L : Layout M) (k : Option (Fin n)) (s : Kernel n) : Prop where
  sys : SysInv L False k s
  ready : Ready L False s
  noneLost : NoneLost L none s.dirs s.mem

theorem noneLost_freed (h : Ready L nullOk s) (hb : Bounded L 65536 s.dirs s.mem)
    (hlost : NoneLost L none s.dirs s.mem) (hfree : Freed M c e s u) :
    NoneLost L none u.dirs u.mem := by
  cases hfree with
  | mk hdir hmem =>
      rw [dirs_freed]
      have hfreed := envFreeMem_frees h.mem.freeing hb.freeing le_rfl hdir hmem
      refine (tearDown_keeps hfreed).2 (hlost.congr (freeing_pages s c e).2 ?_)
      rw [freeing_word]

/-- The page that was looked up is one that an entry maps. -/
theorem looked_mapped {ds pt p : ℕ} {va : Word} {i : PtIdx} {dirs : Dirs}
    (h : MemInv L nullOk none dirs m) (hd : dirs e = some ds) (hi : (pdx va : ℕ) < 955)
    (hlook : pageLookup M ds va m = .ok (some (pt, i), some p)) :
    ∃ w, mapping m.word dirs e (pdx va) (ptx va) = some w ∧ pteFrame w = p ∧ L.counted p := by
  obtain ⟨-, hpage, hlt⟩ := pageLookup_spec hd hi hlook
  obtain ⟨w, hw, rfl⟩ := Option.map_eq_some_iff.mp hpage.symm
  exact ⟨w, hw, rfl, pageTarget_counted (h.tables.page hw) (hlt w hw)⟩

/-- `page_insert` of the page that was looked up, by `sys_page_map` or
`sys_ipc_try_send`. -/
theorem noneLost_looked {es : EnvIdx} {ds dd pt : ℕ} {page : Option ℕ} {sva va perm r : Word}
    {i : PtIdx} {x : Ctx n} (h : Conserved L (some c) s) (hok : PresentOk M c cur q s)
    (hds : s.dirs es = some ds) (hsva : (pdx sva : ℕ) < 955)
    (hlook : pageLookup M ds sva s.mem = .ok (some (pt, i), page))
    (hins : Inserts M cur q s page dd va) (hdd : s.dirs e = some dd) (hva : (pdx va : ℕ) < 955)
    (hperm : perm.toNat < 4096) (hrun : pageInsert M x dd page va perm s.mem = .ok (r, m)) :
    NoneLost L none s.dirs m := by
  rcases pageInsert_ret hrun with rfl | ⟨-, rfl⟩
  · cases page with
    | none => exact absurd hins hok.source
    | some p =>
        obtain ⟨w, hw, rfl, hcounted⟩ := looked_mapped h.sys.mem hds hsva hlook
        have hload := h.sys.mem.load_lt h.sys.bounded hcounted (hok.call.room.insert hins)
        exact (h.ready.mem.enters_mapped h.sys.bounded hw hcounted hload hdd hva hperm
          hrun).noneLost h.noneLost.hold
  · exact h.noneLost

/-- A request loses no page. -/
theorem noneLost_call (h : Conserved L (some c) s) (hok : PresentOk M c cur q s)
    (hcall : Call M c cur q s u) : NoneLost L none u.dirs u.mem := by
  have hlost := h.noneLost
  cases hcall with
  | skip => exact hlost
  | setStatus =>
      rw [dirs_setStatus]
      exact hlost
  | dying =>
      rw [dirs_emit, dirs_setStatus]
      exact hlost
  | destroyOther _ _ _ _ hfree =>
      have hfreed := noneLost_freed h.ready h.sys.bounded hlost hfree
      exact hfreed
  | destroySelf _ hfree =>
      have hfreed := noneLost_freed h.ready h.sys.bounded hlost hfree
      exact hfreed
  | exofork _ hhead hsetup =>
      rw [dirs_forked]
      exact (setUp_keeps h.ready.mem (h.sys.fresh hhead) hsetup).2 hlost
  | @pageAlloc e d page m₁ r m₂ _ _ hva hperm hdir halloc hinsert hr =>
      obtain rfl := (pageInsert_ret hinsert).resolve_right fun hno => hr hno.1
      have hal := pageAlloc_spec h.ready.mem.toMemInv halloc
      exact (hal.enters (h.ready.mem.allocated halloc) h.sys.bounded hdir (pdx_userPage hva)
        (perm_lt_of_valid hperm) hinsert).2.1 hlost
  | pageAllocFail _ _ _ _ _ halloc hinsert hfree =>
      have hal := pageAlloc_spec h.ready.mem.toMemInv halloc
      obtain ⟨-, rfl⟩ := (pageInsert_ret hinsert).resolve_left (by decide)
      exact (hlost.allocated hal).putBack hal.inv hal.off hfree
  | @pageMap src dst ds dd pt i page r m hno hsrc hdst hsrcva hdstva hperm hds hdd hlook hw
      hinsert =>
      rw [dirs_setMem]
      by_cases hr : r = -eNoMem
      · obtain ⟨-, rfl⟩ := (pageInsert_ret hinsert).resolve_left (by rw [hr]; decide)
        exact hlost
      · have hins : Inserts M cur q s page dd q.a4 := .map hno hsrc hdst hsrcva hdstva hperm hds
          hdd hlook hw (pageInsert_room hinsert hr)
        exact noneLost_looked h hok hds (pdx_userPage hsrcva) hlook hins hdd (pdx_userPage hdstva)
          (perm_lt_of_valid hperm) hinsert
  | pageUnmap _ _ hva hdir hremove =>
      have hi := pdx_userPage hva
      exact hlost.released (pageRemove_keeps h.ready.mem.toMemInv hdir hi
        (fun w _ hw => h.sys.bounded _ hw) hremove).1
  | ipcFail =>
      rw [dirs_ipcPerm0]
      exact hlost
  | ipcValue =>
      rw [dirs_delivered, dirs_ipcPerm0]
      exact hlost
  | @ipcPage target ds dd pt i page r m hno he hrecv hsrcva hdstva hup hperm hds hdd hlook hw
      hinsert hr =>
      rw [dirs_delivered, dirs_setMem, dirs_ipcPerm0]
      have hins : Inserts M cur q s page dd (s.envs target).envIpcDstva :=
        .send (sends_page hno he hrecv hsrcva hup hperm hds hdd hlook hw hinsert hr) hsrcva.1
          hdstva.1 hds hdd hlook
      exact noneLost_looked h hok hds (pdx_userPage hsrcva) hlook hins hdd (pdx_userPage hdstva)
        (perm_lt hperm) hinsert
  | ipcRecv =>
      rw [dirs_received]
      exact hlost

namespace Conserved

/-- Every mapping leads to a page of the machine. -/
theorem mapped_lt {i j : PtIdx} {w : Word} (h : Conserved L k s)
    (hw : mapping s.mem.word s.dirs e i j = some w) : pteFrame w < M.npages :=
  h.ready.mem.counted_lt ((h.ready.mem.tables.page hw).resolve_right fun hnull => hnull.1)

theorem call (h : Conserved L (some c) s) (hcur : s.cpuEnv c = some cur)
    (hok : PresentOk M c cur q s) (hcall : Call M c cur q s u) : Conserved L (some c) u where
  sys := h.sys.call hcur hok.call (Or.inr hok.source) hcall
  ready := h.ready.call h.sys hcur hok.call (Or.inr hok.source) hcall
  noneLost := noneLost_call h hok hcall

theorem setTf (h : Conserved L k s) : Conserved L k (s.setTf e tf) where
  sys := h.sys.setTf
  ready := h.ready.setTf h.sys
  noneLost := by
    rw [dirs_setTf]
    exact h.noneLost

theorem returned (h : Conserved L k s) (hret : Returned cur tf s t) : Conserved L k t := by
  rcases hret with rfl | ⟨-, r, rfl⟩
  · exact h
  · exact h.setTf

theorem enter (h : Conserved L none s)
    (hcur : ∀ cur, s.cpuEnv c = some cur → (s.envs cur).envStatus ≠ .dying) :
    Conserved L (some c) s :=
  ⟨h.sys.enter hcur, h.ready, h.noneLost⟩

theorem exit (h : Conserved L (some c) s) (hexit : Exit M c s t) : Conserved L none t := by
  refine ⟨h.sys.exit hexit, h.ready.exit h.sys hexit, ?_⟩
  obtain ⟨d, hloads⟩ := hexit.loads
  rw [hloads.dirs]
  refine h.noneLost.congr hloads.pool ?_
  rw [hloads.word]

/-- One step of the system. -/
theorem step (h : Conserved L none s) (hok : OnCall (PresentOk M) s l) (hstep : Step M s l t) :
    Conserved L none t := by
  cases hstep.taken with
  | @zombie c tf input cur u t hcur hst hfree hexit =>
      have hsys := h.sys.zombie hcur hfree
      have htidy := tidy_freed h.ready.mem h.sys.bounded hfree
      have hlost := noneLost_freed h.ready h.sys.bounded h.noneLost hfree
      have hawaits := awaits_freed h.ready.awaits hfree
      have hfreed : Conserved L (some c) (u.setCur c none) :=
        ⟨hsys, hsys.envs.ready htidy hawaits, hlost⟩
      exact hfreed.exit hexit
  | @entry c tf input cur u v t hcur hst hcall hret hexit =>
      have henter : Conserved L (some c) s := h.enter fun cur' hcur' => by
        rwa [← Option.some.inj (hcur.symm.trans hcur')]
      have hset : Conserved L (some c) (s.setTf cur tf) := henter.setTf
      exact ((hset.call hcur (hok rfl hcur hst) hcall).returned hret).exit hexit
  | @tick c t hidle hexit =>
      have henter : Conserved L (some c) s := h.enter fun cur hcur => by
        rw [hidle] at hcur
        cases hcur
      exact henter.exit hexit
  | fill hexec hread =>
      exact ⟨h.sys.step (fun hl hcur hst => (hok hl hcur hst).call)
        (Or.inr fun hl hcur hst => (hok hl hcur hst).source) hstep,
        ⟨h.ready.mem.congr rfl rfl, h.ready.pgdir, h.ready.head, h.ready.awaits⟩,
        h.noneLost.congr rfl rfl⟩
  | @store c va w frame hexec hwrite =>
      obtain ⟨e, he⟩ := Option.ne_none_iff_exists'.mp hexec
      obtain ⟨-, -, -, hplain⟩ := SysInv.write_plain h.sys.mem (h.sys.cpu.exec he) hwrite
      exact ⟨h.sys.store hexec hwrite, h.ready.store h.sys hexec hwrite,
        h.noneLost.congr rfl (hplain.slotRef fun q hq => Function.update_of_ne hq _ _)⟩

end Conserved

theorem Prepared.conserved (h : Prepared L c s) : Conserved L none s :=
  have hsupplied : Supplied L False s.dirs s.mem := h.supplied
  ⟨h.booted.sys, h.ready, hsupplied.noneLost⟩

theorem conserved_run (hboot : Prepared L b s) (hrun : Run (Step M) (OnCall (PresentOk M)) s t) :
    Conserved L none t :=
  hrun.invariant (I := Conserved L none) (fun h hok hstep => h.step hok hstep) hboot.conserved

/-- An environment without a directory refers to nothing. -/
theorem slotRef_of_none {word : Words} {dirs : Dirs} {y : Slot} (h : dirs y.env = none) :
    slotRef word dirs y = none := by
  cases y with
  | pgdir e => exact h
  | table e i => exact tableAt_of_none h
  | page e i j =>
      have hnone : mapping word dirs e i j = none := mapping_of_none (tableAt_of_none h)
      simp [slotRef, hnone]

/-- The pages of the allocator are free or referred to by living environments,
and all of them are free when there are none. -/
structure PagesConserved (L : Layout M) (s : Kernel n) : Prop where
  free_iff : ∀ p, L.pool p → (s.mem.pool.On p ↔ pageRefs s.mem.word s.dirs p = 0)
  slot : ∀ p, L.pool p → ¬ s.mem.pool.On p →
    ∃ y, slotRef s.mem.word s.dirs y = some p ∧ (s.envs y.env).envStatus ≠ .free
  all : (∀ e, (s.envs e).envStatus = .free) → ∀ p, L.pool p → s.mem.pool.On p

theorem Conserved.pages (h : Conserved L none s) : PagesConserved L s := by
  have hfree (p : ℕ) (hp : L.pool p) : s.mem.pool.On p ↔ pageRefs s.mem.word s.dirs p = 0 := by
    refine ⟨fun hon => (h.sys.mem.refs_of_on hon).2, fun hzero => h.noneLost p hp ?_⟩
    have hne : p ≠ vgaFrame := by
      rintro rfl
      exact L.pool_ne_vga hp
    simp [pageLoad, hne, hzero]
  refine ⟨hfree, fun p hp hoff => ?_, fun hall p hp => (hfree p hp).mpr ?_⟩
  · have hrefs : pageRefs s.mem.word s.dirs p ≠ 0 := fun hzero => hoff ((hfree p hp).mpr hzero)
    obtain ⟨y, hy⟩ : ∃ y, slotRef s.mem.word s.dirs y = some p := by
      by_contra hnone
      exact hrefs (refs_eq_zero.mpr fun y hy => hnone ⟨y, hy⟩)
    refine ⟨y, hy, fun hst => ?_⟩
    rw [slotRef_of_none (h.sys.envs.pgdir.mpr hst)] at hy
    cases hy
  · exact refs_eq_zero.mpr fun y hy => by
      rw [slotRef_of_none (h.sys.envs.pgdir.mpr (hall y.env))] at hy
      cases hy

/-- The first environment creates another, which maps a page, and destroys
it. -/
def createDestroy : List (Label 1) :=
  [.tick 0, .trap 0 (syscallTf 7 0 0 0 0 0) 0,
    .trap 0 (syscallTf 4 0x1001 0x800000 7 0 0) 0, .trap 0 (syscallTf 3 0x1001 0 0 0 0) 0]

theorem sample_prepared (c : Fin n) {elfs : List Elf} (helfs : ∀ elf ∈ elfs, elf.WellFormed)
    (hboot : bootWith sampleMachine (sampleMem n) c elfs = some s) : Prepared sampleLayout c s :=
  bootWith_induct (.init (sample_init n) (sample_unlinked n) sample_vga)
    (fun hmem hs hrun => .create hs (helfs _ hmem) hrun) hboot

/-- A computed run of the sample machine that satisfies a test. -/
theorem sample_prepared_run (c : Fin n) (ls : List (Label n)) (test : Kernel n → Bool)
    (h : (scenario sampleMachine (sampleMem n) c [sampleElf]
      (fun s l => checkElsewhere s l && roomy s l) ls).map test = some true) :
    ∃ s t, Prepared sampleLayout c s ∧
      Run (Step sampleMachine) (OnCall (PresentOk sampleMachine)) s t ∧ test t = true := by
  obtain ⟨t, ht, htest⟩ := Option.map_eq_some_iff.mp h
  obtain ⟨s, hs, ht⟩ := Option.bind_eq_some_iff.mp ht
  exact ⟨s, t, sample_prepared c sampleElf_wellFormed hs, steps_run presentOk_of_check ht, htest⟩

end Jos
