import Jos.System.Boot
import Jos.System.Execution

/-!
What user environments can reach. In the runs that map no absent page, every
page that an environment maps is the VGA buffer or was handed out to be mapped,
and above `UTOP` its address space is the kernel's. A page that nobody maps
writable stays so for as long as it is in use.
-/

namespace Jos

open Jos.Lib

variable {n : ℕ} {M : Machine} {L : Layout M} {nullOk : Prop} {b c : Fin n} {cur : EnvIdx}
  {q : Request} {s t u v : Kernel n} {p : ℕ} {m m' : Mem n} {dirs dirs' : Dirs} {x : Ctx n}

/-! ### Isolation -/

/-- An environment maps the VGA buffer and pages that are in use as data, and
its directory has the kernel's entries and the one for itself. -/
structure Isolated (L : Layout M) (s : Kernel n) : Prop where
  page : ∀ {e i j w}, mapping s.mem.word s.dirs e i j = some w → pteFrame w < M.npages ∧
    (pteFrame w = vgaFrame ∨ L.pool (pteFrame w) ∧ ¬ s.mem.pool.On (pteFrame w) ∧
      Plain s.mem.word s.dirs (pteFrame w))
  kern : ∀ {e d}, s.dirs e = some d → ∀ {i : PtIdx}, 955 ≤ (i : ℕ) →
    s.mem.word d i = if i = pdx uvpt then frame2pa d ||| pteP ||| pteU
      else s.mem.word M.kernPgdir i

/-- The conditions of `CallOk`, and no absent page is mapped. -/
structure PresentOk (M : Machine) (c : Fin n) (cur : EnvIdx) (q : Request) (s : Kernel n) :
    Prop where
  call : CallOk M c cur q s
  source : SourceOk M cur q s

/-- The VGA buffer is a page, or nothing has been set up yet. -/
def VgaPage (M : Machine) (s : Kernel n) : Prop :=
  vgaFrame < M.npages ∨ ∀ e, s.dirs e = none

theorem envSetupVm_vga {r : Option ℕ} (h : envSetupVm M x m = .ok (r, m')) (hr : r ≠ none) :
    vgaFrame < M.npages := by
  unfold envSetupVm at h
  simp only [bind_eq_ok] at h
  obtain ⟨⟨page, m₁⟩, -, h⟩ := h
  cases page with
  | none =>
      cases h
      exact absurd rfl hr
  | some p =>
      simp only [bind_eq_ok, pa2page_eq_ok, pgnum_vgaPhysaddr] at h
      obtain ⟨-, -, -, ⟨hvga, -⟩, -⟩ := h
      exact hvga

theorem vgaPage_booted (hboot : Booted L b s) : VgaPage M s := by
  cases hboot with
  | init => exact Or.inr fun _ => rfl
  | create _ _ hrun =>
      cases envCreate_wp.ret hrun with
      | mk _ hsetup => exact Or.inl (envSetupVm_vga hsetup (by simp))

/-- Without environments no CPU has anything to execute. -/
theorem vgaPage_step {l : Label n} (h : SysInv L nullOk none s) (hvga : VgaPage M s)
    (hstep : Step M s l t) : VgaPage M t := by
  refine hvga.imp_right fun hnone => ?_
  have hidle (c : Fin n) : s.cpuEnv c = none := by
    by_contra hexec
    obtain ⟨e, he⟩ := Option.ne_none_iff_exists'.mp hexec
    have hd := h.cpu.exec he
    rw [hnone] at hd
    cases hd
  cases hstep.taken with
  | zombie hcur => simp [hidle] at hcur
  | entry hcur => simp [hidle] at hcur
  | tick _ hexit =>
      obtain ⟨d, hloads⟩ := hexit.loads
      rwa [hloads.dirs]
  | fill hexec => exact absurd (hidle _) hexec
  | store hexec => exact absurd (hidle _) hexec

theorem SysInv.isolated (h : SysInv L False none s) (hvga : VgaPage M s) : Isolated L s where
  page {e i j w} hw := by
    have hon := h.mem.not_on_page hw
    have hplain := h.mem.tables.separate.plain_of_page hw
    rcases (h.mem.tables.page hw).resolve_right fun hnull => hnull.1 with hpool | heq
    · exact ⟨L.pool_lt hpool, Or.inr ⟨hpool, hon, hplain⟩⟩
    · refine ⟨heq ▸ hvga.resolve_right fun hnone => ?_, Or.inl heq⟩
      obtain ⟨t, ht, -⟩ := mapping_eq_some.mp hw
      obtain ⟨d, hd⟩ := TableInv.exists_dir ht
      rw [hnone] at hd
      cases hd
  kern hd i hi := by
    rw [h.mem.tables.dirKern hd hi, h.mem.tables.kern L.pgdir_not_counted]

theorem isolated_run (hboot : Booted L b s) (hrun : Run (Step M) (OnCall (PresentOk M)) s t) :
    SysInv L False none t ∧ VgaPage M t :=
  hrun.invariant (I := fun s => SysInv L False none s ∧ VgaPage M s)
    (fun h hok hstep =>
      ⟨h.1.step (fun hl hcur hst => (hok hl hcur hst).call)
        (Or.inr fun hl hcur hst => (hok hl hcur hst).source) hstep, vgaPage_step h.1 h.2 hstep⟩)
    ⟨hboot.sys, vgaPage_booted hboot⟩

/-- In the runs that map no absent page every state is isolated. -/
theorem memory_isolation (hboot : Booted L b s)
    (hrun : Run (Step M) (OnCall (PresentOk M)) s t) : Isolated L t :=
  have hinv := isolated_run hboot hrun
  hinv.1.isolated hinv.2

theorem presentOk_of_check {l : Label n} (h : (checkElsewhere s l && roomy s l) = true) :
    OnCall (PresentOk M) s l := by
  intro c tf input cur hl hcur hst
  refine ⟨callOk_of_check h hl hcur hst, ?_⟩
  subst hl
  have hroomy : tf.request.no ≠ some .pageMap ∧ tf.request.no ≠ some .ipcTrySend ∧
      (s.mem.pages vgaFrame).ppRef ≠ 0 := by
    simpa [roomy] using (Bool.and_eq_true_iff.mp h).2
  exact fun {_ _} => not_inserts hroomy.1 hroomy.2.1

/-- An environment allocates the page at address 0. -/
def allocZeroPage : List (Label 1) := [.tick 0, .trap 0 (syscallTf 4 0 0 7 0 0) 0]

theorem memory_isolation_alloc : ∃ s t, Booted sampleLayout (0 : Fin 1) s ∧
    Run (Step sampleMachine) (OnCall (PresentOk sampleMachine)) s t ∧
    mapping t.mem.word t.dirs 0 0 0 ≠ none ∧ Isolated sampleLayout t := by
  obtain ⟨s, t, hboot, hrun, htest⟩ := sample_run 0 (fun s l => checkElsewhere s l && roomy s l)
    allocZeroPage (fun t => mapping t.mem.word t.dirs 0 0 0 ≠ none) presentOk_of_check
    (by decide +kernel)
  exact ⟨s, t, hboot, hrun, by simpa using htest, memory_isolation hboot hrun⟩

/-- An environment allocates the page at address 0 and then maps the absent
page after it. -/
def mapAbsent : List (Label 1) := allocZeroPage ++ [.trap 0 (syscallTf 5 0 0x1000 0 0x2000 5) 0]

theorem not_memory_isolation : ¬ ∀ s t : Kernel 1, Booted sampleLayout 0 s →
    Run (Step sampleMachine) (fun _ _ => True) s t → Isolated sampleLayout t := by
  intro h
  obtain ⟨s, t, hboot, hrun, htest⟩ := sample_run 0 (fun _ _ => true) mapAbsent
    (fun t => (mapping t.mem.word t.dirs 0 0 2).any fun w => decide (2048 ≤ pteFrame w))
    (fun _ => trivial) (by decide +kernel)
  obtain ⟨w, hw, hframe⟩ := (Option.any_eq_true _ _).mp htest
  have hlt : pteFrame w < 2048 := ((h s t hboot hrun).page hw).1
  have hge := of_decide_eq_true hframe
  omega

/-! ### Write permission -/

/-- A change of memory gives write permission for a page only if the page was
free, or mapped writable before. -/
theorem MemEdit.writable {k : ℕ} (h : MemEdit L nullOk k x dirs m dirs' m') (hp : p ≠ vgaFrame)
    (hw : Writable m'.word dirs' p) : Writable m.word dirs p ∨ m.pool.On p := by
  obtain ⟨e, i, j, w, hmap, hframe, hW⟩ := hw
  have hbefore {w : Word} (hmap : mapping m.word dirs e i j = some w) (hframe : pteFrame w = p)
      (hW : Flag w pteW) : Writable m.word dirs p ∨ m.pool.On p :=
    Or.inl ⟨e, i, j, w, hmap, hframe, hW⟩
  cases h with
  | keep _ _ _ hmaps => exact hbefore (hmaps e i j ▸ hmap) hframe hW
  | insert _ _ hins _ hsource =>
      rw [hins.maps] at hmap
      split at hmap
      · cases hmap
        exact hframe ▸ hsource hW
      · exact hbefore hmap hframe hW
  | remove _ _ hrem =>
      rw [hrem.maps] at hmap
      split at hmap
      · cases hmap
      · exact hbefore hmap hframe hW
  | setUp _ hset =>
      rw [hset.maps] at hmap
      split at hmap
      · split at hmap
        · cases hmap
          exact absurd (hframe.symm.trans pteFrame_vgaPte) hp
        · cases hmap
      · exact hbefore hmap hframe hW
  | tearDown _ hm₀ hdown =>
      rw [hdown.maps] at hmap
      split at hmap
      · cases hmap
      · rcases hm₀ with rfl | rfl
        · exact hbefore hmap hframe hW
        · exact hbefore hmap hframe hW

theorem Loads.writable {d : ℕ} (h : Loads M c d s t) (hw : Writable t.mem.word t.dirs p) :
    Writable s.mem.word s.dirs p := by
  rwa [h.word, h.dirs] at hw

/-- The same for a step. -/
theorem writable_step {l : Label n} (h : SysInv L nullOk none s) (hok : OnCall (CallOk M) s l)
    (hnull : nullOk) (hstep : Step M s l t) (hp : p ≠ vgaFrame)
    (hw : Writable t.mem.word t.dirs p) : Writable s.mem.word s.dirs p ∨ s.mem.pool.On p := by
  cases hstep.taken with
  | @zombie c _ _ _ u _ _ _ hfree hexit =>
      obtain ⟨d, hloads⟩ := hexit.loads
      exact ((h.cpuSys c).freed_edit hfree).writable hp (hloads.writable hw)
  | @entry c tf _ cur u v _ hcur hst hcall hret hexit =>
      obtain ⟨d, hloads⟩ := hexit.loads
      have hsaved : SysInv L nullOk none (s.setTf cur tf) := h.setTf
      have hedit := (hsaved.cpuSys c).call_edit (fun _ _ => hsaved.fresh)
        (hok rfl hcur hst).room (Or.inl hnull) hcall
      have hv := hloads.writable hw
      have hu : Writable u.mem.word u.dirs p := by
        rcases hret with rfl | ⟨-, r, rfl⟩
        · exact hv
        · rwa [dirs_setTf] at hv
      have hs := hedit.writable hp hu
      rwa [dirs_setTf] at hs
  | tick _ hexit =>
      obtain ⟨d, hloads⟩ := hexit.loads
      exact Or.inl (hloads.writable hw)
  | fill => exact Or.inl hw
  | store hexec hwrite =>
      obtain ⟨e, he⟩ := Option.ne_none_iff_exists'.mp hexec
      obtain ⟨-, -, -, hplain⟩ := SysInv.write_plain h.mem (h.cpu.exec he) hwrite
      obtain ⟨e', i, j, w, hmap, hframe, hW⟩ := hw
      refine Or.inl ⟨e', i, j, w, ?_, hframe, hW⟩
      rw [← hmap]
      exact (hplain.mapping fun q hq => Function.update_of_ne hq _ _).symm

/-- A step after which page `p` is not free. -/
def HoldingStep (M : Machine) (p : ℕ) (s : Kernel n) (l : Label n) (t : Kernel n) : Prop :=
  Step M s l t ∧ ¬ t.mem.pool.On p

theorem Loads.cpuSys {d : ℕ} (h : Loads M c d s t) (hmem : MemInv L nullOk none s.dirs s.mem)
    (hb : Bounded L 65536 s.dirs s.mem) : CpuSys L nullOk c t := by
  refine ⟨h.mem hmem, ?_, h.exec, h.idle⟩
  unfold Bounded
  rw [h.dirs, h.word]
  exact hb

/-- The memory stays in order for a CPU whatever the others execute. -/
theorem CpuSys.trap {tf : Trapframe} {input : Word} (h : CpuSys L nullOk c s)
    (hno : tf.request.no ≠ some .exofork)
    (hroom : ∀ {cur}, RoomOk M cur tf.request (s.setTf cur tf))
    (hsource : ∀ {cur}, nullOk ∨ SourceOk M cur tf.request (s.setTf cur tf))
    (hstep : Step M s (.trap c tf input) t) : CpuSys L nullOk c t := by
  cases hstep.taken with
  | zombie _ _ hfree hexit =>
      obtain ⟨d, hloads⟩ := hexit.loads
      exact hloads.cpuSys (h.freed_edit hfree).inv.1 (h.freed_edit hfree).inv.2
  | @entry _ _ _ cur u v _ hcur _ hcall hret hexit =>
      obtain ⟨d, hloads⟩ := hexit.loads
      have hsaved : CpuSys L nullOk c (s.setTf cur tf) := by
        refine ⟨?_, ?_, fun hc => ?_, h.idle⟩
        · rw [dirs_setTf]
          exact h.mem
        · rw [dirs_setTf]
          exact h.bounded
        · rw [dirs_setTf]
          exact h.exec hc
      have hedit := (hsaved.call_edit (fun heq => absurd heq hno) hroom hsource hcall).inv
      rcases hret with rfl | ⟨-, r, rfl⟩
      · exact hloads.cpuSys hedit.1 hedit.2
      · refine hloads.cpuSys ?_ ?_
        · rw [dirs_setTf]
          exact hedit.1
        · rw [dirs_setTf]
          exact hedit.2

theorem CpuSys.store {va w : Word} (h : CpuSys L nullOk c s) (hstep : Step M s (.store c va w) t) :
    CpuSys L nullOk c t := by
  cases hstep.taken with
  | @store _ _ _ frame hexec hwrite =>
      obtain ⟨e, he⟩ := Option.ne_none_iff_exists'.mp hexec
      obtain ⟨-, -, hcounted, hplain⟩ := SysInv.write_plain h.mem (h.exec he) hwrite
      have hword (q : ℕ) (hq : q ≠ frame) :
          (s.mem.store frame (wordIdx va) w).word q = s.mem.word q := Function.update_of_ne hq _ _
      refine ⟨h.mem.write_plain hplain hcounted rfl hword, fun p hp => ?_, h.exec, h.idle⟩
      have hrefs := pageRefs_congr (p := p) (hplain.slotRef hword)
      have hb := h.bounded p hp
      unfold pageLoad at hb ⊢
      rwa [dirs_setMem, Kernel.setMem, hrefs]

/-- A page whose one reference is read-only is in use and not writable. -/
theorem CpuSys.readonly {e : EnvIdx} {i j : PtIdx} {w : Word} (h : CpuSys L nullOk c s)
    (hpool : L.pool p) (href : (s.mem.pages p).ppRef = 1)
    (hmap : mapping s.mem.word s.dirs e i j = some w) (hframe : pteFrame w = p)
    (hW : ¬ Flag w pteW) : ¬ s.mem.pool.On p ∧ ¬ Writable s.mem.word s.dirs p := by
  refine ⟨hframe ▸ h.mem.not_on_page hmap, ?_⟩
  rintro ⟨e', i', j', w', hmap', hframe', hW'⟩
  have hvga : p ≠ vgaFrame := by
    rintro rfl
    exact L.pool_ne_vga hpool
  have hload := h.mem.counts.load_eq_one (Or.inl hpool) (by norm_num) (h.bounded p (Or.inl hpool))
    href
  have hrefs : refs (slotRef s.mem.word s.dirs) p = 1 := by
    simpa [pageLoad, hvga, pageRefs] using hload
  have hslot := refs_one_unique hrefs (i := .page e i j) (j := .page e' i' j')
    (by simp [slotRef, hmap, hframe]) (by simp [slotRef, hmap', hframe'])
  cases hslot
  rw [hmap] at hmap'
  cases hmap'
  exact hW hW'

/-! ### Two runs -/

/-- Page 2041 is mapped once, at address 0 of the first environment. -/
def mappedOnce (s : Kernel n) (writable : Bool) : Bool :=
  (mapping s.mem.word s.dirs 0 0 0).any fun w =>
    decide (pteFrame w = 2041) && decide (Flag w pteW ↔ writable) &&
      decide ((s.mem.pages 2041).ppRef = 1)

theorem mappedOnce_mapping {writable : Bool} (h : mappedOnce s writable = true) :
    ∃ w, mapping s.mem.word s.dirs 0 0 0 = some w ∧ pteFrame w = 2041 ∧
      (Flag w pteW ↔ writable) ∧ (s.mem.pages 2041).ppRef = 1 := by
  obtain ⟨w, hmap, hw⟩ := (Option.any_eq_true _ _).mp h
  simp only [Bool.and_eq_true, decide_eq_true_eq] at hw
  exact ⟨w, hmap, hw.1.1, hw.1.2, hw.2⟩

/-- The parent allocates a read-only page and destroys its child, which
executes on another CPU. -/
def readOnlyPage : List (Label 2) :=
  forkRun ++ [.trap 0 (syscallTf 4 0 0 5 0 0) 0, .trap 0 (syscallTf 3 0x1001 0 0 0 0) 0]

/-- It destroys the child once more, which frees the directory that the other
CPU has loaded, gets that page as its own and writes page tables into it, with
which the other CPU changes the entry of the read-only page. -/
def takeDirectory : List (Label 2) :=
  [.trap 0 (syscallTf 3 0x1001 0 0 0 0) 0, .trap 0 (syscallTf 4 0 0x1000 7 0 0) 0,
    .store 0 0x1000 0x7FB007, .store 0 0x1004 0x7F8007]

end Jos
