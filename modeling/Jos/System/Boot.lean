import Jos.Pmap.Loading
import Jos.System.Memory

/-!
The start of the system. `mem_init` leaves the memory as `MemInit` says and
`env_init` the environments as `envInit` does; the boot CPU then creates the
first environments from binaries in the kernel image, before any CPU
schedules.
-/

namespace Jos

open Jos.Lib

variable {n : ℕ} {M : Machine}

/-- Memory after `mem_init`: the pool is on the free list, unused, and every
CPU that has started has the kernel's directory loaded. -/
structure MemInit (L : Layout M) (m : Mem n) : Prop where
  list : ∃ l, Linked (fun p => (m.pages p).ppLink) m.pageFreeList l ∧ l.Nodup ∧
    ∀ p, p ∈ l ↔ L.pool p
  ref : ∀ {p}, L.pool p → (m.pages p).ppRef = 0
  vga : (m.pages vgaFrame).ppRef = 1
  word : ∀ {f}, ¬ L.counted f → m.word f = L.kern f
  cr3 : ∀ c, m.cr3 c = M.kernPgdir
  tlb : ∀ c, m.tlb c = []

/-- `mem_init` clears the environments and `env_init` links them. -/
def envInit (e : EnvIdx) : Env where
  envTf := zeroTrapframe
  envLink := if h : (e : ℕ) + 1 < 1024 then some ⟨e + 1, h⟩ else none
  envId := 0
  envParentId := 0
  envStatus := .free
  envRuns := 0
  envCpunum := 0
  envPgdir := none
  envPgfaultUpcall := 0
  envIpcRecving := false
  envIpcDstva := 0
  envIpcValue := 0
  envIpcFrom := 0
  envIpcPerm := 0

def initial (m : Mem n) : Kernel n where
  mem := m
  envs := envInit
  envFreeList := some 0
  cpuEnv _ := none
  log := []

/-- The states in which the boot CPU may start to schedule. -/
inductive Booted (L : Layout M) (c : Fin n) : Kernel n → Prop
  | init {m} (h : MemInit L m) : Booted L c (initial m)
  | create {s t elf} (h : Booted L c s) (helf : elf.WellFormed)
      (hrun : envCreate M c elf s = .ret () t) : Booted L c t

/-! ### Creating an environment -/

/-- The state after `env_create`. -/
inductive Created (M : Machine) (c : Fin n) (elf : Elf) (s : Kernel n) : Kernel n → Prop
  | mk {e d m m'} (hhead : s.envFreeList = some e)
      (hsetup : envSetupVm M (s.ctx c) s.mem = .ok (some d, m))
      (hload : loadIcode M ((s.allocated e d m 0).ctx c) d elf m = .ok m') :
      Created M c elf s (((s.allocated e d m 0).setMem m').setTf e
        { ((s.allocated e d m 0).envs e).envTf with tfEip := elf.eEntry })

variable {L : Layout M} {nullOk : Prop} {c : Fin n} {elf : Elf} {s t : Kernel n} {m m' : Mem n}
  {e : EnvIdx} {d : ℕ}

theorem envCreate_wp : Comp.wp (envCreate M c elf) (fun _ t => Created M c elf s t)
    (fun _ => False) (fun _ => True) s := by
  unfold envCreate
  rw [Comp.wp_bind]
  refine envAlloc_wp.mono (fun r t h => ?_) (fun _ h => h) fun _ _ => trivial
  cases r with
  | error code => exact (Comp.wp_stop _).mpr trivial
  | ok e =>
      obtain ⟨d, m, hhead, hsetup, rfl⟩ := h
      simp only [Comp.wp_bind, Comp.wp_get]
      have hdir : ((s.allocated e d m 0).envs e).envPgdir = some d := by
        simp [Kernel.allocated, Kernel.setEnv]
      rw [hdir]
      simp only [Comp.wp_bind, wp_changeMem, Comp.wp_modify]
      exact ⟨fun m' hload => .mk hhead hsetup hload, fun _ _ => trivial⟩

/-! ### What holds at the start -/

/-- The invariant, and no CPU executes anything yet. -/
structure BootInv (L : Layout M) (nullOk : Prop) (s : Kernel n) : Prop where
  envs : EnvInv none s
  loading : Loading L nullOk s.dirs s.mem
  idle : ∀ c, s.cpuEnv c = none
  cr3 : ∀ c, s.mem.cr3 c = M.kernPgdir
  status : ∀ e, (s.envs e).envStatus = .free ∨ (s.envs e).envStatus = .runnable
  recving : ∀ e, (s.envs e).envIpcRecving = false

/-- The free list runs through the table in order. -/
theorem linked_envInit {l : List EnvIdx} (hl : l = List.finRange 1024) :
    Linked (fun e => (envInit e).envLink) (some 0) l := by
  have hlen : l.length = 1024 := by rw [hl, List.length_finRange]
  have hget {k : ℕ} (hk : k < 1024) : l[k]? = some ⟨k, hk⟩ := by
    rw [hl, List.getElem?_eq_getElem (by simpa), List.getElem_finRange]
    rfl
  refine Linked.of_getElem? (hget (by norm_num)).symm fun {k e} he => ?_
  have hk : k < 1024 := hlen ▸ (List.getElem?_eq_some_iff.mp he).1
  obtain rfl : (⟨k, hk⟩ : EnvIdx) = e := Option.some.inj ((hget hk).symm.trans he)
  simp only [envInit]
  split
  · exact (hget _).symm
  · exact (List.getElem?_eq_none (by omega)).symm

theorem envInit_inv (m : Mem n) : EnvInv none (initial m) where
  uniq hc := by cases hc
  exec hc := by cases hc
  cur hk := by cases hk
  active he := by rcases he with hst | hst <;> cases hst
  pgdir := iff_of_true rfl rfl
  free := by
    obtain ⟨l, hl⟩ : ∃ l, l = List.finRange 1024 := ⟨_, rfl⟩
    refine ⟨l, linked_envInit hl, ?_, fun e => iff_of_true ?_ rfl⟩
    · rw [hl]
      exact List.nodup_finRange _
    · rw [hl]
      exact List.mem_finRange e

/-- Without directories the count of the VGA buffer is the only one. -/
theorem load_init (p : ℕ) :
    pageLoad none m.word (fun _ => none) p = if p = vgaFrame then 1 else 0 := by
  have hrefs : pageRefs m.word (fun _ => none) p = 0 :=
    refs_eq_zero.mpr fun y => by cases y <;> simp [slotRef]
  simp [pageLoad, hrefs]

theorem bounded_init {b : ℕ} (hb : 0 < b) : Bounded L b (fun _ => none) m := fun p _ => by
  rw [load_init]
  split <;> omega

theorem MemInit.loading (h : MemInit L m) : Loading L nullOk (fun _ => none) m := by
  refine ⟨⟨⟨?_, fun p hp => ?_⟩, ?_⟩, bounded_init (by norm_num), fun hw _ => by simp at hw,
    h.tlb⟩
  · obtain ⟨l, hl, hnodup, hmem⟩ := h.list
    refine ⟨l, hl, hnodup, fun p hp => ⟨(hmem p).mp hp, ?_⟩⟩
    rw [load_init, if_neg]
    rintro rfl
    exact L.pool_ne_vga ((hmem _).mp hp)
  · rw [load_init]
    rcases hp with hp | rfl
    · rw [if_neg]
      · exact h.ref hp
      · rintro rfl
        exact L.pool_ne_vga hp
    · exact h.vga
  · exact ⟨⟨nofun, fun ht => by simp at ht⟩, nofun, nofun, fun ht => by simp at ht, nofun,
      fun ht => by simp at ht, fun hw => by simp at hw, h.word⟩

theorem BootInv.created (h : BootInv L nullOk s) (helf : elf.WellFormed)
    (hcreated : Created M c elf s t) : BootInv L nullOk t := by
  cases hcreated with
  | @mk e d m m' hhead hsetup hload =>
      set u := s.allocated e d m 0 with hu
      have hother (e' : EnvIdx) (he : e' ≠ e) : (((u.setMem m').setTf e
          { (u.envs e).envTf with tfEip := elf.eEntry }).envs e') = s.envs e' := by
        simp [hu, Kernel.setTf, Kernel.allocated, Kernel.setEnv, Kernel.setMem, he]
      have hself : ((u.setMem m').setTf e
          { (u.envs e).envTf with tfEip := elf.eEntry }).envs e =
          { u.envs e with envTf := { (u.envs e).envTf with tfEip := elf.eEntry } } := by
        simp [Kernel.setTf, Kernel.setEnv, Kernel.setMem]
      have hue : u.envs e = { s.envs e with
          envPgdir := some d, envId := nextEnvId (s.envs e).envId e, envParentId := 0,
          envStatus := .runnable, envRuns := 0, envTf := initialTrapframe,
          envPgfaultUpcall := 0, envIpcRecving := false } := Kernel.allocated_self
      obtain ⟨hfree, henvs⟩ := h.envs.allocated (t := (u.setMem m').setTf e
        { (u.envs e).envTf with tfEip := elf.eEntry }) hhead rfl rfl hother
        (by rw [hself, hue]; simp) (by rw [hself, hue]; simp)
        (by rw [hself, hue]; rintro (hst | hst) <;> cases hst)
      have hnone : s.dirs e = none := h.envs.pgdir.mpr hfree
      have hset := envSetupVm_spec h.loading.inv hnone hsetup
      have hdirs : ((u.setMem m').setTf e
          { (u.envs e).envTf with tfEip := elf.eEntry }).dirs =
          Function.update s.dirs e (some d) := by
        rw [dirs_setTf, dirs_setMem, hu]
        exact dirs_setEnv _
      have hloading := h.loading.setUp hnone hsetup
      obtain ⟨hloaded, hcr3⟩ := loadIcode_spec hloading (Function.update_self _ _ _) helf hload
      refine ⟨henvs, hdirs ▸ hloaded, h.idle, fun c' => ?_, fun e' => ?_, fun e' => ?_⟩
      · exact (congrFun (hcr3.trans hset.cr3) c').trans (h.cr3 c')
      · by_cases he : e' = e
        · subst he
          rw [hself, hue]
          exact Or.inr rfl
        · rw [hother e' he]
          exact h.status e'
      · by_cases he : e' = e
        · subst he
          rw [hself, hue]
        · rw [hother e' he]
          exact h.recving e'

theorem Booted.inv (h : Booted L c s) : BootInv L nullOk s := by
  induction h with
  | init h =>
      exact ⟨envInit_inv _, h.loading, fun _ => rfl, h.cr3, fun _ => Or.inl rfl, fun _ => rfl⟩
  | create _ helf hrun ih => exact ih.created helf (envCreate_wp.ret hrun)

theorem Booted.envs (h : Booted L c s) : EnvInv none s :=
  have hinv : BootInv L True s := h.inv
  hinv.envs

theorem Booted.sys (h : Booted L c s) : SysInv L nullOk none s :=
  have hinv : BootInv L nullOk s := h.inv
  ⟨hinv.envs, hinv.loading.inv, hinv.loading.bounded,
    fun hc => by simp [hinv.idle] at hc, fun _ => hinv.cr3 _⟩

/-! ### Starting from the console -/

section

variable (M) (m : Mem n) (c : Fin n)

/-- `ENV_CREATE` of the binaries `elfs`. -/
def bootWith (elfs : List Elf) : Option (Kernel n) :=
  elfs.foldlM (fun s elf => match envCreate M c elf s with
    | .ret () t => some t
    | _ => none) (initial m)

/-- The state after the binaries have been created and the steps `ls` taken. -/
def scenario (elfs : List Elf) (check : Kernel n → Label n → Bool) (ls : List (Label n)) :
    Option (Kernel n) :=
  (bootWith M m c elfs).bind fun s => steps M check s ls

end

/-- What holds at the start and is kept when a binary is created. -/
theorem bootWith_induct {P : Kernel n → Prop} {elfs : List Elf} (hinit : P (initial m))
    (hcreate : ∀ {s t : Kernel n} {elf : Elf}, elf ∈ elfs → P s →
      envCreate M c elf s = .ret () t → P t)
    (hboot : bootWith M m c elfs = some s) : P s := by
  unfold bootWith at hboot
  generalize initial m = start at hinit hboot
  induction elfs generalizing start with
  | nil =>
      cases hboot
      exact hinit
  | cons elf elfs ih =>
      simp only [List.foldlM_cons, Option.bind_eq_bind, Option.bind_eq_some_iff] at hboot
      obtain ⟨u, hu, hboot⟩ := hboot
      have hrun : envCreate M c elf start = .ret () u := by
        cases hrun : envCreate M c elf start with
        | ret a v => simpa [hrun] using hu
        | leave v => simp [hrun] at hu
        | stop why v => simp [hrun] at hu
      exact ih (fun hmem => hcreate (List.mem_cons_of_mem elf hmem)) u
        (hcreate List.mem_cons_self hinit hrun) hboot

theorem bootWith_booted {elfs : List Elf} (hinit : MemInit L m)
    (helfs : ∀ elf ∈ elfs, elf.WellFormed) (hboot : bootWith M m c elfs = some s) :
    Booted L c s :=
  bootWith_induct (.init hinit) (fun hmem hs hrun => .create hs (helfs _ hmem) hrun) hboot

theorem steps_run {check : Kernel n → Label n → Bool} {ls : List (Label n)}
    {ok : Kernel n → Label n → Prop} (hok : ∀ {s l}, check s l = true → ok s l)
    (h : steps M check s ls = some t) : Run (Step M) ok s t :=
  Run.of_foldlM (fun hu =>
    have hu := Option.ite_none_right_eq_some.mp hu
    ⟨hok hu.1, hu.2⟩) h

theorem steps_nil {check : Kernel n → Label n → Bool} : steps M check s [] = some t ↔ s = t :=
  Option.some_inj

theorem steps_cons {check : Kernel n → Label n → Bool} {l : Label n} {ls : List (Label n)} :
    steps M check s (l :: ls) = some t ↔
      ∃ u, (check s l = true ∧ Step M s l u) ∧ steps M check u ls = some t := by
  simp only [steps, List.foldlM_cons, Option.bind_eq_bind, Option.bind_eq_some_iff,
    Option.ite_none_right_eq_some]
  rfl

/-- A computed run. -/
theorem scenario_reach {elfs : List Elf} {check : Kernel n → Label n → Bool}
    {ls : List (Label n)} {ok : Kernel n → Label n → Prop}
    (hinit : MemInit L m) (helfs : ∀ elf ∈ elfs, elf.WellFormed)
    (hok : ∀ {s l}, check s l = true → ok s l) (h : scenario M m c elfs check ls = some t) :
    ∃ s, Booted L c s ∧ Run (Step M) ok s t := by
  obtain ⟨s, hs, ht⟩ := Option.bind_eq_some_iff.mp h
  exact ⟨s, bootWith_booted hinit helfs hs, steps_run hok ht⟩

/-- A computed run that satisfies a test. -/
theorem scenario_run {elfs : List Elf} {check : Kernel n → Label n → Bool}
    {ls : List (Label n)} {test : Kernel n → Bool} {ok : Kernel n → Label n → Prop}
    (hinit : MemInit L m) (helfs : ∀ elf ∈ elfs, elf.WellFormed)
    (hok : ∀ {s l}, check s l = true → ok s l)
    (h : (scenario M m c elfs check ls).map test = some true) :
    ∃ s t, Booted L c s ∧ Run (Step M) ok s t ∧ test t = true := by
  obtain ⟨t, ht, htest⟩ := Option.map_eq_some_iff.mp h
  obtain ⟨s, hboot, hrun⟩ := scenario_reach hinit helfs hok ht
  exact ⟨s, t, hboot, hrun, htest⟩

/-! ### A machine with 8 MB -/

/-- The kernel's page directory and page tables: the user part is empty, the
table of pages and that of environments are readable for users, and physical
memory is mapped at `KERNBASE`. -/
def sampleKern (f : ℕ) (i : PtIdx) : Word :=
  if f = 280 then
    if i = pdx uvpt then frame2pa 280 ||| pteU ||| pteP
    else if 960 ≤ (i : ℕ) then tablePde (512 + (i - 960))
    else if (i : ℕ) = 956 then tablePde 576
    else if (i : ℕ) = 955 then tablePde 577
    else 0
  else if 512 ≤ f ∧ f < 576 then frame2pa ((f - 512) * 1024 + i) ||| pteP ||| pteW
  else if f = 576 ∧ (i : ℕ) < 4 then frame2pa (281 + i) ||| pteU ||| pteP
  else if f = 577 ∧ (i : ℕ) < 31 then frame2pa (285 + i) ||| pteU ||| pteP
  else 0

theorem sampleKern_pde {i : PtIdx} (hi : 955 ≤ (i : ℕ)) (hne : i ≠ pdx uvpt)
    (hP : Flag (sampleKern 280 i) pteP) :
    ∃ t, 512 ≤ t ∧ t < 578 ∧ pteFrame (sampleKern 280 i) = t := by
  have hframe (t : ℕ) (ht : t < 578) : pteFrame (tablePde t) = t :=
    pteFrame_tablePde (by omega)
  have hlt : (i : ℕ) < 1024 := i.isLt
  unfold sampleKern at hP ⊢
  simp only [if_true, if_neg hne] at hP ⊢
  split
  · exact ⟨_, by omega, by omega, hframe _ (by omega)⟩
  · split
    · exact ⟨_, by norm_num, by norm_num, hframe 576 (by norm_num)⟩
    · split
      · exact ⟨_, by norm_num, by norm_num, hframe 577 (by norm_num)⟩
      · rename_i h960 h956 h955
        simp only [if_neg h960, if_neg h956, if_neg h955] at hP
        exact absurd hP (not_flag_zero _)

/-- What user code may read through the kernel's page tables it cannot write,
and it lies below the pool. -/
theorem sampleKern_user {t : ℕ} {j : PtIdx} (ht : 512 ≤ t)
    (hU : Flag (sampleKern t j) pteU) :
    pteFrame (sampleKern t j) < 1024 ∧ ¬ Flag (sampleKern t j) pteW := by
  have hlow {mask : Word} (hmask : mask.toNat < 4096) (f : ℕ) : ¬ Flag (frame2pa f) mask :=
    not_flag_frame2pa (low_bits_of_lt hmask) f
  have hread (f : ℕ) (hf : f < 1024) : pteFrame (frame2pa f ||| pteU ||| pteP) < 1024 ∧
      ¬ Flag (frame2pa f ||| pteU ||| pteP) pteW := by
    constructor
    · rw [BitVec.or_assoc, pteFrame_or (by omega) (by decide)]
      exact hf
    · rw [flag_or, flag_or]
      rintro ((h | h) | h)
      · exact hlow (by decide) f h
      · exact absurd h (by decide)
      · exact absurd h (by decide)
  unfold sampleKern at hU ⊢
  rw [if_neg (by omega : ¬ t = 280)] at hU ⊢
  split
  · rename_i h
    rw [if_pos h, flag_or, flag_or] at hU
    rcases hU with (h | h) | h
    · exact absurd h (hlow (by decide) _)
    · exact absurd h (by decide)
    · exact absurd h (by decide)
  · rename_i h
    rw [if_neg h] at hU
    split
    · exact hread _ (by omega)
    · rename_i h
      rw [if_neg h] at hU
      split
      · exact hread _ (by omega)
      · rename_i h
        rw [if_neg h] at hU
        exact absurd hU (not_flag_zero _)

def sampleLayout : Layout sampleMachine where
  pool p := 1024 ≤ p ∧ p < 2048
  kern := sampleKern
  pool_lt h := h.2
  pool_ne_vga h := by
    unfold vgaFrame at h
    omega
  pgdir_not_pool h := by
    change 1024 ≤ 280 ∧ _ at h
    omega
  pgdir_ne_vga := by decide
  pgdir_user {i} hi := by
    have hne : i ≠ pdx uvpt := by
      rintro rfl
      exact absurd hi (by decide)
    change sampleKern 280 i = 0
    unfold sampleKern
    rw [if_pos rfl, if_neg hne, if_neg (by omega), if_neg (by omega), if_neg (by omega)]
  table_not_pool hi hne hP := by
    obtain ⟨t, hge, hlt, hframe⟩ := sampleKern_pde hi hne hP
    change ¬ (1024 ≤ pteFrame (sampleKern 280 _) ∧ _) ∧ pteFrame (sampleKern 280 _) ≠ _
    rw [hframe]
    unfold vgaFrame
    omega
  user_not_pool hi hne hP _ hU := by
    obtain ⟨t, hge, -, hframe⟩ := sampleKern_pde hi hne hP
    change Flag (sampleKern (pteFrame (sampleKern 280 _)) _) pteU at hU
    change ¬ (1024 ≤ pteFrame (sampleKern (pteFrame (sampleKern 280 _)) _) ∧ _)
    rw [hframe] at hU ⊢
    have hlt := (sampleKern_user hge hU).1
    omega
  user_readonly hi hne hP hU := by
    obtain ⟨t, hge, -, hframe⟩ := sampleKern_pde hi hne hP
    change Flag (sampleKern (pteFrame (sampleKern 280 _)) _) pteU at hU
    change ¬ Flag (sampleKern (pteFrame (sampleKern 280 _)) _) pteW
    rw [hframe] at hU ⊢
    exact (sampleKern_user hge hU).2

def sampleMem (n : ℕ) : Mem n where
  pages p :=
    { ppLink := if 1024 < p ∧ p < 2048 then some (p - 1) else none
      ppRef := if p < 1024 then 1 else 0 }
  pageFreeList := some 2047
  word := sampleKern
  cr3 _ := 280
  tlb _ := []

/-- A list whose links run down from `b - 1` to `a`. -/
theorem linked_down {a b : ℕ} {next : ℕ → Option ℕ} (hab : a < b)
    (hnext : ∀ p, a ≤ p → p < b → next p = if a < p then some (p - 1) else none) :
    ∃ l, Linked next (some (b - 1)) l ∧ l.Nodup ∧ ∀ p, p ∈ l ↔ a ≤ p ∧ p < b := by
  obtain ⟨l, hl⟩ := @exists_eq _ ((List.range (b - a)).map fun k => b - 1 - k)
  have hlen : l.length = b - a := by simp [hl]
  have hget {k : ℕ} (hk : k < b - a) : l[k]? = some (b - 1 - k) := by simp [hl, hk]
  have hmem (p : ℕ) : p ∈ l ↔ a ≤ p ∧ p < b := by
    simp only [hl, List.mem_map, List.mem_range]
    exact ⟨by rintro ⟨k, hk, rfl⟩; omega, fun hp => ⟨b - 1 - p, by omega, by omega⟩⟩
  refine ⟨l, Linked.of_getElem? (hget (k := 0) (by omega)).symm fun {k p} hp => ?_, ?_, hmem⟩
  · have hk : k < b - a := hlen ▸ (List.getElem?_eq_some_iff.mp hp).1
    obtain rfl : b - 1 - k = p := Option.some.inj ((hget hk).symm.trans hp)
    rw [hnext _ (by omega) (by omega)]
    split
    · rw [hget (by omega)]
      simp only [Option.some.injEq]
      omega
    · exact (List.getElem?_eq_none (by omega)).symm
  · rw [hl]
    refine List.Nodup.map_on (fun c hc c' hc' heq => ?_) List.nodup_range
    rw [List.mem_range] at hc hc'
    omega

theorem sample_init (n : ℕ) : MemInit sampleLayout (sampleMem n) where
  list := by
    have hlt : 1024 < 2048 := by norm_num
    refine linked_down hlt fun p _ hp => ?_
    simp [sampleMem, hp]
  ref {p} hp := by
    have hp' : 1024 ≤ p ∧ p < 2048 := hp
    simp only [sampleMem]
    rw [if_neg (by omega)]
  vga := by simp [sampleMem, vgaFrame]
  word _ := rfl
  cr3 _ := rfl
  tlb _ := rfl

/-- A binary without segments: it gets a stack and its first instruction
faults. -/
def sampleElf : Elf where
  eMagic := 0x464C457F
  eEntry := 0x800020
  eProghdr := []
  byte _ := 0

theorem sampleElf_wellFormed : ∀ elf ∈ [sampleElf], elf.WellFormed := by
  simp [Elf.WellFormed, sampleElf]

/-- A run of this machine, with one environment to begin with, that is computed
and satisfies a test. -/
theorem sample_run (c : Fin n) {ok : Kernel n → Label n → Prop}
    (check : Kernel n → Label n → Bool) (ls : List (Label n)) (test : Kernel n → Bool)
    (hok : ∀ {s l}, check s l = true → ok s l)
    (h : (scenario sampleMachine (sampleMem n) c [sampleElf] check ls).map test = some true) :
    ∃ s t, Booted sampleLayout c s ∧ Run (Step sampleMachine) ok s t ∧ test t = true :=
  scenario_run (sample_init n) sampleElf_wellFormed hok h

/-- The state of this machine with one environment, which satisfies a test. -/
theorem sample_booted (c : Fin n) (test : Kernel n → Bool)
    (h : (bootWith sampleMachine (sampleMem n) c [sampleElf]).map test = some true) :
    ∃ s, Booted sampleLayout c s ∧ test s = true := by
  obtain ⟨s, hs, htest⟩ := Option.map_eq_some_iff.mp h
  exact ⟨s, bootWith_booted (sample_init n) sampleElf_wellFormed hs, htest⟩

/-- The registers at a system call. -/
def syscallTf (no a1 a2 a3 a4 a5 : Word) : Trapframe :=
  { initialTrapframe with
    tfTrapno := tSyscall
    tfRegs := { regEax := no, regEdx := a1, regEcx := a2, regEbx := a3, regEdi := a4,
                regEsi := a5, regEbp := 0, regOesp := 0 } }

end Jos
