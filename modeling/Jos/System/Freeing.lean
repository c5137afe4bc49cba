import Jos.System.Creation

/-!
`env_free` to the frame. Where the counts are exact and none has wrapped, it
gives back what the environment held, and the rest of memory stays as it was.
-/

namespace Jos

open Jos.Lib

variable {n : ℕ} {M : Machine} {L : Layout M} {nullOk : Prop} {c : Fin n} {e : EnvIdx}
  {s t : Kernel n} {d p : ℕ}

/-- Every reference count is exact and below 2^16, those of the pages that `e`
refers to among them. -/
structure ExactCounts (L : Layout M) (nullOk : Prop) (e : EnvIdx) (s : Kernel n) : Prop where
  tidy : Tidy L nullOk none s.dirs s.mem
  bounded : Bounded L 65535 s.dirs s.mem
  own : ∀ i j w, mapping s.mem.word s.dirs e i j = some w → pteFrame w < M.npages

/-- `l` is the free list. -/
def FreeList (s : Kernel n) (l : List ℕ) : Prop :=
  Linked (fun p => (s.mem.pages p).ppLink) s.mem.pageFreeList l

/-- What `env_free(e)` does. -/
structure Releases (M : Machine) (e : EnvIdx) (s t : Kernel n) : Prop where
  refs : ∀ p, (t.mem.pages p).ppRef.toNat + ownRefs s.mem.word s.dirs e p =
    (s.mem.pages p).ppRef.toNat
  list : ∃ l l', FreeList s l ∧ FreeList t l' ∧ l'.Nodup ∧
    ∀ p, p ∈ l' ↔ p ∈ l ∨ (s.mem.pages p).ppRef ≠ 0 ∧ (t.mem.pages p).ppRef = 0
  dirs : ∀ e', e' ≠ e → t.dirs e' = s.dirs e'
  dir : ∀ {e' d}, e' ≠ e → s.dirs e' = some d → t.mem.word d = s.mem.word d
  table : ∀ {e' i d}, e' ≠ e → tableAt s.mem.word s.dirs e' i = some d →
    t.mem.word d = s.mem.word d
  kern : t.mem.word M.kernPgdir = s.mem.word M.kernPgdir
  kernTable : ∀ {i : PtIdx} {l}, 955 ≤ (i : ℕ) → i ≠ pdx uvpt →
    Flag (s.mem.word M.kernPgdir i) pteP → FreeList t l →
    pteFrame (s.mem.word M.kernPgdir i) ∉ l ∧
      t.mem.word (pteFrame (s.mem.word M.kernPgdir i)) =
        s.mem.word (pteFrame (s.mem.word M.kernPgdir i))
  slot : t.envFreeList = some e ∧ (t.envs e).envStatus = .free ∧
    (t.envs e).envLink = s.envFreeList

/-! ### References -/

/-- What an address space refers to has a count. -/
theorem ownRefs_eq_zero (h : ExactCounts L nullOk e s) (hp : ¬ L.counted p) :
    ownRefs s.mem.word s.dirs e p = 0 := by
  refine refs_eq_zero.mpr fun y hy => hp ?_
  rw [slotRef_own] at hy
  split at hy
  · rename_i he
    cases y with
    | pgdir e' => exact Or.inl (h.tidy.tables.dir hy)
    | table e' i => exact Or.inl (h.tidy.tables.table hy)
    | page e' i j =>
        obtain ⟨w, hw, rfl⟩ := Option.map_eq_some_iff.mp hy
        subst he
        exact pageTarget_counted (h.tidy.tables.page hw) (h.own i j w hw)
  · cases hy

theorem toNat_ref {load : ℕ → ℕ} {m : Mem n} (h : m.pool.Counts L.pool L.counted load)
    (hp : L.counted p) (hle : load p ≤ 65535) : (m.pages p).ppRef.toNat = load p := by
  have href : (m.pages p).ppRef = BitVec.ofNat 16 (load p) := h.ref p hp
  rw [href, BitVec.toNat_ofNat]
  omega

/-- The counts afterwards. -/
theorem refs_freed {m m' : Mem n} {dirs : Dirs} (h : Tidy L nullOk none dirs m)
    (hb : Bounded L 65535 dirs m) (hown : ¬ L.counted p → ownRefs m.word dirs e p = 0)
    (hfreed : MemFreed L nullOk dirs e m m') :
    (m'.pages p).ppRef.toNat + ownRefs m.word dirs e p = (m.pages p).ppRef.toNat := by
  by_cases hp : L.counted p
  · have hload := hfreed.loads p
    have hle := hb p hp
    rw [toNat_ref h.counts hp hle, toNat_ref hfreed.tidy.counts hp (by omega)]
    exact hload
  · rw [hfreed.pages hp, hown hp, add_zero]

/-- The free list afterwards. -/
theorem list_freed {m m' : Mem n} {dirs : Dirs} (h : Tidy L nullOk none dirs m)
    (hb : Bounded L 65535 dirs m) (hfreed : MemFreed L nullOk dirs e m m') :
    ∃ l l', Linked m.pool.link m.pool.head l ∧ Linked m'.pool.link m'.pool.head l' ∧ l'.Nodup ∧
      ∀ p, p ∈ l' ↔ p ∈ l ∨ (m.pages p).ppRef ≠ 0 ∧ (m'.pages p).ppRef = 0 := by
  obtain ⟨l, hl, -, hmem⟩ := h.counts.list
  obtain ⟨l', hl', hnodup', hmem'⟩ := hfreed.tidy.counts.list
  have hon (p : ℕ) : p ∈ l ↔ m.pool.On p :=
    ⟨fun hp => ⟨l, hl, hp⟩, fun ⟨l₁, hl₁, hp⟩ => hl₁.unique hl ▸ hp⟩
  have hon' (p : ℕ) : p ∈ l' ↔ m'.pool.On p :=
    ⟨fun hp => ⟨l', hl', hp⟩, fun ⟨l₁, hl₁, hp⟩ => hl₁.unique hl' ▸ hp⟩
  refine ⟨l, l', hl, hl', hnodup', fun p => ?_⟩
  by_cases hp : L.counted p
  · have hle := hb p hp
    have hload := hfreed.loads p
    have href := toNat_ref h.counts hp hle
    have href' := toNat_ref hfreed.tidy.counts hp (by omega)
    have hzero (v : BitVec 16) : v = 0 ↔ v.toNat = 0 := by
      rw [← BitVec.toNat_inj]
      rfl
    rw [hon, hon', hfreed.released.on, Ne, hzero, hzero, href, href', Nat.pos_iff_ne_zero]
  · have hoff : p ∉ l := fun hpl => hp (Or.inl (hmem p hpl).1)
    have hoff' : p ∉ l' := fun hpl => hp (Or.inl (hmem' p hpl).1)
    rw [hfreed.pages hp]
    tauto

theorem envFree_ret {m : Mem n} (hd : s.dirs e = some d)
    (hrun : envFreeMem M (s.ctx c) d (s.freeing M c e) = .ok m) :
    envFree M c e s = .ret () (s.freed c e m) := by
  set u := (s.emit (.envFree c e s.cpuEnv)).setMem (s.freeing M c e) with hu
  have hchange : changeMem (fun s => envFreeMem M (s.ctx c) d s.mem) u = .ret () (u.setMem m) :=
    changeMem_ok hrun
  have hue : (u.envs e).envPgdir = some d := hd
  simp only [envFree, Comp.bind_apply, Comp.modify_apply, Comp.get_apply]
  have hdir : (((s.emit (.envFree c e s.cpuEnv)).setMem
      ((s.emit (.envFree c e s.cpuEnv)).freeing M c e)).envs e).envPgdir = some d := hue
  rw [hdir]
  exact (Comp.bind_of_ret hchange).trans rfl

/-- `env_free` releases exactly what the environment held, and returns. -/
theorem env_free_releases (h : ExactCounts L nullOk e s) (hlive : s.dirs e ≠ none) :
    ∃ t, envFree M c e s = .ret () t ∧ Releases M e s t := by
  obtain ⟨d, hd⟩ := Option.ne_none_iff_exists'.mp hlive
  have hword := freeing_word (M := M) s c e
  have hpages := (freeing_pages (M := M) s c e).1
  have htidy : Tidy L nullOk none s.dirs (s.freeing M c e) := h.tidy.freeing
  have hbound : Bounded L 65535 s.dirs (s.freeing M c e) := h.bounded.freeing
  have hown (i j w) (hw : mapping (s.freeing M c e).word s.dirs e i j = some w) :
      pteFrame w < M.npages := h.own i j w (by rwa [hword] at hw)
  obtain ⟨m', hrun⟩ :=
    envFreeMem_returns (x := s.ctx c) htidy hbound (by norm_num) hd hown
  have hfreed := envFreeMem_frees htidy hbound (by norm_num) hd hrun
  have hframe {f : ℕ} (hdir : s.dirs e ≠ some f)
      (htable : ∀ i, tableAt s.mem.word s.dirs e i ≠ some f) : m'.word f = s.mem.word f := by
    rw [← hword] at htable ⊢
    exact hfreed.word hdir htable
  have hkern {f : ℕ} (hf : ¬ L.pool f) : m'.word f = s.mem.word f :=
    hframe (fun hdir => hf (h.tidy.tables.dir hdir)) fun i ht => hf (h.tidy.tables.table ht)
  have hsep := h.tidy.tables.separate
  have hrefs (p : ℕ) := refs_freed (p := p) htidy hbound
    (fun hp => by rw [hword]; exact ownRefs_eq_zero h hp) hfreed
  have hlist := list_freed htidy hbound hfreed
  rw [hpages, (freeing_pages s c e).2] at hlist
  refine ⟨_, envFree_ret hd hrun, fun p => ?_, hlist, fun e' he' => ?_, fun {e' f} he' hdir => ?_,
    fun {e' i f} he' ht => ?_, hkern L.pgdir_not_pool, fun {i l} hi hne hP hl => ?_, rfl, ?_, ?_⟩
  · have hp := hrefs p
    rwa [hword, hpages] at hp
  · rw [dirs_freed, Function.update_of_ne he']
  · exact hframe (fun hd => he' (hsep.dir_inj hd hdir)) fun i ht => hsep.table_ne_dir ht hdir rfl
  · exact hframe (fun hd => hsep.table_ne_dir ht hd rfl)
      fun i' ht' => he' (hsep.table_inj ht' ht).1
  · rw [h.tidy.tables.kern L.pgdir_not_counted] at hP ⊢
    have hnot := (L.table_not_pool hi hne hP).1
    exact ⟨fun hmem => hnot (hfreed.tidy.counts.of_on ⟨l, hl, hmem⟩).1, hkern hnot⟩
  · rw [Kernel.freed_self]
  · rw [Kernel.freed_self]

theorem sample_vga_load {b : ℕ} (hb : 1 < b) :
    pageLoad none (sampleMem n).word (initial (sampleMem n)).dirs vgaFrame < b := by
  have hload := load_init (m := sampleMem n) vgaFrame
  rw [if_pos rfl] at hload
  exact hload.trans_lt hb

/-- The first environment is allocated and freed again. -/
theorem env_free_releases_first : ∃ s t : Kernel 1,
    envAlloc sampleMachine 0 0 (initial (sampleMem 1)) = .ret (.ok 0) s ∧
    envFree sampleMachine 0 0 s = .ret () t ∧ Releases sampleMachine 0 s t := by
  have hinit := sample_init 1
  have htidy : Tidy sampleLayout False none (initial (sampleMem 1)).dirs (sampleMem 1) :=
    hinit.tidy (sample_unlinked 1) sample_vga
  have hbound : Bounded sampleLayout 65535 (initial (sampleMem 1)).dirs (sampleMem 1) :=
    bounded_init (by norm_num)
  obtain ⟨m, hsetup⟩ := envSetupVm_two (x := (initial (sampleMem 1)).ctx 0) (e := 0) (p := 2047)
    (q := 2046) htidy rfl rfl rfl
  have hnone : (initial (sampleMem 1)).dirs 0 = none := rfl
  have hset := envSetupVm_spec htidy.toMemInv hnone hsetup
  set s := (initial (sampleMem 1)).allocated 0 2047 m 0 with hs
  have hdirs : s.dirs = Function.update (initial (sampleMem 1)).dirs 0 (some 2047) := dirs_setEnv _
  have hexact : ExactCounts sampleLayout False 0 s := by
    refine ⟨?_, ?_, fun i j w hw => ?_⟩
    · rw [hdirs]
      exact htidy.setUp hnone hsetup
    · rw [hdirs]
      exact hset.bounded (by norm_num) hbound (sample_vga_load (by norm_num))
    · rw [hdirs] at hw
      have hpage := hset.inv.tables.page hw
      exact (htidy.setUp hnone hsetup).counted_lt (hpage.resolve_right fun hnull => hnull.1)
  obtain ⟨t, hret, hreleases⟩ := env_free_releases (c := 0) hexact (by simp [hdirs])
  exact ⟨s, t, envAlloc_done rfl hsetup, hret, hreleases⟩

end Jos
