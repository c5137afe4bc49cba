import Jos.Lib.Region
import Jos.Pmap.FreeList
import Jos.Pmap.Walk
import Mathlib.Data.Fintype.Card
import Mathlib.Order.Interval.Finset.Fin

/-!
The static part of the kernel's address space. By page number it is one table,
into which `boot_map_region` writes a region: its entries are the walk of
`kern_pgdir` from `UTOP` on, without the window that shows the directory itself.
The assertion of `boot_map_region` on the size is what decides whether
`mem_init` gets through.
-/

namespace Jos

open Jos.Lib

variable {n : ℕ} {M : Machine} {m m' : Mem n} {v : ℕ} {w va pa perm : Word} {t p : ℕ}

/-! ### The static table -/

/-- The page numbers from `PDX(UTOP)` on but for those of `UVPT`. -/
def Static (v : ℕ) : Prop := 955 ≤ v / 1024 ∧ v / 1024 < 1024 ∧ v / 1024 ≠ 957

instance (v : ℕ) : Decidable (Static v) := inferInstanceAs (Decidable (_ ∧ _))

/-- The entry of a page, zero where there is no page table. -/
def staticPte (M : Machine) (m : Mem n) (v : ℕ) : Word :=
  let pde := m.word M.kernPgdir (Fin.ofNat 1024 (v / 1024))
  if Static v ∧ Flag pde pteP then m.word (pteFrame pde) (Fin.ofNat 1024 (v % 1024)) else 0#32

/-- The directory entries whose page table is still to be allocated. -/
def absent (M : Machine) (m : Mem n) : Finset PtIdx :=
  Finset.univ.filter fun i =>
    (955 ≤ (i : ℕ) ∧ i ≠ pdx uvpt) ∧ ¬ Flag (m.word M.kernPgdir i) pteP

/-- The frame is the page table of some index. -/
def IsTable (M : Machine) (m : Mem n) (i : PtIdx) (t : ℕ) : Prop :=
  i ≠ pdx uvpt ∧ Flag (m.word M.kernPgdir i) pteP ∧ pteFrame (m.word M.kernPgdir i) = t

/-- The page tables of `kern_pgdir` are different frames, and there are enough
free ones for the others. -/
structure KernTables (M : Machine) (m : Mem n) : Prop where
  list : ∃ l, Linked (fun p => (m.pages p).ppLink) m.pageFreeList l ∧ l.Nodup ∧
    (∀ p ∈ l, p < M.npages ∧ p ≠ M.kernPgdir ∧ ∀ i, ¬ IsTable M m i p) ∧
    (absent M m).card ≤ l.length
  frame_lt : ∀ i, pteFrame (m.word M.kernPgdir i) < M.npages
  table_ne : ∀ {i t}, IsTable M m i t → t ≠ M.kernPgdir
  unique : ∀ {i j t}, IsTable M m i t → IsTable M m j t → i = j

theorem pdx_uvpt : (pdx uvpt : ℕ) = 957 := by
  rw [pdx_val]
  decide

theorem Static.ne_uvpt (h : Static v) : (Fin.ofNat 1024 (v / 1024)) ≠ pdx uvpt := by
  intro heq
  have hval := congrArg Fin.val heq
  rw [pdx_uvpt, Fin.val_ofNat] at hval
  unfold Static at h
  omega

/-! ### One entry -/

/-- The static part of the directory. -/
def staticIdx : Finset PtIdx := Finset.univ.filter fun i => 955 ≤ (i : ℕ) ∧ i ≠ pdx uvpt

theorem kernTables_iff : KernTables M m ↔ Tables M M.kernPgdir {pdx uvpt} staticIdx m ∧
    pteFrame (m.word M.kernPgdir (pdx uvpt)) < M.npages := by
  have htable (i t) : TableOf M.kernPgdir {pdx uvpt} m i t ↔ IsTable M m i t := by
    simp only [TableOf, IsTable, Finset.mem_singleton, ne_eq]
  have hmissing : missing M.kernPgdir staticIdx m = absent M m := Finset.filter_filter ..
  constructor
  · intro h
    refine ⟨⟨?_, fun i _ => h.frame_lt i, ?_, ?_⟩, h.frame_lt _⟩
    · simpa only [htable, hmissing] using h.list
    · exact fun ht => h.table_ne ((htable _ _).mp ht)
    · exact fun hi hj => h.unique ((htable _ _).mp hi) ((htable _ _).mp hj)
  · rintro ⟨h, hwindow⟩
    refine ⟨?_, fun i => ?_, ?_, ?_⟩
    · simpa only [htable, hmissing] using h.list
    · by_cases hi : i = pdx uvpt
      · exact hi ▸ hwindow
      · exact h.frame_lt i (by simpa using hi)
    · exact fun ht => h.table_ne ((htable _ _).mpr ht)
    · exact fun hi hj => h.unique ((htable _ _).mpr hi) ((htable _ _).mpr hj)

theorem Static.lt (h : Static v) : v < 1048576 := by
  unfold Static at h
  omega

theorem staticPte_eq (v : ℕ) :
    staticPte M m v = if Static v then pteOf M.kernPgdir {pdx uvpt} m v else 0#32 := by
  by_cases hv : Static v
  · have hskip : Fin.ofNat 1024 (v / 1024) ∉ ({pdx uvpt} : Finset PtIdx) := by
      simpa only [Finset.mem_singleton] using hv.ne_uvpt
    simp only [staticPte, pteOf, hv, hv.lt, hskip, not_false_eq_true, and_self, true_and, if_true]
  · simp only [staticPte, hv, false_and, if_false]

theorem Static.mem_staticIdx (h : Static v) : Fin.ofNat 1024 (v / 1024) ∈ staticIdx := by
  have hne := h.ne_uvpt
  unfold Static at h
  simp only [staticIdx, Finset.mem_filter, Finset.mem_univ, true_and, Fin.val_ofNat]
  exact ⟨by omega, hne⟩

/-! ### A region -/

theorem bootMapLoop_spec {k : ℕ} (h : KernTables M m)
    (hstatic : ∀ v, pgnum va ≤ v → v < pgnum va + k → Static v) :
    ∃ m', bootMapLoop M M.kernPgdir perm k va pa m = .ok m' ∧ KernTables M m' ∧
      staticPte M m' = (mapped va pa perm k).write (staticPte M m) := by
  obtain ⟨htables, hwindow⟩ := kernTables_iff.mp h
  obtain ⟨m', hm', h', hsame, hpte⟩ := bootMapLoop_writes htables fun v hge hlt =>
    have hv := hstatic v hge hlt
    ⟨hv.lt, by simpa using hv.ne_uvpt, hv.mem_staticIdx⟩
  have hwindow' := (hsame (pdx uvpt)).resolve_right fun hnew => hnew.1 (Finset.mem_singleton_self _)
  rw [← hwindow'] at hwindow
  refine ⟨m', hm', kernTables_iff.mpr ⟨h', hwindow⟩, ?_⟩
  funext v
  rw [staticPte_eq, hpte]
  by_cases hv : (mapped va pa perm k).Contains v
  · rw [Region.write_of_contains hv, Region.write_of_contains hv, if_pos (hstatic v hv.1 hv.2)]
  · rw [Region.write_of_not_contains hv, Region.write_of_not_contains hv, staticPte_eq]

theorem bootMapRegion_spec {size : Word} (h : KernTables M m) (hva : va % pgsize = 0)
    (hpa : pa % pgsize = 0) (hsize : size % pgsize = 0)
    (hstatic : ∀ v, pgnum va ≤ v → v < pgnum va + pgnum size → Static v) :
    ∃ m', bootMapRegion M M.kernPgdir va size pa perm m = .ok m' ∧ KernTables M m' ∧
      staticPte M m' = (mapped va pa perm (pgnum size)).write (staticPte M m) := by
  rw [bootMapRegion_eq hva hpa hsize]
  exact bootMapLoop_spec h hstatic

/-! ### The regions of `mem_init` -/

variable {img : Image} {b : Boot} {i k : ℕ}

theorem paddr_eq {kva : Word} (h : kernbase ≤ kva) : paddr kva = .ok (kva - kernbase) :=
  if_neg (BitVec.not_lt.mpr h)

/-- A kernel address and the physical one have the same offset in a page. -/
theorem paddr_aligned {kva : Word} (h : kva % pgsize = 0) : (kva - kernbase) % pgsize = 0 := by
  have hpg : pgsize.toNat = 4096 := rfl
  have hbase : kernbase.toNat = 4026531840 := rfl
  have hzero := congrArg BitVec.toNat h
  apply BitVec.eq_of_toNat_eq
  rw [BitVec.toNat_umod, hpg] at hzero ⊢
  rw [BitVec.toNat_sub, hbase]
  have hz : (0 : Word).toNat = 0 := rfl
  omega

/-- The stack of a CPU: where it is mapped, and its physical address. -/
def kstackVa (i : ℕ) : Word := kstacktop - kstksize - BitVec.ofNat 32 i * (kstksize + kstkgap)

def kstackKva (img : Image) (i : ℕ) : Word := img.percpuKstacks + BitVec.ofNat 32 i * kstksize

def kstackRegion (img : Image) (i : ℕ) : Region Word :=
  mapped (kstackVa i) (kstackKva img i - kernbase) (pteW ||| pteP) 8

def kstackRegions (img : Image) (i k : ℕ) : List (Region Word) :=
  (List.range' i k).map (kstackRegion img)

theorem kstackVa_facts : ∀ i < ncpu, pgnum (kstackVa i) = 0xEFFF8 - 16 * i ∧
    kstackVa i % pgsize = 0 ∧ kstackVa i - (kstksize + kstkgap) = kstackVa (i + 1) := by
  decide

theorem kstackKva_toNat (hi : i < ncpu) :
    (kstackKva img i).toNat = img.percpuKstacks.toNat + 32768 * i := by
  have hend := img.kstacks_le
  have hlt := img.endAddr.isLt
  have hsize : kstksize.toNat = 32768 := rfl
  unfold ncpu at hi hend
  have hmul : (BitVec.ofNat 32 i * kstksize).toNat = 32768 * i := by
    rw [BitVec.toNat_mul, hsize, BitVec.toNat_ofNat]
    omega
  rw [kstackKva, BitVec.toNat_add, hmul]
  omega

theorem kstackKva_facts (hi : i < ncpu) :
    kernbase ≤ kstackKva img i ∧ kstackKva img i % pgsize = 0 := by
  have hval := @kstackKva_toNat img i hi
  have hge : kernbase.toNat ≤ img.percpuKstacks.toNat := img.kstacks_ge
  have hzero := congrArg BitVec.toNat img.kstacks_aligned
  have hpg : pgsize.toNat = 4096 := rfl
  have hz : (0 : Word).toNat = 0 := rfl
  constructor
  · rw [BitVec.le_def]
    omega
  · apply BitVec.eq_of_toNat_eq
    rw [BitVec.toNat_umod, hpg] at hzero ⊢
    omega

theorem memInitMpLoop_spec (h : KernTables M m) (hik : i + k ≤ ncpu) :
    ∃ m', memInitMpLoop M img k i (kstackVa i) m = .ok m' ∧ KernTables M m' ∧
      staticPte M m' = Region.writeAll (staticPte M m) (kstackRegions img i k) := by
  induction k generalizing i m with
  | zero => exact ⟨m, rfl, h, rfl⟩
  | succ k ih =>
      have hi : i < ncpu := by omega
      obtain ⟨hpg, hva, hnext⟩ := kstackVa_facts i hi
      obtain ⟨hge, halign⟩ := @kstackKva_facts img i hi
      have hsize : pgnum kstksize = 8 := by decide
      have hstatic (v : ℕ) (hge : pgnum (kstackVa i) ≤ v)
          (hlt : v < pgnum (kstackVa i) + pgnum kstksize) : Static v := by
        unfold ncpu at hi
        unfold Static
        omega
      obtain ⟨m₁, hregion, h₁, hwrite⟩ := @bootMapRegion_spec _ _ _ _ _ (pteW ||| pteP) _ h hva
        (paddr_aligned halign) (by decide) hstatic
      obtain ⟨m', hm', htables, hwrites⟩ := @ih m₁ (i + 1) h₁ (by omega)
      refine ⟨m', ?_, htables, ?_⟩
      · have hpa : paddr (img.percpuKstacks + BitVec.ofNat 32 i * kstksize) =
            .ok (kstackKva img i - kernbase) := paddr_eq hge
        rw [memInitMpLoop]
        refine bind_eq_ok.mpr ⟨_, hpa, bind_eq_ok.mpr ⟨m₁, hregion, ?_⟩⟩
        rw [hnext]
        exact hm'
      · rw [hwrites, hwrite, hsize, kstackRegions, kstackRegions, List.range'_succ, List.map_cons,
          Region.writeAll, Region.writeAll, List.foldl_cons, kstackRegion]

/-- The regions of `mem_init`, of which the first stack replaces `bootstack`. -/
def bootstackRegion (img : Image) : Region Word :=
  mapped (kstacktop - kstksize) (img.bootstack - kernbase) (pteP ||| pteW) 8

def pagesRegion (M : Machine) (b : Boot) : Region Word :=
  mapped upages (b.pages - kernbase) (pteU ||| pteP) ((M.npages + 511) / 512)

def envsRegion (b : Boot) : Region Word :=
  mapped uenvs (b.envs - kernbase) (pteU ||| pteP) 31

def physRegion : Region Word := mapped kernbase 0 (pteP ||| pteW) 65536

def kernRegions (M : Machine) (img : Image) (b : Boot) : List (Region Word) :=
  [pagesRegion M b, envsRegion b, physRegion] ++ kstackRegions img 0 ncpu

/-- `mem_init` before its first `boot_map_region`: no static mapping, and arrays
at kernel addresses. -/
structure MapsReady (M : Machine) (b : Boot) (m : Mem n) : Prop where
  tables : KernTables M m
  empty : ∀ v, staticPte M m v = 0#32
  pages_ge : kernbase ≤ b.pages
  pages_aligned : b.pages % pgsize = 0
  envs_ge : kernbase ≤ b.envs
  envs_aligned : b.envs % pgsize = 0

theorem pagesSize_toNat {npages : ℕ} (hle : npages ≤ 65536) :
    (BitVec.ofNat 32 npages * sizeofPageInfo).toNat = 8 * npages := by
  have hsize : sizeofPageInfo.toNat = 8 := rfl
  rw [BitVec.toNat_mul, hsize, BitVec.toNat_ofNat]
  omega

/-- The assertion on the size of the array of pages. -/
theorem pagesSize_aligned :
    BitVec.ofNat 32 M.npages * sizeofPageInfo % pgsize = 0 ↔ M.npages % 512 = 0 := by
  have hpg : pgsize.toNat = 4096 := rfl
  have hz : (0 : Word).toNat = 0 := rfl
  rw [← BitVec.toNat_inj, BitVec.toNat_umod, pagesSize_toNat M.npages_le, hpg, hz]
  omega

theorem mapped_apart {va' pa' perm' : Word} {k' : ℕ} :
    (mapped va pa perm k).Apart (mapped va' pa' perm' k') ↔
      pgnum va + k ≤ pgnum va' ∨ pgnum va' + k' ≤ pgnum va := Iff.rfl

theorem mem_kstackRegions {r : Region Word} : r ∈ kstackRegions img i k ↔
    ∃ j, (i ≤ j ∧ j < i + k) ∧ kstackRegion img j = r := by
  simp [kstackRegions, List.mem_range'_1]

theorem pgnum_regions : pgnum upages = 978944 ∧ pgnum uenvs = 977920 ∧
    pgnum (kstacktop - kstksize) = 983032 ∧ pgnum kernbase = 983040 := by decide

/-- The stacks are apart from each other. -/
theorem kstackRegions_apart : (kstackRegions img i k).Pairwise Region.Apart ∨ ncpu < i + k := by
  by_cases hik : ncpu < i + k
  · exact Or.inr hik
  · refine Or.inl (List.pairwise_map.mpr ?_)
    refine List.Pairwise.imp_of_mem (fun {j j'} hj hj' hlt => ?_) List.pairwise_lt_range'
    rw [List.mem_range'_1] at hj hj'
    have h := (kstackVa_facts j (by omega)).1
    have h' := (kstackVa_facts j' (by omega)).1
    unfold ncpu at hik
    rw [kstackRegion, kstackRegion, mapped_apart]
    omega

theorem kernRegions_apart : (kernRegions M img b).Pairwise Region.Apart := by
  have hle := M.npages_le
  obtain ⟨hupages, huenvs, hkstack, hkernbase⟩ := pgnum_regions
  have hstacks := (@kstackRegions_apart img 0 ncpu).resolve_right (by decide)
  have hcross (va pa perm : Word) (k : ℕ)
      (h : pgnum va + k ≤ 982920 ∨ 983040 ≤ pgnum va) (r : Region Word)
      (hr : r ∈ kstackRegions img 0 ncpu) : (mapped va pa perm k).Apart r := by
    obtain ⟨j, ⟨-, hj⟩, rfl⟩ := mem_kstackRegions.mp hr
    have hva := (kstackVa_facts j (by omega)).1
    unfold ncpu at hj
    rw [kstackRegion, mapped_apart]
    omega
  refine List.pairwise_append.mpr ⟨?_, hstacks, fun r hr s hs => ?_⟩
  · simp only [List.pairwise_cons, List.mem_cons, List.not_mem_nil, or_false, forall_eq_or_imp,
      forall_eq, pagesRegion, envsRegion, physRegion, mapped_apart]
    refine ⟨⟨?_, ?_⟩, ?_, ?_⟩
    · omega
    · omega
    · omega
    · simp
  · simp only [List.mem_cons, List.not_mem_nil, or_false] at hr
    rcases hr with rfl | rfl | rfl
    · exact hcross _ _ _ _ (by omega) s hs
    · exact hcross _ _ _ _ (by omega) s hs
    · exact hcross _ _ _ _ (by omega) s hs

theorem memInitMaps_spec (h : MapsReady M b m) (hsize : M.npages % 512 = 0) :
    ∃ m', memInitMaps M img b m = .ok m' ∧ KernTables M m' ∧
      staticPte M m' = Region.writeAll ((bootstackRegion img).write (staticPte M m))
        (kernRegions M img b) := by
  have hle := M.npages_le
  obtain ⟨hupages, huenvs, hkstack, hkernbase⟩ := pgnum_regions
  have hn : pgnum (BitVec.ofNat 32 M.npages * sizeofPageInfo) = (M.npages + 511) / 512 := by
    rw [pgnum_eq, pagesSize_toNat hle]
    omega
  have henvs : pgnum sizeofEnvs = 31 := by decide
  have hstk : pgnum kstksize = 8 := by decide
  have hphys : pgnum (~~~0x0 - kernbase + 1) = 65536 := by decide
  obtain ⟨m₁, hrun₁, h₁, hwrite₁⟩ := @bootMapRegion_spec _ _ m upages _ (pteU ||| pteP) _
    h.tables (by decide) (paddr_aligned h.pages_aligned) (pagesSize_aligned.mpr hsize)
    fun v hge hlt => by
      unfold Static
      omega
  obtain ⟨m₂, hrun₂, h₂, hwrite₂⟩ := @bootMapRegion_spec _ _ m₁ uenvs _ (pteU ||| pteP) sizeofEnvs
    h₁ (by decide) (paddr_aligned h.envs_aligned) (by decide) fun v hge hlt => by
      unfold Static
      omega
  obtain ⟨m₃, hrun₃, h₃, hwrite₃⟩ := @bootMapRegion_spec _ _ m₂ (kstacktop - kstksize) _
    (pteP ||| pteW) kstksize h₂ (by decide) (paddr_aligned img.bootstack_aligned) (by decide)
    fun v hge hlt => by
      unfold Static
      omega
  obtain ⟨m₄, hrun₄, h₄, hwrite₄⟩ := @bootMapRegion_spec _ _ m₃ kernbase 0 (pteP ||| pteW)
    (~~~0x0 - kernbase + 1) h₃ (by decide) (by decide) (by decide) fun v hge hlt => by
      unfold Static
      omega
  obtain ⟨m', hrun, h', hwrites⟩ := @memInitMpLoop_spec _ _ m₄ img 0 ncpu h₄ (by decide)
  refine ⟨m', ?_, h', ?_⟩
  · simp only [memInitMaps, paddr_eq h.pages_ge, paddr_eq h.envs_ge, paddr_eq img.bootstack_ge,
      bind, Except.bind, hrun₁, hrun₂, hrun₃, hrun₄]
    exact hrun
  · rw [hwrites, hwrite₄, hwrite₃, hwrite₂, hwrite₁, hn, henvs, hstk, hphys, kernRegions,
      Region.writeAll_append]
    show Region.writeAll (Region.write (Region.write (Region.write (Region.write (staticPte M m)
      (pagesRegion M b)) (envsRegion b)) (bootstackRegion img)) physRegion) _ = _
    have hpages : (pagesRegion M b).Apart (bootstackRegion img) := by
      rw [pagesRegion, bootstackRegion, mapped_apart]
      omega
    have henvs' : (envsRegion b).Apart (bootstackRegion img) := by
      rw [envsRegion, bootstackRegion, mapped_apart]
      omega
    rw [Region.write_comm henvs', Region.write_comm hpages]
    rfl

/-! ### What the directory translates -/

theorem pteAddr_eq (w : Word) : pteAddr w = frame2pa (pteFrame w) := by
  unfold pteFrame
  rw [pgnum_pteAddr]
  have hmask : ∀ j < 32, (~~~0xFFF#32 : Word).getLsbD j = decide (12 ≤ j) := by decide
  apply BitVec.eq_of_getLsbD_eq
  intro j hj
  simp only [pteAddr, frame2pa, pgnum, BitVec.ofNat_toNat, BitVec.setWidth_eq,
    BitVec.getLsbD_and, BitVec.getLsbD_shiftLeft, BitVec.getLsbD_ushiftRight, hmask j hj, hj]
  by_cases h12 : j < 12
  · simp [h12, Nat.not_le.mpr h12]
  · have hadd : 12 + (j - 12) = j := by omega
    simp [h12, Nat.not_lt.mp h12, hadd]

theorem frame2pa_pgnum (h : pa % pgsize = 0) : frame2pa (pgnum pa) = pa := by
  have hpg : pgsize.toNat = 4096 := rfl
  have hz : (0 : Word).toNat = 0 := rfl
  have hzero := congrArg BitVec.toNat h
  have hlt := pa.isLt
  rw [BitVec.toNat_umod, hpg, hz] at hzero
  apply BitVec.eq_of_toNat_eq
  rw [frame2pa, BitVec.toNat_shiftLeft, BitVec.toNat_ofNat, Nat.shiftLeft_eq, pgnum_eq]
  omega

theorem pteAddr_mkPte (hpa : pa % pgsize = 0) (hperm : perm.toNat < 4096) :
    pteAddr (mkPte pa perm) = pa := by
  have hlt : pgnum pa < 1048576 := by
    rw [pgnum_eq]
    have := pa.isLt
    omega
  rw [pteAddr_eq, ← frame2pa_pgnum hpa, pteFrame_mkPte hlt hperm]

theorem translate_mapped (hpte : staticPte M m (pgnum va) = mkPte pa perm)
    (hpa : pa % pgsize = 0) (hperm : perm.toNat < 4096) :
    translate m M.kernPgdir va = some (pa + (va &&& 0xFFF#32)) := by
  simp only [staticPte, div_pgnum, mod_pgnum] at hpte
  split at hpte
  · rename_i hflag
    unfold translate
    simp only [hpte]
    rw [if_pos ⟨hflag.2, flag_mkPte_P pa perm⟩, pteAddr_mkPte hpa hperm]
  · exact absurd (flag_mkPte_P pa perm) (hpte ▸ not_flag_zero pteP)

theorem translate_unmapped (hva : Static (pgnum va)) (hpte : staticPte M m (pgnum va) = 0#32) :
    translate m M.kernPgdir va = none := by
  simp only [staticPte, div_pgnum, mod_pgnum] at hpte
  refine if_neg fun hflag => ?_
  rw [if_pos ⟨hva, hflag.1⟩] at hpte
  exact not_flag_zero pteP (hpte ▸ hflag.2)

theorem aligned_toNat (h : va % pgsize = 0) : va.toNat % 4096 = 0 := by
  have hpg : pgsize.toNat = 4096 := rfl
  have hz : (0 : Word).toNat = 0 := rfl
  have hzero := congrArg BitVec.toNat h
  rwa [BitVec.toNat_umod, hpg, hz] at hzero

/-- An offset is a number of pages and an offset in a page. -/
theorem offset_split (off : Word) (hva : va % pgsize = 0) :
    BitVec.ofNat 32 (4096 * (off.toNat / 4096)) + ((va + off) &&& 0xFFF#32) = off := by
  have hlow : ((va + off) &&& 0xFFF#32).toNat = off.toNat % 4096 := by
    have hmask := pgoff_eq (va + off)
    unfold pgoff at hmask
    have hzero := aligned_toNat hva
    rw [hmask, BitVec.toNat_add]
    omega
  have hlt := off.isLt
  apply BitVec.eq_of_toNat_eq
  rw [BitVec.toNat_add, BitVec.toNat_ofNat, hlow]
  omega

theorem aligned_add (hpa : pa % pgsize = 0) (k : ℕ) :
    (pa + BitVec.ofNat 32 (4096 * k)) % pgsize = 0 := by
  have hpg : pgsize.toNat = 4096 := rfl
  have hz : (0 : Word).toNat = 0 := rfl
  have hzero := aligned_toNat hpa
  apply BitVec.eq_of_toNat_eq
  rw [BitVec.toNat_umod, hpg, hz, BitVec.toNat_add, BitVec.toNat_ofNat]
  omega

theorem pgnum_add_offset {off : Word} (hva : va % pgsize = 0)
    (hwrap : va.toNat + off.toNat < 4294967296) :
    pgnum (va + off) = pgnum va + off.toNat / 4096 := by
  have hzero := aligned_toNat hva
  rw [pgnum_eq, pgnum_eq, BitVec.toNat_add]
  omega

/-- The addresses of one of the regions. -/
theorem translate_region {f : ℕ → Word} {rs : List (Region Word)} {off : Word}
    (hpte : staticPte M m = Region.writeAll f rs) (hapart : rs.Pairwise Region.Apart)
    (hmem : mapped va pa perm k ∈ rs)
    (hva : va % pgsize = 0) (hpa : pa % pgsize = 0) (hperm : perm.toNat < 4096)
    (hoff : off.toNat < 4096 * k) (hwrap : va.toNat + 4096 * k ≤ 4294967296) :
    translate m M.kernPgdir (va + off) = some (pa + off) := by
  have hpage : pgnum (va + off) = pgnum va + off.toNat / 4096 :=
    pgnum_add_offset hva (by omega)
  have hin : (mapped va pa perm k).Contains (pgnum (va + off)) := by
    unfold mapped
    rw [Region.contains_mk]
    omega
  have hentry : staticPte M m (pgnum (va + off)) =
      mkPte (pa + BitVec.ofNat 32 (4096 * (off.toNat / 4096))) perm := by
    rw [hpte, Region.writeAll_of_mem hapart hmem hin]
    simp only [mapped]
    rw [hpage, Nat.add_sub_cancel_left]
  rw [translate_mapped hentry (aligned_add hpa _) hperm, BitVec.add_assoc, offset_split off hva]

/-! ### The address space that `mem_init` sets up -/

/-- `kern_pgdir` maps the regions as memlayout.h lays them out, the gaps between
the stacks are not mapped, and no region overlaps another. -/
structure KernelMapped (M : Machine) (img : Image) (b : Boot) (m : Mem n) : Prop where
  pages : ∀ off < roundup (BitVec.ofNat 32 M.npages * sizeofPageInfo),
    translate m M.kernPgdir (upages + off) = some (b.pages - kernbase + off)
  envs : ∀ off < sizeofEnvs,
    translate m M.kernPgdir (uenvs + off) = some (b.envs - kernbase + off)
  kstacks : ∀ i < ncpu, ∀ off < kstksize,
    translate m M.kernPgdir (kstackVa i + off) = some (kstackKva img i - kernbase + off)
  gaps : ∀ i < ncpu, ∀ off < kstkgap,
    translate m M.kernPgdir (kstackVa i - kstkgap + off) = none
  phys : ∀ off < 0x10000000#32, translate m M.kernPgdir (kernbase + off) = some off
  apart : (kernRegions M img b).Pairwise Region.Apart

/-- The gap below a stack belongs to no region. -/
theorem gap_page {off : Word} (hi : i < ncpu) (hoff : off < kstkgap) :
    pgnum (kstackVa i - kstkgap + off) = 0xEFFF0 - 16 * i + off.toNat / 4096 := by
  have hlow : ∀ j < ncpu, (kstackVa j - kstkgap).toNat = 4096 * (0xEFFF0 - 16 * j) ∧
      (kstackVa j - kstkgap) % pgsize = 0 := by decide
  obtain ⟨hval, halign⟩ := hlow i hi
  have hlt : off.toNat < 32768 := hoff
  rw [pgnum_add_offset halign (by omega), pgnum_eq, hval]
  omega

theorem gap_not_contains (hi : i < ncpu) (hge : 0xEFFF0 - 16 * i ≤ v) (hlt : v < 0xEFFF8 - 16 * i)
    {r : Region Word} (hr : r ∈ bootstackRegion img :: kernRegions M img b) : ¬ r.Contains v := by
  have hle := M.npages_le
  obtain ⟨hupages, huenvs, hkstack, hkernbase⟩ := pgnum_regions
  unfold ncpu at hi
  simp only [kernRegions, List.mem_cons, List.mem_append, List.not_mem_nil, or_false] at hr
  rcases hr with rfl | (rfl | rfl | rfl) | hr
  · unfold bootstackRegion mapped
    rw [Region.contains_mk]
    omega
  · unfold pagesRegion mapped
    rw [Region.contains_mk]
    omega
  · unfold envsRegion mapped
    rw [Region.contains_mk]
    omega
  · unfold physRegion mapped
    rw [Region.contains_mk]
    omega
  · obtain ⟨j, ⟨-, hj⟩, rfl⟩ := mem_kstackRegions.mp hr
    have hva := (kstackVa_facts j (by omega)).1
    unfold ncpu at hj
    unfold kstackRegion mapped
    rw [Region.contains_mk]
    omega

theorem memInitMaps_mapped (h : MapsReady M b m) (hsize : M.npages % 512 = 0) :
    ∃ m', memInitMaps M img b m = .ok m' ∧ KernelMapped M img b m' := by
  have hle := M.npages_le
  have hapart := @kernRegions_apart M img b
  obtain ⟨m', hrun, htables, hpte⟩ := @memInitMaps_spec _ _ _ img _ h hsize
  refine ⟨m', hrun, ⟨fun off hoff => ?_, fun off hoff => ?_, fun i hi off hoff => ?_,
    fun i hi off hoff => ?_, fun off hoff => ?_, hapart⟩⟩
  · have hmem : pagesRegion M b ∈ kernRegions M img b := by simp [kernRegions]
    have hval : upages.toNat = 4009754624 := rfl
    have hbytes := pagesSize_toNat hle
    rw [BitVec.lt_def, roundup_toNat, hbytes] at hoff
    exact translate_region hpte hapart hmem (by decide) (paddr_aligned h.pages_aligned)
      (by decide) (by omega) (by omega)
  · have hmem : envsRegion b ∈ kernRegions M img b := by simp [kernRegions]
    exact translate_region hpte hapart hmem (by decide) (paddr_aligned h.envs_aligned)
      (by decide) hoff (by decide)
  · have hmem : kstackRegion img i ∈ kernRegions M img b := by
      simp only [kernRegions, List.mem_append]
      exact Or.inr (mem_kstackRegions.mpr ⟨i, ⟨Nat.zero_le i, by omega⟩, rfl⟩)
    obtain ⟨hpg, hva, -⟩ := kstackVa_facts i hi
    have halign := (@kstackKva_facts img i hi).2
    have hzero := aligned_toNat hva
    have hlt := (kstackVa i).isLt
    rw [pgnum_eq] at hpg
    unfold ncpu at hi
    exact translate_region hpte hapart hmem hva (paddr_aligned halign) (by decide) hoff (by omega)
  · have hpage := gap_page hi hoff
    have hlt : off.toNat < 32768 := hoff
    have hout {r : Region Word} (hr : r ∈ bootstackRegion img :: kernRegions M img b) :
        ¬ r.Contains (pgnum (kstackVa i - kstkgap + off)) :=
      gap_not_contains hi (by omega) (by unfold ncpu at hi; omega) hr
    refine translate_unmapped ?_ ?_
    · unfold ncpu at hi
      rw [hpage, Static]
      omega
    · rw [hpte, Region.writeAll_of_not_contains fun r hr => hout (by simp [hr]),
        Region.write_of_not_contains (hout (by simp)), h.empty]
  · have hmem : physRegion ∈ kernRegions M img b := by simp [kernRegions]
    have htranslate := translate_region hpte hapart hmem (by decide) (by decide) (by decide)
      (show off.toNat < 4096 * 65536 from hoff) (by decide)
    rwa [zero_add] at htranslate

/-! ### Up to the first mapping -/

variable {npages : ℕ} {size nextfree r next : Word} {lim : ℕ}

theorem paddr_eq_ok {kva : Word} : paddr kva = .ok pa ↔ kernbase ≤ kva ∧ pa = kva - kernbase := by
  unfold paddr
  split
  · rename_i hlt
    exact ⟨nofun, fun h => absurd h.1 (BitVec.not_le.mpr hlt)⟩
  · rename_i hge
    rw [Except.ok.injEq, eq_comm]
    exact ⟨fun h => ⟨BitVec.not_lt.mp hge, h⟩, And.right⟩

theorem kernbase_sub {kva : Word} (h : kernbase ≤ kva) :
    (kva - kernbase).toNat = kva.toNat - 4026531840 := by
  have hbase : kernbase.toNat = 4026531840 := rfl
  have hge : kernbase.toNat ≤ kva.toNat := h
  rw [BitVec.toNat_sub, hbase]
  omega

/-- What `boot_alloc` returns starts where the last allocation ended, and the
memory is large enough for it. -/
theorem bootAlloc_spec (hrun : bootAlloc npages size nextfree = .ok (r, next))
    (hne : size ≠ 0) (hle : npages ≤ 65536) : r = nextfree ∧ next = nextfree + roundup size ∧
      kernbase ≤ next ∧ next.toNat ≤ 4026531840 + 4096 * npages := by
  unfold bootAlloc at hrun
  rw [if_neg hne] at hrun
  obtain ⟨pa, hpa, hrun⟩ := bind_eq_ok.mp hrun
  obtain ⟨hge, rfl⟩ := paddr_eq_ok.mp hpa
  split at hrun
  · cases hrun
  · rename_i hfits
    cases hrun
    have hmul : (BitVec.ofNat 32 npages * pgsize).toNat = npages * 4096 := by
      have hpg : pgsize.toNat = 4096 := rfl
      rw [BitVec.toNat_mul, hpg, BitVec.toNat_ofNat]
      omega
    rw [BitVec.not_lt, BitVec.le_def, hmul, kernbase_sub hge] at hfits
    exact ⟨rfl, rfl, hge, by omega⟩

theorem advance {a up : Word} (hnext : next = a + up) (hup : up.toNat ≤ 1048576)
    (hge : kernbase ≤ next) : next.toNat = a.toNat + up.toNat := by
  have hbase : kernbase.toNat = 4026531840 := rfl
  have hge' : kernbase.toNat ≤ next.toNat := hge
  have ha := a.isLt
  rw [hnext, BitVec.toNat_add] at hge' ⊢
  omega

/-- The arrays follow each other from the end of the image on. -/
theorem bootArrays_spec (hrun : bootArrays img npages = .ok b) (hle : npages ≤ 65536) :
    (b.kernPgdir.toNat % 4096 = 0 ∧ b.pages.toNat % 4096 = 0 ∧ b.envs.toNat % 4096 = 0) ∧
      (4026531840 + 256 * 4096 ≤ b.kernPgdir.toNat ∧
        b.kernPgdir.toNat + 4096 ≤ b.pages.toNat ∧ b.pages.toNat ≤ b.envs.toNat ∧
        b.envs.toNat ≤ b.nextfree.toNat) ∧
      b.nextfree.toNat ≤ 4026531840 + 4096 * npages := by
  simp only [bootArrays, bind_eq_ok, Prod.exists, Except.ok.injEq] at hrun
  obtain ⟨kernPgdir, next₁, hrun₁, pages, next₂, hrun₂, envs, next₃, hrun₃, rfl⟩ := hrun
  obtain ⟨rfl, hnext₁, hge₁, hle₁⟩ := bootAlloc_spec hrun₁ (by decide) hle
  have hend : 4027580416 ≤ img.endAddr.toNat := img.end_ge
  have hbase : kernbase.toNat = 4026531840 := rfl
  have hge₁' : kernbase.toNat ≤ next₁.toNat := hge₁
  have hpage : (roundup pgsize).toNat = 4096 := by decide
  have hadd₁ := advance hnext₁ (by omega) hge₁
  -- the end of the image does not wrap around, or nothing would be left
  have hround := roundup_toNat img.endAddr
  have hsize := pagesSize_toNat hle
  obtain ⟨rfl, hnext₂, hge₂, hle₂⟩ := bootAlloc_spec hrun₂ (fun h => by
    rw [h] at hsize
    have hz : (0 : Word).toNat = 0 := rfl
    omega) hle
  have hpages : (roundup (BitVec.ofNat 32 npages * sizeofPageInfo)).toNat =
      (8 * npages + 4095) / 4096 * 4096 := by
    rw [roundup_toNat, hsize]
    omega
  have hadd₂ := advance hnext₂ (by omega) hge₂
  obtain ⟨rfl, hnext₃, hge₃, hle₃⟩ := bootAlloc_spec hrun₃ (by decide) hle
  have henvs : (roundup sizeofEnvs).toNat = 126976 := by decide
  have hadd₃ := advance hnext₃ (by omega) hge₃
  dsimp only
  omega

/-- The pages that `page_init` does not put on the free list. -/
def Reserved (lim i : ℕ) : Prop := pgnum iophysmem ≤ i ∧ i < lim ∨ i = pgnum mpentryPaddr

instance (lim i : ℕ) : Decidable (Reserved lim i) := inferInstanceAs (Decidable (_ ∨ _))

theorem pageInit_list {start len : ℕ} {l : List ℕ}
    (h : Linked (fun p => (m.pages p).ppLink) m.pageFreeList l) (hl : ∀ p ∈ l, p < start) :
    let m' := (List.range' start len).foldl (pageInitStep lim) m
    Linked (fun p => (m'.pages p).ppLink) m'.pageFreeList
      (((List.range' start len).filter fun i => ¬ Reserved lim i).reverse ++ l) ∧
      m'.word = m.word := by
  induction len generalizing start m l with
  | zero => exact ⟨h, rfl⟩
  | succ len ih =>
      rw [List.range'_succ, List.foldl_cons]
      by_cases hres : Reserved lim start
      · have hnext := @ih (m.setRef start 1) (start + 1) l ?_ fun p hp => ?_
        · have hstep : pageInitStep lim m start = m.setRef start 1 := if_pos hres
          rw [hstep, List.filter_cons_of_neg (by simpa using hres)]
          exact hnext
        · refine (linked_congr fun p hp => ?_).mpr h
          simp [Mem.setRef, (hl p hp).ne]
        · have := hl p hp
          omega
      · have hnext := @ih (((m.setRef start 0).setLink start m.pageFreeList).setFreeList
          (some start)) (start + 1) (start :: l) ?_ fun p hp => ?_
        · have hstep : pageInitStep lim m start = ((m.setRef start 0).setLink start
              m.pageFreeList).setFreeList (some start) := if_neg hres
          rw [hstep, List.filter_cons_of_pos (by simpa using hres), List.reverse_cons,
            List.append_assoc]
          exact hnext
        · have hpush := h.push fun hmem => (hl start hmem).ne rfl
          refine (linked_congr fun p hp => ?_).mpr hpush
          by_cases hps : p = start <;>
            simp [Mem.setFreeList, Mem.setLink, Mem.setRef, hps]
        · rcases List.mem_cons.mp hp with rfl | hp
          · exact Nat.lt_succ_self p
          · have := hl p hp
            omega

/-- What the self-tests of `mem_init` may do to the memory: they restore
`kern_pgdir` and free what they allocate, in another order. -/
structure Tested (M : Machine) (m m' : Mem n) : Prop where
  pgdir : m'.word M.kernPgdir = m.word M.kernPgdir
  list : ∀ l, Linked (fun p => (m.pages p).ppLink) m.pageFreeList l →
    ∃ l', l'.Perm l ∧ Linked (fun p => (m'.pages p).ppLink) m'.pageFreeList l'

/-- There is low memory for all page tables. -/
theorem enough_free (h : 256 ≤ npages) :
    69 ≤ ((List.range' 1 (npages - 1)).filter fun i => ¬ Reserved lim i).length := by
  have hsplit : List.range' 1 (npages - 1) =
      List.range' 1 7 ++ (List.range' 8 100 ++ List.range' 108 (npages - 108)) := by
    rw [List.range'_append_1, List.range'_append_1]
    congr 1
    omega
  have hlow : (List.range' 8 100).filter (fun i => ¬ Reserved lim i) = List.range' 8 100 := by
    refine List.filter_eq_self.mpr fun i hi => ?_
    have hio : pgnum iophysmem = 160 := rfl
    have hmp : pgnum mpentryPaddr = 7 := rfl
    rw [List.mem_range'_1] at hi
    simp only [decide_eq_true_eq, Reserved, hio, hmp]
    omega
  rw [hsplit, List.filter_append, List.filter_append, hlow]
  simp only [List.length_append, List.length_range']
  omega

theorem absent_card_le (M : Machine) (m : Mem n) : (absent M m).card ≤ 69 := by
  have hsub : absent M m ⊆ Finset.Ici (955 : PtIdx) := by
    intro i hi
    simp only [absent, Finset.mem_filter, Finset.mem_univ, true_and] at hi
    exact Finset.mem_Ici.mpr (Fin.le_def.mpr hi.1.1)
  exact (Finset.card_le_card hsub).trans (by rw [Fin.card_Ici]; decide)

theorem mapsReady {m₀ m₁ : Mem n} (hb : bootArrays img M.npages = .ok b) (hM : b.Describes M)
    (hpages : memInitPages M b m₀ = .ok m₁) (htest : Tested M m₁ m) : MapsReady M b m := by
  obtain ⟨⟨halign, hpagesAlign, henvsAlign⟩, ⟨hge, hpg, henvs, hnext⟩, hend⟩ :=
    bootArrays_spec hb M.npages_le
  have hbase : kernbase.toNat = 4026531840 := rfl
  have hle := M.npages_le
  simp only [memInitPages, bind_eq_ok, paddr_eq_ok, Prod.exists] at hpages
  obtain ⟨pa, ⟨hgePgdir, rfl⟩, next, next', halloc, lim, ⟨hgeNext, rfl⟩, hrun⟩ := hpages
  cases halloc
  obtain rfl := Except.ok.inj hrun
  have hframe : M.kernPgdir = b.kernPgdir.toNat / 4096 - 983040 := by
    rw [hM.kernPgdir, pgnum_eq, kernbase_sub hgePgdir]
    omega
  have hlim : pgnum (b.nextfree - kernbase) = b.nextfree.toNat / 4096 - 983040 := by
    rw [pgnum_eq, kernbase_sub hgeNext]
    omega
  have haligned (kva : Word) (h : kva.toNat % 4096 = 0) : kva % pgsize = 0 := by
    apply BitVec.eq_of_toNat_eq
    rw [BitVec.toNat_umod]
    exact h
  -- the directory has one entry, that for itself
  obtain ⟨hlist, hword⟩ := @pageInit_list _ (((m₀.fill M.kernPgdir fun _ => 0#32).store M.kernPgdir
    (pdx uvpt) (b.kernPgdir - kernbase ||| pteU ||| pteP)).cleared)
    (pgnum (b.nextfree - kernbase)) 1 (M.npages - 1) [] rfl (by simp)
  have hdir (i) : m.word M.kernPgdir i =
      if i = pdx uvpt then b.kernPgdir - kernbase ||| pteU ||| pteP else 0#32 := by
    rw [htest.pgdir, pageInit, hword]
    simp only [Mem.cleared, Mem.store, Mem.fill, Function.update_self, Function.update_apply]
  have hnone (i) (hi : i ≠ pdx uvpt) : ¬ Flag (m.word M.kernPgdir i) pteP := by
    rw [hdir, if_neg hi]
    exact not_flag_zero _
  have hself : pteFrame (b.kernPgdir - kernbase ||| pteU ||| pteP) = M.kernPgdir := by
    have hpa := frame2pa_pgnum (paddr_aligned (haligned _ halign))
    rw [← hpa, ← hM.kernPgdir, BitVec.or_assoc, pteFrame_or (by omega) (by decide)]
  obtain ⟨l, hperm, hl⟩ := htest.list _ hlist
  rw [List.append_nil] at hperm
  have hmem (p) (hp : p ∈ l) : (1 ≤ p ∧ p < 1 + (M.npages - 1)) ∧
      ¬ Reserved (pgnum (b.nextfree - kernbase)) p := by
    simpa [List.mem_range'_1] using hperm.mem_iff.mp hp
  refine ⟨⟨⟨l, hl, ?_, fun p hp => ?_, ?_⟩, fun i => ?_, ?_, ?_⟩, fun v => ?_, ?_,
    haligned _ hpagesAlign, ?_, haligned _ henvsAlign⟩
  · exact hperm.nodup_iff.mpr (List.nodup_reverse.mpr (List.Nodup.filter _ (List.nodup_range' ..)))
  · obtain ⟨hp, hfree⟩ := hmem p hp
    refine ⟨by omega, fun heq => hfree (Or.inl ?_), fun i ht => hnone i ht.1 ht.2.1⟩
    have hio : pgnum iophysmem = 160 := rfl
    omega
  · rw [hperm.length_eq, List.length_reverse]
    exact (absent_card_le M m).trans (enough_free (by omega))
  · rw [hdir]
    split
    · rw [hself]
      omega
    · have hzero : pteFrame 0#32 = 0 := by decide
      omega
  · intro i t ht
    exact absurd ht.2.1 (hnone i ht.1)
  · intro i j t ht
    exact absurd ht.2.1 (hnone i ht.1)
  · exact if_neg fun h => hnone _ h.1.ne_uvpt h.2
  · rw [BitVec.le_def]
    omega
  · rw [BitVec.le_def]
    omega

/-- The array of pages is mapped with its size in bytes, which
`boot_map_region` asserts to be a multiple of `PGSIZE`. -/
theorem aligned_of_memInitMaps (hrun : memInitMaps M img b m = .ok m') : M.npages % 512 = 0 := by
  by_contra hsize
  have hmisaligned := mt pagesSize_aligned.mp hsize
  simp only [memInitMaps, bind_eq_ok] at hrun
  obtain ⟨pa, -, m₂, hregion, -⟩ := hrun
  simp only [bootMapRegion, if_pos hmisaligned] at hregion
  split at hregion
  · cases hregion
  · split at hregion <;> cases hregion

theorem memInitPages_ok (hb : bootArrays img M.npages = .ok b) (m : Mem n) :
    ∃ m₁, memInitPages M b m = .ok m₁ := by
  obtain ⟨-, ⟨hge, hpg, henvs, hnext⟩, -⟩ := bootArrays_spec hb M.npages_le
  have hbase : kernbase.toNat = 4026531840 := rfl
  have hPgdir : kernbase ≤ b.kernPgdir := by
    rw [BitVec.le_def]
    omega
  have hNext : kernbase ≤ b.nextfree := by
    rw [BitVec.le_def]
    omega
  simp only [memInitPages, bind_eq_ok, paddr_eq_ok, Prod.exists]
  exact ⟨_, _, ⟨hPgdir, rfl⟩, _, _, rfl, _, ⟨hNext, rfl⟩, rfl⟩

theorem Tested.refl (M : Machine) (m : Mem n) : Tested M m m :=
  ⟨rfl, fun l hl => ⟨l, .refl l, hl⟩⟩

def sampleImage : Image where
  endAddr := 0xF0158000#32
  bootstack := 0xF0110000#32
  percpuKstacks := 0xF0118000#32
  end_ge := by decide
  bootstack_ge := by decide
  bootstack_aligned := by decide
  kstacks_ge := by decide
  kstacks_le := by decide
  kstacks_aligned := by decide

/-- Up to 128 MB the arrays of this image are in these places. -/
def bootMachine (npages : ℕ) (h : npages ≤ 65536) : Machine where
  npages := npages
  pagesFrame := 345
  kernPgdir := 344
  npages_le := h
  pagesFrame_pos := by decide
  pagesFrame_lt := by decide

def sampleBoot : Boot := ⟨0xF0158000#32, 0xF0159000#32, 0xF0199000#32, 0xF01B8000#32⟩

theorem sampleBoot_describes (npages : ℕ) (h : npages ≤ 65536) :
    sampleBoot.Describes (bootMachine npages h) where
  kernPgdir := (by decide : 344 = pgnum (sampleBoot.kernPgdir - kernbase))
  pagesFrame := (by decide : 345 = pgnum (sampleBoot.pages - kernbase))

end Jos
