import Jos.Lib.Run
import Jos.Pmap.BootMap

/-!
`mmio_map_region` hands out the 4 MB from `MMIOBASE` on, one region after the
other. Its test of the limit comes after two additions of 32 bits, the one that
rounds the size up and the one to the base, so a size near 4 GB gets through.
-/

namespace Jos

open Jos.Lib

variable {n : ℕ} {M : Machine} {m m' : Mem n} {pa size va base : Word}

/-! ### The function -/

def mmiolim : Word := kstacktop - ptsize
def mmiobase : Word := mmiolim - ptsize

def mmioPerm : Word := pteP ||| ptePWT ||| ptePCD ||| pteW

/-- `mmio_map_region`: what it returns, and its static `base` after it. -/
def mmioMapRegion (M : Machine) (pa size base : Word) (m : Mem n) :
    Except String (Word × Word × Mem n) :=
  let multSize := roundup size
  if base + multSize > mmiolim then .error "Overflowing MMIOLIM"
  else do
    let m ← bootMapRegion M M.kernPgdir base multSize pa mmioPerm m
    let mappedBase := base
    .ok (mappedBase, base + multSize, m)

/-! ### Runs of calls -/

/-- A region that has been handed out. -/
structure MmioRegion where
  va : Word
  pa : Word
  size : Word

structure MmioState (n : ℕ) where
  base : Word
  mem : Mem n
  regions : List MmioRegion

/-- How many pages a size takes, computed without wraparound. -/
def mmioPages (size : Word) : ℕ := (size.toNat + 4095) / 4096

/-- A call that returns. -/
def MmioStep (M : Machine) (s : MmioState n) (call : Word × Word) (t : MmioState n) : Prop :=
  call.1 % pgsize = 0 ∧ ∃ va base m,
    mmioMapRegion M call.1 call.2 s.base s.mem = .ok (va, base, m) ∧
      t = ⟨base, m, ⟨va, call.1, call.2⟩ :: s.regions⟩

/-- The end of the region is an address. -/
def MmioFits (s : MmioState n) (call : Word × Word) : Prop :=
  s.base.toNat + 4096 * mmioPages call.2 < 4294967296

instance (s : MmioState n) (call : Word × Word) : Decidable (MmioFits s call) :=
  inferInstanceAs (Decidable (_ < _))

/-- The part of the directory that `mmio_map_region` may use. -/
def mmioIdx : PtIdx := pdx mmiobase

/-- The entry that maps a page in `kern_pgdir`, the window at `UVPT` apart, which
shows the page tables themselves. -/
def kernPte (M : Machine) (m : Mem n) (v : ℕ) : Word := pteOf M.kernPgdir {pdx uvpt} m v

/-- Before the first call: nothing is handed out, and there is a page table for
the region or a page for one. -/
structure MmioStart (M : Machine) (s : MmioState n) : Prop where
  base_eq : s.base = mmiobase
  regions_eq : s.regions = []
  tables : Tables M M.kernPgdir {pdx uvpt} {mmioIdx} s.mem

/-- The region is in bounds, apart from those before it, mapped, and nothing else
is mapped in another way. -/
structure MmioReserved (M : Machine) (s : MmioState n) (pa size va : Word) (m : Mem n) : Prop where
  aligned : va % pgsize = 0
  base_le : mmiobase.toNat ≤ va.toNat
  le_lim : va.toNat + 4096 * mmioPages size ≤ mmiolim.toNat
  apart : ∀ r ∈ s.regions, r.va.toNat + 4096 * mmioPages r.size ≤ va.toNat ∨
    va.toNat + 4096 * mmioPages size ≤ r.va.toNat
  mapped : ∀ i < mmioPages size,
    pteAddr (kernPte M m (pgnum va + i)) = pa + BitVec.ofNat 32 (4096 * i) ∧
      kernPte M m (pgnum va + i) &&& 0xFFF#32 = pteP ||| pteW ||| ptePCD ||| ptePWT
  others : ∀ v, v < pgnum va ∨ pgnum va + mmioPages size ≤ v →
    kernPte M m v = kernPte M s.mem v

/-! ### One call -/

/-- The regions lie one after the other, up to the base. -/
structure MmioInv (M : Machine) (s : MmioState n) : Prop where
  tables : Tables M M.kernPgdir {pdx uvpt} {mmioIdx} s.mem
  aligned : s.base % pgsize = 0
  base_ge : mmiobase.toNat ≤ s.base.toNat
  base_le : s.base.toNat ≤ mmiolim.toNat
  below : ∀ r ∈ s.regions, mmiobase.toNat ≤ r.va.toNat ∧
    r.va.toNat + 4096 * mmioPages r.size ≤ s.base.toNat

theorem mmio_bounds : mmiobase.toNat = 4018143232 ∧ mmiolim.toNat = 4022337536 ∧
    (pdx uvpt : ℕ) = 957 ∧ (mmioIdx : ℕ) = 958 := by
  refine ⟨by decide, by decide, pdx_uvpt, ?_⟩
  rw [mmioIdx, pdx_val]
  decide

theorem MmioStart.inv {s : MmioState n} (h : MmioStart M s) : MmioInv M s where
  tables := h.tables
  aligned := by
    rw [h.base_eq]
    decide
  base_ge := by rw [h.base_eq]
  base_le := by
    rw [h.base_eq]
    decide
  below r hr := by
    rw [h.regions_eq] at hr
    exact absurd hr List.not_mem_nil

/-- Where nothing wraps the size is rounded as it should be. -/
theorem roundup_mmio {base : ℕ} (h : base + 4096 * mmioPages size < 4294967296) :
    (roundup size).toNat = 4096 * mmioPages size := by
  have hlt := size.isLt
  rw [roundup_toNat]
  unfold mmioPages at h ⊢
  omega

theorem mkPte_flags {perm : Word} (hpa : pa % pgsize = 0) (hperm : perm &&& 0xFFF#32 = perm) :
    mkPte pa perm &&& 0xFFF#32 = perm ||| pteP := by
  have hlow : pa &&& 0xFFF#32 = 0#32 := by
    apply BitVec.eq_of_toNat_eq
    have hzero := aligned_toNat hpa
    have hoff := pgoff_eq pa
    unfold pgoff at hoff
    rw [hoff, hzero]
    rfl
  have hP : pteP &&& 0xFFF#32 = pteP := by decide
  rw [mkPte, BitVec.and_or_distrib_right, BitVec.and_or_distrib_right, hlow, hperm, hP,
    BitVec.zero_or]

/-- A call whose region ends at an address: it panics, or it reserves the
region. -/
theorem mmioMapRegion_spec {s : MmioState n} (h : MmioInv M s) (hpa : pa % pgsize = 0)
    (hfits : MmioFits s (pa, size)) :
    mmioMapRegion M pa size s.base s.mem = .error "Overflowing MMIOLIM" ∨
      ∃ base m, mmioMapRegion M pa size s.base s.mem = .ok (s.base, base, m) ∧
        MmioReserved M s pa size s.base m ∧
        MmioInv M ⟨base, m, ⟨s.base, pa, size⟩ :: s.regions⟩ := by
  obtain ⟨hlow, hhigh, huvpt, hidx⟩ := mmio_bounds
  have hfits' : s.base.toNat + 4096 * mmioPages size < 4294967296 := hfits
  have hround := roundup_mmio hfits'
  have hge := h.base_ge
  have haligned := aligned_toNat h.aligned
  have hsum : (s.base + roundup size).toNat = s.base.toNat + 4096 * mmioPages size := by
    rw [BitVec.toNat_add, hround]
    omega
  by_cases hover : s.base + roundup size > mmiolim
  · left
    rw [mmioMapRegion]
    exact if_pos hover
  · have hle : s.base.toNat + 4096 * mmioPages size ≤ mmiolim.toNat := by
      rw [← hsum]
      exact BitVec.le_def.mp (BitVec.not_lt.mp hover)
    have hpages : pgnum (roundup size) = mmioPages size := by
      rw [pgnum_eq, hround]
      omega
    have hmult : roundup size % pgsize = 0 := by
      apply BitVec.eq_of_toNat_eq
      rw [BitVec.toNat_umod, hround]
      exact Nat.mul_mod_right _ _
    -- the pages are those of one page table
    have hrange (v : ℕ) (hv : pgnum s.base ≤ v) (hv' : v < pgnum s.base + mmioPages size) :
        v < 1048576 ∧ Fin.ofNat 1024 (v / 1024) ∉ ({pdx uvpt} : Finset PtIdx) ∧
          Fin.ofNat 1024 (v / 1024) ∈ ({mmioIdx} : Finset PtIdx) := by
      rw [pgnum_eq] at hv hv'
      simp only [Finset.mem_singleton, Fin.ext_iff, Fin.val_ofNat, huvpt, hidx]
      omega
    obtain ⟨m', hm', htables, -, hpte⟩ :=
      @bootMapLoop_writes _ M s.mem M.kernPgdir s.base pa mmioPerm _ _ _ h.tables hrange
    have hrun : mmioMapRegion M pa size s.base s.mem = .ok (s.base, s.base + roundup size, m') := by
      rw [mmioMapRegion]
      simp only [if_neg hover, bootMapRegion_eq h.aligned hpa hmult, hpages, hm']
      rfl
    have hkern (v : ℕ) : kernPte M m' v =
        (mapped s.base pa mmioPerm (mmioPages size)).write (kernPte M s.mem) v := congrFun hpte v
    refine Or.inr ⟨_, _, hrun, ?_, ?_⟩
    · exact
        { aligned := h.aligned
          base_le := hge
          le_lim := hle
          apart := fun r hr => Or.inl (h.below r hr).2
          mapped := fun i hi => by
            have hin :
                (mapped s.base pa mmioPerm (mmioPages size)).Contains (pgnum s.base + i) := by
              rw [mapped, Region.contains_mk]
              omega
            have hentry : kernPte M m' (pgnum s.base + i) =
                mkPte (pa + BitVec.ofNat 32 (4096 * i)) mmioPerm := by
              rw [hkern, Region.write_of_contains hin]
              simp only [mapped, Nat.add_sub_cancel_left]
            have hpage := aligned_add hpa i
            rw [hentry, pteAddr_mkPte hpage (by decide), mkPte_flags hpage (by decide)]
            exact ⟨rfl, by decide⟩
          others := fun v hv => by
            rw [hkern, Region.write_of_not_contains]
            rw [mapped, Region.contains_mk]
            omega }
    · have hbase : (s.base + roundup size).toNat % 4096 = 0 := by
        rw [hsum]
        omega
      exact
        { tables := htables
          aligned := BitVec.eq_of_toNat_eq hbase
          base_ge := by
            rw [hsum]
            omega
          base_le := by rwa [hsum]
          below := fun r hr => by
            rw [hsum]
            rcases List.mem_cons.mp hr with rfl | hold
            · exact ⟨hge, le_rfl⟩
            · obtain ⟨hr₁, hr₂⟩ := h.below r hold
              exact ⟨hr₁, hr₂.trans (Nat.le_add_right _ _)⟩ }

/-! ### All calls -/

theorem MmioInv.step {s t : MmioState n} {call : Word × Word} (h : MmioInv M s)
    (hfits : MmioFits s call) (hstep : MmioStep M s call t) : MmioInv M t := by
  obtain ⟨hpa, va, base, m, hcall, rfl⟩ := hstep
  rcases mmioMapRegion_spec h hpa hfits with hpanic | ⟨base', m', hcall', -, hinv⟩
  · rw [hpanic] at hcall
    cases hcall
  · rw [hcall'] at hcall
    cases hcall
    exact hinv

/-- In a run whose calls are for regions that end at an address, the next such
call panics, or reserves its region. -/
theorem mmio_map_region_reserves {s₀ s : MmioState n} (hstart : MmioStart M s₀)
    (hrun : Run (MmioStep M) MmioFits s₀ s) {call : Word × Word} (hpa : call.1 % pgsize = 0)
    (hfits : MmioFits s call) :
    mmioMapRegion M call.1 call.2 s.base s.mem = .error "Overflowing MMIOLIM" ∨
      ∃ va base m, mmioMapRegion M call.1 call.2 s.base s.mem = .ok (va, base, m) ∧
        MmioReserved M s call.1 call.2 va m := by
  have hinv : MmioInv M s := hrun.invariant (fun h hok hst => h.step hok hst) hstart.inv
  rcases mmioMapRegion_spec hinv hpa hfits with hpanic | ⟨base, m, hcall, hreserved, -⟩
  · exact Or.inl hpanic
  · exact Or.inr ⟨_, base, m, hcall, hreserved⟩

/-- No mapping yet, and one free page. -/
def mmioSample : MmioState 1 :=
  ⟨mmiobase, ⟨fun _ => ⟨none, 0⟩, some 5, fun _ _ => 0, fun _ => 0, fun _ => []⟩, []⟩

theorem mmioSample_start : MmioStart sampleMachine mmioSample := by
  have hnone {i t} : ¬ TableOf sampleMachine.kernPgdir {pdx uvpt} mmioSample.mem i t :=
    fun ht => not_flag_zero pteP ht.2.1
  have hcard : (missing sampleMachine.kernPgdir {mmioIdx} mmioSample.mem).card ≤ 1 :=
    (Finset.card_filter_le _ _).trans (Finset.card_singleton _).le
  exact
    { base_eq := rfl
      regions_eq := rfl
      tables :=
        { list := by
            refine ⟨[5], ⟨rfl, rfl⟩, List.nodup_singleton 5, fun p hp => ?_, hcard⟩
            obtain rfl := List.mem_singleton.mp hp
            exact ⟨by decide, by decide, fun i => hnone⟩
          frame_lt := fun i _ => by
            show pteFrame 0 < 2048
            decide
          table_ne := fun ht => absurd ht hnone
          unique := fun ht => absurd ht hnone } }

/-- The registers of the local APIC. -/
theorem mmio_map_region_reserves_lapic :
    mmioMapRegion sampleMachine 0xFEE00000 0x1000 mmioSample.base mmioSample.mem =
        .error "Overflowing MMIOLIM" ∨
      ∃ va base m, mmioMapRegion sampleMachine 0xFEE00000 0x1000 mmioSample.base mmioSample.mem =
          .ok (va, base, m) ∧ MmioReserved sampleMachine mmioSample 0xFEE00000 0x1000 va m :=
  @mmio_map_region_reserves 1 sampleMachine mmioSample mmioSample mmioSample_start .refl
    (0xFEE00000, 0x1000) (by decide) (by decide)

/-- A size that rounds up to 4 GB gets a region of no pages. -/
theorem not_mmio_map_region_reserves : ¬ ∀ (M : Machine) (s₀ s : MmioState 1) (pa size : Word),
    MmioStart M s₀ → Run (MmioStep M) (fun _ _ => True) s₀ s → pa % pgsize = 0 → size ≠ 0 →
      (∃ e, mmioMapRegion M pa size s.base s.mem = .error e) ∨
        ∃ va base m, mmioMapRegion M pa size s.base s.mem = .ok (va, base, m) ∧
          MmioReserved M s pa size va m := by
  intro hall
  have hround : roundup 0xFFFFFFFF = 0 := by decide
  have hcall : mmioMapRegion sampleMachine 0 0xFFFFFFFF mmioSample.base mmioSample.mem =
      .ok (mmiobase, mmiobase, mmioSample.mem) := by
    rw [mmioMapRegion, hround]
    rfl
  rcases hall sampleMachine mmioSample mmioSample 0 0xFFFFFFFF mmioSample_start .refl (by decide)
    (by decide) with ⟨e, he⟩ | ⟨va, base, m, hok, hreserved⟩
  · rw [hcall] at he
    cases he
  · have hpages : mmioPages 0xFFFFFFFF = 1048576 := by decide
    have hlim := hreserved.le_lim
    have hmax : mmiolim.toNat = 4022337536 := by decide
    rw [hpages] at hlim
    omega

end Jos
