import Jos.Pmap.SetUp

/-!
Loading a binary: `region_alloc` maps fresh pages and the stores of
`load_icode` go through the directory that is loaded. While the kernel boots
no more than this happens, so the VGA buffer is mapped where `env_setup_vm`
put it and nowhere else.
-/

namespace Jos

open Jos.Lib

variable {n : ℕ} {M : Machine} {L : Layout M} {nullOk : Prop} {dirs : Dirs}
  {m m' : Mem n} {x : Ctx n} {c : Fin n} {e : EnvIdx} {d p : ℕ} {va len : Word}

/-- A binary that lies below `UTOP`, as the linker makes them. `load_icode`
does not check it. -/
def Elf.WellFormed (elf : Elf) : Prop :=
  ∀ ph ∈ elf.eProghdr, ph.pType = 1 →
    ph.pFilesz ≤ ph.pMemsz ∧ ph.pVa.toNat + ph.pMemsz.toNat ≤ utop.toNat

/-- Memory while the kernel boots. -/
structure Loading (L : Layout M) (nullOk : Prop) (dirs : Dirs) (m : Mem n) : Prop where
  inv : MemInv L nullOk none dirs m
  bounded : Bounded L 65536 dirs m
  vga : ∀ {e i j w}, mapping m.word dirs e i j = some w → pteFrame w = vgaFrame →
    i = pdx vgaUser ∧ j = ptx vgaUser
  tlb : ∀ c, m.tlb c = []

/-- The VGA buffer is mapped at most once in each environment. -/
theorem Loading.vga_load (h : Loading L nullOk dirs m) :
    pageLoad none m.word dirs vgaFrame ≤ 1025 := by
  have hrefs : pageRefs m.word dirs vgaFrame ≤ Fintype.card EnvIdx := by
    refine refs_le_card (fun e => Slot.page e (pdx vgaUser) (ptx vgaUser)) fun y hy => ?_
    cases y with
    | pgdir e => exact absurd rfl fun heq : vgaFrame = vgaFrame =>
        L.pool_ne_vga (h.inv.tables.dir hy)
    | table e i => exact absurd (h.inv.tables.table hy) L.pool_ne_vga
    | page e i j =>
        obtain ⟨w, hw, hframe⟩ := Option.map_eq_some_iff.mp hy
        obtain ⟨rfl, rfl⟩ := h.vga hw hframe
        exact ⟨e, rfl⟩
  rw [Fintype.card_fin] at hrefs
  simp only [pageLoad, if_true, hit_none]
  omega

/-- A new address space maps the VGA buffer where it should. -/
theorem Loading.setUp (h : Loading L nullOk dirs m) (he : dirs e = none)
    (hrun : envSetupVm M x m = .ok (some d, m')) :
    Loading L nullOk (Function.update dirs e (some d)) m' := by
  have hset := envSetupVm_spec h.inv he hrun
  refine ⟨hset.inv, hset.bounded (by norm_num) h.bounded (h.vga_load.trans_lt (by norm_num)),
    fun {e' i j w} hw hvga => ?_, fun c => ?_⟩
  · rw [hset.maps] at hw
    split at hw
    · split at hw
      · assumption
      · cases hw
    · exact h.vga hw hvga
  · refine List.eq_nil_iff_forall_not_mem.mpr fun a ha => ?_
    have hmem := hset.tlb c a ha
    simp [h.tlb] at hmem

/-! ### Allocating a region -/

/-- The body of the loop of `region_alloc`. -/
theorem region_step {page : ℕ} {m₁ : Mem n} (h : Loading L nullOk dirs m) (hd : dirs e = some d)
    (hi : (pdx va : ℕ) < 955) (halloc : pageAlloc M false m = .ok (some page, m₁))
    (hinsert : pageInsert M x d (some page) va (pteU ||| pteW) m₁ = .ok (0, m')) :
    Loading L nullOk dirs m' ∧ m'.cr3 = m.cr3 := by
  have hal := pageAlloc_spec h.inv halloc
  have hframe : pteFrame (mkPte (frame2pa page) (pteU ||| pteW)) = page :=
    pteFrame_mkPte (L.frame_lt hal.pool) (by decide)
  obtain ⟨hins, hb⟩ := hal.inserted h.bounded hd hi (by decide) hinsert
  refine ⟨⟨hins.inv, hb (by norm_num) h.bounded, fun {e' i j w} hw hvga => ?_, fun c => ?_⟩,
    hins.cr3⟩
  · rw [hins.maps] at hw
    split at hw
    · obtain rfl := Option.some.inj hw
      rw [hframe] at hvga
      exact absurd (hvga ▸ hal.pool) L.pool_ne_vga
    · exact h.vga hw hvga
  · refine List.eq_nil_iff_forall_not_mem.mpr fun a ha => ?_
    have hmem := (hins.tlb c a ha).1
    simp [h.tlb] at hmem

theorem regionLoop_spec {vaFinish : Word} (hfinish : vaFinish ≤ utop) (hd : dirs e = some d) :
    ∀ {k va va'} {m m' : Mem n}, Loading L nullOk dirs m →
      regionLoop M x d vaFinish k va m = .ok (va', m') →
      Loading L nullOk dirs m' ∧ m'.cr3 = m.cr3 := by
  intro k
  induction k with
  | zero =>
      intro va va' m m' h hrun
      cases hrun
      exact ⟨h, rfl⟩
  | succ k ih =>
      intro va va' m m' h hrun
      unfold regionLoop at hrun
      split at hrun
      · rename_i hlt
        have hi : (pdx va : ℕ) < 955 := pdx_lt_of_lt_utop (Nat.lt_of_lt_of_le hlt hfinish)
        simp only [bind_eq_ok] at hrun
        obtain ⟨⟨page, m₁⟩, halloc, hrun⟩ := hrun
        cases page with
        | none => cases hrun
        | some page =>
            simp only [bind_eq_ok] at hrun
            obtain ⟨⟨r, m₂⟩, hinsert, hrun⟩ := hrun
            split at hrun
            · cases hrun
            · rename_i hr
              obtain rfl : r = 0 := not_not.mp hr
              obtain ⟨h₂, hcr3⟩ := region_step h hd hi halloc hinsert
              obtain ⟨h', hcr3'⟩ := ih h₂ hrun
              exact ⟨h', hcr3'.trans hcr3⟩
      · cases hrun
        exact ⟨h, rfl⟩

theorem roundup_add (h : va.toNat + len.toNat ≤ utop.toNat) :
    (roundup (va + len)).toNat = (va.toNat + len.toNat + 4095) / 4096 * 4096 := by
  have hutop : utop.toNat = 4005560320 := by decide
  rw [roundup_toNat, BitVec.toNat_add]
  omega

theorem roundup_le (h : va.toNat + len.toNat ≤ utop.toNat) : roundup (va + len) ≤ utop := by
  have hutop : utop.toNat = 4005560320 := by decide
  rw [BitVec.le_def, roundup_add h, hutop]
  omega

theorem regionAlloc_spec (h : Loading L nullOk dirs m) (hd : dirs e = some d)
    (hle : va.toNat + len.toNat ≤ utop.toNat) (hrun : regionAlloc M x d va len m = .ok m') :
    Loading L nullOk dirs m' ∧ m'.cr3 = m.cr3 := by
  unfold regionAlloc at hrun
  split at hrun
  · cases hrun
    exact ⟨h, rfl⟩
  · simp only [bind_eq_ok] at hrun
    obtain ⟨⟨va', m₁⟩, hloop, hrun⟩ := hrun
    split at hrun
    · cases hrun
    · cases hrun
      exact regionLoop_spec (roundup_le hle) hd h hloop

/-! ### Storing -/

theorem storeByte_spec {b : BitVec 8} (h : Loading L nullOk dirs m)
    (hd : dirs e = some (m.cr3 c)) (hi : (pdx va : ℕ) < 955)
    (hrun : storeByte c va b m = .ok m') : Loading L nullOk dirs m' ∧ m'.cr3 = m.cr3 := by
  unfold storeByte at hrun
  cases hwrite : kernWritable c va m with
  | none => simp [hwrite] at hrun
  | some frame =>
      simp only [hwrite, Except.ok.injEq] at hrun
      subst hrun
      obtain ⟨-, -, -, -, hcounted, hplain⟩ := kernWritable_spec h.inv hd hi hwrite
      have hword (i : PtIdx) (w : Word) (q : ℕ) (hq : q ≠ frame) :
          (m.store frame i w).word q = m.word q := Function.update_of_ne hq _ _
      refine ⟨⟨h.inv.write_plain hplain hcounted rfl (hword _ _), fun q hq => ?_,
        fun {e' i j v} hv hvga => ?_, h.tlb⟩, rfl⟩
      · have hb := h.bounded q hq
        unfold pageLoad at hb ⊢
        rwa [pageRefs_congr (hplain.slotRef (hword _ _))]
      · rw [hplain.mapping (hword _ _)] at hv
        exact h.vga hv hvga

theorem storeBytes_spec {byte : ℕ → BitVec 8} {k : ℕ} (h : Loading L nullOk dirs m)
    (hd : dirs e = some (m.cr3 c)) (hle : va.toNat + k ≤ utop.toNat)
    (hrun : storeBytes c va byte k m = .ok m') :
    Loading L nullOk dirs m' ∧ m'.cr3 = m.cr3 := by
  have hutop : utop.toNat = 4005560320 := by decide
  have hinduct := foldlM_induct
    (I := fun l s => (Loading L nullOk dirs s ∧ s.cr3 = m.cr3) ∧ ∀ j ∈ l, j < k)
    (fun j l s u hs hu => ?_) ⟨⟨h, rfl⟩, fun j hj => List.mem_range.mp hj⟩ hrun
  · exact hinduct.1
  · obtain ⟨⟨hload, hcr3⟩, hmem⟩ := hs
    have hj : j < k := hmem j (by simp)
    have hlt : va + BitVec.ofNat 32 j < utop := by
      rw [BitVec.lt_def, BitVec.toNat_add, BitVec.toNat_ofNat, hutop]
      omega
    obtain ⟨hload', hcr3'⟩ :=
      storeByte_spec hload (hcr3 ▸ hd) (pdx_lt_of_lt_utop hlt) hu
    exact ⟨⟨hload', hcr3'.trans hcr3⟩, fun j' hj' => hmem j' (by simp [hj'])⟩

/-! ### Loading -/

/-- The two parts of a segment, the bytes of the file and the zeros, lie below
`UTOP`. -/
theorem segment_parts {ph : Proghdr} (hsz : ph.pFilesz ≤ ph.pMemsz)
    (hle : ph.pVa.toNat + ph.pMemsz.toNat ≤ utop.toNat) :
    ph.pVa.toNat + ph.pFilesz.toNat ≤ utop.toNat ∧
      (ph.pVa + ph.pFilesz).toNat + (ph.pMemsz - ph.pFilesz).toNat ≤ utop.toNat := by
  have hutop : utop.toNat = 4005560320 := by decide
  have hszNat : ph.pFilesz.toNat ≤ ph.pMemsz.toNat := hsz
  have hrest : (ph.pMemsz - ph.pFilesz).toNat = ph.pMemsz.toNat - ph.pFilesz.toNat := by
    rw [BitVec.toNat_sub]
    omega
  have hend : (ph.pVa + ph.pFilesz).toNat = ph.pVa.toNat + ph.pFilesz.toNat := by
    rw [BitVec.toNat_add]
    omega
  omega

theorem loadSegment_spec {elf : Elf} {ph : Proghdr} (h : Loading L nullOk dirs m)
    (hd : dirs e = some d) (hcr3 : m.cr3 x.cpu = d)
    (hph : ph.pType = 1 → ph.pFilesz ≤ ph.pMemsz ∧ ph.pVa.toNat + ph.pMemsz.toNat ≤ utop.toNat)
    (hrun : loadSegment M x d elf m ph = .ok m') :
    Loading L nullOk dirs m' ∧ m'.cr3 = m.cr3 := by
  unfold loadSegment at hrun
  split at hrun
  · cases hrun
    exact ⟨h, rfl⟩
  · rename_i htype
    obtain ⟨hsz, hle⟩ := hph (not_not.mp htype)
    obtain ⟨hfile, hrest⟩ := segment_parts hsz hle
    simp only [bind_eq_ok] at hrun
    obtain ⟨m₁, hregion, m₂, hcopy, hzero⟩ := hrun
    obtain ⟨h₁, hcr3₁⟩ := regionAlloc_spec h hd hle hregion
    have hd₁ : dirs e = some (m₁.cr3 x.cpu) := by rw [hcr3₁, hcr3, hd]
    obtain ⟨h₂, hcr3₂⟩ := storeBytes_spec h₁ hd₁ hfile hcopy
    have hd₂ : dirs e = some (m₂.cr3 x.cpu) := by rw [hcr3₂, hd₁]
    obtain ⟨h₃, hcr3₃⟩ := storeBytes_spec h₂ hd₂ hrest hzero
    exact ⟨h₃, hcr3₃.trans (hcr3₂.trans hcr3₁)⟩

theorem Loading.lcr3 (h : Loading L nullOk dirs m) : Loading L nullOk dirs (m.lcr3 c p) := by
  refine ⟨⟨h.inv.counts, h.inv.tables⟩, h.bounded, h.vga, fun c' => ?_⟩
  simp [Mem.lcr3, Function.update_apply, h.tlb]

/-- Loading a binary for environment `e` leaves the directory that was loaded. -/
theorem loadIcode_spec {elf : Elf} (h : Loading L nullOk dirs m) (hd : dirs e = some d)
    (helf : elf.WellFormed) (hrun : loadIcode M x d elf m = .ok m') :
    Loading L nullOk dirs m' ∧ m'.cr3 = m.cr3 := by
  have hcr3 : (m.lcr3 x.cpu d).cr3 = Function.update m.cr3 x.cpu d := rfl
  have hself : (m.lcr3 x.cpu d).cr3 x.cpu = d := by rw [hcr3, Function.update_self]
  obtain ⟨hkern, -, m₁, hloop, m₂, hstack, rfl⟩ := loadIcode_eq_ok.mp hrun
  have hinduct := foldlM_induct
    (I := fun l s => (Loading L nullOk dirs s ∧ s.cr3 = (m.lcr3 x.cpu d).cr3) ∧
      ∀ ph ∈ l, ph ∈ elf.eProghdr)
    (fun ph l s u hs hu => by
      obtain ⟨⟨hload, hcr3⟩, hmem⟩ := hs
      obtain ⟨hload', hcr3'⟩ := loadSegment_spec hload hd (hcr3 ▸ hself)
        (helf ph (hmem ph (by simp))) hu
      exact ⟨⟨hload', hcr3'.trans hcr3⟩, fun ph' hph' => hmem ph' (by simp [hph'])⟩)
    ⟨⟨h.lcr3, rfl⟩, fun ph hph => hph⟩ hloop
  obtain ⟨h₂, hcr3₂⟩ := regionAlloc_spec hinduct.1.1 hd (by decide) hstack
  refine ⟨h₂.lcr3, ?_⟩
  have hcr3' : m₂.cr3 = Function.update m.cr3 x.cpu d := hcr3₂.trans hinduct.1.2
  funext c'
  simp only [Mem.lcr3, hcr3', Function.update_idem]
  by_cases hc : c' = x.cpu
  · rw [hc, Function.update_self, hkern]
  · rw [Function.update_of_ne hc]

/-! ### Memory stays tidy -/

theorem regionLoop_tidy {vaFinish : Word} (hfinish : vaFinish ≤ utop) (hd : dirs e = some d) :
    ∀ {k va va'} {m m' : Mem n}, Loading L nullOk dirs m → Tidy L nullOk none dirs m →
      regionLoop M x d vaFinish k va m = .ok (va', m') → Tidy L nullOk none dirs m' := by
  intro k
  induction k with
  | zero =>
      intro va va' m m' _ htidy hrun
      cases hrun
      exact htidy
  | succ k ih =>
      intro va va' m m' h htidy hrun
      unfold regionLoop at hrun
      split at hrun
      · rename_i hlt
        have hi : (pdx va : ℕ) < 955 := pdx_lt_of_lt_utop (Nat.lt_of_lt_of_le hlt hfinish)
        simp only [bind_eq_ok] at hrun
        obtain ⟨⟨page, m₁⟩, halloc, hrun⟩ := hrun
        cases page with
        | none => cases hrun
        | some page =>
            simp only [bind_eq_ok] at hrun
            obtain ⟨⟨r, m₂⟩, hinsert, hrun⟩ := hrun
            split at hrun
            · cases hrun
            · rename_i hr
              obtain rfl : r = 0 := not_not.mp hr
              have hal := pageAlloc_spec h.inv halloc
              obtain ⟨h₂, -⟩ := region_step h hd hi halloc hinsert
              refine ih h₂ ((htidy.allocated halloc).inserted hd hi (fun p hp => ?_)
                (fun hnone => by cases hnone) h₂.inv hinsert) hrun
              obtain rfl := Option.some.inj hp
              exact hal.off
      · cases hrun
        exact htidy

theorem regionAlloc_tidy (h : Loading L nullOk dirs m) (htidy : Tidy L nullOk none dirs m)
    (hd : dirs e = some d) (hle : va.toNat + len.toNat ≤ utop.toNat)
    (hrun : regionAlloc M x d va len m = .ok m') : Tidy L nullOk none dirs m' := by
  unfold regionAlloc at hrun
  split at hrun
  · cases hrun
    exact htidy
  · simp only [bind_eq_ok] at hrun
    obtain ⟨⟨va', m₁⟩, hloop, hrun⟩ := hrun
    split at hrun
    · cases hrun
    · cases hrun
      exact regionLoop_tidy (roundup_le hle) hd h htidy hloop

theorem storeByte_tidy {b : BitVec 8} (h : Tidy L nullOk none dirs m)
    (hd : dirs e = some (m.cr3 c)) (hi : (pdx va : ℕ) < 955)
    (hrun : storeByte c va b m = .ok m') : Tidy L nullOk none dirs m' := by
  unfold storeByte at hrun
  cases hwrite : kernWritable c va m with
  | none => simp [hwrite] at hrun
  | some frame =>
      simp only [hwrite, Except.ok.injEq] at hrun
      subst hrun
      obtain ⟨-, -, -, -, hcounted, hplain⟩ := kernWritable_spec h.toMemInv hd hi hwrite
      exact h.write_plain hplain hcounted rfl fun q hq => Function.update_of_ne hq _ _

theorem storeBytes_tidy {byte : ℕ → BitVec 8} {k : ℕ} (h : Tidy L nullOk none dirs m)
    (hd : dirs e = some (m.cr3 c)) (hle : va.toNat + k ≤ utop.toNat)
    (hrun : storeBytes c va byte k m = .ok m') : Tidy L nullOk none dirs m' := by
  have hutop : utop.toNat = 4005560320 := by decide
  have hinduct := foldlM_induct
    (I := fun l s => (Tidy L nullOk none dirs s ∧ s.cr3 = m.cr3) ∧ ∀ j ∈ l, j < k)
    (fun j l s u hs hu => ?_) ⟨⟨h, rfl⟩, fun j hj => List.mem_range.mp hj⟩ hrun
  · exact hinduct.1.1
  · obtain ⟨⟨htidy, hcr3⟩, hmem⟩ := hs
    have hj : j < k := hmem j (by simp)
    have hlt : va + BitVec.ofNat 32 j < utop := by
      rw [BitVec.lt_def, BitVec.toNat_add, BitVec.toNat_ofNat, hutop]
      omega
    have hcr3' : u.cr3 = s.cr3 := by
      unfold storeByte at hu
      split at hu
      · cases hu
      · cases hu
        rfl
    exact ⟨⟨storeByte_tidy htidy (hcr3 ▸ hd) (pdx_lt_of_lt_utop hlt) hu, hcr3'.trans hcr3⟩,
      fun j' hj' => hmem j' (by simp [hj'])⟩

theorem loadSegment_tidy {elf : Elf} {ph : Proghdr} (h : Loading L nullOk dirs m)
    (htidy : Tidy L nullOk none dirs m) (hd : dirs e = some d) (hcr3 : m.cr3 x.cpu = d)
    (hph : ph.pType = 1 → ph.pFilesz ≤ ph.pMemsz ∧ ph.pVa.toNat + ph.pMemsz.toNat ≤ utop.toNat)
    (hrun : loadSegment M x d elf m ph = .ok m') : Tidy L nullOk none dirs m' := by
  unfold loadSegment at hrun
  split at hrun
  · cases hrun
    exact htidy
  · rename_i htype
    obtain ⟨hsz, hle⟩ := hph (not_not.mp htype)
    obtain ⟨hfile, hrest⟩ := segment_parts hsz hle
    simp only [bind_eq_ok] at hrun
    obtain ⟨m₁, hregion, m₂, hcopy, hzero⟩ := hrun
    obtain ⟨h₁, hcr3₁⟩ := regionAlloc_spec h hd hle hregion
    have hd₁ : dirs e = some (m₁.cr3 x.cpu) := by rw [hcr3₁, hcr3, hd]
    obtain ⟨-, hcr3₂⟩ := storeBytes_spec h₁ hd₁ hfile hcopy
    have hd₂ : dirs e = some (m₂.cr3 x.cpu) := by rw [hcr3₂, hd₁]
    have htidy₁ := regionAlloc_tidy h htidy hd hle hregion
    exact storeBytes_tidy (storeBytes_tidy htidy₁ hd₁ hfile hcopy) hd₂ hrest hzero

theorem loadIcode_tidy {elf : Elf} (h : Loading L nullOk dirs m)
    (htidy : Tidy L nullOk none dirs m) (hd : dirs e = some d) (helf : elf.WellFormed)
    (hrun : loadIcode M x d elf m = .ok m') : Tidy L nullOk none dirs m' := by
  have hself : (m.lcr3 x.cpu d).cr3 x.cpu = d := Function.update_self _ _ _
  obtain ⟨-, -, m₁, hloop, m₂, hstack, rfl⟩ := loadIcode_eq_ok.mp hrun
  obtain ⟨⟨hload, htidy₁, -⟩, -⟩ := foldlM_induct
    (I := fun l s => (Loading L nullOk dirs s ∧ Tidy L nullOk none dirs s ∧
      s.cr3 = (m.lcr3 x.cpu d).cr3) ∧ ∀ ph ∈ l, ph ∈ elf.eProghdr)
    (fun ph l s u hs hu => by
      obtain ⟨⟨hload, htidy, hcr3⟩, hmem⟩ := hs
      have hph := helf ph (hmem ph (by simp))
      obtain ⟨hload', hcr3'⟩ := loadSegment_spec hload hd (hcr3 ▸ hself) hph hu
      have htidy' := loadSegment_tidy hload htidy hd (hcr3 ▸ hself) hph hu
      exact ⟨⟨hload', htidy', hcr3'.trans hcr3⟩, fun ph' hph' => hmem ph' (by simp [hph'])⟩)
    ⟨⟨h.lcr3, htidy.congr rfl rfl, rfl⟩, fun ph hph => hph⟩ hloop
  have hend := regionAlloc_tidy hload htidy₁ hd (by decide) hstack
  exact hend.congr rfl rfl

end Jos
