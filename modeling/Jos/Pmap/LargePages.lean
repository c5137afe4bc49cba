import Jos.Lib.RepString
import Jos.Pmap.BootMap

/-!
`boot_map_region` with `TP1_PSE`, where it maps 4 MB at once as soon as the
physical address is a multiple of 4 MB. The entry maps the 4 MB of linear
addresses around `va`, wherever they begin, so the two versions agree only if
`va` and `pa` have the same offset in 4 MB or no such block is left.
-/

namespace Jos

open Jos.Lib

/-! ### By page number -/

variable {f : ℕ → Option ℕ} {a b k v fuel : ℕ}

/-- The `k` pages from `a` on are mapped to those from `b` on. -/
def mapPages (f : ℕ → Option ℕ) (a b k : ℕ) (v : ℕ) : Option ℕ :=
  if a ≤ v ∧ v < a + k then some (b + (v - a)) else f v

/-- The 1024 pages around `a`, those with the same directory entry, are mapped to
those from `b` on. -/
def mapLargePage (f : ℕ → Option ℕ) (a b : ℕ) (v : ℕ) : Option ℕ :=
  if v / 1024 = a / 1024 then some (b + v % 1024) else f v

/-- The loop with large pages. -/
def mapLarge : ℕ → ℕ → ℕ → ℕ → (ℕ → Option ℕ) → ℕ → Option ℕ
  | 0, _, _, _, f => f
  | fuel + 1, a, b, k, f =>
      if k = 0 then f
      else if b % 1024 = 0 ∧ 1024 ≤ k then
        mapLarge fuel (a + 1024) (b + 1024) (k - 1024) (mapLargePage f a b)
      else mapLarge fuel (a + 1) (b + 1) (k - 1) (Function.update f a (some b))

@[simp] theorem mapPages_zero : mapPages f a b 0 = f := by
  funext v
  exact if_neg (by omega)

theorem mapPages_succ :
    mapPages (Function.update f a (some b)) (a + 1) (b + 1) k = mapPages f a b (k + 1) := by
  funext v
  unfold mapPages
  by_cases hv : v = a
  · subst hv
    rw [if_neg (by omega), if_pos (by omega), Function.update_self, Nat.sub_self, Nat.add_zero]
  · rw [Function.update_of_ne hv]
    by_cases hin : a + 1 ≤ v ∧ v < a + 1 + k
    · rw [if_pos hin, if_pos (by omega)]
      congr 1
      omega
    · rw [if_neg hin, if_neg (by omega)]

/-- A large page that begins at `a` is the 1024 pages from `a` on. -/
theorem mapPages_large (ha : a % 1024 = 0) :
    mapPages (mapLargePage f a b) (a + 1024) (b + 1024) k = mapPages f a b (k + 1024) := by
  funext v
  unfold mapPages mapLargePage
  by_cases hin : a + 1024 ≤ v ∧ v < a + 1024 + k
  · have hsame : b + 1024 + (v - (a + 1024)) = b + (v - a) := by omega
    rw [if_pos hin, if_pos (by omega), hsame]
  · rw [if_neg hin]
    by_cases hblock : v / 1024 = a / 1024
    · have hsame : b + v % 1024 = b + (v - a) := by omega
      rw [if_pos hblock, if_pos (by omega), hsame]
    · rw [if_neg hblock, if_neg (by omega)]

/-- The loop does what the plain one does, where the large pages begin at the
pages that are to be mapped, or where none is taken. -/
theorem mapLarge_eq (hk : k ≤ fuel)
    (h : a % 1024 = b % 1024 ∨ b + k < (b + 1023) / 1024 * 1024 + 1024) :
    mapLarge fuel a b k f = mapPages f a b k := by
  induction fuel generalizing a b k f with
  | zero =>
      obtain rfl : k = 0 := by omega
      exact mapPages_zero.symm
  | succ fuel ih =>
      rw [mapLarge]
      split
      · rename_i hzero
        subst hzero
        exact mapPages_zero.symm
      · split
        · rename_i hlarge
          rw [ih (by omega) (by omega), mapPages_large (by omega), Nat.sub_add_cancel hlarge.2]
        · rw [ih (by omega) (by omega), mapPages_succ]
          congr 1
          omega

/-- The loop does not go back. -/
theorem mapLarge_below (hv : v / 1024 < a / 1024) : mapLarge fuel a b k f v = f v := by
  induction fuel generalizing a b k f with
  | zero => rfl
  | succ fuel ih =>
      rw [mapLarge]
      split
      · rfl
      · split
        · rw [ih (by omega)]
          exact if_neg (by omega)
        · rw [ih (by omega), Function.update_of_ne]
          rintro rfl
          exact lt_irrefl _ hv

/-- Where the first large page begins at another page, that one is mapped
wrong. -/
theorem mapLarge_ne (hk : k ≤ fuel) (hoffset : a % 1024 ≠ b % 1024)
    (hlarge : (b + 1023) / 1024 * 1024 + 1024 ≤ b + k) :
    ∃ v p, (a ≤ v ∧ v < a + k) ∧ mapLarge fuel a b k f v = some p ∧ p < b + k ∧
      p ≠ b + (v - a) := by
  induction fuel generalizing a b k f with
  | zero => omega
  | succ fuel ih =>
      rw [mapLarge, if_neg (by omega)]
      by_cases hb : b % 1024 = 0
      · refine ⟨a, b + a % 1024, by omega, ?_, by omega, by omega⟩
        rw [if_pos ⟨hb, by omega⟩, mapLarge_below (by omega), mapLargePage, if_pos rfl]
      · have hround : (b + 1 + 1023) / 1024 = (b + 1023) / 1024 := by omega
        have hnext : (b + 1 + 1023) / 1024 * 1024 + 1024 ≤ b + 1 + (k - 1) := by
          rw [hround]
          omega
        obtain ⟨v, p, hv, hmap, hp, hne⟩ :=
          @ih (Function.update f a (some b)) (a + 1) (b + 1) (k - 1) (by omega) (by omega) hnext
        refine ⟨v, p, by omega, ?_, by omega, by omega⟩
        rw [if_neg fun h => hb h.1]
        exact hmap

theorem mapLarge_congr {g : ℕ → Option ℕ} (h : f v = g v) :
    mapLarge fuel a b k f v = mapLarge fuel a b k g v := by
  induction fuel generalizing a b k f g with
  | zero => exact h
  | succ fuel ih =>
      rw [mapLarge, mapLarge]
      split
      · exact h
      · split
        · refine ih ?_
          rw [mapLargePage, mapLargePage, h]
        · refine ih ?_
          rw [Function.update_apply, Function.update_apply, h]

/-! ### The two versions -/

variable {n : ℕ} {M : Machine} {m : Mem n} {pgdir : ℕ} {w va perm : Word}
  {skip₀ skip need : Finset PtIdx} {i : PtIdx}

def ptePS : Word := 0x080#32

/-- The loop with `TP1_PSE`; the size shrinks by a page at least. -/
def bootMapPseLoop (M : Machine) (pgdir : ℕ) (perm : Word) :
    ℕ → Word → Word → Word → Mem n → Except String (Mem n)
  | 0, _, _, _, m => .ok m
  | fuel + 1, va, size, pa, m =>
      if size = 0 then .ok m
      else if pa % ptsize = 0 ∧ size ≥ ptsize then
        bootMapPseLoop M pgdir perm fuel (va + ptsize) (size - ptsize) (pa + ptsize)
          (m.store pgdir (pdx va) (pa ||| perm ||| pteP ||| ptePS))
      else do
        match ← pgdirWalk M pgdir va true m with
        | (none, _) => .error "Kernel-mode page fault!!\n"
        | (some (pt, i), m) =>
            bootMapPseLoop M pgdir perm fuel (va + pgsize) (size - pgsize) (pa + pgsize)
              (m.store pt i (mkPte pa perm))

/-- `boot_map_region` with `TP1_PSE`. -/
def bootMapRegionPse (M : Machine) (pgdir : ℕ) (va size pa perm : Word) (m : Mem n) :
    Except String (Mem n) :=
  if va % pgsize ≠ 0 then .error "assertion failed: va % PGSIZE == 0"
  else if pa % pgsize ≠ 0 then .error "assertion failed: pa % PGSIZE == 0"
  else if size % pgsize ≠ 0 then .error "assertion failed: size % PGSIZE == 0"
  else bootMapPseLoop M pgdir perm (size / pgsize).toNat va size pa m

/-- What the processor makes of an address with `CR4_PSE` set: a directory entry
with `PTE_PS` maps 4 MB. -/
def translatePse (m : Mem n) (pgdir : ℕ) (va : Word) : Option Word :=
  let pde := m.word pgdir (pdx va)
  if Flag pde pteP then
    if Flag pde ptePS then some ((pde &&& ~~~0x3FFFFF#32) + (va &&& 0x3FFFFF#32))
    else
      let pte := m.word (pteFrame pde) (ptx va)
      if Flag pte pteP then some (pteAddr pte + (va &&& 0xFFF#32)) else none
  else none

/-- The same by page number. -/
def pagesOf (m : Mem n) (pgdir v : ℕ) : Option ℕ :=
  let pde := m.word pgdir (Fin.ofNat 1024 (v / 1024))
  if Flag pde pteP then
    if Flag pde ptePS then some (pgnum pde / 1024 * 1024 + v % 1024)
    else
      let pte := m.word (pteFrame pde) (Fin.ofNat 1024 (v % 1024))
      if Flag pte pteP then some (pteFrame pte) else none
  else none

theorem large_addr (w va : Word) : (w &&& ~~~0x3FFFFF#32) + (va &&& 0x3FFFFF#32) =
    frame2pa (pgnum w / 1024 * 1024 + pgnum va % 1024) + (va &&& 0xFFF#32) := by
  have hhigh : w &&& ~~~0x3FFFFF#32 = w >>> 22 <<< 22 := by
    have hmask : ∀ j < 32, (~~~0x3FFFFF#32 : Word).getLsbD j = decide (22 ≤ j) := by decide
    apply BitVec.eq_of_getLsbD_eq
    intro j hj
    simp only [BitVec.getLsbD_and, BitVec.getLsbD_shiftLeft, BitVec.getLsbD_ushiftRight,
      hmask j hj, hj]
    by_cases h22 : j < 22
    · simp [h22, Nat.not_le.mpr h22]
    · have hadd : 22 + (j - 22) = j := by omega
      simp [h22, Nat.not_lt.mp h22, hadd]
  have hlow : (va &&& 0x3FFFFF#32).toNat = va.toNat % 4194304 := by
    rw [BitVec.toNat_and]
    exact Nat.and_two_pow_sub_one_eq_mod va.toNat 22
  have hoff : (va &&& 0xFFF#32).toNat = va.toNat % 4096 := by
    rw [BitVec.toNat_and]
    exact Nat.and_two_pow_sub_one_eq_mod va.toNat 12
  have hw := w.isLt
  have hva := va.isLt
  apply BitVec.eq_of_toNat_eq
  rw [hhigh, BitVec.toNat_add, BitVec.toNat_add, hlow, hoff, frame2pa, BitVec.toNat_shiftLeft,
    BitVec.toNat_shiftLeft, BitVec.toNat_ushiftRight, BitVec.toNat_ofNat, Nat.shiftLeft_eq,
    Nat.shiftLeft_eq, Nat.shiftRight_eq_div_pow, pgnum_eq, pgnum_eq]
  omega

theorem translatePse_eq : translatePse m pgdir va =
    (pagesOf m pgdir (pgnum va)).map fun p => frame2pa p + (va &&& 0xFFF#32) := by
  simp only [translatePse, pagesOf, div_pgnum, mod_pgnum]
  split
  · split
    · rw [large_addr]
      rfl
    · split
      · rw [pteAddr_eq]
        rfl
      · rfl
  · rfl

/-! ### Addresses of pages -/

theorem frame2pa_add (a k : ℕ) : frame2pa a + frame2pa k = frame2pa (a + k) := by
  apply BitVec.eq_of_toNat_eq
  rw [BitVec.toNat_add, frame2pa_toNat, frame2pa_toNat, frame2pa_toNat]
  omega

theorem frame2pa_sub (h : b ≤ a) : frame2pa a - frame2pa b = frame2pa (a - b) := by
  apply BitVec.eq_of_toNat_eq
  rw [BitVec.toNat_sub, frame2pa_toNat, frame2pa_toNat, frame2pa_toNat]
  omega

theorem ofNat_page (i : ℕ) : BitVec.ofNat 32 (4096 * i) = frame2pa i := by
  apply BitVec.eq_of_toNat_eq
  rw [BitVec.toNat_ofNat, frame2pa_toNat]
  omega

theorem pgsize_eq : pgsize = frame2pa 1 := by decide

theorem ptsize_eq : ptsize = frame2pa 1024 := by decide

theorem ptsize_toNat : ptsize.toNat = 4194304 := by decide

theorem frame2pa_large_iff : frame2pa b % ptsize = 0 ↔ b % 1024 = 0 := by
  have hz : (0 : Word).toNat = 0 := rfl
  rw [← BitVec.toNat_inj, BitVec.toNat_umod, frame2pa_toNat, ptsize_toNat, hz]
  omega

theorem frame2pa_eq_zero_iff (hk : k < 1048576) : frame2pa k = 0 ↔ k = 0 := by
  have hz : (0 : Word).toNat = 0 := rfl
  rw [← BitVec.toNat_inj, frame2pa_toNat, hz]
  omega

theorem ptsize_le_iff (hk : k < 1048576) : frame2pa k ≥ ptsize ↔ 1024 ≤ k := by
  rw [ge_iff_le, BitVec.le_def, frame2pa_toNat, ptsize_toNat]
  omega

/-! ### One turn of the loop -/

/-- In a directory with page tables, large pages and, in `skip₀`, entries that are
left out, `skip` are those without a page table. -/
structure PseTables (M : Machine) (pgdir : ℕ) (skip₀ skip need : Finset PtIdx) (m : Mem n) :
    Prop where
  tables : Tables M pgdir skip need m
  sub : skip₀ ⊆ skip
  large : ∀ i ∈ skip, i ∉ skip₀ → Flag (m.word pgdir i) pteP ∧ Flag (m.word pgdir i) ptePS
  small : ∀ i ∉ skip, Flag (m.word pgdir i) pteP → ¬ Flag (m.word pgdir i) ptePS

/-- The index of a page. -/
def pageIdx (v : ℕ) : PtIdx := Fin.ofNat 1024 (v / 1024)

theorem pagesOf_large (hpde : m.word pgdir (pageIdx v) = w) (hP : Flag w pteP)
    (hPS : Flag w ptePS) : pagesOf m pgdir v = some (pgnum w / 1024 * 1024 + v % 1024) := by
  unfold pageIdx at hpde
  simp only [pagesOf, hpde, hP, hPS, if_true]

theorem pagesOf_small (h : PseTables M pgdir skip₀ skip need m) (hv : v < 1048576)
    (hskip : pageIdx v ∉ skip) : pagesOf m pgdir v =
      if Flag (pteOf pgdir skip m v) pteP then some (pteFrame (pteOf pgdir skip m v))
      else none := by
  unfold pageIdx at hskip
  simp only [pagesOf, pteOf, hv, hskip, not_false_eq_true, and_self, true_and]
  split
  · rename_i hP
    rw [if_neg (h.small _ hskip hP)]
  · rw [if_neg (not_flag_zero pteP)]

theorem not_flag_tablePde_PS (p : ℕ) : ¬ Flag (tablePde p) ptePS := by
  have hframe : ¬ Flag (frame2pa p) ptePS := not_flag_frame2pa (low_bits_of_lt (by decide)) p
  rw [tablePde, flag_or, flag_or, flag_or]
  rintro (((h | h) | h) | h)
  · exact hframe h
  all_goals exact absurd h (by decide)

/-- A small page is mapped. -/
theorem PseTables.page (h : PseTables M pgdir skip₀ skip need m) (ha : a < 1048576)
    (hb : b < 1048576) (hskip : pageIdx a ∉ skip) (hneed : pageIdx a ∈ need)
    (hperm : perm.toNat < 4096) : ∃ t m₁,
      pgdirWalk M pgdir (frame2pa a) true m = .ok (some (t, ptx (frame2pa a)), m₁) ∧
      PseTables M pgdir skip₀ skip need
        (m₁.store t (ptx (frame2pa a)) (mkPte (frame2pa b) perm)) ∧
      ∀ v < 1048576, pageIdx v ∉ skip₀ →
        pagesOf (m₁.store t (ptx (frame2pa a)) (mkPte (frame2pa b) perm)) pgdir v =
          Function.update (pagesOf m pgdir) a (some b) v := by
  have hnum : pgnum (frame2pa a) = a := pgnum_frame2pa ha
  have hidx : pdx (frame2pa a) = pageIdx a := by rw [← div_pgnum, hnum, pageIdx]
  rw [← hidx] at hskip hneed
  obtain ⟨t, m₁, hwalk, htables, hdir, hpte⟩ :=
    walk_write h.tables hskip hneed (mkPte (frame2pa b) perm)
  have h' : PseTables M pgdir skip₀ skip need
      (m₁.store t (ptx (frame2pa a)) (mkPte (frame2pa b) perm)) :=
    { tables := htables
      sub := h.sub
      large := fun i hi => by
        rw [hdir.of_ne fun heq => hskip (heq ▸ hi)]
        exact h.large i hi
      small := fun i hi hP => by
        rcases hdir.entry hskip i with hold | ⟨-, p, hnew⟩
        · rw [hold] at hP ⊢
          exact h.small i hi hP
        · rw [hnew]
          exact not_flag_tablePde_PS p }
  refine ⟨t, m₁, hwalk, h', fun v hv hv₀ => ?_⟩
  by_cases hvskip : pageIdx v ∈ skip
  · have hne : pageIdx v ≠ pdx (frame2pa a) := fun heq => hskip (heq ▸ hvskip)
    have hva : v ≠ a := by
      rintro rfl
      exact hne hidx.symm
    have hlarge := h.large _ hvskip hv₀
    have hsame := hdir.of_ne hne
    rw [Function.update_of_ne hva]
    rw [pagesOf_large hsame hlarge.1 hlarge.2, pagesOf_large rfl hlarge.1 hlarge.2]
  · rw [pagesOf_small h' hv hvskip, hpte, hnum]
    by_cases hva : v = a
    · subst hva
      simp only [Function.update_self, flag_mkPte_P, if_true, pteFrame_mkPte hb hperm]
    · rw [Function.update_of_ne hva, Function.update_of_ne hva, pagesOf_small h hv hvskip]

/-- The entry of a large page. -/
def largePde (b : ℕ) (perm : Word) : Word := frame2pa b ||| perm ||| pteP ||| ptePS

theorem flag_largePde_P : Flag (largePde b perm) pteP := by
  rw [largePde, flag_or, flag_or]
  exact Or.inl (Or.inr (by decide))

theorem flag_largePde_PS : Flag (largePde b perm) ptePS := by
  rw [largePde, flag_or]
  exact Or.inr (by decide)

theorem pgnum_largePde (hb : b < 1048576) (hperm : perm.toNat < 4096) :
    pgnum (largePde b perm) = b := by
  have hflags : (perm ||| pteP ||| ptePS).toNat < 4096 :=
    flags_lt (flags_lt hperm (by decide)) (by decide)
  have hframe := pteFrame_or hb hflags
  rw [pteFrame, pgnum_pteAddr] at hframe
  rw [largePde, BitVec.or_assoc, BitVec.or_assoc, ← BitVec.or_assoc perm]
  exact hframe

theorem pageIdx_inj (hv : v < 1048576) (ha : a < 1048576) :
    pageIdx v = pageIdx a ↔ v / 1024 = a / 1024 := by
  rw [pageIdx, pageIdx, Fin.ext_iff, Fin.val_ofNat, Fin.val_ofNat]
  omega

/-- An entry of the directory no longer counts as a page table. -/
theorem Tables.drop (h : Tables M pgdir skip need m) (i : PtIdx) (hP : Flag w pteP) :
    Tables M pgdir (insert i skip) need (m.store pgdir i w) := by
  have hdir : (m.store pgdir i w).word pgdir = Function.update (m.word pgdir) i w :=
    Function.update_self ..
  have hother (j : PtIdx) (hj : j ∉ insert i skip) :
      j ∉ skip ∧ (m.store pgdir i w).word pgdir j = m.word pgdir j := by
    rw [Finset.mem_insert, not_or] at hj
    rw [hdir, Function.update_of_ne hj.1]
    exact ⟨hj.2, rfl⟩
  have htable {j : PtIdx} {t : ℕ} (ht : TableOf pgdir (insert i skip) (m.store pgdir i w) j t) :
      TableOf pgdir skip m j t := by
    obtain ⟨hj, hsame⟩ := hother j ht.1
    obtain ⟨-, hP, hframe⟩ := ht
    rw [hsame] at hP hframe
    exact ⟨hj, hP, hframe⟩
  have hmissing : missing pgdir need (m.store pgdir i w) ⊆ missing pgdir need m := by
    intro j hj
    obtain ⟨hin, hflag⟩ := Finset.mem_filter.mp hj
    have hne : j ≠ i := by
      rintro rfl
      rw [hdir, Function.update_self] at hflag
      exact hflag hP
    rw [hdir, Function.update_of_ne hne] at hflag
    exact Finset.mem_filter.mpr ⟨hin, hflag⟩
  obtain ⟨l, hl, hnodup, hmem, hcard⟩ := h.list
  refine ⟨⟨l, hl, hnodup, fun p hp => ?_, (Finset.card_le_card hmissing).trans hcard⟩,
    fun j hj => ?_, fun ht => h.table_ne (htable ht),
    fun hi hj => h.unique (htable hi) (htable hj)⟩
  · obtain ⟨hlt, hne, hfresh⟩ := hmem p hp
    exact ⟨hlt, hne, fun j ht => hfresh j (htable ht)⟩
  · obtain ⟨hskip, hsame⟩ := hother j hj
    rw [hsame]
    exact h.frame_lt j hskip

/-- A large page is mapped. -/
theorem PseTables.largePage (h : PseTables M pgdir skip₀ skip need m) (ha : a < 1048576)
    (hb : b < 1048576) (hlarge : b % 1024 = 0) (hperm : perm.toNat < 4096) :
    PseTables M pgdir skip₀ (insert (pageIdx a) skip) need
        (m.store pgdir (pageIdx a) (largePde b perm)) ∧
      ∀ v < 1048576, pageIdx v ∉ skip₀ →
        pagesOf (m.store pgdir (pageIdx a) (largePde b perm)) pgdir v =
          mapLargePage (pagesOf m pgdir) a b v := by
  have hdir : (m.store pgdir (pageIdx a) (largePde b perm)).word pgdir =
      Function.update (m.word pgdir) (pageIdx a) (largePde b perm) := Function.update_self ..
  constructor
  · exact
      { tables := h.tables.drop _ flag_largePde_P
        sub := h.sub.trans (Finset.subset_insert _ _)
        large := fun i hi hi₀ => by
          rw [hdir]
          rcases Finset.mem_insert.mp hi with rfl | hold
          · rw [Function.update_self]
            exact ⟨flag_largePde_P, flag_largePde_PS⟩
          · by_cases hia : i = pageIdx a
            · rw [hia, Function.update_self]
              exact ⟨flag_largePde_P, flag_largePde_PS⟩
            · rw [Function.update_of_ne hia]
              exact h.large i hold hi₀
        small := fun i hi hP => by
          rw [Finset.mem_insert, not_or] at hi
          rw [hdir, Function.update_of_ne hi.1] at hP ⊢
          exact h.small i hi.2 hP }
  · intro v hv hv₀
    have hpde : (m.store pgdir (pageIdx a) (largePde b perm)).word pgdir (pageIdx v) =
        if v / 1024 = a / 1024 then largePde b perm else m.word pgdir (pageIdx v) := by
      rw [hdir, Function.update_apply]
      exact if_congr (pageIdx_inj hv ha) rfl rfl
    rw [mapLargePage]
    split
    · rename_i hidx
      rw [if_pos hidx] at hpde
      rw [pagesOf_large hpde flag_largePde_P flag_largePde_PS, pgnum_largePde hb hperm,
        Nat.div_mul_cancel (Nat.dvd_of_mod_eq_zero hlarge)]
    · rename_i hidx
      rw [if_neg hidx] at hpde
      unfold pageIdx at hpde
      simp only [pagesOf, pageIdx, hpde]
      split
      · rename_i hP
        split
        · rfl
        · rename_i hPS
          -- the page table is not the directory
          have hskip : pageIdx v ∉ skip := fun hin => hPS (h.large _ hin hv₀).2
          have hne := h.tables.table_ne ⟨hskip, hP, rfl⟩
          unfold pageIdx at hne
          simp only [Mem.store, Function.update_of_ne hne]
      · rfl

/-! ### The whole loop -/

/-- The pages are those of entries with a page table, or of missing ones for which
there is a free page. -/
def Reach (skip need : Finset PtIdx) (a k : ℕ) : Prop :=
  ∀ v, a ≤ v → v < a + k → pageIdx v ∉ skip ∧ pageIdx v ∈ need

theorem bootMapPseLoop_spec (h : PseTables M pgdir skip₀ skip need m)
    (hreach : Reach skip need a k) (ha : a + k ≤ 1048576) (hb : b + k ≤ 1048576)
    (hk : k < 1048576) (hfuel : k ≤ fuel) (hperm : perm.toNat < 4096) :
    ∃ m', bootMapPseLoop M pgdir perm fuel (frame2pa a) (frame2pa k) (frame2pa b) m = .ok m' ∧
      ∀ v < 1048576, pageIdx v ∉ skip₀ →
        pagesOf m' pgdir v = mapLarge fuel a b k (pagesOf m pgdir) v := by
  induction fuel generalizing a b k m skip with
  | zero => exact ⟨m, rfl, fun _ _ _ => rfl⟩
  | succ fuel ih =>
      rw [bootMapPseLoop]
      by_cases hzero : k = 0
      · refine ⟨m, if_pos ((frame2pa_eq_zero_iff hk).mpr hzero), fun v _ _ => ?_⟩
        rw [mapLarge, if_pos hzero]
      · have hfast : (frame2pa b % ptsize = 0 ∧ frame2pa k ≥ ptsize) ↔ b % 1024 = 0 ∧ 1024 ≤ k :=
          and_congr frame2pa_large_iff (ptsize_le_iff hk)
        rw [if_neg (mt (frame2pa_eq_zero_iff hk).mp hzero)]
        obtain ⟨hskip, hneed⟩ := hreach a le_rfl (by omega)
        by_cases hlarge : b % 1024 = 0 ∧ 1024 ≤ k
        · have hidx : pdx (frame2pa a) = pageIdx a := by
            rw [← div_pgnum, pgnum_frame2pa (by omega), pageIdx]
          obtain ⟨h', hpages⟩ := h.largePage (a := a) (b := b) (by omega) (by omega) hlarge.1 hperm
          have hreach' : Reach (insert (pageIdx a) skip) need (a + 1024) (k - 1024) := by
            intro v hge hlt
            obtain ⟨hold, hin⟩ := hreach v (by omega) (by omega)
            refine ⟨?_, hin⟩
            rw [Finset.mem_insert, not_or, pageIdx_inj (by omega) (by omega)]
            exact ⟨by omega, hold⟩
          obtain ⟨m', hloop, hm'⟩ := ih (b := b + 1024) h' hreach' (by omega) (by omega) (by omega)
            (by omega)
          refine ⟨m', ?_, fun v hv hv₀ => ?_⟩
          · rw [if_pos (hfast.mpr hlarge), hidx, ptsize_eq, frame2pa_add, frame2pa_add,
              frame2pa_sub hlarge.2]
            exact hloop
          · rw [hm' v hv hv₀, mapLarge, if_neg hzero, if_pos hlarge]
            exact mapLarge_congr (hpages v hv hv₀)
        · obtain ⟨t, m₁, hwalk, h', hpages⟩ :=
            h.page (a := a) (b := b) (by omega) (by omega) hskip hneed hperm
          obtain ⟨m', hloop, hm'⟩ := ih (a := a + 1) (b := b + 1) (k := k - 1) h'
            (fun v hge hlt => hreach v (by omega) (by omega)) (by omega) (by omega) (by omega)
            (by omega)
          refine ⟨m', ?_, fun v hv hv₀ => ?_⟩
          · rw [if_neg (mt hfast.mp hlarge), hwalk, pgsize_eq, frame2pa_add, frame2pa_add,
              frame2pa_sub (by omega)]
            exact hloop
          · rw [hm' v hv hv₀, mapLarge, if_neg hzero, if_neg hlarge]
            exact mapLarge_congr (hpages v hv hv₀)

/-- The plain version. -/
theorem bootMapLoop_pages (h : PseTables M pgdir skip₀ skip need m)
    (hreach : Reach skip need a k) (ha : a + k ≤ 1048576) (hb : b + k ≤ 1048576)
    (hperm : perm.toNat < 4096) :
    ∃ m', bootMapLoop M pgdir perm k (frame2pa a) (frame2pa b) m = .ok m' ∧
      ∀ v < 1048576, pageIdx v ∉ skip₀ →
        pagesOf m' pgdir v = mapPages (pagesOf m pgdir) a b k v := by
  obtain ⟨m', hloop, htables, hdir, hpte⟩ := @bootMapLoop_writes _ M m pgdir (frame2pa a)
    (frame2pa b) perm _ _ k h.tables fun v hge hlt => by
      rcases Nat.eq_zero_or_pos k with rfl | hk
      · omega
      · rw [pgnum_frame2pa (by omega)] at hge hlt
        exact ⟨by omega, hreach v hge hlt⟩
  have hsame (i : PtIdx) (hi : i ∈ skip) : m'.word pgdir i = m.word pgdir i :=
    (hdir i).resolve_right fun hnew => hnew.1 hi
  have h' : PseTables M pgdir skip₀ skip need m' :=
    { tables := htables
      sub := h.sub
      large := fun i hi => by
        rw [hsame i hi]
        exact h.large i hi
      small := fun i hi hP => by
        rcases hdir i with hold | ⟨-, p, hnew⟩
        · rw [hold] at hP ⊢
          exact h.small i hi hP
        · rw [hnew]
          exact not_flag_tablePde_PS p }
  refine ⟨m', hloop, fun v hv hv₀ => ?_⟩
  by_cases hskip : pageIdx v ∈ skip
  · have hlarge := h.large _ hskip hv₀
    have hout : ¬ (a ≤ v ∧ v < a + k) := fun hin => (hreach v hin.1 hin.2).1 hskip
    rw [mapPages, if_neg hout, pagesOf_large (hsame _ hskip) hlarge.1 hlarge.2,
      pagesOf_large rfl hlarge.1 hlarge.2]
  · rw [pagesOf_small h' hv hskip, hpte, mapPages]
    by_cases hin : a ≤ v ∧ v < a + k
    · have hnum : pgnum (frame2pa a) = a := pgnum_frame2pa (by omega)
      have hcontains : (mapped (frame2pa a) (frame2pa b) perm k).Contains v := by
        rwa [mapped, Region.contains_mk, hnum]
      have hframe : frame2pa b + BitVec.ofNat 32 (4096 * (v - a)) = frame2pa (b + (v - a)) := by
        rw [← frame2pa_add, ofNat_page]
      rw [Region.write_of_contains hcontains, if_pos hin]
      simp only [mapped, hnum, hframe, flag_mkPte_P, if_true]
      rw [pteFrame_mkPte (by omega) hperm]
    · have hcontains : ¬ (mapped (frame2pa a) (frame2pa b) perm k).Contains v := by
        rcases Nat.eq_zero_or_pos k with rfl | hk
        · rw [mapped, Region.contains_mk]
          omega
        · rwa [mapped, Region.contains_mk, pgnum_frame2pa (by omega)]
      rw [Region.write_of_not_contains hcontains, if_neg hin, pagesOf_small h hv hskip]

/-! ### Agreement -/

/-- Both versions map the region, byte by byte, and nothing else; left out is the
window, where a directory shows itself. -/
def PseAgrees (M : Machine) (pgdir : ℕ) (window : Finset PtIdx) (va size pa perm : Word)
    (m : Mem n) : Prop :=
  ∃ m₁ m₂, bootMapRegion M pgdir va size pa perm m = .ok m₁ ∧
    bootMapRegionPse M pgdir va size pa perm m = .ok m₂ ∧
    (∀ la, InBytes va size.toNat la → translatePse m₁ pgdir la = some (pa + (la - va)) ∧
      translatePse m₂ pgdir la = some (pa + (la - va))) ∧
    ∀ la, ¬ InBytes va size.toNat la → pdx la ∉ window →
      translatePse m₁ pgdir la = translatePse m pgdir la ∧
        translatePse m₂ pgdir la = translatePse m pgdir la

variable {size pa la : Word} {window : Finset PtIdx}

theorem inBytes_pages (hva : va % pgsize = 0) (hsize : size % pgsize = 0) :
    InBytes va size.toNat la ↔ pgnum va ≤ pgnum la ∧ pgnum la < pgnum va + pgnum size := by
  have hva' := aligned_toNat hva
  have hsize' := aligned_toNat hsize
  rw [InBytes, pgnum_eq, pgnum_eq, pgnum_eq]
  omega

/-- The address of a byte of the region. -/
theorem mapPages_byte (hva : va % pgsize = 0) (hpa : pa % pgsize = 0)
    (hin : pgnum va ≤ pgnum la) :
    frame2pa (pgnum pa + (pgnum la - pgnum va)) + (la &&& 0xFFF#32) = pa + (la - va) := by
  have hva' := aligned_toNat hva
  have hpa' := aligned_toNat hpa
  have hoff := pgoff_eq la
  have hla := la.isLt
  unfold pgoff at hoff
  rw [pgnum_eq, pgnum_eq] at hin
  apply BitVec.eq_of_toNat_eq
  rw [BitVec.toNat_add, BitVec.toNat_add, BitVec.toNat_sub, frame2pa_toNat, hoff, pgnum_eq,
    pgnum_eq, pgnum_eq]
  omega

/-- A map of the pages is one of the bytes. -/
theorem translate_mapPages {m' : Mem n} {k : ℕ} (hva : va % pgsize = 0) (hpa : pa % pgsize = 0)
    (hpages : pagesOf m' pgdir (pgnum la) =
      mapPages (pagesOf m pgdir) (pgnum va) (pgnum pa) k (pgnum la)) :
    translatePse m' pgdir la =
      if pgnum va ≤ pgnum la ∧ pgnum la < pgnum va + k then some (pa + (la - va))
      else translatePse m pgdir la := by
  rw [translatePse_eq, hpages, mapPages]
  split
  · rename_i hin
    rw [Option.map_some, mapPages_byte hva hpa hin.1]
  · exact translatePse_eq.symm

theorem pageIdx_pgnum (la : Word) : pageIdx (pgnum la) = pdx la := div_pgnum la

/-- What the directory of either version maps, by page number. -/
theorem boot_map_region_pages (h : PseTables M pgdir window window need m)
    (hva : va % pgsize = 0) (hpa : pa % pgsize = 0) (hsize : size % pgsize = 0)
    (hvaEnd : va.toNat + size.toNat ≤ 4294967296) (hpaEnd : pa.toNat + size.toNat ≤ 4294967296)
    (hreach : ∀ la, InBytes va size.toNat la → pdx la ∉ window ∧ pdx la ∈ need)
    (hperm : perm.toNat < 4096) : ∃ m₁ m₂, bootMapRegion M pgdir va size pa perm m = .ok m₁ ∧
      bootMapRegionPse M pgdir va size pa perm m = .ok m₂ ∧
      ∀ v < 1048576, pageIdx v ∉ window →
        pagesOf m₁ pgdir v = mapPages (pagesOf m pgdir) (pgnum va) (pgnum pa) (pgnum size) v ∧
        pagesOf m₂ pgdir v =
          mapLarge (pgnum size) (pgnum va) (pgnum pa) (pgnum size) (pagesOf m pgdir) v := by
  have hvaPage := aligned_toNat hva
  have hpaPage := aligned_toNat hpa
  have hsizePage := aligned_toNat hsize
  have ha : pgnum va + pgnum size ≤ 1048576 := by
    rw [pgnum_eq, pgnum_eq]
    omega
  have hb : pgnum pa + pgnum size ≤ 1048576 := by
    rw [pgnum_eq, pgnum_eq]
    omega
  have hpages : Reach window need (pgnum va) (pgnum size) := by
    intro v hge hlt
    have hnum : pgnum (frame2pa v) = v := pgnum_frame2pa (by omega)
    rw [← hnum, pageIdx_pgnum]
    refine hreach _ ((inBytes_pages hva hsize).mpr ?_)
    rw [hnum]
    exact ⟨hge, hlt⟩
  have hturns : (size / pgsize).toNat = pgnum size := by
    rw [BitVec.toNat_udiv, pgnum_eq]
    rfl
  obtain ⟨m₁, hrun₁, hm₁⟩ := bootMapLoop_pages h hpages ha hb hperm
  obtain ⟨m₂, hrun₂, hm₂⟩ := bootMapPseLoop_spec h hpages ha hb (pgnum_lt size) le_rfl hperm
  rw [frame2pa_pgnum hva, frame2pa_pgnum hpa] at hrun₁ hrun₂
  rw [frame2pa_pgnum hsize] at hrun₂
  refine ⟨m₁, m₂, ?_, ?_, fun v hv hwindow => ⟨hm₁ v hv hwindow, hm₂ v hv hwindow⟩⟩
  · rw [bootMapRegion_eq hva hpa hsize]
    exact hrun₁
  · simp only [bootMapRegionPse, hva, hpa, hsize, ne_eq, not_true_eq_false, if_false, hturns]
    exact hrun₂

theorem offset_iff (hva : va % pgsize = 0) (hpa : pa % pgsize = 0) :
    va % ptsize = pa % ptsize ↔ pgnum va % 1024 = pgnum pa % 1024 := by
  have hvaPage := aligned_toNat hva
  have hpaPage := aligned_toNat hpa
  rw [← BitVec.toNat_inj, BitVec.toNat_umod, BitVec.toNat_umod, ptsize_toNat, pgnum_eq, pgnum_eq]
  omega

theorem block_iff (hpa : pa % pgsize = 0) (hsize : size % pgsize = 0) :
    pa.toNat + size.toNat < (pa.toNat + 4194303) / 4194304 * 4194304 + 4194304 ↔
      pgnum pa + pgnum size < (pgnum pa + 1023) / 1024 * 1024 + 1024 := by
  have hpaPage := aligned_toNat hpa
  have hsizePage := aligned_toNat hsize
  rw [pgnum_eq, pgnum_eq]
  omega

/-- The first byte of the page that is mapped wrong. -/
theorem not_pseAgrees (h : PseTables M pgdir window window need m)
    (hva : va % pgsize = 0) (hpa : pa % pgsize = 0) (hsize : size % pgsize = 0)
    (hvaEnd : va.toNat + size.toNat ≤ 4294967296) (hpaEnd : pa.toNat + size.toNat ≤ 4294967296)
    (hreach : ∀ la, InBytes va size.toNat la → pdx la ∉ window ∧ pdx la ∈ need)
    (hperm : perm.toNat < 4096) (hoffset : va % ptsize ≠ pa % ptsize)
    (hblock : (pa.toNat + 4194303) / 4194304 * 4194304 + 4194304 ≤ pa.toNat + size.toNat) :
    ¬ PseAgrees M pgdir window va size pa perm m := by
  rintro ⟨m₁', m₂', -, hrun, hin, -⟩
  obtain ⟨m₁, m₂, -, hrun₂, hpages⟩ :=
    boot_map_region_pages h hva hpa hsize hvaEnd hpaEnd hreach hperm
  obtain rfl : m₂ = m₂' := Except.ok.inj (hrun₂.symm.trans hrun)
  rw [ne_eq, offset_iff hva hpa] at hoffset
  rw [← Nat.not_lt, block_iff hpa hsize, Nat.not_lt] at hblock
  obtain ⟨v, p, hv, hmap, hp, hne⟩ := mapLarge_ne le_rfl hoffset hblock (f := pagesOf m pgdir)
  have hbounds : pgnum va + pgnum size ≤ 1048576 ∧ pgnum pa + pgnum size ≤ 1048576 := by
    have hvaPage := aligned_toNat hva
    have hpaPage := aligned_toNat hpa
    have hsizePage := aligned_toNat hsize
    rw [pgnum_eq, pgnum_eq, pgnum_eq]
    omega
  have hnum : pgnum (frame2pa v) = v := pgnum_frame2pa (by omega)
  have hbyte : InBytes va size.toNat (frame2pa v) := by
    rw [inBytes_pages hva hsize, hnum]
    exact hv
  have hwindow : pageIdx v ∉ window := by
    rw [← hnum, pageIdx_pgnum]
    exact (hreach _ hbyte).1
  have htranslate := (hin _ hbyte).2
  rw [translatePse_eq, hnum, (hpages v (by omega) hwindow).2, hmap, Option.map_some,
    ← mapPages_byte hva hpa (by rw [hnum]; exact hv.1), hnum] at htranslate
  have hsame := congrArg BitVec.toNat (add_right_cancel (Option.some.inj htranslate))
  rw [frame2pa_toNat, frame2pa_toNat] at hsame
  omega

/-- The two versions agree if and only if `va` and `pa` have the same offset in
4 MB or no aligned 4 MB of physical addresses are to be mapped. -/
theorem boot_map_region_pse_iff (h : Tables M pgdir window need m)
    (hsmall : ∀ i ∉ window, Flag (m.word pgdir i) pteP → ¬ Flag (m.word pgdir i) ptePS)
    (hva : va % pgsize = 0) (hpa : pa % pgsize = 0) (hsize : size % pgsize = 0)
    (hvaEnd : va.toNat + size.toNat ≤ 4294967296) (hpaEnd : pa.toNat + size.toNat ≤ 4294967296)
    (hreach : ∀ la, InBytes va size.toNat la → pdx la ∉ window ∧ pdx la ∈ need)
    (hperm : perm.toNat < 4096) :
    PseAgrees M pgdir window va size pa perm m ↔
      va % ptsize = pa % ptsize ∨
        pa.toNat + size.toNat < (pa.toNat + 4194303) / 4194304 * 4194304 + 4194304 := by
  have hpse : PseTables M pgdir window window need m :=
    ⟨h, Finset.Subset.refl _, fun i hi hi' => absurd hi hi', hsmall⟩
  obtain ⟨m₁, m₂, hrun₁, hrun₂, hpages⟩ :=
    boot_map_region_pages hpse hva hpa hsize hvaEnd hpaEnd hreach hperm
  rw [offset_iff hva hpa, block_iff hpa hsize]
  constructor
  · intro hagrees
    by_contra hcond
    rw [not_or, Nat.not_lt] at hcond
    exact not_pseAgrees hpse hva hpa hsize hvaEnd hpaEnd hreach hperm
      (mt (offset_iff hva hpa).mp hcond.1)
      (Nat.not_lt.mp (mt (block_iff hpa hsize).mp (Nat.not_lt.mpr hcond.2))) hagrees
  · intro hcond
    have hwrite (la : Word) (hwindow : pdx la ∉ window) := hpages (pgnum la) (pgnum_lt la)
      (by rwa [pageIdx_pgnum])
    refine ⟨m₁, m₂, hrun₁, hrun₂, fun la hla => ?_, fun la hla hwindow => ?_⟩
    · obtain ⟨hp₁, hp₂⟩ := hwrite la (hreach la hla).1
      rw [mapLarge_eq le_rfl hcond] at hp₂
      rw [inBytes_pages hva hsize] at hla
      rw [translate_mapPages hva hpa hp₁, translate_mapPages hva hpa hp₂, if_pos hla]
      exact ⟨rfl, rfl⟩
    · obtain ⟨hp₁, hp₂⟩ := hwrite la hwindow
      rw [mapLarge_eq le_rfl hcond] at hp₂
      rw [inBytes_pages hva hsize] at hla
      rw [translate_mapPages hva hpa hp₁, translate_mapPages hva hpa hp₂, if_neg hla]
      exact ⟨rfl, rfl⟩

/-- An empty directory, and two free pages. -/
def pseSample : Mem 1 :=
  ⟨fun p => if p = 5 then ⟨some 6, 0⟩ else ⟨none, 0⟩, some 5, fun _ _ => 0, fun _ => 0, fun _ => []⟩

theorem pseSample_tables : Tables sampleMachine 280 ∅ {0, 1} pseSample := by
  have hnone {i t} : ¬ TableOf 280 ∅ pseSample i t := fun ht => not_flag_zero pteP ht.2.1
  have hcard : (missing 280 {0, 1} pseSample).card ≤ 2 := Finset.card_filter_le _ _
  exact
    { list := by
        refine ⟨[5, 6], ⟨rfl, rfl, rfl⟩, by decide, fun p hp => ?_, hcard⟩
        rcases List.mem_pair.mp hp with rfl | rfl
        · exact ⟨by decide, by decide, fun i => hnone⟩
        · exact ⟨by decide, by decide, fun i => hnone⟩
      frame_lt := fun i _ => by
        show pteFrame 0 < 2048
        decide
      table_ne := fun ht => absurd ht hnone
      unique := fun ht => absurd ht hnone }

theorem pseSample_reach {va size la : Word} (h : InBytes va size.toNat la)
    (hend : va.toNat + size.toNat ≤ 8388608) :
    pdx la ∉ (∅ : Finset PtIdx) ∧ pdx la ∈ ({0, 1} : Finset PtIdx) := by
  unfold InBytes at h
  have hval := pdx_val la
  refine ⟨Finset.notMem_empty _, ?_⟩
  rw [Finset.mem_insert, Finset.mem_singleton, Fin.ext_iff, Fin.ext_iff]
  simp only [Fin.val_zero, Fin.val_one]
  omega

theorem boot_map_region_pse_iff_aligned :
    PseAgrees sampleMachine 280 ∅ 0 0x400000 0x800000 pteW pseSample :=
  (boot_map_region_pse_iff pseSample_tables (fun _ _ hP => absurd hP (not_flag_zero pteP))
    (by decide) (by decide) (by decide) (by decide) (by decide)
    (fun _ hla => pseSample_reach hla (by decide)) (by decide)).mpr (Or.inl (by decide))

/-- The first 4 MB of memory, mapped one page further up. -/
theorem not_boot_map_region_pse : ¬ ∀ (M : Machine) (pgdir : ℕ) (window need : Finset PtIdx)
    (va size pa perm : Word) (m : Mem 1), Tables M pgdir window need m →
    (∀ i ∉ window, Flag (m.word pgdir i) pteP → ¬ Flag (m.word pgdir i) ptePS) →
    va % pgsize = 0 → pa % pgsize = 0 → size % pgsize = 0 →
    va.toNat + size.toNat ≤ 4294967296 → pa.toNat + size.toNat ≤ 4294967296 →
    (∀ la, InBytes va size.toNat la → pdx la ∉ window ∧ pdx la ∈ need ∧
      translatePse m pgdir la = none) →
    perm.toNat < 4096 → PseAgrees M pgdir window va size pa perm m := by
  intro hall
  have hsmall (i : PtIdx) (_ : i ∉ (∅ : Finset PtIdx)) (hP : Flag (pseSample.word 280 i) pteP) :
      ¬ Flag (pseSample.word 280 i) ptePS := absurd hP (not_flag_zero pteP)
  have hempty (la : Word) : translatePse pseSample 280 la = none := if_neg (not_flag_zero pteP)
  have hreach {la : Word} (hla : InBytes 0x1000 (0x400000 : Word).toNat la) :=
    pseSample_reach hla (by decide)
  have hwrong : ¬ PseAgrees sampleMachine 280 ∅ 0x1000 0x400000 0 pteW pseSample :=
    not_pseAgrees ⟨pseSample_tables, Finset.Subset.refl _, fun i hi hi' => absurd hi hi', hsmall⟩
      (by decide) (by decide) (by decide) (by decide) (by decide) (fun _ hla => hreach hla)
      (by decide) (by decide) (by decide)
  exact hwrong <| hall sampleMachine 280 ∅ {0, 1} 0x1000 0x400000 0 pteW pseSample
    pseSample_tables hsmall (by decide) (by decide) (by decide) (by decide) (by decide)
    (fun la hla => ⟨(hreach hla).1, (hreach hla).2, hempty la⟩) (by decide)

end Jos
