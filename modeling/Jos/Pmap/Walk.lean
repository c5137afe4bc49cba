import Jos.Kern.MemInit
import Jos.Lib.LinkedList
import Jos.Lib.Region
import Jos.Pmap.Ops
import Mathlib.Data.Finset.Card

/-!
What `pgdir_walk` does to one directory. By page number the entries of its page
tables are one table, in which a walk that creates its page table finds the cell
of an address. Left out are the indexes whose directory entry does not refer to
a page table of its own: the window that shows the directory itself, and large
pages.
-/

namespace Jos

open Jos.Lib

variable {n : ℕ} {M : Machine} {m m' : Mem n} {pgdir v : ℕ} {w va pa perm : Word} {t p : ℕ}
  {skip need : Finset PtIdx} {i : PtIdx}

/-- What a page directory entry maps. -/
def ptsize : Word := 1024 * pgsize

/-- The entry of a page, zero where there is no page table. -/
def pteOf (pgdir : ℕ) (skip : Finset PtIdx) (m : Mem n) (v : ℕ) : Word :=
  let i := Fin.ofNat 1024 (v / 1024)
  let pde := m.word pgdir i
  if (v < 1048576 ∧ i ∉ skip) ∧ Flag pde pteP then m.word (pteFrame pde) (Fin.ofNat 1024 (v % 1024))
  else 0#32

/-- The frame is the page table of the index. -/
def TableOf (pgdir : ℕ) (skip : Finset PtIdx) (m : Mem n) (i : PtIdx) (t : ℕ) : Prop :=
  i ∉ skip ∧ Flag (m.word pgdir i) pteP ∧ pteFrame (m.word pgdir i) = t

/-- The indexes of `need` whose page table is still to be allocated. -/
def missing (pgdir : ℕ) (need : Finset PtIdx) (m : Mem n) : Finset PtIdx :=
  need.filter fun i => ¬ Flag (m.word pgdir i) pteP

/-- The page tables of the directory are different frames, and there are enough
free ones for the others. -/
structure Tables (M : Machine) (pgdir : ℕ) (skip need : Finset PtIdx) (m : Mem n) : Prop where
  list : ∃ l, Linked (fun p => (m.pages p).ppLink) m.pageFreeList l ∧ l.Nodup ∧
    (∀ p ∈ l, p < M.npages ∧ p ≠ pgdir ∧ ∀ i, ¬ TableOf pgdir skip m i p) ∧
    (missing pgdir need m).card ≤ l.length
  frame_lt : ∀ i, i ∉ skip → pteFrame (m.word pgdir i) < M.npages
  table_ne : ∀ {i t}, TableOf pgdir skip m i t → t ≠ pgdir
  unique : ∀ {i j t}, TableOf pgdir skip m i t → TableOf pgdir skip m j t → i = j

theorem div_pgnum (va : Word) : Fin.ofNat 1024 (pgnum va / 1024) = pdx va := by
  apply Fin.ext
  have hlt := (pdx va).isLt
  rw [Fin.val_ofNat, pgnum_indexes]
  omega

theorem mod_pgnum (va : Word) : Fin.ofNat 1024 (pgnum va % 1024) = ptx va := by
  apply Fin.ext
  have hlt := (ptx va).isLt
  rw [Fin.val_ofNat, pgnum_indexes]
  omega

theorem pgnum_lt (va : Word) : pgnum va < 1048576 := by
  have hlt := va.isLt
  rw [pgnum_eq]
  omega

theorem frame2pa_toNat (i : ℕ) : (frame2pa i).toNat = i % 1048576 * 4096 := by
  rw [frame2pa, BitVec.toNat_shiftLeft, BitVec.toNat_ofNat, Nat.shiftLeft_eq]
  omega

theorem pteOf_pgnum (hskip : pdx va ∉ skip) : pteOf pgdir skip m (pgnum va) =
    if Flag (m.word pgdir (pdx va)) pteP then m.word (pteFrame (m.word pgdir (pdx va))) (ptx va)
    else 0#32 := by
  simp only [pteOf, div_pgnum, mod_pgnum, pgnum_lt, hskip, not_false_eq_true, and_self, true_and]

/-! ### The table is there -/

/-- The page table of an address is written like one cell. -/
theorem Tables.store (h : Tables M pgdir skip need m) (ht : TableOf pgdir skip m (pdx va) t) :
    Tables M pgdir skip need (m.store t (ptx va) w) ∧
      (m.store t (ptx va) w).word pgdir = m.word pgdir ∧
      pteOf pgdir skip (m.store t (ptx va) w) =
        Function.update (pteOf pgdir skip m) (pgnum va) w := by
  have hdir : (m.store t (ptx va) w).word pgdir = m.word pgdir :=
    Function.update_of_ne (h.table_ne ht).symm _ _
  have htable (i t') : TableOf pgdir skip (m.store t (ptx va) w) i t' ↔
      TableOf pgdir skip m i t' := by
    simp only [TableOf, hdir]
  have hmissing : missing pgdir need (m.store t (ptx va) w) = missing pgdir need m := by
    simp only [missing, hdir]
  refine ⟨?_, hdir, ?_⟩
  · obtain ⟨l, hl, hnodup, hmem, hcard⟩ := h.list
    refine ⟨⟨l, hl, hnodup, fun p hp => ?_, by rwa [hmissing]⟩, ?_, ?_, ?_⟩
    · simpa only [htable] using hmem p hp
    · simpa only [hdir] using h.frame_lt
    · intro i t' ht'
      exact h.table_ne ((htable i t').mp ht')
    · intro i j t' hi hj
      exact h.unique ((htable i t').mp hi) ((htable j t').mp hj)
  · funext v
    obtain ⟨hskip, hP, rfl⟩ := ht
    by_cases hv : v = pgnum va
    · subst hv
      rw [pteOf_pgnum hskip, Function.update_self, hdir, if_pos hP]
      simp [Mem.store]
    · rw [Function.update_of_ne hv]
      simp only [pteOf, hdir]
      split
      · rename_i hin
        obtain ⟨⟨hlt, hskip'⟩, hP'⟩ := hin
        by_cases heq : pteFrame (m.word pgdir (Fin.ofNat 1024 (v / 1024))) =
            pteFrame (m.word pgdir (pdx va))
        · -- another entry of the same table
          have hidx : Fin.ofNat 1024 (v / 1024) = pdx va :=
            h.unique ⟨hskip', hP', heq⟩ ⟨hskip, hP, rfl⟩
          have hcell : Fin.ofNat 1024 (v % 1024) ≠ ptx va := by
            intro hcell
            have h₁ := congrArg Fin.val hidx
            have h₂ := congrArg Fin.val hcell
            rw [Fin.val_ofNat] at h₁ h₂
            have hpg := pgnum_indexes va
            omega
          simp only [Mem.store, heq, Function.update_self, Function.update_of_ne hcell]
        · simp only [Mem.store, Function.update_of_ne heq]
      · rfl

theorem walk_present (h : Tables M pgdir skip need m) (ht : TableOf pgdir skip m (pdx va) t) :
    pgdirWalk M pgdir va true m = .ok (some (t, ptx va), m) := by
  obtain ⟨hskip, hP, rfl⟩ := ht
  have hlt : pgnum (pteAddr (m.word pgdir (pdx va))) < M.npages := h.frame_lt _ hskip
  simp only [pgdirWalk, kaddr, if_neg (Nat.not_le.mpr hlt), if_pos hP]
  rfl

/-! ### The table is allocated -/

/-- The memory after a page table has been allocated. -/
theorem newTable_words (hlt : p < 1048576) (hne : p ≠ pgdir) :
    (m.newTable pgdir va p).word pgdir =
        Function.update (m.word pgdir) (pdx va) (tablePde p) ∧
      (m.newTable pgdir va p).word p = 0 ∧
      ∀ q, q ≠ p → q ≠ pgdir → (m.newTable pgdir va p).word q = m.word q := by
  simp only [Mem.newTable, pgnum_frame2pa hlt, Mem.store, Mem.setRef, Mem.fill, Mem.pop,
    Mem.setLink, Mem.setFreeList]
  refine ⟨?_, ?_, fun q hqp hq => ?_⟩
  · rw [Function.update_self, Function.update_of_ne hne.symm]
    rfl
  · rw [Function.update_of_ne hne, Function.update_self]
    rfl
  · rw [Function.update_of_ne hq, Function.update_of_ne hqp]

/-- A page table that is missing is allocated, and has no entries. -/
theorem Tables.newTable {l : List ℕ} (h : Tables M pgdir skip need m) (hskip : pdx va ∉ skip)
    (hneed : pdx va ∈ need) (hP : ¬ Flag (m.word pgdir (pdx va)) pteP)
    (hl : Linked (fun p => (m.pages p).ppLink) m.pageFreeList (p :: l)) :
    Tables M pgdir skip need (m.newTable pgdir va p) ∧
      TableOf pgdir skip (m.newTable pgdir va p) (pdx va) p ∧
      pteOf pgdir skip (m.newTable pgdir va p) = pteOf pgdir skip m := by
  obtain ⟨l', hl', hnodup, hmem, hcard⟩ := h.list
  obtain rfl := hl'.unique hl
  obtain ⟨hplt, hne, hfresh⟩ := hmem p (by simp)
  have hlt : p < 1048576 := hplt.trans_le (M.npages_le.trans (by norm_num))
  obtain ⟨hdir, hzero, hother⟩ := @newTable_words n m pgdir va p hlt hne
  -- the new page is the table of the new index, the other tables stay
  have htable (i t) : TableOf pgdir skip (m.newTable pgdir va p) i t ↔
      if i = pdx va then t = p else TableOf pgdir skip m i t := by
    unfold TableOf
    rw [hdir]
    split
    · rename_i hi
      subst hi
      rw [Function.update_self, pteFrame_tablePde hlt]
      exact ⟨fun ht => ht.2.2.symm, fun ht => ⟨hskip, flag_tablePde_P p, ht.symm⟩⟩
    · rename_i hi
      rw [Function.update_of_ne hi]
  have hframe (i) : pteFrame ((m.newTable pgdir va p).word pgdir i) =
      if i = pdx va then p else pteFrame (m.word pgdir i) := by
    rw [hdir, Function.update_apply]
    split
    · exact pteFrame_tablePde hlt
    · rfl
  refine ⟨⟨⟨l, ?_, hnodup.tail, fun q hq => ?_, ?_⟩, fun i hi => ?_, ?_, ?_⟩, ?_, ?_⟩
  · refine (linked_congr fun q hq => ?_).mpr hl.2
    have hqp : q ≠ p := fun heq => (List.nodup_cons.mp hnodup).1 (heq ▸ hq)
    simp [Mem.newTable, Mem.store, Mem.setRef, Mem.fill, Mem.pop, Mem.setLink, Mem.setFreeList, hqp]
  · have hqp : q ≠ p := fun heq => (List.nodup_cons.mp hnodup).1 (heq ▸ hq)
    obtain ⟨hqlt, hqne, hqfresh⟩ := hmem q (by simp [hq])
    refine ⟨hqlt, hqne, fun i hi => ?_⟩
    rw [htable] at hi
    split at hi
    · exact hqp hi
    · exact hqfresh i hi
  · -- one index less, one free page less
    have hsub : missing pgdir need (m.newTable pgdir va p) ⊆
        (missing pgdir need m).erase (pdx va) := by
      intro i hi
      obtain ⟨hi, hflag⟩ := Finset.mem_filter.mp hi
      rw [hdir] at hflag
      have hne' : i ≠ pdx va := by
        rintro rfl
        rw [Function.update_self] at hflag
        exact hflag (flag_tablePde_P p)
      rw [Function.update_of_ne hne'] at hflag
      exact Finset.mem_erase.mpr ⟨hne', Finset.mem_filter.mpr ⟨hi, hflag⟩⟩
    have hle := Finset.card_le_card hsub
    have hin : pdx va ∈ missing pgdir need m := Finset.mem_filter.mpr ⟨hneed, hP⟩
    rw [Finset.card_erase_of_mem hin] at hle
    rw [List.length_cons] at hcard
    omega
  · rw [hframe]
    split
    · exact hplt
    · exact h.frame_lt i hi
  · intro i t ht
    rw [htable] at ht
    split at ht
    · exact ht ▸ hne
    · exact h.table_ne ht
  · intro i j t hi hj
    rw [htable] at hi hj
    split at hi <;> split at hj
    · simp_all
    · exact absurd (hi ▸ hj) (hfresh j)
    · exact absurd (hj ▸ hi) (hfresh i)
    · exact h.unique hi hj
  · exact (htable _ _).mpr (by simp)
  · funext v
    unfold pteOf
    simp only [hdir]
    -- an entry of the new table is zero, as one of an absent table counts
    by_cases hv : v < 1048576 ∧ Fin.ofNat 1024 (v / 1024) ∉ skip
    · by_cases hi : Fin.ofNat 1024 (v / 1024) = pdx va
      · rw [hi, Function.update_self, pteFrame_tablePde hlt, hzero,
          if_pos ⟨hi ▸ hv, flag_tablePde_P p⟩, if_neg fun hflag => hP hflag.2]
        rfl
      · rw [Function.update_of_ne hi]
        split
        · rename_i hflag
          have ht : TableOf pgdir skip m _ _ := ⟨hv.2, hflag.2, rfl⟩
          rw [hother _ (fun heq => hfresh _ (heq ▸ ht)) (h.table_ne ht)]
        · rfl
    · rw [if_neg fun hflag => hv hflag.1, if_neg fun hflag => hv hflag.1]

theorem walk_absent (h : Tables M pgdir skip need m) (hskip : pdx va ∉ skip)
    (hneed : pdx va ∈ need) (hP : ¬ Flag (m.word pgdir (pdx va)) pteP) : ∃ p m',
      pgdirWalk M pgdir va true m = .ok (some (p, ptx va), m') ∧
      Tables M pgdir skip need m' ∧ TableOf pgdir skip m' (pdx va) p ∧
      m'.word pgdir = Function.update (m.word pgdir) (pdx va) (tablePde p) ∧
      pteOf pgdir skip m' = pteOf pgdir skip m := by
  obtain ⟨l, hl, -, hmem, hcard⟩ := h.list
  cases l with
  | nil =>
      have hin : pdx va ∈ missing pgdir need m := Finset.mem_filter.mpr ⟨hneed, hP⟩
      have hpos := Finset.card_pos.mpr ⟨_, hin⟩
      rw [List.length_nil] at hcard
      omega
  | cons p l =>
      obtain ⟨hplt, hne, -⟩ := hmem p (by simp)
      have hlt : p < 1048576 := hplt.trans_le (M.npages_le.trans (by norm_num))
      have hpde : ¬ M.npages ≤ pgnum (pteAddr (m.word pgdir (pdx va))) :=
        Nat.not_le.mpr (h.frame_lt _ hskip)
      obtain ⟨htables, htable, hpte⟩ := h.newTable hskip hneed hP hl
      refine ⟨p, _, ?_, htables, htable, (newTable_words hlt hne).1, hpte⟩
      have hhead : m.pageFreeList = some p := hl.1
      have hframe : pgnum (frame2pa p) = p := pgnum_frame2pa hlt
      have halloc : pageAlloc M true m = .ok (some p, (m.pop p).fill p fun _ => 0#32) := by
        simp only [pageAlloc, hhead, kaddr, hframe, if_neg (Nat.not_le.mpr hplt)]
        rfl
      simp only [pgdirWalk, kaddr, if_neg hpde, if_neg hP, halloc, bind, Except.bind, hframe,
        if_neg (Nat.not_le.mpr hplt), Mem.newTable]
      rfl

/-! ### Walk and store -/

/-- What a walk may do to the directory: it allocates the page table of the
index, if that is missing. -/
def OnlyTable (pgdir : ℕ) (i : PtIdx) (m m' : Mem n) : Prop :=
  m'.word pgdir = m.word pgdir ∨
    ¬ Flag (m.word pgdir i) pteP ∧
      ∃ p, m'.word pgdir = Function.update (m.word pgdir) i (tablePde p)

theorem OnlyTable.entry (h : OnlyTable pgdir i m m') (hi : i ∉ skip) (j : PtIdx) :
    m'.word pgdir j = m.word pgdir j ∨ j ∉ skip ∧ ∃ p, m'.word pgdir j = tablePde p := by
  rcases h with hsame | ⟨-, p, hnew⟩
  · exact Or.inl (congrFun hsame j)
  · rw [hnew, Function.update_apply]
    split
    · rename_i hj
      exact Or.inr ⟨hj ▸ hi, p, rfl⟩
    · exact Or.inl rfl

theorem OnlyTable.of_ne {j : PtIdx} (h : OnlyTable pgdir i m m') (hj : j ≠ i) :
    m'.word pgdir j = m.word pgdir j := by
  rcases h with hsame | ⟨-, p, hnew⟩
  · rw [hsame]
  · rw [hnew, Function.update_of_ne hj]

/-- The entry of an address is written. -/
theorem walk_write (h : Tables M pgdir skip need m) (hskip : pdx va ∉ skip)
    (hneed : pdx va ∈ need) (w : Word) : ∃ t m₁,
      pgdirWalk M pgdir va true m = .ok (some (t, ptx va), m₁) ∧
      Tables M pgdir skip need (m₁.store t (ptx va) w) ∧
      OnlyTable pgdir (pdx va) m (m₁.store t (ptx va) w) ∧
      pteOf pgdir skip (m₁.store t (ptx va) w) =
        Function.update (pteOf pgdir skip m) (pgnum va) w := by
  by_cases hP : Flag (m.word pgdir (pdx va)) pteP
  · have ht : TableOf pgdir skip m (pdx va) _ := ⟨hskip, hP, rfl⟩
    obtain ⟨h', hdir, hpte⟩ := h.store ht
    exact ⟨_, m, walk_present h ht, h', Or.inl hdir, hpte⟩
  · obtain ⟨p, m₁, hwalk, h₁, ht, hnew, hpte₁⟩ := walk_absent h hskip hneed hP
    obtain ⟨h', hdir, hpte⟩ := h₁.store ht
    refine ⟨p, m₁, hwalk, h', Or.inr ⟨hP, p, hdir.trans hnew⟩, ?_⟩
    rw [hpte, hpte₁]

/-! ### A region -/

/-- The pages from `va` on, mapped to those from `pa` on. -/
def mapped (va pa perm : Word) (k : ℕ) : Region Word :=
  ⟨pgnum va, k, fun i => mkPte (pa + BitVec.ofNat 32 (4096 * i)) perm⟩

theorem pgnum_add_pgsize (h : pgnum va + 1 < 1048576) : pgnum (va + pgsize) = pgnum va + 1 := by
  have hpg : pgsize.toNat = 4096 := rfl
  rw [pgnum_eq] at h
  rw [pgnum_eq, pgnum_eq, BitVec.toNat_add, hpg]
  omega

theorem mapped_succ {k : ℕ} (hk : 0 < k → pgnum va + 1 < 1048576) (f : ℕ → Word) :
    (mapped va pa perm (k + 1)).write f =
      (mapped (va + pgsize) (pa + pgsize) perm k).write
        (Function.update f (pgnum va) (mkPte pa perm)) := by
  have hvalue (i : ℕ) : pa + BitVec.ofNat 32 (4096 * (i + 1)) =
      pa + pgsize + BitVec.ofNat 32 (4096 * i) := by
    have hmul : 4096 * (i + 1) = 4096 + 4096 * i := by omega
    have hpg : pgsize = BitVec.ofNat 32 4096 := by decide
    rw [hmul, BitVec.ofNat_add, BitVec.add_assoc, hpg]
  unfold mapped
  rw [Region.write_succ, Nat.mul_zero, BitVec.add_zero]
  simp only [hvalue]
  cases k with
  | zero => rw [Region.write_empty, Region.write_empty]
  | succ k => rw [pgnum_add_pgsize (hk k.succ_pos)]

/-- The loop of `boot_map_region` writes a region, and keeps to it. -/
theorem bootMapLoop_writes {k : ℕ} (h : Tables M pgdir skip need m)
    (hrange : ∀ v, pgnum va ≤ v → v < pgnum va + k →
      v < 1048576 ∧ Fin.ofNat 1024 (v / 1024) ∉ skip ∧ Fin.ofNat 1024 (v / 1024) ∈ need) :
    ∃ m', bootMapLoop M pgdir perm k va pa m = .ok m' ∧ Tables M pgdir skip need m' ∧
      (∀ i, m'.word pgdir i = m.word pgdir i ∨ i ∉ skip ∧ ∃ p, m'.word pgdir i = tablePde p) ∧
      pteOf pgdir skip m' = (mapped va pa perm k).write (pteOf pgdir skip m) := by
  induction k generalizing va pa m with
  | zero => exact ⟨m, rfl, h, fun _ => Or.inl rfl, (Region.write_empty _ _ _).symm⟩
  | succ k ih =>
      obtain ⟨-, hskip, hneed⟩ := hrange _ le_rfl (by omega)
      rw [div_pgnum] at hskip hneed
      obtain ⟨t, m₁, hwalk, h₁, hdir, hpte⟩ := walk_write h hskip hneed (mkPte pa perm)
      have hloop : bootMapLoop M pgdir perm (k + 1) va pa m =
          bootMapLoop M pgdir perm k (va + pgsize) (pa + pgsize)
            (m₁.store t (ptx va) (mkPte pa perm)) := by
        simp only [bootMapLoop, hwalk]
        rfl
      have hnext (hk : 0 < k) : pgnum va + 1 < 1048576 := (hrange _ (by omega) (by omega)).1
      obtain ⟨m', hm', htables, hsame, hwrite⟩ := ih h₁ fun v hge hlt => by
        have hk : 0 < k := by omega
        rw [pgnum_add_pgsize (hnext hk)] at hge hlt
        exact hrange v (by omega) (by omega)
      refine ⟨m', hloop.trans hm', htables, fun i => ?_, ?_⟩
      · rcases hsame i with hold | hnew
        · rw [hold]
          exact hdir.entry hskip i
        · exact Or.inr hnew
      · rw [hwrite, hpte, ← mapped_succ hnext]

theorem bootMapRegion_eq {size : Word} (hva : va % pgsize = 0) (hpa : pa % pgsize = 0)
    (hsize : size % pgsize = 0) : bootMapRegion M pgdir va size pa perm m =
      bootMapLoop M pgdir perm (pgnum size) va pa m := by
  have hturns : (size / pgsize).toNat = pgnum size := by
    rw [BitVec.toNat_udiv, pgnum_eq]
    rfl
  simp only [bootMapRegion, hva, hpa, hsize, ne_eq, not_true_eq_false, if_false, hturns]

end Jos
