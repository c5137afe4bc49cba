import Jos.Pmap.BootMap

/-!
Which pages `page_init` frees. The loop takes the end of base memory from the
constant `IOPHYSMEM`, not from the size that the NVRAM reports, so the pages
between the two go on the free list as well.
-/

namespace Jos

open Jos.Lib

variable {n : ℕ} {m : Mem n} {start len lim : ℕ}

/-- `npages_basemem`, from the size of base memory in kilobytes. -/
def npagesBasemem (basemem : BitVec 16) : ℕ := basemem.toNat / 4

/-- `page_init` with any number of pages. -/
def pageInitUpTo (npages limSupKernmem : ℕ) (m : Mem n) : Mem n :=
  (List.range' 1 (npages - 1)).foldl (pageInitStep limSupKernmem) m

theorem pageInit_upTo (M : Machine) (lim : ℕ) (m : Mem n) :
    pageInit M lim m = pageInitUpTo M.npages lim m := rfl

/-- The pages that the comment in `page_init` calls free. -/
def Usable (npages basemem lim i : ℕ) : Prop :=
  i ≠ pgnum mpentryPaddr ∧ (1 ≤ i ∧ i < basemem ∨ lim ≤ i ∧ i < npages)

/-- The free list holds the usable pages, each once and without a reference. -/
def FreesUsable (npages basemem lim : ℕ) (m : Mem n) : Prop :=
  ∃ l, Linked (fun p => (m.pages p).ppLink) m.pageFreeList l ∧ l.Nodup ∧
    (∀ i, i ∈ l ↔ Usable npages basemem lim i) ∧ ∀ i ∈ l, (m.pages i).ppRef = 0

theorem pageInitStep_ref (i j : ℕ) : ((pageInitStep lim m i).pages j).ppRef =
    if j = i then (if Reserved lim i then 1 else 0) else (m.pages j).ppRef := by
  unfold pageInitStep
  by_cases hij : j = i
  · subst hij
    by_cases hres : Reserved lim j
    · have hres' : pgnum iophysmem ≤ j ∧ j < lim ∨ j = pgnum mpentryPaddr := hres
      simp [hres, hres', Mem.setRef]
    · have hres' : ¬ (pgnum iophysmem ≤ j ∧ j < lim ∨ j = pgnum mpentryPaddr) := hres
      simp [hres, hres', Mem.setRef, Mem.setLink, Mem.setFreeList]
  · split <;> simp [hij, Mem.setRef, Mem.setLink, Mem.setFreeList]

/-- The counts after the loop. -/
theorem pageInit_ref (j : ℕ) :
    (((List.range' start len).foldl (pageInitStep lim) m).pages j).ppRef =
      if start ≤ j ∧ j < start + len then (if Reserved lim j then 1 else 0)
      else (m.pages j).ppRef := by
  induction len generalizing start m with
  | zero => simp
  | succ len ih =>
      rw [List.range'_succ, List.foldl_cons, ih, pageInitStep_ref]
      by_cases hj : j = start
      · subst hj
        simp
      · rw [if_neg hj]
        have hiff : start + 1 ≤ j ∧ j < start + 1 + len ↔
            start ≤ j ∧ j < start + (len + 1) := by omega
        simp only [hiff]

/-- The pages on the free list after `page_init`, each with count zero. -/
theorem pageInitUpTo_list (npages lim : ℕ) (m : Mem n) : ∃ l,
    Linked (fun p => ((pageInitUpTo npages lim m.cleared).pages p).ppLink)
      (pageInitUpTo npages lim m.cleared).pageFreeList l ∧ l.Nodup ∧
    (∀ i, i ∈ l ↔ (1 ≤ i ∧ i < npages) ∧ ¬ Reserved lim i) ∧
    ∀ i ∈ l, ((pageInitUpTo npages lim m.cleared).pages i).ppRef = 0 := by
  obtain ⟨hl, -⟩ := @pageInit_list _ m.cleared lim 1 (npages - 1) [] rfl (by simp)
  have hmem (i : ℕ) : i ∈ ((List.range' 1 (npages - 1)).filter fun i => ¬ Reserved lim i).reverse ++
      [] ↔ (1 ≤ i ∧ i < npages) ∧ ¬ Reserved lim i := by
    simp only [List.append_nil, List.mem_reverse, List.mem_filter, List.mem_range'_1,
      decide_eq_true_eq]
    refine and_congr_left fun _ => ?_
    omega
  refine ⟨_, hl, ?_, hmem, fun i hi => ?_⟩
  · rw [List.append_nil]
    exact List.nodup_reverse.mpr (List.Nodup.filter _ (List.nodup_range' ..))
  · have hi' := (hmem i).mp hi
    rw [pageInitUpTo, pageInit_ref, if_pos (by omega), if_neg hi'.2]

theorem freesUsable_iff (npages base lim : ℕ) (m : Mem n) :
    FreesUsable npages base lim (pageInitUpTo npages lim m.cleared) ↔
      ∀ i, (1 ≤ i ∧ i < npages) ∧ ¬ Reserved lim i ↔ Usable npages base lim i := by
  obtain ⟨l, hl, hnodup, hmem, href⟩ := pageInitUpTo_list npages lim m
  constructor
  · rintro ⟨l', hl', -, hmem', -⟩ i
    rw [← hmem, ← hmem', hl'.unique hl]
  · exact fun h => ⟨l, hl, hnodup, fun i => (hmem i).trans (h i), href⟩

/-- Base memory is part of all memory, and any other lies above the I/O hole. -/
theorem i386DetectMemory_ge (basemem extmem ext16 : BitVec 16) :
    i386DetectMemory basemem extmem ext16 = npagesBasemem basemem ∨
      256 ≤ i386DetectMemory basemem extmem ext16 := by
  unfold i386DetectMemory npagesBasemem
  dsimp only
  split
  · exact Or.inr (by omega)
  · split
    · exact Or.inr (by omega)
    · exact Or.inl rfl

/-- The list is right if base memory ends at the I/O hole, or there is no other
memory. -/
theorem page_init_usable (basemem extmem ext16 : BitVec 16) (lim : ℕ) (m : Mem n)
    (hbase : npagesBasemem basemem ≤ pgnum iophysmem) (hlim : pgnum extphysmem ≤ lim) :
    FreesUsable (i386DetectMemory basemem extmem ext16) (npagesBasemem basemem) lim
        (pageInitUpTo (i386DetectMemory basemem extmem ext16) lim m.cleared) ↔
      npagesBasemem basemem = pgnum iophysmem ∨
        i386DetectMemory basemem extmem ext16 = npagesBasemem basemem := by
  have hmem := i386DetectMemory_ge basemem extmem ext16
  have hio : pgnum iophysmem = 160 := rfl
  have hmp : pgnum mpentryPaddr = 7 := rfl
  have hext : pgnum extphysmem = 256 := rfl
  rw [freesUsable_iff]
  simp only [Usable, Reserved, hio, hmp]
  constructor
  · intro hall
    by_contra hnot
    -- page 159 is free, and beyond base memory
    have hlast := hall 159
    omega
  · intro hcond i
    omega

theorem page_init_usable_640 : ∃ m : Mem 1,
    FreesUsable (i386DetectMemory 640 7168 0) (npagesBasemem 640) 441
      (pageInitUpTo (i386DetectMemory 640 7168 0) 441 m.cleared) :=
  ⟨⟨fun _ => ⟨none, 0⟩, none, fun _ _ => 0, fun _ => 0, fun _ => []⟩,
    (page_init_usable 640 7168 0 441 _ (by decide) (by decide)).mpr (Or.inl (by decide))⟩

/-- A machine whose BIOS keeps the last kilobyte of base memory. -/
theorem not_page_init_usable : ¬ ∀ (basemem extmem ext16 : BitVec 16) (lim : ℕ) (m : Mem 1),
    npagesBasemem basemem ≤ pgnum iophysmem → pgnum extphysmem ≤ lim →
      FreesUsable (i386DetectMemory basemem extmem ext16) (npagesBasemem basemem) lim
        (pageInitUpTo (i386DetectMemory basemem extmem ext16) lim m.cleared) := by
  intro hall
  have h := hall 639 7168 0 441 ⟨fun _ => ⟨none, 0⟩, none, fun _ _ => 0, fun _ => 0, fun _ => []⟩
    (by decide) (by decide)
  have hlast := ((freesUsable_iff _ _ _ _).mp h 159).mp ⟨by decide, by decide⟩
  exact absurd hlast.2 (by decide)

end Jos
