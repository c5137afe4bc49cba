import Jos.Pmap.Insert

/-!
Whole address spaces: `env_setup_vm` adds one that maps the VGA buffer only,
and the memory part of `env_free` takes one away.
-/

namespace Jos

open Jos.Lib

variable {n : ℕ} {M : Machine} {L : Layout M} {nullOk : Prop} {dirs : Dirs}
  {m m' s : Mem n} {x : Ctx n} {e : EnvIdx} {i j : PtIdx} {b d t p q : ℕ} {va w : Word}

/-! ### Setting up -/

/-- The entry of the VGA buffer in a new address space. -/
def vgaPte : Word := mkPte (frame2pa vgaFrame) (pteP ||| pteU ||| pteW ||| pteMapped)

theorem pteFrame_vgaPte : pteFrame vgaPte = vgaFrame :=
  pteFrame_mkPte vgaFrame_lt (by decide)

/-- `env_setup_vm` made `d` the directory of `e`. -/
structure SetUp (L : Layout M) (nullOk : Prop) (dirs : Dirs) (e : EnvIdx) (d : ℕ)
    (m m' : Mem n) : Prop where
  inv : MemInv L nullOk none (Function.update dirs e (some d)) m'
  wasFree : m.pool.On d
  tables : ∀ e' i, e' ≠ e →
    tableAt m'.word (Function.update dirs e (some d)) e' i = tableAt m.word dirs e' i
  maps : ∀ e' i j, mapping m'.word (Function.update dirs e (some d)) e' i j =
    if e' = e then (if i = pdx vgaUser ∧ j = ptx vgaUser then some vgaPte else none)
    else mapping m.word dirs e' i j
  bounded : ∀ {b}, 0 < b → Bounded L b dirs m → pageLoad none m.word dirs vgaFrame < b →
    Bounded L b (Function.update dirs e (some d)) m'
  cr3 : m'.cr3 = m.cr3
  tlb : ∀ c a, a ∈ m'.tlb c → a ∈ m.tlb c

/-- A page that holds a copy of the kernel's directory becomes the directory of
an environment. -/
theorem newDir_spec (h : MemInv L nullOk none dirs m) (he : dirs e = none) (hp : L.pool p)
    (hoff : ¬ m.pool.On p) (hunref : pageRefs m.word dirs p = 0) :
    let m₁ := ((m.fill p (m.word M.kernPgdir)).setRef p (m.pool.ref p + 1)).store p (pdx uvpt)
      (frame2pa p ||| pteP ||| pteU)
    let dirs' := Function.update dirs e (some p)
    MemInv L nullOk none dirs' m₁ ∧ (∀ i, tableAt m₁.word dirs' e i = none) ∧
      (∀ e' i, e' ≠ e → tableAt m₁.word dirs' e' i = tableAt m.word dirs e' i) ∧
      (∀ e' i j, e' ≠ e → mapping m₁.word dirs' e' i j = mapping m.word dirs e' i j) ∧
      ∀ q, pageRefs m₁.word dirs' q = pageRefs m.word dirs q + hit (some p) q := by
  intro m₁ dirs'
  have hplain : Plain m.word dirs p := plain_of_unref hunref
  have hword (q : ℕ) (hq : q ≠ p) : m₁.word q = m.word q := by
    simp only [m₁, word_store, word_setRef, word_fill, Function.update_of_ne hq]
  have hself (i : PtIdx) : m₁.word p i =
      if i = pdx uvpt then frame2pa p ||| pteP ||| pteU else L.kern M.kernPgdir i := by
    simp only [m₁, word_store, word_setRef, word_fill, Function.update_self,
      Function.update_apply, h.tables.kern L.pgdir_not_counted]
  have htables₁ : TableInv L nullOk m₁.word dirs :=
    h.tables.write_plain hplain (Or.inl hp) hword
  have hrefs₁ (q : ℕ) : pageRefs m₁.word dirs q = pageRefs m.word dirs q :=
    pageRefs_congr (hplain.slotRef hword)
  have hbefore (i : PtIdx) : tableAt m₁.word dirs e i = none := tableAt_of_none he
  have hinv : TableInv L nullOk m₁.word dirs' := by
    refine htables₁.set_dir hbefore fun hv => ?_
    obtain rfl := Option.some.inj hv
    refine ⟨he, hp, (hrefs₁ _).trans hunref, fun {i} => ?_⟩
    split
    · rename_i hi
      have hne : i ≠ pdx uvpt := by
        rintro rfl
        exact absurd hi (by decide)
      rw [hself, if_neg hne]
      exact L.pgdir_user hi
    · exact hself i
  have hafter (i : PtIdx) : tableAt m₁.word dirs' e i = none := by
    by_cases hi : (i : ℕ) < 955
    · have hne : i ≠ pdx uvpt := by
        rintro rfl
        exact absurd hi (by decide)
      rw [tableAt_of_dir hi (Function.update_self _ _ _), hself, if_neg hne, L.pgdir_user hi]
      rfl
    · simp [tableAt, hi]
  have hrefs (q : ℕ) :
      pageRefs m₁.word dirs' q = pageRefs m.word dirs q + hit (some p) q := by
    have hset := pageRefs_set_dir (v := some p) hbefore hafter q
    rw [he, hrefs₁] at hset
    simpa using hset
  have htables (e' i) (he' : e' ≠ e) :
      tableAt m₁.word dirs' e' i = tableAt m.word dirs e' i := by
    rw [← hplain.tableAt hword]
    exact tableAt_congr (Function.update_of_ne he' _ _) fun _ _ => rfl
  refine ⟨⟨?_, hinv⟩, hafter, htables, fun e' i j he' => ?_, hrefs⟩
  · have hincr := h.counts.incr hoff
    have hpool : m₁.pool = m.pool.setRef p (m.pool.ref p + 1) := by
      simp only [m₁, pool_store, pool_setRef, pool_fill]
    rw [hpool]
    have hload : pageLoad none m₁.word dirs' =
        Function.update (pageLoad none m.word dirs) p (pageLoad none m.word dirs p + 1) := by
      refine eq_update_of_gain fun q => ?_
      rw [pageLoad, pageLoad, hrefs, hit_none]
      omega
    rwa [hload]
  · refine mapping_congr (htables e' i he') fun t ht => ?_
    rw [hword]
    rintro rfl
    exact hplain.table e' i ht

theorem envSetupVm_spec (h : MemInv L nullOk none dirs m) (he : dirs e = none)
    (hrun : envSetupVm M x m = .ok (some d, m')) : SetUp L nullOk dirs e d m m' := by
  unfold envSetupVm at hrun
  simp only [bind_eq_ok] at hrun
  obtain ⟨⟨page, m₁⟩, halloc, hrun⟩ := hrun
  cases page with
  | none => cases hrun
  | some p =>
      have hal := pageAlloc_spec h halloc
      simp only [bind_eq_ok, kaddr_eq_ok, pa2page_eq_ok, pgnum_frame2pa (L.frame_lt hal.pool),
        pgnum_vgaPhysaddr] at hrun
      obtain ⟨d', ⟨-, rfl⟩, page, ⟨hvga, rfl⟩, ⟨r, m₂⟩, hinsert, hrun⟩ := hrun
      split at hrun
      · cases hrun
      · rename_i hr
        cases hrun
        obtain rfl : r = 0 := not_not.mp hr
        have hoff₁ : ¬ m₁.pool.On d := fun hon => ((hal.on d).mp hon).2 rfl
        obtain ⟨hinv, hempty, htables, hmaps, hrefs⟩ :=
          newDir_spec (e := e) hal.inv he hal.pool hoff₁ hal.unref
        have hlt : (pdx vgaUser : ℕ) < 955 := by decide
        have hnone : mapping _ (Function.update dirs e (some d)) e (pdx vgaUser) (ptx vgaUser) =
          none := mapping_of_none (hempty (pdx vgaUser))
        have hvgaPlain : Plain _ (Function.update dirs e (some d)) vgaFrame :=
          ⟨fun e' hd => L.pool_ne_vga (hinv.tables.dir hd),
            fun e' i ht => L.pool_ne_vga (hinv.tables.table ht)⟩
        have hins := pageInsert_spec hinv (Function.update_self _ _ _) hlt (Or.inr rfl)
          hvgaPlain (fun hon => L.pool_ne_vga (hinv.refs_of_on hon).1) (by decide)
          (fun v hv => by rw [hnone] at hv; cases hv) hinsert
        have hframe : pteFrame (mkPte (frame2pa vgaFrame)
            (pteP ||| pteU ||| pteW ||| pteMapped)) = vgaFrame := pteFrame_vgaPte
        have hslots (q : ℕ) : pageRefs m₁.word dirs q = pageRefs m.word dirs q :=
          pageRefs_congr hal.slots
        have hplain : Plain m.word dirs d := plain_of_unref ((hslots d).symm.trans hal.unref)
        have hne : vgaFrame ≠ d := by
          rintro rfl
          exact L.pool_ne_vga hal.pool
        refine ⟨hins.inv, hal.wasFree, ?_, ?_, ?_, hins.cr3.trans hal.cr3, ?_⟩
        · intro e' i he'
          rw [hins.otherTables e' i (fun heq => he' heq.1), htables e' i he']
          exact hplain.tableAt hal.word
        · intro e' i j
          rw [hins.maps]
          by_cases he' : e' = e
          · subst he'
            simp only [true_and, if_true]
            split
            · rfl
            · exact mapping_of_none (hempty i)
          · simp only [he', false_and, if_false]
            rw [hmaps e' i j he']
            exact hplain.mapping hal.word
        · intro b hpos hb hroom
          refine hins.bounded hpos (fun q hq => ?_) fun _ => Or.inr ?_
          · have hbq := hb q hq
            unfold pageLoad at hbq ⊢
            rw [hrefs, hslots]
            by_cases hqd : q = d
            · subst hqd
              rw [← hslots, hal.unref, hit_self, if_neg hne.symm]
              simp only [zero_add, hit_none, add_zero]
              omega
            · rw [hit_of_ne (v := some d) (by simpa using fun heq => hqd heq.symm)]
              exact hbq
          · unfold pageLoad at hroom ⊢
            rw [hframe, hrefs, hslots, hit_of_ne (v := some d) (by simpa using hne.symm)]
            exact hroom
        · intro c a ha
          rw [← hal.tlb]
          exact (hins.tlb c a ha).1

/-! ### Taking apart -/

/-- State `s` of memory differs from `m` in the address space of `e` only, which
has been taken apart to some extent. -/
structure Unmapping (L : Layout M) (nullOk : Prop) (b : ℕ) (dirs : Dirs) (e : EnvIdx)
    (m s : Mem n) : Prop where
  inv : MemInv L nullOk none dirs s
  bounded : Bounded L b dirs s
  tables : ∀ e' i', e' ≠ e → tableAt s.word dirs e' i' = tableAt m.word dirs e' i'
  maps : ∀ e' i' j', e' ≠ e → mapping s.word dirs e' i' j' = mapping m.word dirs e' i' j'
  cr3 : s.cr3 = m.cr3
  tlb : ∀ c a, a ∈ s.tlb c → a ∈ m.tlb c

theorem Unmapping.refl (h : MemInv L nullOk none dirs m) (hb : Bounded L b dirs m) :
    Unmapping L nullOk b dirs e m m where
  inv := h
  bounded := hb
  tables _ _ _ := rfl
  maps _ _ _ _ := rfl
  cr3 := rfl
  tlb _ _ := id

theorem Removed.bounded (h : Removed L nullOk none dirs x e d va m s) (hb : Bounded L b dirs m) :
    Bounded L b dirs s := by
  intro q hq
  have hbq := hb q hq
  have hrefs := h.refs q
  unfold pageLoad at hbq ⊢
  omega

theorem Unmapping.remove {s' : Mem n} (h : Unmapping L nullOk b dirs e m s)
    (hr : Removed L nullOk none dirs x e d va s s') : Unmapping L nullOk b dirs e m s' where
  inv := hr.inv
  bounded := hr.bounded h.bounded
  tables e' i' he' := (hr.tables e' i').trans (h.tables e' i' he')
  maps e' i' j' he' := by
    rw [hr.maps, if_neg (fun heq => he' heq.1), h.maps e' i' j' he']
  cr3 := hr.cr3.trans h.cr3
  tlb c a ha := h.tlb c a (hr.tlb c a ha).1

/-- The inner loop of `env_free` with the entries `l` still to be looked at:
the others of this table are clear. -/
structure TableLoop (L : Layout M) (nullOk : Prop) (b : ℕ) (dirs : Dirs) (e : EnvIdx) (i : PtIdx)
    (t : ℕ) (m : Mem n) (l : List PtIdx) (s : Mem n) : Prop extends
    Unmapping L nullOk b dirs e m s where
  table : tableAt s.word dirs e i = some t
  own : ∀ i', tableAt s.word dirs e i' = tableAt m.word dirs e i'
  clear : ∀ j, j ∉ l → mapping s.word dirs e i j = none

theorem envFreePte_step {l : List PtIdx} (h : TableLoop L nullOk b dirs e i t m (j :: l) s)
    (hb : b ≤ 65536) (hd : dirs e = some d) (hrun : envFreePte M x d i t s j = .ok m') :
    TableLoop L nullOk b dirs e i t m l m' := by
  have hi : (i : ℕ) < 955 := TableInv.user_index h.table
  unfold envFreePte at hrun
  split at hrun
  · have hremoved := pageRemove_spec (e := e) h.inv hd (by simpa using hi)
      (fun v _ hv => (h.bounded _ hv).trans hb) hrun
    refine ⟨h.toUnmapping.remove hremoved, ?_, ?_, fun j' hj' => ?_⟩
    · rw [hremoved.tables, h.table]
    · intro i'
      rw [hremoved.tables, h.own]
    · rw [hremoved.maps]
      split
      · rfl
      · rename_i hne
        refine h.clear j' fun hmem => ?_
        rcases List.mem_cons.mp hmem with rfl | hmem
        · exact hne (by simp)
        · exact hj' hmem
  · rename_i hP
    cases hrun
    refine ⟨h.toUnmapping, h.table, h.own, fun j' hj' => ?_⟩
    by_cases hjj : j' = j
    · subst hjj
      rw [mapping_of_table h.table, present_of_not_flag hP]
    · exact h.clear j' (by simp [hjj, hj'])

/-- Dropping a page table whose entries are clear. -/
theorem dropTable_spec {s' : Mem n} (h : Unmapping L nullOk b dirs e m s)
    (hd : dirs e = some d) (ht : tableAt s.word dirs e i = some t)
    (hclear : ∀ j, mapping s.word dirs e i j = none)
    (hrun : pageDecref t (s.store d i 0#32) = .ok s') :
    Unmapping L nullOk b dirs e m s' ∧
      ∀ i', tableAt s'.word dirs e i' = if i' = i then none else tableAt s.word dirs e i' := by
  have hi : (i : ℕ) < 955 := TableInv.user_index ht
  have hsep := h.inv.tables.separate
  have hpool := h.inv.tables.table ht
  have hvga : t ≠ vgaFrame := by
    rintro rfl
    exact L.pool_ne_vga hpool
  set word' := Function.update s.word d (Function.update (s.word d) i 0#32) with hword'
  have htables (e' i') : tableAt word' dirs e' i' =
      if e' = e ∧ i' = i then none else tableAt s.word dirs e' i' := by
    rw [hsep.tableAt_store_pde hd hi, present_zero]
    rfl
  have hafter (j) : mapping word' dirs e i j = none := mapping_of_none (by simp [htables])
  have hrefs (q : ℕ) : pageRefs word' dirs q + hit (some t) q = pageRefs s.word dirs q := by
    have hstore := hsep.pageRefs_store_pde hd hi hclear hafter q
    rw [ht, present_zero] at hstore
    simpa using hstore
  have hload : pageLoad none s.word dirs t = 1 := by
    rw [pageLoad, hsep.table ht, if_neg hvga, hit_none]
  obtain ⟨hcounts, hword, hcr3, htlb⟩ := pageDecref_spec
    (m := s.store d i 0#32) (L := L) ((pool_store s d i _).symm ▸ h.inv.counts) (Or.inl hpool)
    (by omega) (by omega) (fun _ => hpool) hrun
  have hs' : s'.word = word' := hword
  have hload' : pageLoad none word' dirs =
      Function.update (pageLoad none s.word dirs) t (pageLoad none s.word dirs t - 1) := by
    refine eq_update_of_drop fun q => ?_
    have hq := hrefs q
    rw [pageLoad, pageLoad, hit_none]
    omega
  refine ⟨⟨⟨?_, ?_⟩, ?_, ?_, ?_, hcr3.trans h.cr3, ?_⟩, ?_⟩
  · rw [hs', hload']
    exact hcounts
  · rw [hs']
    exact h.inv.tables.store_pde hd hi hclear (fun hP => absurd hP (not_flag_zero _))
      (fun hP => absurd hP (not_flag_zero _))
  · intro q hq
    have hbq := h.bounded q hq
    have hq' := hrefs q
    rw [hs']
    unfold pageLoad at hbq ⊢
    omega
  · intro e' i' he'
    rw [hs', htables, if_neg (fun heq => he' heq.1), h.tables e' i' he']
  · intro e' i' j' he'
    rw [hs', hsep.mapping_store_pde_of_ne hd hi (fun heq => he' heq.1), h.maps e' i' j' he']
  · intro c a ha
    rw [htlb] at ha
    exact h.tlb c a ha
  · intro i'
    rw [hs', htables]
    simp

/-- The outer loop of `env_free` with the directory entries `l` still to be
looked at: the others are clear. -/
structure DirLoop (L : Layout M) (nullOk : Prop) (b : ℕ) (dirs : Dirs) (e : EnvIdx) (m : Mem n)
    (l : List PtIdx) (s : Mem n) : Prop extends Unmapping L nullOk b dirs e m s where
  clear : ∀ i, i ∉ l → tableAt s.word dirs e i = none

theorem envFreePde_step {l : List PtIdx} (h : DirLoop L nullOk b dirs e m (i :: l) s)
    (hb : b ≤ 65536) (hd : dirs e = some d) (hi : (i : ℕ) < 955)
    (hrun : envFreePde M x d s i = .ok m') :
    DirLoop L nullOk b dirs e m l m' := by
  have htable : tableAt s.word dirs e i = (present (s.word d i)).map pteFrame :=
    tableAt_of_dir hi hd
  unfold envFreePde at hrun
  split at hrun
  · rename_i hP
    cases hrun
    refine ⟨h.toUnmapping, fun i' hi' => ?_⟩
    by_cases hii : i' = i
    · rw [hii, htable, present_of_not_flag hP]
      rfl
    · exact h.clear i' (by simp [hii, hi'])
  · rename_i hP
    simp only [bind_eq_ok, kaddr_eq_ok, pa2page_eq_ok] at hrun
    obtain ⟨t, ⟨-, rfl⟩, s₁, hloop, pp, ⟨-, rfl⟩, hdecref⟩ := hrun
    rw [present_of_flag (not_not.mp hP), Option.map_some] at htable
    have hinner : TableLoop L nullOk b dirs e i (pteFrame (s.word d i)) s [] s₁ :=
      foldlM_induct (I := TableLoop L nullOk b dirs e i (pteFrame (s.word d i)) s)
        (fun j l s u hs hu => envFreePte_step hs hb hd hu)
        ⟨Unmapping.refl h.inv h.bounded, htable, fun _ => rfl,
          fun j hj => absurd (List.mem_finRange j) hj⟩ hloop
    have hsofar : Unmapping L nullOk b dirs e m s₁ :=
      { inv := hinner.inv
        bounded := hinner.bounded
        tables := fun e' i' he' => (hinner.tables e' i' he').trans (h.tables e' i' he')
        maps := fun e' i' j' he' => (hinner.maps e' i' j' he').trans (h.maps e' i' j' he')
        cr3 := hinner.cr3.trans h.cr3
        tlb := fun c a ha => h.tlb c a (hinner.tlb c a ha) }
    obtain ⟨hun, hdrop⟩ := dropTable_spec hsofar hd hinner.table
      (fun j => hinner.clear j (by simp)) hdecref
    refine ⟨hun, fun i' hi' => ?_⟩
    rw [hdrop]
    split
    · rfl
    · rename_i hii
      rw [hinner.own]
      exact h.clear i' (by simp [hii, hi'])

theorem mem_userPdes : i ∈ userPdes ↔ (i : ℕ) < 955 := by
  unfold userPdes
  rw [List.mem_map]
  constructor
  · rintro ⟨k, -, rfl⟩
    exact k.isLt
  · exact fun hi => ⟨⟨i, hi⟩, List.mem_finRange _, rfl⟩

/-- `env_free` gave back the address space of `e`. -/
structure TornDown (L : Layout M) (nullOk : Prop) (b : ℕ) (dirs : Dirs) (e : EnvIdx)
    (m m' : Mem n) : Prop where
  inv : MemInv L nullOk none (Function.update dirs e none) m'
  bounded : Bounded L b (Function.update dirs e none) m'
  tables : ∀ e' i, tableAt m'.word (Function.update dirs e none) e' i =
    if e' = e then none else tableAt m.word dirs e' i
  maps : ∀ e' i j, mapping m'.word (Function.update dirs e none) e' i j =
    if e' = e then none else mapping m.word dirs e' i j
  cr3 : m'.cr3 = m.cr3
  tlb : ∀ c a, a ∈ m'.tlb c → a ∈ m.tlb c

theorem envFreeMem_spec (h : MemInv L nullOk none dirs m) (hb : Bounded L b dirs m)
    (hle : b ≤ 65536) (hd : dirs e = some d) (hrun : envFreeMem M x d m = .ok m') :
    TornDown L nullOk b dirs e m m' := by
  have hpool := h.tables.dir hd
  have hvga : d ≠ vgaFrame := by
    rintro rfl
    exact L.pool_ne_vga hpool
  unfold envFreeMem at hrun
  simp only [bind_eq_ok, pa2page_eq_ok, pgnum_frame2pa (L.frame_lt hpool)] at hrun
  obtain ⟨s, hloop, pp, ⟨-, hpp⟩, hdecref⟩ := hrun
  rw [hpp] at hdecref
  -- the loop keeps in mind that what is left to visit lies below `UTOP`
  have houter : DirLoop L nullOk b dirs e m [] s := by
    have hinduct := foldlM_induct
      (I := fun l s => DirLoop L nullOk b dirs e m l s ∧ ∀ i ∈ l, (i : ℕ) < 955)
      (fun i l s u hs hu => ⟨envFreePde_step hs.1 hle hd (hs.2 i (by simp)) hu,
        fun i' hi' => hs.2 i' (by simp [hi'])⟩)
      ⟨⟨Unmapping.refl h hb, fun i hi => ?_⟩, fun i hi => mem_userPdes.mp hi⟩ hloop
    · exact hinduct.1
    · simp [tableAt, show ¬ (i : ℕ) < 955 from fun hlt => hi (mem_userPdes.mpr hlt)]
  have hbefore (i : PtIdx) : tableAt s.word dirs e i = none := houter.clear i (by simp)
  have hafter (i : PtIdx) : tableAt s.word (Function.update dirs e none) e i = none :=
    tableAt_of_none (Function.update_self _ _ _)
  have hrefs (q : ℕ) : pageRefs s.word (Function.update dirs e none) q + hit (some d) q =
      pageRefs s.word dirs q := by
    have hset := pageRefs_set_dir hbefore hafter q
    rw [hd] at hset
    simpa using hset
  have hload : pageLoad none s.word dirs d = 1 := by
    rw [pageLoad, houter.inv.tables.separate.dir hd, if_neg hvga, hit_none]
  obtain ⟨hcounts, hword, hcr3, htlb⟩ := pageDecref_spec houter.inv.counts (Or.inl hpool)
    (by omega) (by omega) (fun _ => hpool) hdecref
  -- the directory itself loses its only reference
  have hload' : pageLoad none s.word (Function.update dirs e none) =
      Function.update (pageLoad none s.word dirs) d (pageLoad none s.word dirs d - 1) := by
    refine eq_update_of_drop fun q => ?_
    have hq := hrefs q
    rw [pageLoad, pageLoad, hit_none]
    omega
  have htables (e' i) : tableAt s.word (Function.update dirs e none) e' i =
      if e' = e then none else tableAt m.word dirs e' i := by
    by_cases he' : e' = e
    · rw [if_pos he', he', hafter]
    · rw [if_neg he', ← houter.tables e' i he']
      exact tableAt_congr (Function.update_of_ne he' _ _) fun _ _ => rfl
  constructor
  · refine ⟨?_, ?_⟩
    · rw [hword, hload']
      exact hcounts
    · rw [hword]
      exact houter.inv.tables.set_dir hbefore (fun hv => by cases hv)
  · intro q hq
    have hbq := houter.bounded q hq
    have hq' := hrefs q
    rw [hword]
    unfold pageLoad at hbq ⊢
    omega
  · intro e' i
    rw [hword, htables]
  · intro e' i j
    rw [hword]
    by_cases he' : e' = e
    · rw [if_pos he', he']
      exact mapping_of_none (hafter i)
    · rw [if_neg he', ← houter.maps e' i j he']
      refine mapping_congr ?_ fun _ _ => rfl
      rw [htables, if_neg he', houter.tables e' i he']
  · exact hcr3.trans houter.cr3
  · intro c a ha
    rw [htlb] at ha
    exact houter.tlb c a ha

end Jos
