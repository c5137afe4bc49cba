import Jos.Pmap.Insert
import Jos.Pmap.Lookup

/-!
The functions of kern/pmap.c return. Their panics are the checks of a frame
number against `npages` and those of `page_free`, and over memory in order the
first fail only at an entry that leads past the end of memory and the second
never, because a page that is not free has no link.
-/

namespace Jos

open Jos.Lib

variable {n : ℕ} {M : Machine} {L : Layout M} {nullOk : Prop} {held : Option ℕ} {dirs : Dirs}
  {m m' : Mem n} {x : Ctx n} {e : EnvIdx} {i j : PtIdx} {d t p : ℕ} {va w perm : Word}

/-- Memory in order, on a machine that has the VGA buffer; pages that are not
free have no link, and directory entries that are not present are zero. -/
structure Tidy (L : Layout M) (nullOk : Prop) (held : Option ℕ) (dirs : Dirs) (m : Mem n) :
    Prop extends MemInv L nullOk held dirs m where
  unlinked : m.pool.Unlinked
  clear : ∀ {e d}, dirs e = some d → ∀ {i : PtIdx}, (i : ℕ) < 955 →
    ¬ Flag (m.word d i) pteP → m.word d i = 0#32
  vga : vgaFrame < M.npages

/-- The entry that maps `va` in `e` leads to a page of the machine. -/
def NotNull (M : Machine) (m : Mem n) (dirs : Dirs) (e : EnvIdx) (va : Word) : Prop :=
  ∀ w, mapping m.word dirs e (pdx va) (ptx va) = some w → pteFrame w < M.npages

namespace Tidy

theorem counted_lt (h : Tidy L nullOk held dirs m) (hp : L.counted p) : p < M.npages := by
  rcases hp with hpool | rfl
  · exact L.pool_lt hpool
  · exact h.vga

theorem pde_lt (h : Tidy L nullOk held dirs m) (hd : dirs e = some d) (hi : (i : ℕ) < 955) :
    pteFrame (m.word d i) < M.npages := by
  by_cases hP : Flag (m.word d i) pteP
  · have ht : tableAt m.word dirs e i = some (pteFrame (m.word d i)) := by
      rw [tableAt_of_dir hi hd, present_of_flag hP]
      rfl
    exact L.pool_lt (h.tables.table ht)
  · rw [h.clear hd hi hP]
    have hzero : pteFrame 0#32 = 0 := by decide
    have hvga := h.vga
    omega

theorem inMemory (h : Tidy L nullOk held dirs m) (hd : dirs e = some d)
    (hi : (pdx va : ℕ) < 955) (hmap : NotNull M m dirs e va) : InMemory M m d va where
  pde := h.pde_lt hd hi
  pte w hw := hmap w (by rwa [← foundPte_eq_mapping hd hi])

theorem not_inMemory (hd : dirs e = some d) (hi : (pdx va : ℕ) < 955)
    (hmap : ¬ NotNull M m dirs e va) : ¬ InMemory M m d va := fun hin =>
  hmap fun w hw => hin.pte w (by rwa [foundPte_eq_mapping hd hi])

/-- Without null pages every mapping leads to a page of the machine. -/
theorem notNull (h : Tidy L False held dirs m) : NotNull M m dirs e va := fun _ hw =>
  h.counted_lt ((h.tables.page hw).resolve_right fun hnull => hnull.1)

end Tidy

/-! ### Looking up and walking -/

theorem pageLookup_returns (h : Tidy L nullOk held dirs m) (hd : dirs e = some d)
    (hi : (pdx va : ℕ) < 955) (hmap : NotNull M m dirs e va) :
    pageLookup M d va m = .ok ((tableAt m.word dirs e (pdx va)).map (·, ptx va),
      (mapping m.word dirs e (pdx va) (ptx va)).map pteFrame) := by
  rw [pageLookup_found (h.inMemory hd hi hmap), foundPte_eq_mapping hd hi, tableAt_of_dir hi hd,
    Option.map_map]
  rfl

theorem pgdirWalk_table (h : Tidy L nullOk held dirs m) (hd : dirs e = some d)
    (ht : tableAt m.word dirs e (pdx va) = some t) :
    pgdirWalk M d va true m = .ok (some (t, ptx va), m) := by
  have hi := TableInv.user_index ht
  have hlt : ¬ M.npages ≤ pgnum (pteAddr (m.word d (pdx va))) :=
    Nat.not_le.mpr (h.pde_lt hd hi)
  obtain ⟨-, d', hd', hP, rfl⟩ := tableAt_eq_some.mp ht
  obtain rfl := Option.some.inj (hd.symm.trans hd')
  simp only [pgdirWalk, kaddr, if_neg hlt, if_pos hP]
  rfl

theorem pgdirWalk_full (h : Tidy L nullOk held dirs m) (hd : dirs e = some d)
    (hi : (pdx va : ℕ) < 955) (ht : tableAt m.word dirs e (pdx va) = none)
    (hfree : m.pageFreeList = none) : pgdirWalk M d va true m = .ok (none, m) := by
  have hlt : ¬ M.npages ≤ pgnum (pteAddr (m.word d (pdx va))) :=
    Nat.not_le.mpr (h.pde_lt hd hi)
  have hP : ¬ Flag (m.word d (pdx va)) pteP := fun hP => by
    rw [tableAt_of_dir hi hd, present_of_flag hP] at ht
    cases ht
  simp only [pgdirWalk, kaddr, if_neg hlt, if_neg hP, pageAlloc, hfree]
  rfl

/-- A page of the machine that comes first on the free list is allocated. -/
theorem pageAlloc_head (hhead : m.pageFreeList = some p) (hlt : p < M.npages) :
    pageAlloc M true m = .ok (some p, (m.pop p).fill p fun _ => 0#32) := by
  have hframe : pgnum (frame2pa p) = p := pgnum_frame2pa (by
    have hle := M.npages_le
    omega)
  simp only [pageAlloc, hhead, kaddr, hframe, if_neg (Nat.not_le.mpr hlt)]
  rfl

theorem pageAlloc_returns (h : Tidy L nullOk none dirs m) (hhead : m.pageFreeList = some p) :
    pageAlloc M true m = .ok (some p, (m.pop p).fill p fun _ => 0#32) :=
  pageAlloc_head hhead (L.pool_lt (h.refs_of_on (h.counts.on_head hhead)).1)

/-- The walk makes the page a page table. -/
theorem pgdirWalk_alloc (hpde : pteFrame (m.word d (pdx va)) < M.npages)
    (hP : ¬ Flag (m.word d (pdx va)) pteP) (hhead : m.pageFreeList = some p)
    (hlt : p < M.npages) :
    pgdirWalk M d va true m = .ok (some (p, ptx va), m.newTable d va p) := by
  have hframe : pgnum (frame2pa p) = p := pgnum_frame2pa (by
    have hle := M.npages_le
    omega)
  have hpde' : ¬ M.npages ≤ pgnum (pteAddr (m.word d (pdx va))) := Nat.not_le.mpr hpde
  simp only [pgdirWalk, kaddr, if_neg hpde', if_neg hP, pageAlloc_head hhead hlt, bind,
    Except.bind, hframe, if_neg (Nat.not_le.mpr hlt), Mem.newTable]
  rfl

theorem pgdirWalk_new (h : Tidy L nullOk none dirs m) (hd : dirs e = some d)
    (hi : (pdx va : ℕ) < 955) (ht : tableAt m.word dirs e (pdx va) = none)
    (hhead : m.pageFreeList = some p) :
    pgdirWalk M d va true m = .ok (some (p, ptx va), m.newTable d va p) := by
  refine pgdirWalk_alloc (h.pde_lt hd hi) (fun hP => ?_) hhead
    (L.pool_lt (h.refs_of_on (h.counts.on_head hhead)).1)
  rw [tableAt_of_dir hi hd, present_of_flag hP] at ht
  cases ht

/-- The new page table is zeroed, and entered in the directory. -/
theorem word_newTable (hp : p < 1048576) (hne : d ≠ p) :
    (m.newTable d va p).word = Function.update (Function.update m.word p fun _ => 0#32) d
      (Function.update (m.word d) (pdx va) (tablePde p)) := by
  have hframe : pgnum (frame2pa p) = p := pgnum_frame2pa hp
  have hdir : Function.update m.word p (fun _ => 0#32) d = m.word d := Function.update_of_ne hne _ _
  rw [← hdir]
  simp only [Mem.newTable, hframe]
  rfl

/-- The new page table leaves memory tidy. -/
theorem Tidy.newTable (h : Tidy L nullOk none dirs m) (hd : dirs e = some d)
    (hi : (pdx va : ℕ) < 955) (ht : tableAt m.word dirs e (pdx va) = none)
    (hhead : m.pageFreeList = some p) : Tidy L nullOk none dirs (m.newTable d va p) := by
  have hwalk := newTable_spec h.toMemInv hd hi ht hhead
  have hon : m.pool.On p := h.counts.on_head hhead
  have hlt := L.frame_lt (h.refs_of_on hon).1
  refine ⟨hwalk.inv, ?_, fun {e' d'} hd' {i'} hi' hP => ?_, h.vga⟩
  · simp only [Mem.newTable, pool_store, pool_setRef, pool_fill, pool_pop]
    exact (h.unlinked.pop h.counts hhead).setRef
  · have hne {e' : EnvIdx} {d' : ℕ} (hd' : dirs e' = some d') : d' ≠ p := fun heq =>
      h.not_on_of_slot (x := .pgdir e') hd' (heq ▸ hon)
    have hword : (m.newTable d va p).word d' i' =
        if d' = d ∧ i' = pdx va then tablePde p else m.word d' i' := by
      rw [word_newTable hlt (hne hd)]
      by_cases hdd : d' = d
      · subst hdd
        rw [Function.update_self]
        simp [Function.update_apply]
      · rw [Function.update_of_ne hdd, Function.update_of_ne (hne hd')]
        simp [hdd]
    rw [hword] at hP ⊢
    split
    · rename_i heq
      rw [if_pos heq] at hP
      exact absurd (flag_tablePde_P p) hP
    · rename_i heq
      rw [if_neg heq] at hP
      exact h.clear hd' hi' hP

/-! ### Releasing -/

/-- `page_decref` of a page without a link. -/
theorem pageDecref_returns (hlink : (m.pages p).ppLink = none) :
    ∃ m', pageDecref p m = .ok m' := by
  unfold pageDecref
  dsimp only
  split
  · rename_i hzero
    have hlink' : ¬ ((m.setRef p ((m.pages p).ppRef - 1)).pages p).ppLink ≠ none := by
      simpa [Mem.setRef] using hlink
    rw [pageFree, if_neg (not_not.mpr hzero), if_neg hlink']
    exact ⟨_, rfl⟩
  · exact ⟨_, rfl⟩

theorem pageDecref_unlinked {load : ℕ → ℕ} (h : m.pool.Unlinked)
    (hc : m.pool.Counts L.pool L.counted load) (hpos : 0 < load p)
    (hrun : pageDecref p m = .ok m') : m'.pool.Unlinked := by
  rcases pageDecref_eq_ok hrun with ⟨-, rfl⟩ | ⟨-, rfl⟩
  · have hdecr := hc.decr hpos
    have hset : (m.pool.setRef p (m.pool.ref p - 1)).Unlinked := h.setRef
    have hpush := hset.push hdecr (a := p) (by simpa using hc.not_on hpos)
    rwa [← pool_setRef, ← pool_push] at hpush
  · rw [pool_setRef]
    exact h.setRef

theorem pageRemove_absent (h : Tidy L nullOk held dirs m) (hd : dirs e = some d)
    (hi : (pdx va : ℕ) < 955) (hnone : mapping m.word dirs e (pdx va) (ptx va) = none) :
    pageRemove M x d va m = .ok m := by
  have hmap : NotNull M m dirs e va := fun w hw => by
    rw [hnone] at hw
    cases hw
  unfold pageRemove
  rw [pageLookup_returns h hd hi hmap, hnone]
  cases tableAt m.word dirs e (pdx va) <;> rfl

theorem pageRemove_present (h : Tidy L nullOk held dirs m)
    (ht : tableAt m.word dirs e (pdx va) = some t)
    (hw : mapping m.word dirs e (pdx va) (ptx va) = some w) (hlt : pteFrame w < M.npages)
    (hd : dirs e = some d) : ∃ m₁, pageDecref (pteFrame w) m = .ok m₁ ∧
      pageRemove M x d va m = .ok (tlbInvalidate x d va (m₁.store t (ptx va) 0#32)) := by
  have hi := TableInv.user_index ht
  have hmap : NotNull M m dirs e va := fun v hv => by
    rw [hw] at hv
    rwa [← Option.some.inj hv]
  obtain ⟨m₁, hdecref⟩ :=
    pageDecref_returns (h.unlinked (pteFrame w) (h.not_on_page hw))
  refine ⟨m₁, hdecref, bind_eq_ok.mpr ⟨_, pageLookup_returns h hd hi hmap, ?_⟩⟩
  rw [ht, hw]
  exact bind_eq_ok.mpr ⟨m₁, hdecref, rfl⟩

/-- An entry that leads past the end of memory cannot be removed. -/
theorem pageRemove_null (hd : dirs e = some d) (hi : (pdx va : ℕ) < 955)
    (hmap : ¬ NotNull M m dirs e va) : ∃ msg, pageRemove M x d va m = .error msg := by
  obtain ⟨msg, hlook⟩ := pageLookup_outside (Tidy.not_inMemory hd hi hmap)
  refine ⟨msg, ?_⟩
  unfold pageRemove
  rw [hlook]
  rfl

theorem word_tlbInvalidate : (tlbInvalidate x d va m).word = m.word := by
  obtain ⟨tlb, htlb⟩ := tlbInvalidate_eq x d va m
  rw [htlb]

theorem pool_tlbInvalidate : (tlbInvalidate x d va m).pool = m.pool := by
  obtain ⟨tlb, htlb⟩ := tlbInvalidate_eq x d va m
  rw [htlb]
  rfl

theorem word_pageDecref (hrun : pageDecref p m = .ok m') : m'.word = m.word := by
  rcases pageDecref_eq_ok hrun with ⟨-, rfl⟩ | ⟨-, rfl⟩ <;> rfl

/-- The present bits and contents of a directory survive a write to a table. -/
theorem clear_store {m₁ : Mem n} (h : Tidy L nullOk held dirs m)
    (ht : tableAt m.word dirs e (pdx va) = some t)
    (hword : m₁.word = Function.update m.word t (Function.update (m.word t) j w))
    {e' : EnvIdx} {d' : ℕ} (hd' : dirs e' = some d') (hi : (i : ℕ) < 955)
    (hP : ¬ Flag (m₁.word d' i) pteP) : m₁.word d' i = 0#32 := by
  have hne : d' ≠ t := (h.tables.separate.table_ne_dir ht hd').symm
  rw [hword, Function.update_of_ne hne] at hP ⊢
  exact h.clear hd' hi hP

theorem Tidy.removed (h : Tidy L nullOk held dirs m) (hd : dirs e = some d)
    (hi : (pdx va : ℕ) < 955)
    (hbound : ∀ w, mapping m.word dirs e (pdx va) (ptx va) = some w →
      L.counted (pteFrame w) → pageLoad held m.word dirs (pteFrame w) ≤ 65536)
    (hrun : pageRemove M x d va m = .ok m') : Tidy L nullOk held dirs m' := by
  have hspec := pageRemove_spec h.toMemInv hd hi hbound hrun
  cases hw : mapping m.word dirs e (pdx va) (ptx va) with
  | none =>
      rw [pageRemove_absent h hd hi hw] at hrun
      obtain rfl := Except.ok.inj hrun
      exact h
  | some w =>
      obtain ⟨t, ht, -⟩ := mapping_eq_some.mp hw
      have hlt : pteFrame w < M.npages := by
        by_contra hnot
        obtain ⟨msg, herror⟩ := pageRemove_null (x := x) hd hi
          (fun hnull : NotNull M m dirs e va => hnot (hnull w hw))
        rw [herror] at hrun
        cases hrun
      obtain ⟨m₁, hdecref, hremove⟩ := pageRemove_present (x := x) h ht hw hlt hd
      rw [hremove] at hrun
      obtain rfl := Except.ok.inj hrun
      have hword : (tlbInvalidate x d va (m₁.store t (ptx va) 0#32)).word =
          Function.update m.word t (Function.update (m.word t) (ptx va) 0#32) := by
        rw [word_tlbInvalidate, word_store, word_pageDecref hdecref]
      refine ⟨hspec.inv, ?_, fun hd' _ hi' hP => clear_store h ht hword hd' hi' hP, h.vga⟩
      · have hpos : 0 < pageLoad held m.word dirs (pteFrame w) := by
          have hone : 0 < pageRefs m.word dirs (pteFrame w) :=
            refs_pos (i := .page e (pdx va) (ptx va)) (by simp [slotRef, hw])
          unfold pageLoad
          omega
        rw [pool_tlbInvalidate, pool_store]
        exact pageDecref_unlinked h.unlinked h.counts hpos hdecref

/-! ### Inserting -/

/-- The last two steps of `page_insert` are one computation. -/
theorem insert_tail_eq {pp : Option ℕ} :
    (if Flag (m.word t i) pteP then do
        let m ← pageRemove M x d va m
        Except.ok ((0 : Word), m.store t i (mkPte (page2pa M pp) perm))
      else do
        let m ← Except.ok m
        Except.ok ((0 : Word), m.store t i (mkPte (page2pa M pp) perm))) =
    (if Flag (m.word t i) pteP then pageRemove M x d va m else .ok m) >>= fun m =>
      .ok (0, m.store t i (mkPte (page2pa M pp) perm)) := by
  split <;> rfl

/-- The end of `page_insert` writes one word of memory. -/
theorem replace_returns (h : Tidy L nullOk held dirs m) (hd : dirs e = some d)
    (ht : tableAt m.word dirs e (pdx va) = some t) (hmap : NotNull M m dirs e va) :
    ∃ m₃, (if Flag (m.word t (ptx va)) pteP then pageRemove M x d va m else .ok m) = .ok m₃ ∧
      m₃.pool.Unlinked ∧ ∀ w, (m₃.store t (ptx va) w).word =
        Function.update m.word t (Function.update (m.word t) (ptx va) w) := by
  have hfound := mapping_of_table (j := ptx va) ht
  by_cases hP : Flag (m.word t (ptx va)) pteP
  · rw [present_of_flag hP] at hfound
    obtain ⟨m₁, hdecref, hremove⟩ :=
      pageRemove_present (x := x) h ht hfound (hmap _ hfound) hd
    refine ⟨_, (if_pos hP).trans hremove, ?_, fun w => ?_⟩
    · have hpos : 0 < pageLoad held m.word dirs (pteFrame (m.word t (ptx va))) := by
        have hone : 0 < pageRefs m.word dirs (pteFrame (m.word t (ptx va))) :=
          refs_pos (i := .page e (pdx va) (ptx va)) (by simp [slotRef, hfound])
        unfold pageLoad
        omega
      rw [pool_tlbInvalidate, pool_store]
      exact pageDecref_unlinked h.unlinked h.counts hpos hdecref
    · rw [word_store, word_tlbInvalidate, word_store, word_pageDecref hdecref,
        Function.update_idem, Function.update_self, Function.update_idem]
  · exact ⟨m, if_neg hP, h.unlinked, fun w => rfl⟩

theorem Tidy.hold (h : Tidy L nullOk none dirs m) (hoff : ¬ m.pool.On p) :
    Tidy L nullOk (some p) dirs (m.setRef p ((m.pages p).ppRef + 1)) :=
  ⟨hold_spec h.toMemInv hoff, by
    rw [pool_setRef]
    exact h.unlinked.setRef, h.clear, h.vga⟩

/-- `pgdir_walk(.., create)` finds a page table or makes one. -/
theorem pgdirWalk_room (h : Tidy L nullOk none dirs m) (hd : dirs e = some d)
    (hi : (pdx va : ℕ) < 955)
    (hroom : tableAt m.word dirs e (pdx va) ≠ none ∨ m.pageFreeList ≠ none) :
    ∃ t m₁, pgdirWalk M d va true m = .ok (some (t, ptx va), m₁) ∧
      Tidy L nullOk none dirs m₁ ∧ Walked L nullOk dirs e (pdx va) m t m₁ := by
  cases ht : tableAt m.word dirs e (pdx va) with
  | some t => exact ⟨t, m, pgdirWalk_table h hd ht, h, Walked.refl h.toMemInv ht⟩
  | none =>
      obtain ⟨p, hp⟩ := Option.ne_none_iff_exists'.mp (hroom.resolve_left (· ht))
      exact ⟨p, _, pgdirWalk_new h hd hi ht hp, h.newTable hd hi ht hp,
        newTable_spec h.toMemInv hd hi ht hp⟩

theorem pageInsert_full {pp : Option ℕ} (h : Tidy L nullOk none dirs m) (hd : dirs e = some d)
    (hi : (pdx va : ℕ) < 955) (ht : tableAt m.word dirs e (pdx va) = none)
    (hfree : m.pageFreeList = none) : pageInsert M x d pp va perm m = .ok (-eNoMem, m) :=
  bind_eq_ok.mpr ⟨_, pgdirWalk_full h hd hi ht hfree, rfl⟩

/-- With room for a page table, a page in use is entered. -/
theorem pageInsert_returns (h : Tidy L nullOk none dirs m) (hd : dirs e = some d)
    (hi : (pdx va : ℕ) < 955) (hoff : ¬ m.pool.On p)
    (hroom : tableAt m.word dirs e (pdx va) ≠ none ∨ m.pageFreeList ≠ none)
    (hmap : NotNull M m dirs e va) :
    ∃ m', pageInsert M x d (some p) va perm m = .ok (0, m') ∧
      mapping m'.word dirs e (pdx va) (ptx va) = some (mkPte (frame2pa p) perm) := by
  obtain ⟨t, m₁, hwalk, htidy, hwalked⟩ := pgdirWalk_room h hd hi hroom
  have hoff₁ : ¬ m₁.pool.On p := fun hon => hoff (hwalked.on p hon)
  have hhold := htidy.hold hoff₁
  have hmap₁ : NotNull M (m₁.setRef p ((m₁.pages p).ppRef + 1)) dirs e va := fun w hw =>
    hmap w (by rwa [← hwalked.maps])
  obtain ⟨m₃, hreplace, -, hword⟩ := replace_returns (x := x) hhold hd hwalked.table hmap₁
  refine ⟨_, bind_eq_ok.mpr ⟨_, hwalk, bind_eq_ok.mpr ⟨_, rfl,
    insert_tail_eq.trans (bind_eq_ok.mpr ⟨m₃, hreplace, rfl⟩)⟩⟩, ?_⟩
  rw [hword, word_setRef, htidy.tables.separate.mapping_store_page hwalked.table,
    if_pos ⟨rfl, rfl, rfl⟩]
  exact present_of_flag (flag_mkPte_P _ _)

/-- An entry that leads past the end of memory is in the way. -/
theorem pageInsert_null (h : Tidy L nullOk none dirs m) (hd : dirs e = some d)
    (hi : (pdx va : ℕ) < 955)
    (hroom : tableAt m.word dirs e (pdx va) ≠ none ∨ m.pageFreeList ≠ none)
    (hmap : ¬ NotNull M m dirs e va) :
    ∃ msg, pageInsert M x d (some p) va perm m = .error msg := by
  obtain ⟨t, m₁, hwalk, htidy, hwalked⟩ := pgdirWalk_room h hd hi hroom
  have hmap₁ : ¬ NotNull M (m₁.setRef p ((m₁.pages p).ppRef + 1)) dirs e va := fun hnull =>
    hmap fun w hw => hnull w ((hwalked.maps _ _ _).trans hw)
  obtain ⟨msg, hremove⟩ := pageRemove_null (x := x) hd hi hmap₁
  have hP : Flag ((m₁.setRef p ((m₁.pages p).ppRef + 1)).word t (ptx va)) pteP := by
    by_contra hP
    refine hmap₁ fun w hw => ?_
    rw [word_setRef, mapping_of_table hwalked.table] at hw
    rw [word_setRef] at hP
    rw [present_of_not_flag hP] at hw
    cases hw
  refine ⟨msg, (bind_of_ok hwalk).trans ((bind_of_ok rfl).trans ?_)⟩
  exact insert_tail_eq.trans (bind_of_error ((if_pos hP).trans hremove))

/-- With room for a page table `page_insert` returns 0, if it returns. -/
theorem pageInsert_zero {page : Option ℕ} {r : Word} (h : Tidy L nullOk none dirs m)
    (hd : dirs e = some d) (hi : (pdx va : ℕ) < 955)
    (hroom : tableAt m.word dirs e (pdx va) ≠ none ∨ m.pageFreeList ≠ none)
    (hrun : pageInsert M x d page va perm m = .ok (r, m')) : r = 0 := by
  obtain ⟨t, m₁, hwalk, -, -⟩ := pgdirWalk_room h hd hi hroom
  rw [pageInsert, bind_of_ok hwalk] at hrun
  simp only [bind_eq_ok] at hrun
  obtain ⟨m₂, -, hrun⟩ := hrun
  rw [insert_tail_eq] at hrun
  obtain ⟨m₃, -, hrun⟩ := bind_eq_ok.mp hrun
  cases hrun
  rfl

/-! ### Memory stays tidy -/

/-- The contents of a page that is no directory and no table are its own. -/
theorem clear_of_word {q : ℕ} (h : Tidy L nullOk held dirs m) (hq : Plain m.word dirs q)
    (hword : ∀ f, f ≠ q → m'.word f = m.word f) {e' : EnvIdx} {d' : ℕ} (hd' : dirs e' = some d')
    (hi : (i : ℕ) < 955) (hP : ¬ Flag (m'.word d' i) pteP) : m'.word d' i = 0#32 := by
  have hne : d' ≠ q := by
    rintro rfl
    exact hq.dir e' hd'
  rw [hword d' hne] at hP ⊢
  exact h.clear hd' hi hP

theorem Tidy.allocated {z : Bool} (h : Tidy L nullOk none dirs m)
    (hrun : pageAlloc M z m = .ok (some p, m')) : Tidy L nullOk none dirs m' := by
  have hal := pageAlloc_spec h.toMemInv hrun
  refine ⟨hal.inv, ?_, fun hd _ hi hP => clear_of_word h hal.plain hal.word hd hi hP, h.vga⟩
  obtain ⟨hhead, rfl⟩ := pageAlloc_some hrun
  have hpop : (m.pop p).pool.Unlinked := by
    rw [pool_pop]
    exact h.unlinked.pop h.counts hhead
  split
  · exact hpop
  · exact hpop

theorem Tidy.putBack (h : Tidy L nullOk none dirs m) (hpool : L.pool p) (hoff : ¬ m.pool.On p)
    (hunref : pageRefs m.word dirs p = 0) (hrun : pageFree p m = .ok m') :
    Tidy L nullOk none dirs m' := by
  obtain ⟨hinv, hword, -, -⟩ := pageFree_spec h.toMemInv hpool hoff hunref hrun
  refine ⟨hinv, ?_, fun hd _ hi hP => ?_, h.vga⟩
  · unfold pageFree at hrun
    split at hrun
    · cases hrun
    · split at hrun
      · cases hrun
      · cases hrun
        rw [pool_push]
        exact h.unlinked.push h.counts hoff
  · rw [hword] at hP ⊢
    exact h.clear hd hi hP

theorem Tidy.walked {r : Option (ℕ × PtIdx)} (h : Tidy L nullOk none dirs m)
    (hd : dirs e = some d) (hi : (pdx va : ℕ) < 955)
    (hrun : pgdirWalk M d va true m = .ok (r, m')) : Tidy L nullOk none dirs m' := by
  rcases pgdirWalk_true hrun with ⟨-, rfl, -⟩ | ⟨-, rfl, -⟩ | ⟨hP, page, hhead, rfl, -⟩
  · exact h
  · exact h
  · refine h.newTable hd hi ?_ hhead
    rw [tableAt_of_dir hi hd, present_of_not_flag hP]
    rfl

/-- What `replace_returns` says of a run that is given. -/
theorem replace_tidy {m₃ : Mem n} (h : Tidy L nullOk held dirs m) (hd : dirs e = some d)
    (ht : tableAt m.word dirs e (pdx va) = some t)
    (hrun : (if Flag (m.word t (ptx va)) pteP then pageRemove M x d va m else .ok m) = .ok m₃) :
    m₃.pool.Unlinked ∧ ∀ w, (m₃.store t (ptx va) w).word =
      Function.update m.word t (Function.update (m.word t) (ptx va) w) := by
  by_cases hmap : NotNull M m dirs e va
  · obtain ⟨m₄, hrun', hspec⟩ := replace_returns (x := x) h hd ht hmap
    rw [hrun] at hrun'
    obtain rfl := Except.ok.inj hrun'
    exact hspec
  · obtain ⟨msg, hremove⟩ := pageRemove_null (x := x) hd (TableInv.user_index ht) hmap
    by_cases hP : Flag (m.word t (ptx va)) pteP
    · rw [if_pos hP, hremove] at hrun
      cases hrun
    · refine absurd (fun w hw => ?_) hmap
      rw [mapping_of_table ht, present_of_not_flag hP] at hw
      cases hw

/-- Counting the page to be inserted. -/
theorem Tidy.incRef {page : Option ℕ} (h : Tidy L nullOk none dirs m)
    (hoff : ∀ p, page = some p → ¬ m.pool.On p)
    (hcr3 : page = none → Loaded M dirs m x.cpu) (hrun : incRef x page m = .ok m') :
    Tidy L nullOk page dirs m' ∧ ∀ e i, tableAt m'.word dirs e i = tableAt m.word dirs e i := by
  cases page with
  | some p =>
      obtain rfl := Except.ok.inj hrun
      exact ⟨h.hold (hoff p rfl), fun _ _ => rfl⟩
  | none =>
      obtain ⟨hinv, -, htables, -, -, -⟩ := incRef_none h.toMemInv (hcr3 rfl) hrun
      unfold Jos.incRef at hrun
      cases hwrite : kernWritable x.cpu 0#32 m with
      | none => simp [hwrite] at hrun
      | some frame =>
          simp only [hwrite, Except.ok.injEq] at hrun
          subst hrun
          have hzero : (pdx 0#32 : ℕ) < 955 := by decide
          rcases hcr3 rfl with hkern | ⟨e', hd'⟩
          · rw [kernWritable_kernPgdir h.toMemInv hkern hzero] at hwrite
            cases hwrite
          · obtain ⟨-, -, -, -, -, hplain⟩ := kernWritable_spec h.toMemInv hd' hzero hwrite
            refine ⟨⟨hinv, h.unlinked, fun hd _ hi hP => ?_, h.vga⟩, htables⟩
            refine clear_of_word h hplain (fun f hf => ?_) hd hi hP
            exact Function.update_of_ne hf _ _

/-- `page_insert` keeps memory tidy, if it keeps it in order. -/
theorem Tidy.inserted {page : Option ℕ} {r : Word} (h : Tidy L nullOk none dirs m)
    (hd : dirs e = some d) (hi : (pdx va : ℕ) < 955)
    (hoff : ∀ p, page = some p → ¬ m.pool.On p)
    (hcr3 : page = none → Loaded M dirs m x.cpu) (hinv : MemInv L nullOk none dirs m')
    (hrun : pageInsert M x d page va perm m = .ok (r, m')) : Tidy L nullOk none dirs m' := by
  unfold pageInsert at hrun
  simp only [bind_eq_ok] at hrun
  obtain ⟨⟨pte, m₁⟩, hwalk, hrun⟩ := hrun
  have htidy := h.walked hd hi hwalk
  rcases pgdirWalk_spec h.toMemInv hd hi hwalk with ⟨rfl, rfl⟩ | ⟨t, rfl, hwalked⟩
  · cases hrun
    exact h
  · simp only [bind_eq_ok] at hrun
    obtain ⟨m₂, hincr, hrun⟩ := hrun
    have hloaded (hnone : page = none) : Loaded M dirs m₁ x.cpu := by
      unfold Loaded
      rw [hwalked.cr3]
      exact hcr3 hnone
    obtain ⟨htidy₂, htables⟩ := htidy.incRef (fun p hp hon => hoff p hp (hwalked.on p hon))
      hloaded hincr
    rw [insert_tail_eq] at hrun
    obtain ⟨m₃, hreplace, hrun⟩ := bind_eq_ok.mp hrun
    cases hrun
    have ht := (htables e (pdx va)).trans hwalked.table
    obtain ⟨hunlinked, hword⟩ := replace_tidy htidy₂ hd ht hreplace
    exact ⟨hinv, hunlinked, fun hd' _ hi' hP => clear_store htidy₂ ht (hword _) hd' hi' hP, h.vga⟩

/-- A store to a page that is no directory and no table. -/
theorem Tidy.write_plain (h : Tidy L nullOk held dirs m) (hp : Plain m.word dirs p)
    (hcounted : L.counted p) (hpool : m'.pool = m.pool)
    (hword : ∀ q, q ≠ p → m'.word q = m.word q) : Tidy L nullOk held dirs m' := by
  refine ⟨h.toMemInv.write_plain hp hcounted hpool hword, ?_, fun hd _ hi hP => ?_, h.vga⟩
  · rw [hpool]
    exact h.unlinked
  · exact clear_of_word h hp hword hd hi hP

/-- Only the allocator and the contents of memory matter. -/
theorem Tidy.congr (h : Tidy L nullOk held dirs m) (hpool : m'.pool = m.pool)
    (hword : m'.word = m.word) : Tidy L nullOk held dirs m' where
  counts := by
    rw [hpool, hword]
    exact h.counts
  tables := by
    rw [hword]
    exact h.tables
  unlinked := by
    rw [hpool]
    exact h.unlinked
  clear hd _ hi hP := by
    rw [hword] at hP ⊢
    exact h.clear hd hi hP
  vga := h.vga

end Jos
