import Jos.Pmap.Loading
import Jos.Pmap.Release

/-!
What the functions of kern/pmap.c do to the pages that they are not about. The
contents of a page in use stay, and no page is lost: a page of the allocator
that nothing refers to is on the free list, or in the hands of the function
that has just taken it off.
-/

namespace Jos

open Jos.Lib

variable {n : ℕ} {M : Machine} {L : Layout M} {nullOk : Prop} {held : Option ℕ}
  {dirs dirs' : Dirs} {m m' m₁ : Mem n} {x : Ctx n} {c : Fin n} {e : EnvIdx} {i j : PtIdx}
  {b d t p q : ℕ} {va w perm : Word}

/-- Every page that has no reference is on the free list, but for `held`. -/
def NoneLost (L : Layout M) (held : Option ℕ) (dirs : Dirs) (m : Mem n) : Prop :=
  ∀ p, L.pool p → pageLoad held m.word dirs p = 0 → m.pool.On p

/-- Pages in use, neither directories nor tables, keep their contents. -/
def KeepsContents (dirs : Dirs) (m m' : Mem n) : Prop :=
  ∀ f, ¬ m.pool.On f → Plain m.word dirs f → m'.word f = m.word f

namespace NoneLost

theorem congr (h : NoneLost L held dirs m) (hpool : m'.pool = m.pool)
    (hslots : slotRef m'.word dirs' = slotRef m.word dirs) : NoneLost L held dirs' m' := by
  intro p hp hload
  rw [hpool]
  refine h p hp ?_
  unfold pageLoad pageRefs at hload ⊢
  rwa [hslots] at hload

/-- A page that is referred to may as well be held. -/
theorem hold (h : NoneLost L none dirs m) : NoneLost L held dirs m := by
  intro p hp hload
  refine h p hp ?_
  unfold pageLoad at hload ⊢
  rw [hit_none]
  omega

/-- What comes free goes on the list. -/
theorem released (h : NoneLost L held dirs m)
    (hreleased : m.pool.Released m'.pool (pageLoad held m.word dirs)
      (pageLoad held m'.word dirs')) : NoneLost L held dirs' m' := by
  intro p hp hload
  refine (hreleased.on p).mpr ?_
  by_cases hzero : pageLoad held m.word dirs p = 0
  · exact Or.inl (h p hp hzero)
  · exact Or.inr ⟨Nat.pos_of_ne_zero hzero, hload⟩

theorem allocated {z : Bool} (h : NoneLost L none dirs m)
    (hal : Allocated L nullOk dirs z m p m') : NoneLost L (some p) dirs m' := by
  intro q hq hload
  have hne : q ≠ p := by
    rintro rfl
    simp [pageLoad] at hload
  refine (hal.on q).mpr ⟨h q hq ?_, hne⟩
  unfold pageLoad at hload ⊢
  rw [hal.refs] at hload
  rw [hit_none]
  omega

/-- Putting back the page that is held. -/
theorem putBack (h : NoneLost L (some p) dirs m) (hinv : MemInv L nullOk none dirs m)
    (hoff : ¬ m.pool.On p) (hrun : pageFree p m = .ok m') : NoneLost L none dirs m' := by
  obtain rfl : m' = (m.setLink p m.pageFreeList).setFreeList (some p) := by
    unfold pageFree at hrun
    split at hrun
    · cases hrun
    · split at hrun
      · cases hrun
      · exact (Except.ok.inj hrun).symm
  intro q hq hload
  rw [pool_push]
  refine (hinv.counts.on_push hoff).mpr ?_
  by_cases hqp : q = p
  · exact Or.inr hqp
  · refine Or.inl (h q hq ?_)
    unfold pageLoad at hload ⊢
    rw [hit_none, add_zero] at hload
    rwa [hit_of_ne (v := some p) (by simpa using fun heq => hqp heq.symm), add_zero]

/-- A new page table is taken off the list and referred to. -/
theorem walked (h : NoneLost L held dirs m) (hwalked : Walked L nullOk dirs e i m t m')
    (hon : ∀ q, m.pool.On q → q = t ∨ m'.pool.On q) : NoneLost L held dirs m' := by
  intro q hq hload
  have hne : q ≠ t := by
    rintro rfl
    have hpos : 0 < pageRefs m'.word dirs q :=
      refs_pos (i := Slot.table e i) hwalked.table
    unfold pageLoad at hload
    omega
  by_contra hoff
  have hwas : ¬ m.pool.On q := fun hq' => (hon q hq').elim hne hoff
  refine hwas (h q hq ?_)
  unfold pageLoad at hload ⊢
  rwa [← hwalked.refs q hwas]

end NoneLost

/-! ### Walking and removing -/

/-- What `pgdir_walk(.., create)` takes off the free list is the page table. -/
theorem on_newTable (h : MemInv L nullOk none dirs m) (hhead : m.pageFreeList = some p)
    (hon : m.pool.On q) : q = p ∨ (m.newTable d va p).pool.On q := by
  by_cases hqp : q = p
  · exact Or.inl hqp
  · have hpop : (m.pop p).pool.On q := by
      rw [pool_pop]
      exact (h.counts.on_pop hhead).mpr ⟨hon, hqp⟩
    have hpool : (m.newTable d va p).pool = (m.pop p).pool.setRef p ((m.pop p).pool.ref p + 1) := by
      simp only [Mem.newTable, pool_store, pool_setRef, pool_fill]
      rfl
    rw [hpool, Pool.on_setRef]
    exact Or.inr hpop

/-- `pgdir_walk(.., create)` loses no page, and changes the contents of the
directory and of the new table only. -/
theorem pgdirWalk_keeps {r : Option (ℕ × PtIdx)} (h : MemInv L nullOk none dirs m)
    (hd : dirs e = some d) (hi : (pdx va : ℕ) < 955)
    (hrun : pgdirWalk M d va true m = .ok (r, m')) :
    (NoneLost L held dirs m → NoneLost L held dirs m') ∧
      ∀ f, ¬ m.pool.On f → f ≠ d → m'.word f = m.word f := by
  rcases pgdirWalk_true hrun with ⟨-, rfl, -⟩ | ⟨-, rfl, -⟩ | ⟨hP, page, hhead, rfl, -⟩
  · exact ⟨id, fun _ _ _ => rfl⟩
  · exact ⟨id, fun _ _ _ => rfl⟩
  · have hon := h.counts.on_head hhead
    have hlt := L.frame_lt (h.refs_of_on hon).1
    have hnone : tableAt m.word dirs e (pdx va) = none := by
      rw [tableAt_of_dir hi hd, present_of_not_flag hP]
      rfl
    have hwalked := newTable_spec h hd hi hnone hhead
    refine ⟨fun hlost => hlost.walked hwalked fun q hq => on_newTable h hhead hq,
      fun f hoff hfd => ?_⟩
    have hfp : f ≠ page := by
      rintro rfl
      exact hoff hon
    simp only [Mem.newTable, word_store, word_setRef, word_fill, pgnum_frame2pa hlt,
      Function.update_of_ne hfd, Function.update_of_ne hfp]
    rfl

/-- `page_remove` releases the page that was mapped, and writes to the page
table only. -/
theorem pageRemove_keeps (h : MemInv L nullOk held dirs m) (hd : dirs e = some d)
    (hi : (pdx va : ℕ) < 955)
    (hbound : ∀ w, mapping m.word dirs e (pdx va) (ptx va) = some w →
      L.counted (pteFrame w) → pageLoad held m.word dirs (pteFrame w) ≤ 65536)
    (hrun : pageRemove M x d va m = .ok m') :
    m.pool.Released m'.pool (pageLoad held m.word dirs) (pageLoad held m'.word dirs) ∧
      ∀ f, tableAt m.word dirs e (pdx va) ≠ some f → m'.word f = m.word f := by
  have hremoved := pageRemove_spec h hd hi hbound hrun
  unfold pageRemove at hrun
  simp only [bind_eq_ok] at hrun
  obtain ⟨⟨pte, page⟩, hlook, hrun⟩ := hrun
  obtain ⟨hpte, hpage, hlt⟩ := pageLookup_spec hd hi hlook
  cases hw : mapping m.word dirs e (pdx va) (ptx va) with
  | none =>
      rw [hw] at hpage
      subst hpage
      cases pte <;> (cases hrun; exact ⟨.refl _ _, fun _ _ => rfl⟩)
  | some w =>
      obtain ⟨t, ht, -⟩ := mapping_eq_some.mp hw
      rw [hw] at hpage
      rw [ht] at hpte
      subst hpage hpte
      simp only [Option.map_some, bind_eq_ok] at hrun
      obtain ⟨m₁, hdecref, hrun⟩ := hrun
      cases hrun
      have hcounted := pageTarget_counted (h.tables.page hw) (hlt w hw)
      refine ⟨?_, fun f hf => ?_⟩
      · have hload (p : ℕ) : pageLoad held (tlbInvalidate x d va (m₁.store t (ptx va) 0#32)).word
            dirs p + hit (some (pteFrame w)) p = pageLoad held m.word dirs p := by
          have hrefs := hremoved.refs p
          rw [hw, Option.map_some] at hrefs
          unfold pageLoad
          omega
        have hreleased := pageDecref_released h.counts hcounted (hbound w hw hcounted) hload hdecref
        rwa [pool_tlbInvalidate, pool_store]
      · have hne : f ≠ t := by
          rintro rfl
          exact hf ht
        rw [word_tlbInvalidate, word_store, Function.update_of_ne hne, word_pageDecref hdecref]

/-! ### Inserting -/

/-- The old mapping is removed, if there is one. -/
theorem clear_keeps (h : MemInv L nullOk held dirs m) (hd : dirs e = some d)
    (ht : tableAt m.word dirs e (pdx va) = some t)
    (hbound : ∀ w, mapping m.word dirs e (pdx va) (ptx va) = some w →
      L.counted (pteFrame w) → pageLoad held m.word dirs (pteFrame w) ≤ 65536)
    (hrun : (if Flag (m.word t (ptx va)) pteP then pageRemove M x d va m else .ok m) = .ok m') :
    Removed L nullOk held dirs x e d va m m' ∧
      m.pool.Released m'.pool (pageLoad held m.word dirs) (pageLoad held m'.word dirs) := by
  have hi : (pdx va : ℕ) < 955 := TableInv.user_index ht
  split at hrun
  · exact ⟨pageRemove_spec h hd hi hbound hrun, (pageRemove_keeps h hd hi hbound hrun).1⟩
  · rename_i hpte
    obtain rfl := Except.ok.inj hrun
    refine ⟨Removed.refl h ?_, .refl _ _⟩
    rw [mapping_of_table ht, present_of_not_flag hpte]

/-- The page `p` that is inserted is no longer held, and no other page is
touched. -/
structure Enters (L : Layout M) (dirs : Dirs) (p : ℕ) (m m' : Mem n) : Prop where
  contents : KeepsContents dirs m m'
  noneLost : NoneLost L (some p) dirs m → NoneLost L none dirs m'

theorem pageInsert_enters (h : Tidy L nullOk none dirs m) (hd : dirs e = some d)
    (hi : (pdx va : ℕ) < 955) (hp : L.counted p) (hplain : Plain m.word dirs p)
    (hoff : ¬ m.pool.On p) (hperm : perm.toNat < 4096)
    (hbound : ∀ w, mapping m.word dirs e (pdx va) (ptx va) = some w →
      L.counted (pteFrame w) →
        pageLoad none m.word dirs (pteFrame w) + hit (some p) (pteFrame w) ≤ 65536)
    (hrun : pageInsert M x d (some p) va perm m = .ok (0, m')) : Enters L dirs p m m' := by
  have hframe : pteFrame (mkPte (frame2pa p) perm) = p :=
    pteFrame_mkPte (L.counted_lt hp) hperm
  unfold pageInsert at hrun
  simp only [bind_eq_ok] at hrun
  obtain ⟨⟨pte, m₁⟩, hwalk, hrun⟩ := hrun
  have htidy := h.walked hd hi hwalk
  obtain ⟨hlost₁, hword₁⟩ : (NoneLost L (some p) dirs m → NoneLost L (some p) dirs m₁) ∧ _ :=
    pgdirWalk_keeps h.toMemInv hd hi hwalk
  rcases pgdirWalk_spec h.toMemInv hd hi hwalk with ⟨rfl, rfl⟩ | ⟨t, rfl, hwalked⟩
  · cases hrun
  · simp only [incRef, bind_eq_ok] at hrun
    obtain ⟨m₂, hm₂, hrun⟩ := hrun
    obtain rfl := Except.ok.inj hm₂
    have hoff₁ : ¬ m₁.pool.On p := fun hon => hoff (hwalked.on p hon)
    obtain ⟨m₃, hremove, rfl⟩ := insert_tail hrun
    -- the page is counted, the old mapping removed, the entry set
    set m₂ := m₁.setRef p ((m₁.pages p).ppRef + 1)
    have htidy₂ : Tidy L nullOk (some p) dirs m₂ := htidy.hold hoff₁
    have hbound₂ (w : Word) (hw : mapping m₂.word dirs e (pdx va) (ptx va) = some w)
        (hcounted : L.counted (pteFrame w)) :
        pageLoad (some p) m₂.word dirs (pteFrame w) ≤ 65536 := by
      rw [word_setRef, hwalked.maps] at hw
      have hq := hbound w hw hcounted
      have hrefs := hwalked.refs (pteFrame w) (h.not_on_page hw)
      unfold pageLoad at hq ⊢
      rw [word_setRef, hrefs]
      rw [hit_none] at hq
      omega
    have hword₃ := (replace_tidy htidy₂ hd hwalked.table hremove).2
    refine ⟨fun f hf hplainf => ?_, fun hlost => ?_⟩
    · have hft : f ≠ t := by
        rintro rfl
        exact hwalked.origin.elim (hplainf.table e _) hf
      rw [hword₃, Function.update_of_ne hft]
      exact hword₁ f hf fun hfd => hplainf.dir e (hfd ▸ hd)
    · have hlost₂ : NoneLost L (some p) dirs m₂ := by
        intro q hq hload
        rw [pool_setRef, Pool.on_setRef]
        exact hlost₁ hlost q hq hload
      obtain ⟨hremoved, hreleased⟩ :=
        clear_keeps htidy₂.toMemInv hd hwalked.table hbound₂ hremove
      have ht₃ := (hremoved.tables e (pdx va)).trans hwalked.table
      have hnone : mapping m₃.word dirs e (pdx va) (ptx va) = none := by simp [hremoved.maps]
      have hstore (q : ℕ) := hremoved.inv.tables.separate.pageRefs_store_page (j := ptx va)
        (w := mkPte (frame2pa p) perm) ht₃ q
      intro q hq hload
      refine (hlost₂.released hreleased) q hq ?_
      have hq₃ := hstore q
      rw [hnone, Option.map_none, present_of_flag (flag_mkPte_P _ _), Option.map_some, hframe,
        hit_none, add_zero] at hq₃
      unfold pageLoad at hload ⊢
      rw [word_store, page2pa] at hload
      rw [hq₃, hit_none] at hload
      omega

/-- A page that has just been allocated is inserted. -/
theorem Allocated.enters {z : Bool} (hal : Allocated L nullOk dirs z m p m₁)
    (htidy : Tidy L nullOk none dirs m₁) (hb : Bounded L 65536 dirs m) (hd : dirs e = some d)
    (hi : (pdx va : ℕ) < 955) (hperm : perm.toNat < 4096)
    (hrun : pageInsert M x d (some p) va perm m₁ = .ok (0, m')) :
    KeepsContents dirs m m' ∧ (NoneLost L none dirs m → NoneLost L none dirs m') ∧
      m'.word p = m₁.word p := by
  have hplain : Plain m₁.word dirs p := plain_of_unref hal.unref
  have henters := pageInsert_enters htidy hd hi (Or.inl hal.pool) hplain hal.off hperm
    (fun w _ hw => by
      by_cases heq : pteFrame w = p
      · rw [heq, hal.load]
        have hhit := hit_le_one (some p) p
        omega
      · rw [hit_of_ne (v := some p) (by simpa using fun h => heq h.symm)]
        exact hal.bounded hb _ hw) hrun
  refine ⟨fun f hf hplainf => ?_, fun hlost => henters.noneLost (hlost.allocated hal),
    henters.contents p hal.off hplain⟩
  have hne : f ≠ p := by
    rintro rfl
    exact hf hal.wasFree
  have hplain₁ : Plain m₁.word dirs f :=
    ⟨hplainf.dir, fun e i => by rw [hal.tables]; exact hplainf.table e i⟩
  rw [henters.contents f (fun hon => hf ((hal.on f).mp hon).1) hplain₁, hal.word f hne]

/-- There is room for one more reference to `p`. -/
theorem Bounded.onceMore (hb : Bounded L 65536 dirs m) (hload : pageLoad none m.word dirs p < 65536)
    (hq : L.counted q) : pageLoad none m.word dirs q + hit (some p) q ≤ 65536 := by
  by_cases heq : q = p
  · rw [heq]
    have hhit := hit_le_one (some p) p
    omega
  · rw [hit_of_ne (v := some p) (by simpa using fun h => heq h.symm)]
    exact hb _ hq

/-- A page that some entry maps is inserted once more. -/
theorem Tidy.enters_mapped {e' : EnvIdx} (h : Tidy L nullOk none dirs m)
    (hb : Bounded L 65536 dirs m) (hw : mapping m.word dirs e' i j = some w)
    (hp : L.counted (pteFrame w)) (hload : pageLoad none m.word dirs (pteFrame w) < 65536)
    (hd : dirs e = some d) (hi : (pdx va : ℕ) < 955) (hperm : perm.toNat < 4096)
    (hrun : pageInsert M x d (some (pteFrame w)) va perm m = .ok (0, m')) :
    Enters L dirs (pteFrame w) m m' :=
  pageInsert_enters h hd hi hp (h.tables.separate.plain_of_page hw) (h.not_on_page hw)
    hperm (fun _ _ hcounted => hb.onceMore hload hcounted) hrun

/-! ### Whole address spaces -/

/-- The VGA buffer is entered in the directory that was made. -/
theorem envSetupVm_insert (h : Tidy L nullOk none dirs m)
    (hrun : envSetupVm M x m = .ok (some p, m')) : m.pageFreeList = some p ∧
      pageInsert M x p (some vgaFrame) vgaUser (pteP ||| pteU ||| pteW ||| pteMapped)
        (((m.pop p).fill p fun _ => 0#32).newDir M p) = .ok (0, m') := by
  cases hfree : m.pageFreeList with
  | none =>
      rw [envSetupVm_full hfree] at hrun
      cases hrun
  | some q =>
      rw [envSetupVm_eq h hfree] at hrun
      obtain ⟨⟨r, m₁⟩, hinsert, hrun⟩ := bind_eq_ok.mp hrun
      split at hrun
      · cases hrun
      · rename_i hr
        cases hrun
        obtain rfl : r = 0 := not_not.mp hr
        exact ⟨rfl, hinsert⟩

theorem setUp_keeps (h : Tidy L nullOk none dirs m) (he : dirs e = none)
    (hrun : envSetupVm M x m = .ok (some d, m')) :
    KeepsContents dirs m m' ∧
      (NoneLost L none dirs m → NoneLost L none (Function.update dirs e (some d)) m') := by
  obtain ⟨hhead, hinsert⟩ := envSetupVm_insert h hrun
  have hal := pageAlloc_spec h.toMemInv (pageAlloc_returns h hhead)
  have htidy := newDir_popped h he hhead
  have hempty := newDir_empty (M := M) h he hhead (pdx vgaUser)
  obtain ⟨-, hown, htables, -, hrefs⟩ := newDir_spec hal.inv he hal.pool hal.off hal.unref
  set m₁ := ((m.pop d).fill d fun _ => 0#32) with hm₁
  have hword (f : ℕ) (hf : f ≠ d) : (m₁.newDir M d).word f = m.word f := by
    simp only [Mem.newDir, word_store, word_setRef, word_fill, Function.update_of_ne hf]
    exact hal.word f hf
  have hon (q : ℕ) : (m₁.newDir M d).pool.On q ↔ m₁.pool.On q := by
    simp only [Mem.newDir, pool_store, pool_setRef, pool_fill, Pool.on_setRef]
  have henters := pageInsert_enters htidy (Function.update_self _ _ _) (by decide) (Or.inr rfl)
    ⟨fun e' hd => L.pool_ne_vga (htidy.tables.dir hd),
      fun e' i ht => L.pool_ne_vga (htidy.tables.table ht)⟩
    (fun hon => L.pool_ne_vga (htidy.refs_of_on hon).1) (by decide) (fun v hv => by
      rw [mapping_of_none hempty] at hv
      cases hv) hinsert
  refine ⟨fun f hf hplain => ?_, fun hlost => henters.noneLost (NoneLost.hold ?_)⟩
  · have hne : f ≠ d := by
      rintro rfl
      exact hf hal.wasFree
    have hoff : ¬ (m₁.newDir M d).pool.On f := fun hon' =>
      hf ((hal.on f).mp ((hon f).mp hon')).1
    have hplain₁ : Plain (m₁.newDir M d).word (Function.update dirs e (some d)) f := by
      refine ⟨fun e' hd => ?_, fun e' i ht => ?_⟩
      · by_cases heq : e' = e
        · subst heq
          rw [Function.update_self] at hd
          exact hne (Option.some.inj hd).symm
        · rw [Function.update_of_ne heq] at hd
          exact hplain.dir e' hd
      · by_cases heq : e' = e
        · subst heq
          cases (hown i).symm.trans ht
        · have hwas := (htables e' i heq).symm.trans ht
          rw [hal.tables] at hwas
          exact hplain.table e' i hwas
    rw [henters.contents f hoff hplain₁, hword f hne]
  · -- the directory was held and is referred to now
    intro q hq hload
    rw [hon]
    refine hlost.allocated hal q hq ?_
    have hrefs' := hrefs q
    unfold pageLoad at hload ⊢
    rw [hit_none] at hload
    change _ + pageRefs (m₁.newDir M d).word _ q + 0 = 0 at hload
    change pageRefs (m₁.newDir M d).word _ q = _ at hrefs'
    omega

theorem tearDown_keeps (h : MemFreed L nullOk dirs e m m') :
    KeepsContents dirs m m' ∧
      (NoneLost L none dirs m → NoneLost L none (Function.update dirs e none) m') := by
  refine ⟨fun f _ hplain => h.word (hplain.dir e) (hplain.table e), fun hlost => ?_⟩
  exact hlost.released h.released

/-! ### Loading a binary -/

/-- Memory while the kernel boots, none of it lost. -/
structure Supplied (L : Layout M) (nullOk : Prop) (dirs : Dirs) (m : Mem n) : Prop where
  loading : Loading L nullOk dirs m
  tidy : Tidy L nullOk none dirs m
  noneLost : NoneLost L none dirs m

theorem Supplied.setUp (h : Supplied L nullOk dirs m) (he : dirs e = none)
    (hrun : envSetupVm M x m = .ok (some d, m')) :
    Supplied L nullOk (Function.update dirs e (some d)) m' :=
  ⟨h.loading.setUp he hrun, h.tidy.setUp he hrun, (setUp_keeps h.tidy he hrun).2 h.noneLost⟩

theorem Supplied.lcr3 (h : Supplied L nullOk dirs m) : Supplied L nullOk dirs (m.lcr3 c p) :=
  ⟨h.loading.lcr3, h.tidy.congr rfl rfl, h.noneLost.congr rfl rfl⟩

/-- One page of `region_alloc`. -/
theorem Supplied.region {page : ℕ} (h : Supplied L nullOk dirs m) (hd : dirs e = some d)
    (hi : (pdx va : ℕ) < 955) (halloc : pageAlloc M false m = .ok (some page, m₁))
    (hinsert : pageInsert M x d (some page) va (pteU ||| pteW) m₁ = .ok (0, m')) :
    Supplied L nullOk dirs m' := by
  have hal := pageAlloc_spec h.tidy.toMemInv halloc
  have htidy := h.tidy.allocated halloc
  obtain ⟨hload, -⟩ := region_step h.loading hd hi halloc hinsert
  obtain ⟨-, hlost, -⟩ := hal.enters htidy h.loading.bounded hd hi (by decide) hinsert
  refine ⟨hload, htidy.inserted hd hi (fun p hp => ?_) (fun hnone => by cases hnone) hload.inv
    hinsert, hlost h.noneLost⟩
  obtain rfl := Option.some.inj hp
  exact hal.off

theorem regionLoop_supplied {vaFinish : Word} (hfinish : vaFinish ≤ utop) (hd : dirs e = some d) :
    ∀ {k va va'} {m m' : Mem n}, Supplied L nullOk dirs m →
      regionLoop M x d vaFinish k va m = .ok (va', m') → Supplied L nullOk dirs m' := by
  intro k
  induction k with
  | zero =>
      intro va va' m m' h hrun
      cases hrun
      exact h
  | succ k ih =>
      intro va va' m m' h hrun
      unfold regionLoop at hrun
      split at hrun
      · rename_i hlt
        have hi : (pdx va : ℕ) < 955 := pdx_lt_of_lt_utop (Nat.lt_of_lt_of_le hlt hfinish)
        simp only [bind_eq_ok] at hrun
        obtain ⟨⟨page, m₁⟩, halloc, hrun⟩ := hrun
        cases page with
        | none => cases hrun
        | some page =>
            simp only [bind_eq_ok] at hrun
            obtain ⟨⟨r, m₂⟩, hinsert, hrun⟩ := hrun
            split at hrun
            · cases hrun
            · rename_i hr
              obtain rfl : r = 0 := not_not.mp hr
              exact ih (h.region hd hi halloc hinsert) hrun
      · cases hrun
        exact h

theorem regionAlloc_supplied {len : Word} (h : Supplied L nullOk dirs m) (hd : dirs e = some d)
    (hle : va.toNat + len.toNat ≤ utop.toNat) (hrun : regionAlloc M x d va len m = .ok m') :
    Supplied L nullOk dirs m' := by
  unfold regionAlloc at hrun
  split at hrun
  · cases hrun
    exact h
  · simp only [bind_eq_ok] at hrun
    obtain ⟨⟨va', m₁⟩, hloop, hrun⟩ := hrun
    split at hrun
    · cases hrun
    · cases hrun
      exact regionLoop_supplied (roundup_le hle) hd h hloop

/-- The bytes that are stored go to pages that are mapped. -/
theorem storeByte_supplied {y : BitVec 8} (h : Supplied L nullOk dirs m)
    (hd : dirs e = some (m.cr3 c)) (hi : (pdx va : ℕ) < 955)
    (hrun : storeByte c va y m = .ok m') : Supplied L nullOk dirs m' := by
  refine ⟨(storeByte_spec h.loading hd hi hrun).1, storeByte_tidy h.tidy hd hi hrun, ?_⟩
  unfold storeByte at hrun
  cases hwrite : kernWritable c va m with
  | none => simp [hwrite] at hrun
  | some frame =>
      simp only [hwrite, Except.ok.injEq] at hrun
      subst hrun
      obtain ⟨-, -, -, -, -, hplain⟩ := kernWritable_spec h.tidy.toMemInv hd hi hwrite
      exact h.noneLost.congr rfl (hplain.slotRef fun q hq => Function.update_of_ne hq _ _)

theorem storeBytes_supplied {byte : ℕ → BitVec 8} {k : ℕ} (h : Supplied L nullOk dirs m)
    (hd : dirs e = some (m.cr3 c)) (hle : va.toNat + k ≤ utop.toNat)
    (hrun : storeBytes c va byte k m = .ok m') :
    Supplied L nullOk dirs m' ∧ m'.cr3 = m.cr3 := by
  have hutop : utop.toNat = 4005560320 := by decide
  have hinduct := foldlM_induct
    (I := fun l s => (Supplied L nullOk dirs s ∧ s.cr3 = m.cr3) ∧ ∀ j ∈ l, j < k)
    (fun j l s u hs hu => ?_) ⟨⟨h, rfl⟩, fun j hj => List.mem_range.mp hj⟩ hrun
  · exact hinduct.1
  · obtain ⟨⟨hs, hcr3⟩, hmem⟩ := hs
    have hj : j < k := hmem j (by simp)
    have hlt : va + BitVec.ofNat 32 j < utop := by
      rw [BitVec.lt_def, BitVec.toNat_add, BitVec.toNat_ofNat, hutop]
      omega
    have hi := pdx_lt_of_lt_utop hlt
    obtain ⟨-, hcr3'⟩ := storeByte_spec hs.loading (hcr3 ▸ hd) hi hu
    exact ⟨⟨storeByte_supplied hs (hcr3 ▸ hd) hi hu, hcr3'.trans hcr3⟩,
      fun j' hj' => hmem j' (by simp [hj'])⟩

theorem loadSegment_supplied {elf : Elf} {ph : Proghdr} (h : Supplied L nullOk dirs m)
    (hd : dirs e = some d) (hcr3 : m.cr3 x.cpu = d)
    (hph : ph.pType = 1 → ph.pFilesz ≤ ph.pMemsz ∧ ph.pVa.toNat + ph.pMemsz.toNat ≤ utop.toNat)
    (hrun : loadSegment M x d elf m ph = .ok m') : Supplied L nullOk dirs m' := by
  unfold loadSegment at hrun
  split at hrun
  · cases hrun
    exact h
  · rename_i htype
    obtain ⟨hsz, hle⟩ := hph (not_not.mp htype)
    obtain ⟨hfile, hrest⟩ := segment_parts hsz hle
    simp only [bind_eq_ok] at hrun
    obtain ⟨m₁, hregion, m₂, hcopy, hzero⟩ := hrun
    obtain ⟨-, hcr3₁⟩ := regionAlloc_spec h.loading hd hle hregion
    have h₁ := regionAlloc_supplied h hd hle hregion
    have hd₁ : dirs e = some (m₁.cr3 x.cpu) := by rw [hcr3₁, hcr3, hd]
    obtain ⟨h₂, hcr3₂⟩ := storeBytes_supplied h₁ hd₁ hfile hcopy
    have hd₂ : dirs e = some (m₂.cr3 x.cpu) := by rw [hcr3₂, hd₁]
    exact (storeBytes_supplied h₂ hd₂ hrest hzero).1

theorem loadIcode_supplied {elf : Elf} (h : Supplied L nullOk dirs m) (hd : dirs e = some d)
    (helf : elf.WellFormed) (hrun : loadIcode M x d elf m = .ok m') :
    Supplied L nullOk dirs m' := by
  have hself : (m.lcr3 x.cpu d).cr3 x.cpu = d := Function.update_self _ _ _
  obtain ⟨-, -, m₁, hloop, m₂, hstack, rfl⟩ := loadIcode_eq_ok.mp hrun
  obtain ⟨⟨hload, -⟩, -⟩ := foldlM_induct
    (I := fun l s => (Supplied L nullOk dirs s ∧ s.cr3 = (m.lcr3 x.cpu d).cr3) ∧
      ∀ ph ∈ l, ph ∈ elf.eProghdr)
    (fun ph l s u hs hu => by
      obtain ⟨⟨hs, hcr3⟩, hmem⟩ := hs
      have hph := helf ph (hmem ph (by simp))
      obtain ⟨-, hcr3'⟩ := loadSegment_spec hs.loading hd (hcr3 ▸ hself) hph hu
      exact ⟨⟨loadSegment_supplied hs hd (hcr3 ▸ hself) hph hu, hcr3'.trans hcr3⟩,
        fun ph' hph' => hmem ph' (by simp [hph'])⟩)
    ⟨⟨h.lcr3, rfl⟩, fun ph hph => hph⟩ hloop
  exact (regionAlloc_supplied hload hd (by decide) hstack).lcr3

end Jos
