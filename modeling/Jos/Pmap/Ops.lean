import Jos.Pmap.Tables

/-!
The functions of kern/pmap.c keep memory in order. Each has one specification:
what it does to the mappings and to the counts, and what it leaves alone.
-/

namespace Jos

open Jos.Lib

variable {n : ℕ} {M : Machine} {L : Layout M} {nullOk : Prop} {held : Option ℕ} {dirs : Dirs}
  {m m' : Mem n} {e : EnvIdx} {i j : PtIdx} {d t p : ℕ} {va w : Word}

/-! ### Looking up -/

theorem pageLookup_spec {r : Option (ℕ × PtIdx)} {page : Option ℕ} (hd : dirs e = some d)
    (hi : (pdx va : ℕ) < 955) (hrun : pageLookup M d va m = .ok (r, page)) :
    r = (tableAt m.word dirs e (pdx va)).map (·, ptx va) ∧
      page = (mapping m.word dirs e (pdx va) (ptx va)).map pteFrame ∧
      ∀ w, mapping m.word dirs e (pdx va) (ptx va) = some w → pteFrame w < M.npages := by
  have htable : tableAt m.word dirs e (pdx va) =
      (present (m.word d (pdx va))).map pteFrame := tableAt_of_dir hi hd
  rcases pageLookup_ok hrun with ⟨hP, rfl, rfl⟩ | ⟨hP, rfl, hpage⟩
  · have hnone : tableAt m.word dirs e (pdx va) = none := by
      rw [htable, present_of_not_flag hP]
      rfl
    simp [hnone]
  · have hsome : tableAt m.word dirs e (pdx va) = some (pteFrame (m.word d (pdx va))) := by
      rw [htable, present_of_flag hP]
      rfl
    have hmap := mapping_of_table (j := ptx va) hsome
    rcases hpage with ⟨hpte, rfl⟩ | ⟨hpte, hlt, rfl⟩
    · rw [present_of_not_flag hpte] at hmap
      simp [hsome, hmap]
    · rw [present_of_flag hpte] at hmap
      refine ⟨by simp [hsome], by simp [hmap], fun v hv => ?_⟩
      rw [hmap] at hv
      obtain rfl := Option.some.inj hv
      exact hlt

/-! ### Allocating -/

theorem pgnum_frame2pa (hp : p < 1048576) : pgnum (frame2pa p) = p := by
  have hpte : pteFrame (frame2pa p ||| 0#32) = p := pteFrame_or hp (by decide)
  unfold pteFrame at hpte
  rwa [pgnum_pteAddr, BitVec.or_zero] at hpte

/-- The contents of a page that is neither a directory nor a table may change. -/
theorem MemInv.write_plain (h : MemInv L nullOk held dirs m) (hp : Plain m.word dirs p)
    (hcounted : L.counted p) (hpool : m'.pool = m.pool)
    (hword : ∀ q, q ≠ p → m'.word q = m.word q) : MemInv L nullOk held dirs m' := by
  refine ⟨?_, h.tables.write_plain hp hcounted hword⟩
  rw [hpool]
  refine h.counts.congr L.pool_counted fun q _ => ?_
  simp only [pageLoad, pageRefs_congr (hp.slotRef hword)]

/-- `page_alloc` gave page `p`. -/
structure Allocated (L : Layout M) (nullOk : Prop) (dirs : Dirs) (z : Bool) (m : Mem n) (p : ℕ)
    (m' : Mem n) : Prop where
  inv : MemInv L nullOk none dirs m'
  pool : L.pool p
  wasFree : m.pool.On p
  unref : pageRefs m'.word dirs p = 0
  on : ∀ q, m'.pool.On q ↔ m.pool.On q ∧ q ≠ p
  word : ∀ q, q ≠ p → m'.word q = m.word q
  zero : z = true → m'.word p = fun _ => 0#32
  slots : slotRef m'.word dirs = slotRef m.word dirs
  cr3 : m'.cr3 = m.cr3
  tlb : m'.tlb = m.tlb

theorem pageAlloc_spec {z : Bool} (h : MemInv L nullOk none dirs m)
    (hrun : pageAlloc M z m = .ok (some p, m')) : Allocated L nullOk dirs z m p m' := by
  obtain ⟨hhead, heq⟩ := pageAlloc_some hrun
  have hon : m.pool.On p := h.counts.on_head hhead
  obtain ⟨hpool, hunref⟩ := h.refs_of_on hon
  rw [pgnum_frame2pa (L.frame_lt hpool)] at heq
  have hpop : MemInv L nullOk none dirs (m.pop p) :=
    ⟨(pool_pop m p).symm ▸ h.counts.pop hhead, h.tables⟩
  have hm' : m'.pool = (m.pop p).pool := by
    rw [heq]
    split <;> rfl
  have hword (q : ℕ) (hq : q ≠ p) : m'.word q = m.word q := by
    rw [heq]
    split
    · exact Function.update_of_ne hq _ _
    · rfl
  have hplain : Plain m.word dirs p := plain_of_unref hunref
  constructor
  · exact hpop.write_plain hplain (Or.inl hpool) hm' hword
  · exact hpool
  · exact hon
  · exact (pageRefs_congr (hplain.slotRef hword)).trans hunref
  · intro q
    rw [hm', pool_pop]
    exact h.counts.on_pop hhead
  · exact hword
  · rintro rfl
    rw [heq, if_pos rfl]
    exact Function.update_self _ _ _
  · exact hplain.slotRef hword
  · rw [heq]
    split <;> rfl
  · rw [heq]
    split <;> rfl

namespace Allocated

variable {z : Bool}

theorem refs (h : Allocated L nullOk dirs z m p m') (q : ℕ) :
    pageRefs m'.word dirs q = pageRefs m.word dirs q := pageRefs_congr h.slots

theorem plain (h : Allocated L nullOk dirs z m p m') : Plain m.word dirs p :=
  plain_of_unref ((h.refs p).symm.trans h.unref)

theorem tables (h : Allocated L nullOk dirs z m p m') (e : EnvIdx) (i : PtIdx) :
    tableAt m'.word dirs e i = tableAt m.word dirs e i := h.plain.tableAt h.word

theorem maps (h : Allocated L nullOk dirs z m p m') (e : EnvIdx) (i j : PtIdx) :
    mapping m'.word dirs e i j = mapping m.word dirs e i j := h.plain.mapping h.word

theorem bounded {b : ℕ} (h : Allocated L nullOk dirs z m p m') (hb : Bounded L b dirs m) :
    Bounded L b dirs m' := fun q hq => by
  have hbq := hb q hq
  unfold pageLoad at hbq ⊢
  rwa [h.refs]

theorem load (h : Allocated L nullOk dirs z m p m') : pageLoad none m'.word dirs p = 0 := by
  have hvga : p ≠ vgaFrame := by
    rintro rfl
    exact L.pool_ne_vga h.pool
  simp [pageLoad, hvga, h.unref]

theorem off (h : Allocated L nullOk dirs z m p m') : ¬ m'.pool.On p :=
  fun hon => ((h.on p).mp hon).2 rfl

end Allocated

/-- Putting back a page that nothing refers to. -/
theorem pageFree_spec (h : MemInv L nullOk none dirs m) (hpool : L.pool p)
    (hoff : ¬ m.pool.On p) (hunref : pageRefs m.word dirs p = 0)
    (hrun : pageFree p m = .ok m') :
    MemInv L nullOk none dirs m' ∧ m'.word = m.word ∧ m'.cr3 = m.cr3 ∧ m'.tlb = m.tlb := by
  unfold pageFree at hrun
  split at hrun
  · cases hrun
  · split at hrun
    · cases hrun
    · cases hrun
      refine ⟨⟨?_, h.tables⟩, rfl, rfl, rfl⟩
      have hne : p ≠ vgaFrame := by
        rintro rfl
        exact L.pool_ne_vga hpool
      rw [pool_push]
      exact h.counts.push hoff hpool (by simp [pageLoad, hne, hunref])

/-! ### Walking -/

/-- `pgdir_walk(.., create)` found or made page table `t` for index `i`. -/
structure Walked (L : Layout M) (nullOk : Prop) (dirs : Dirs) (e : EnvIdx) (i : PtIdx)
    (m : Mem n) (t : ℕ) (m' : Mem n) : Prop where
  inv : MemInv L nullOk none dirs m'
  table : tableAt m'.word dirs e i = some t
  tables : ∀ e' i', ¬ (e' = e ∧ i' = i) →
    tableAt m'.word dirs e' i' = tableAt m.word dirs e' i'
  mono : ∀ t', tableAt m.word dirs e i = some t' → t' = t
  origin : tableAt m.word dirs e i = some t ∨ m.pool.On t
  maps : ∀ e' i' j, mapping m'.word dirs e' i' j = mapping m.word dirs e' i' j
  on : ∀ q, m'.pool.On q → m.pool.On q
  refs : ∀ q, ¬ m.pool.On q → pageRefs m'.word dirs q = pageRefs m.word dirs q
  bounded : ∀ {b}, 0 < b → Bounded L b dirs m → Bounded L b dirs m'
  ref : ∀ q, ¬ m.pool.On q → m'.pool.ref q = m.pool.ref q
  cr3 : m'.cr3 = m.cr3
  tlb : m'.tlb = m.tlb

theorem Walked.refl (h : MemInv L nullOk none dirs m)
    (ht : tableAt m.word dirs e i = some t) : Walked L nullOk dirs e i m t m where
  inv := h
  table := ht
  tables _ _ _ := rfl
  mono _ ht' := Option.some.inj (ht'.symm.trans ht)
  origin := Or.inl ht
  maps _ _ _ := rfl
  on _ := id
  refs _ _ := rfl
  bounded _ := id
  ref _ _ := rfl
  cr3 := rfl
  tlb := rfl

theorem Walked.plain {q : ℕ} (h : Walked L nullOk dirs e i m t m') (hq : Plain m.word dirs q)
    (hoff : ¬ m.pool.On q) : Plain m'.word dirs q := by
  refine ⟨hq.dir, fun e' i' ht' => ?_⟩
  by_cases heq : e' = e ∧ i' = i
  · obtain ⟨rfl, rfl⟩ := heq
    rw [h.table] at ht'
    obtain rfl := Option.some.inj ht'
    exact h.origin.elim (hq.table e' i') hoff
  · rw [h.tables e' i' heq] at ht'
    exact hq.table e' i' ht'

theorem newTable_spec (h : MemInv L nullOk none dirs m) (hd : dirs e = some d)
    (hi : (pdx va : ℕ) < 955) (hnone : tableAt m.word dirs e (pdx va) = none)
    (hhead : m.pageFreeList = some p) :
    Walked L nullOk dirs e (pdx va) m p (m.newTable d va p) := by
  have hon : m.pool.On p := h.counts.on_head hhead
  obtain ⟨hpool, hunref⟩ := h.refs_of_on hon
  have hlt := L.frame_lt hpool
  have hplain := plain_of_unref hunref
  have hvga : p ≠ vgaFrame := by
    rintro rfl
    exact L.pool_ne_vga hpool
  -- the page after `page_alloc`, zeroed and off the list
  set m₁ := (m.pop p).fill p fun _ => 0#32 with hm₁
  have hword (q : ℕ) (hq : q ≠ p) : m₁.word q = m.word q := Function.update_of_ne hq _ _
  have hzero : m₁.word p = 0 := Function.update_self _ _ _
  have hslots : slotRef m₁.word dirs = slotRef m.word dirs := hplain.slotRef hword
  have htables (e' i') : tableAt m₁.word dirs e' i' = tableAt m.word dirs e' i' :=
    hplain.tableAt hword
  have hmaps (e' i' j) : mapping m₁.word dirs e' i' j = mapping m.word dirs e' i' j :=
    hplain.mapping hword
  have hrefs₁ (q : ℕ) : pageRefs m₁.word dirs q = pageRefs m.word dirs q :=
    pageRefs_congr hslots
  have h₁ : MemInv L nullOk none dirs m₁ :=
    MemInv.write_plain (m := m.pop p) ⟨(pool_pop m p).symm ▸ h.counts.pop hhead, h.tables⟩
      hplain (Or.inl hpool) rfl hword
  have hoff : ¬ m₁.pool.On p := by
    intro hon'
    exact ((h.counts.on_pop hhead).mp ((pool_pop m p) ▸ hon')).2 rfl
  have hm' : m.newTable d va p =
      (m₁.setRef p (m₁.pool.ref p + 1)).store d (pdx va) (tablePde p) := by
    simp only [Mem.newTable, pgnum_frame2pa hlt, tablePde]
    rfl
  have hempty (j) : mapping m₁.word dirs e (pdx va) j = none :=
    mapping_of_none ((htables e _).trans hnone)
  rw [hm']
  -- now its count is one, and an entry of the directory leads to it
  set m₂ := (m₁.setRef p (m₁.pool.ref p + 1)).store d (pdx va) (tablePde p)
  set word' := Function.update m₁.word d (Function.update (m₁.word d) (pdx va) (tablePde p))
    with hword'
  have hm₂ : m₂.word = word' := rfl
  have hpool₂ : m₂.pool = m₁.pool.setRef p (m₁.pool.ref p + 1) := by
    rw [pool_store, pool_setRef]
  have hstored : TableInv L nullOk word' dirs :=
    h₁.tables.store_pde hd hi hempty
      (fun _ => ⟨p, rfl, hpool, (hrefs₁ p).trans hunref, hzero⟩)
      (fun _ => (htables e _).trans hnone)
  have htables' (e' i') : tableAt word' dirs e' i' =
      if e' = e ∧ i' = pdx va then some p else tableAt m.word dirs e' i' := by
    rw [h₁.tables.separate.tableAt_store_pde hd hi, present_tablePde hlt, htables]
  have hself : tableAt word' dirs e (pdx va) = some p := by simp [htables']
  have hdp : d ≠ p := fun heq => hplain.dir e (heq ▸ hd)
  have hafter (j) : mapping word' dirs e (pdx va) j = none := by
    rw [mapping_of_table hself, hword', Function.update_of_ne hdp.symm, hzero]
    exact present_zero
  have hmaps' (e' i' j) : mapping word' dirs e' i' j = mapping m.word dirs e' i' j := by
    by_cases heq : e' = e ∧ i' = pdx va
    · obtain ⟨rfl, rfl⟩ := heq
      rw [hafter, ← hmaps, hempty]
    · rw [← hmaps]
      exact h₁.tables.separate.mapping_store_pde_of_ne hd hi heq
  have hrefs (q : ℕ) : pageRefs word' dirs q = pageRefs m.word dirs q + hit (some p) q := by
    have hstore := h₁.tables.separate.pageRefs_store_pde hd hi hempty hafter q
    rw [htables, hnone, present_tablePde hlt, hrefs₁] at hstore
    simpa using hstore
  -- the load of this page grows by one, no other changes
  have hload : pageLoad none word' dirs =
      Function.update (pageLoad none m₁.word dirs) p (pageLoad none m₁.word dirs p + 1) := by
    refine eq_update_of_gain fun q => ?_
    rw [pageLoad, pageLoad, hrefs, hrefs₁, hit_none]
    omega
  constructor
  · refine ⟨?_, hstored⟩
    have hincr := h₁.counts.incr hoff
    rw [← hload] at hincr
    rwa [hpool₂, hm₂]
  · exact hself
  · intro e' i' hne
    exact (htables' e' i').trans (if_neg hne)
  · intro t' ht'
    rw [hnone] at ht'
    cases ht'
  · exact Or.inr hon
  · exact hmaps'
  · intro q hq
    have hq' : m₁.pool.On q := by rwa [hpool₂, Pool.on_setRef] at hq
    exact ((h.counts.on_pop hhead).mp ((pool_pop m p) ▸ hq')).1
  · intro q hq
    have hne : q ≠ p := by
      rintro rfl
      exact hq hon
    rw [hm₂, hrefs, hit_of_ne]
    · rfl
    · simpa using fun heq => hne heq.symm
  · intro b hpos hb q hq
    have hbound := hb q hq
    rw [hm₂]
    unfold pageLoad at hbound ⊢
    rw [hrefs]
    by_cases hqp : q = p
    · subst hqp
      rw [hunref]
      simp [hvga]
      omega
    · rw [hit_of_ne (v := some p)]
      · simpa using hbound
      · simpa using fun heq => hqp heq.symm
  · intro q hq
    have hne : q ≠ p := by
      rintro rfl
      exact hq hon
    have hpool₁ : m₁.pool = m.pool.pop p := pool_pop m p
    simp only [hpool₂, Pool.setRef, Function.update_of_ne hne, hpool₁, Pool.pop]
  · rfl
  · rfl

theorem pgdirWalk_spec {r : Option (ℕ × PtIdx)} (h : MemInv L nullOk none dirs m)
    (hd : dirs e = some d) (hi : (pdx va : ℕ) < 955)
    (hrun : pgdirWalk M d va true m = .ok (r, m')) :
    (r = none ∧ m' = m) ∨
      ∃ t, r = some (t, ptx va) ∧ Walked L nullOk dirs e (pdx va) m t m' := by
  have htable : tableAt m.word dirs e (pdx va) =
      (present (m.word d (pdx va))).map pteFrame := tableAt_of_dir hi hd
  rcases pgdirWalk_true hrun with ⟨hP, rfl, rfl⟩ | ⟨hP, rfl, rfl⟩ | ⟨hP, page, hhead, rfl, rfl⟩
  · refine Or.inr ⟨_, rfl, Walked.refl h ?_⟩
    rw [htable, present_of_flag hP]
    rfl
  · exact Or.inl ⟨rfl, rfl⟩
  · obtain ⟨hpool, -⟩ := h.refs_of_on (h.counts.on_head hhead)
    rw [pgnum_frame2pa (L.frame_lt hpool)]
    refine Or.inr ⟨page, rfl, newTable_spec h hd hi ?_ hhead⟩
    rw [htable, present_of_not_flag hP]
    rfl

end Jos
