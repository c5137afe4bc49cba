import Jos.Pmap.Ops

/-!
`page_remove` and `page_insert`. The page to be inserted is counted first and
the old one released after that, so in between the counts are one ahead of the
references for the new page.
-/

namespace Jos

open Jos.Lib

variable {n : ℕ} {M : Machine} {L : Layout M} {nullOk : Prop} {held : Option ℕ} {dirs : Dirs}
  {m m' : Mem n} {x : Ctx n} {e : EnvIdx} {i j : PtIdx} {d t p q : ℕ} {va w perm : Word}

/-- `page_decref` of a page that is referenced fewer than 2^16 times, or
exactly so often. -/
theorem pageDecref_spec {load : ℕ → ℕ} (h : m.pool.Counts L.pool L.counted load)
    (hq : L.counted q) (hpos : 0 < load q) (hle : load q ≤ 65536)
    (hpool : load q = 1 → L.pool q) (hrun : pageDecref q m = .ok m') :
    m'.pool.Counts L.pool L.counted (Function.update load q (load q - 1)) ∧
      m'.word = m.word ∧ m'.cr3 = m.cr3 ∧ m'.tlb = m.tlb := by
  have hdecr := h.decr hpos
  rcases pageDecref_eq_ok hrun with ⟨hone, rfl⟩ | ⟨-, rfl⟩
  · have hload : load q = 1 := h.load_eq_one hq (by norm_num) hle hone
    refine ⟨?_, rfl, rfl, rfl⟩
    have hpush := hdecr.push (a := q) (by simpa using h.not_on hpos) (hpool hload)
      (by simp [hload])
    rwa [← pool_setRef, ← pool_push] at hpush
  · exact ⟨(pool_setRef m q _).symm ▸ hdecr, rfl, rfl, rfl⟩

/-! ### Removing -/

theorem tlbInvalidate_eq (x : Ctx n) (d : ℕ) (va : Word) (m : Mem n) :
    ∃ tlb, tlbInvalidate x d va m = { m with tlb := tlb } := by
  unfold tlbInvalidate
  split
  · exact ⟨_, rfl⟩
  · split
    · exact ⟨_, rfl⟩
    · exact ⟨_, rfl⟩

theorem mem_tlbInvalidate {c : Fin n} {a : ℕ × ℕ} (ha : a ∈ (tlbInvalidate x d va m).tlb c) :
    a ∈ m.tlb c ∧ (x.curPgdir = some (some d) → c = x.cpu → a.1 ≠ pgnum va) := by
  have hinv (ha : a ∈ (m.invlpg x.cpu va).tlb c) :
      a ∈ m.tlb c ∧ (c = x.cpu → a.1 ≠ pgnum va) := by
    by_cases hc : c = x.cpu
    · subst hc
      simpa [Mem.invlpg] using ha
    · simpa [Mem.invlpg, hc] using ha
  unfold tlbInvalidate at ha
  split at ha
  · exact ⟨(hinv ha).1, fun _ => (hinv ha).2⟩
  · split at ha
    · exact ⟨(hinv ha).1, fun _ => (hinv ha).2⟩
    · rename_i d' hcur hne
      exact ⟨ha, fun hcur' => absurd (Option.some.inj (hcur.symm.trans hcur')) hne⟩

/-- The mapping of `va` in `e` was removed. -/
structure Removed (L : Layout M) (nullOk : Prop) (held : Option ℕ) (dirs : Dirs) (x : Ctx n)
    (e : EnvIdx) (d : ℕ) (va : Word) (m m' : Mem n) : Prop where
  inv : MemInv L nullOk held dirs m'
  tables : ∀ e' i', tableAt m'.word dirs e' i' = tableAt m.word dirs e' i'
  maps : ∀ e' i' j', mapping m'.word dirs e' i' j' =
    if e' = e ∧ i' = pdx va ∧ j' = ptx va then none else mapping m.word dirs e' i' j'
  refs : ∀ q, pageRefs m'.word dirs q +
    hit ((mapping m.word dirs e (pdx va) (ptx va)).map pteFrame) q = pageRefs m.word dirs q
  cr3 : m'.cr3 = m.cr3
  tlb : ∀ c a, a ∈ m'.tlb c → a ∈ m.tlb c ∧
    (mapping m.word dirs e (pdx va) (ptx va) ≠ none → x.curPgdir = some (some d) →
      c = x.cpu → a.1 ≠ pgnum va)

theorem Removed.refl (h : MemInv L nullOk held dirs m)
    (hnone : mapping m.word dirs e (pdx va) (ptx va) = none) :
    Removed L nullOk held dirs x e d va m m where
  inv := h
  tables _ _ := rfl
  maps e' i' j' := by
    split
    · rename_i heq
      obtain ⟨rfl, rfl, rfl⟩ := heq
      exact hnone
    · rfl
  refs q := by simp [hnone]
  cr3 := rfl
  tlb c a ha := ⟨ha, fun hne => absurd hnone hne⟩

theorem pageTarget_counted (h : PageTarget L nullOk w) (hlt : pteFrame w < M.npages) :
    L.counted (pteFrame w) :=
  h.resolve_right fun hnull => absurd hnull.2.1 (by omega)

/-- Clearing an entry, with its page released. -/
theorem clear_spec {m₁ : Mem n} (h : MemInv L nullOk held dirs m)
    (ht : tableAt m.word dirs e (pdx va) = some t)
    (hw : mapping m.word dirs e (pdx va) (ptx va) = some w) (hcounted : L.counted (pteFrame w))
    (hbound : pageLoad held m.word dirs (pteFrame w) ≤ 65536)
    (hrun : pageDecref (pteFrame w) m = .ok m₁) :
    Removed L nullOk held dirs x e d va m (tlbInvalidate x d va (m₁.store t (ptx va) 0#32)) := by
  have hsep := h.tables.separate
  have hrefs (q : ℕ) := hsep.pageRefs_store_page (j := ptx va) (w := 0#32) ht q
  rw [hw] at hrefs
  have hone : 0 < pageRefs m.word dirs (pteFrame w) :=
    refs_pos (i := .page e (pdx va) (ptx va)) (by simp [slotRef, hw])
  have hpos : 0 < pageLoad held m.word dirs (pteFrame w) := by
    unfold pageLoad
    omega
  have hpool : pageLoad held m.word dirs (pteFrame w) = 1 → L.pool (pteFrame w) := by
    intro hload
    refine hcounted.resolve_right fun hvga => ?_
    unfold pageLoad at hload
    rw [if_pos hvga] at hload
    omega
  obtain ⟨hcounts, hword, hcr3, htlb⟩ := pageDecref_spec h.counts hcounted hpos hbound hpool hrun
  obtain ⟨tlb, hinv⟩ := tlbInvalidate_eq x d va (m₁.store t (ptx va) 0#32)
  set word' := Function.update m.word t (Function.update (m.word t) (ptx va) 0#32) with hword'
  have hm' : (tlbInvalidate x d va (m₁.store t (ptx va) 0#32)).word = word' := by
    rw [hinv, hword', ← hword]
    rfl
  have hload : pageLoad held word' dirs = Function.update (pageLoad held m.word dirs) (pteFrame w)
      (pageLoad held m.word dirs (pteFrame w) - 1) := by
    refine eq_update_of_drop fun q => ?_
    have hq := hrefs q
    rw [present_zero, Option.map_some, Option.map_none, hit_none] at hq
    unfold pageLoad
    omega
  constructor
  · refine ⟨?_, ?_⟩
    · rw [hm', hload, hinv]
      exact hcounts
    · rw [hm']
      exact h.tables.store_page ht (fun hP => absurd hP (not_flag_zero _)) (fun _ => rfl)
  · intro e' i'
    rw [hm']
    exact hsep.tableAt_store_page ht
  · intro e' i' j'
    rw [hm', hsep.mapping_store_page ht, present_zero]
  · intro q
    have hq := hrefs q
    rw [present_zero, Option.map_none, hit_none, add_zero] at hq
    rw [hm', hw]
    exact hq
  · rw [hinv]
    exact hcr3
  · intro c a ha
    have hmem := mem_tlbInvalidate ha
    exact ⟨htlb ▸ hmem.1, fun _ => hmem.2⟩

theorem pageRemove_spec (h : MemInv L nullOk held dirs m) (hd : dirs e = some d)
    (hi : (pdx va : ℕ) < 955)
    (hbound : ∀ w, mapping m.word dirs e (pdx va) (ptx va) = some w →
      L.counted (pteFrame w) → pageLoad held m.word dirs (pteFrame w) ≤ 65536)
    (hrun : pageRemove M x d va m = .ok m') : Removed L nullOk held dirs x e d va m m' := by
  unfold pageRemove at hrun
  simp only [bind_eq_ok] at hrun
  obtain ⟨⟨pte, page⟩, hlook, hrun⟩ := hrun
  obtain ⟨hpte, hpage, hlt⟩ := pageLookup_spec hd hi hlook
  cases hw : mapping m.word dirs e (pdx va) (ptx va) with
  | none =>
      rw [hw] at hpage
      subst hpage
      cases pte <;> (cases hrun; exact Removed.refl h hw)
  | some w =>
      obtain ⟨t, ht, -⟩ := mapping_eq_some.mp hw
      rw [hw] at hpage
      rw [ht] at hpte
      subst hpage hpte
      simp only [Option.map_some, bind_eq_ok] at hrun
      obtain ⟨m₁, hdecref, hrun⟩ := hrun
      cases hrun
      have hcounted := pageTarget_counted (h.tables.page hw) (hlt w hw)
      exact clear_spec h ht hw hcounted (hbound w hw hcounted) hdecref

/-! ### Inserting -/

/-- Entry `w` was set for `va` in `e`. -/
structure Inserted (L : Layout M) (nullOk : Prop) (dirs : Dirs) (x : Ctx n) (e : EnvIdx)
    (d : ℕ) (va w : Word) (m m' : Mem n) : Prop where
  inv : MemInv L nullOk none dirs m'
  tables : ∀ e' i' t, tableAt m.word dirs e' i' = some t → tableAt m'.word dirs e' i' = some t
  otherTables : ∀ e' i', ¬ (e' = e ∧ i' = pdx va) →
    tableAt m'.word dirs e' i' = tableAt m.word dirs e' i'
  maps : ∀ e' i' j', mapping m'.word dirs e' i' j' =
    if e' = e ∧ i' = pdx va ∧ j' = ptx va then some w else mapping m.word dirs e' i' j'
  bounded : ∀ {b}, 0 < b → Bounded L b dirs m →
    (L.counted (pteFrame w) →
      (mapping m.word dirs e (pdx va) (ptx va)).map pteFrame = some (pteFrame w) ∨
        pageLoad none m.word dirs (pteFrame w) < b) → Bounded L b dirs m'
  cr3 : m'.cr3 = m.cr3
  tlb : ∀ c a, a ∈ m'.tlb c → a ∈ m.tlb c ∧
    (mapping m.word dirs e (pdx va) (ptx va) ≠ none → x.curPgdir = some (some d) →
      c = x.cpu → a.1 ≠ pgnum va)

/-- Setting an empty entry to a page that is counted already. -/
theorem set_spec (h : MemInv L nullOk held dirs m) (ht : tableAt m.word dirs e i = some t)
    (hnone : mapping m.word dirs e i j = none) (hP : Flag w pteP)
    (htarget : PageTarget L nullOk w) (hplain : Plain m.word dirs (pteFrame w))
    (hheld : ∀ q, L.counted q → hit (some (pteFrame w)) q = hit held q) :
    MemInv L nullOk none dirs (m.store t j w) ∧
      ∀ q, pageRefs (m.store t j w).word dirs q =
        pageRefs m.word dirs q + hit (some (pteFrame w)) q := by
  have hrefs (q : ℕ) : pageRefs (m.store t j w).word dirs q =
      pageRefs m.word dirs q + hit (some (pteFrame w)) q := by
    have hstore := h.tables.separate.pageRefs_store_page (j := j) (w := w) ht q
    rw [hnone, present_of_flag hP] at hstore
    simpa using hstore
  refine ⟨⟨?_, h.tables.store_page ht (fun _ => ⟨htarget, hplain⟩) (absurd hP)⟩, hrefs⟩
  refine h.counts.congr L.pool_counted fun q hq => ?_
  simp only [pageLoad, hrefs, hheld q hq, hit_none]
  omega

/-- The end of `page_insert`: the old mapping is removed, if there is one, and
the entry set. -/
theorem replace_spec {m₁ m₂ m₃ : Mem n} (hwalk : Walked L nullOk dirs e (pdx va) m t m₁)
    (h : MemInv L nullOk held dirs m₂) (hd : dirs e = some d) (hi : (pdx va : ℕ) < 955)
    (hsame : ∀ e' i', tableAt m₂.word dirs e' i' = tableAt m₁.word dirs e' i')
    (hmaps : ∀ e' i' j', mapping m₂.word dirs e' i' j' = mapping m₁.word dirs e' i' j')
    (hrefs : ∀ q, pageRefs m₂.word dirs q = pageRefs m₁.word dirs q)
    (hcr3 : m₂.cr3 = m₁.cr3) (htlb : m₂.tlb = m₁.tlb)
    (hbound : ∀ w, mapping m.word dirs e (pdx va) (ptx va) = some w →
      L.counted (pteFrame w) → pageLoad held m₂.word dirs (pteFrame w) ≤ 65536)
    (hrun : (if Flag (m₂.word t (ptx va)) pteP then pageRemove M x d va m₂ else .ok m₂) =
      .ok m₃)
    (hP : Flag w pteP) (htarget : PageTarget L nullOk w)
    (hplain : Plain m₁.word dirs (pteFrame w)) (hoff : ¬ m.pool.On (pteFrame w))
    (hheld : ∀ q, L.counted q → hit (some (pteFrame w)) q = hit held q) :
    Inserted L nullOk dirs x e d va w m (m₃.store t (ptx va) w) := by
  have ht₂ : tableAt m₂.word dirs e (pdx va) = some t := (hsame _ _).trans hwalk.table
  have hold : mapping m₂.word dirs e (pdx va) (ptx va) =
      mapping m.word dirs e (pdx va) (ptx va) := (hmaps _ _ _).trans (hwalk.maps _ _ _)
  -- an entry that is not present stays as it is, like one that `page_remove` skips
  have hremoved : Removed L nullOk held dirs x e d va m₂ m₃ := by
    split at hrun
    · exact pageRemove_spec h hd hi (fun v hv => hbound v (hold ▸ hv)) hrun
    · rename_i hpte
      cases hrun
      refine Removed.refl h ?_
      rw [mapping_of_table ht₂, present_of_not_flag hpte]
  have ht₃ : tableAt m₃.word dirs e (pdx va) = some t := (hremoved.tables _ _).trans ht₂
  have hnone : mapping m₃.word dirs e (pdx va) (ptx va) = none := by simp [hremoved.maps]
  have hsep := hremoved.inv.tables.separate
  have hplain₃ : Plain m₃.word dirs (pteFrame w) :=
    ⟨hplain.dir, fun e' i' => ((hremoved.tables e' i').trans (hsame e' i')) ▸ hplain.table e' i'⟩
  obtain ⟨hinv, hset⟩ := set_spec hremoved.inv ht₃ hnone hP htarget hplain₃ hheld
  have htables (e' i') : tableAt (m₃.store t (ptx va) w).word dirs e' i' =
      tableAt m₁.word dirs e' i' :=
    (hsep.tableAt_store_page ht₃).trans ((hremoved.tables e' i').trans (hsame e' i'))
  constructor
  · exact hinv
  · intro e' i' t' ht'
    rw [htables]
    by_cases heq : e' = e ∧ i' = pdx va
    · obtain ⟨rfl, rfl⟩ := heq
      rw [hwalk.mono t' ht', hwalk.table]
    · rw [hwalk.tables e' i' heq, ht']
  · intro e' i' hne
    rw [htables, hwalk.tables e' i' hne]
  · intro e' i' j'
    rw [word_store, hsep.mapping_store_page ht₃, hremoved.maps, hmaps, hwalk.maps,
      present_of_flag hP]
    split <;> rfl
  · intro b hpos hb hroom q hq
    have hb₁ := hwalk.bounded hpos hb q hq
    have hq₃ := hremoved.refs q
    rw [hold, hrefs] at hq₃
    unfold pageLoad at hb₁ ⊢
    rw [hset]
    by_cases hqw : q = pteFrame w
    · subst hqw
      rcases hroom hq with hroom | hroom
      · rw [hroom, hit_self] at hq₃
        rw [hit_self, hit_none]
        rw [hit_none] at hb₁
        omega
      · unfold pageLoad at hroom
        rw [← hwalk.refs _ hoff] at hroom
        rw [hit_self, hit_none]
        rw [hit_none] at hroom
        omega
    · rw [hit_of_ne (v := some (pteFrame w)) (by simpa using fun heq => hqw heq.symm), hit_none]
      rw [hit_none] at hb₁
      omega
  · exact hremoved.cr3.trans (hcr3.trans hwalk.cr3)
  · intro c a ha
    have hmem := hremoved.tlb c a ha
    rw [hold] at hmem
    exact ⟨hwalk.tlb ▸ htlb ▸ hmem.1, hmem.2⟩

/-- The new reference count of the page to be inserted. -/
theorem hold_spec (h : MemInv L nullOk none dirs m) (hoff : ¬ m.pool.On p) :
    MemInv L nullOk (some p) dirs (m.setRef p (m.pool.ref p + 1)) := by
  refine ⟨?_, h.tables⟩
  have hincr := h.counts.incr hoff
  rw [pool_setRef, word_setRef]
  rwa [← eq_update_of_gain fun q => show pageLoad (some p) m.word dirs q = _ by
    simp [pageLoad]] at hincr

/-- The last two steps of `page_insert`. -/
theorem insert_tail {r : Word} {pp : Option ℕ}
    (hrun : (if Flag (m.word t i) pteP then do
        let m ← pageRemove M x d va m
        Except.ok ((0 : Word), m.store t i (mkPte (page2pa M pp) perm))
      else do
        let m ← Except.ok m
        Except.ok ((0 : Word), m.store t i (mkPte (page2pa M pp) perm))) = .ok (r, m')) :
    ∃ m₃, (if Flag (m.word t i) pteP then pageRemove M x d va m else .ok m) = .ok m₃ ∧
      m' = m₃.store t i (mkPte (page2pa M pp) perm) := by
  split at hrun <;>
    (rename_i hP
     simp only [bind_eq_ok] at hrun
     obtain ⟨m₃, hremove, hrun⟩ := hrun
     cases hrun
     refine ⟨m₃, ?_, rfl⟩
     simpa [hP] using hremove)

theorem pageInsert_spec (h : MemInv L nullOk none dirs m) (hd : dirs e = some d)
    (hi : (pdx va : ℕ) < 955) (hp : L.counted p) (hplain : Plain m.word dirs p)
    (hoff : ¬ m.pool.On p) (hperm : perm.toNat < 4096)
    (hbound : ∀ w, mapping m.word dirs e (pdx va) (ptx va) = some w →
      L.counted (pteFrame w) →
        pageLoad none m.word dirs (pteFrame w) + hit (some p) (pteFrame w) ≤ 65536)
    (hrun : pageInsert M x d (some p) va perm m = .ok (0, m')) :
    Inserted L nullOk dirs x e d va (mkPte (frame2pa p) perm) m m' := by
  have hframe : pteFrame (mkPte (frame2pa p) perm) = p :=
    pteFrame_mkPte (L.counted_lt hp) hperm
  unfold pageInsert at hrun
  simp only [bind_eq_ok] at hrun
  obtain ⟨⟨pte, m₁⟩, hwalk, hrun⟩ := hrun
  rcases pgdirWalk_spec h hd hi hwalk with ⟨rfl, rfl⟩ | ⟨t, rfl, hwalked⟩
  · cases hrun
  · simp only [incRef, bind_eq_ok] at hrun
    obtain ⟨m₂, hm₂, hrun⟩ := hrun
    obtain rfl := Except.ok.inj hm₂
    have hoff₁ : ¬ m₁.pool.On p := fun hon => hoff (hwalked.on p hon)
    obtain ⟨m₃, hremove, rfl⟩ := insert_tail hrun
    refine replace_spec hwalked (hold_spec hwalked.inv hoff₁) hd hi (fun _ _ => rfl)
      (fun _ _ _ => rfl) (fun _ => rfl) rfl rfl (fun v hv hcounted => ?_) hremove
      (flag_mkPte_P _ _) ?_ ?_ ?_ ?_
    · have hq := hbound v hv hcounted
      have hrefs := hwalked.refs (pteFrame v) (h.not_on_page hv)
      unfold pageLoad at hq ⊢
      rw [word_setRef, hrefs]
      rw [hit_none] at hq
      omega
    · exact Or.inl (hframe.symm ▸ hp)
    · rw [hframe]
      exact hwalked.plain hplain hoff
    · rwa [hframe]
    · intro q _
      rw [hframe]

/-- A page that has just been allocated is inserted. -/
theorem Allocated.inserted {z : Bool} {m₁ : Mem n} (hal : Allocated L nullOk dirs z m p m₁)
    (hb : Bounded L 65536 dirs m) (hd : dirs e = some d) (hi : (pdx va : ℕ) < 955)
    (hperm : perm.toNat < 4096) (hrun : pageInsert M x d (some p) va perm m₁ = .ok (0, m')) :
    Inserted L nullOk dirs x e d va (mkPte (frame2pa p) perm) m m' ∧
      ∀ {b}, 0 < b → Bounded L b dirs m → Bounded L b dirs m' := by
  have hload := hal.load
  have hframe : pteFrame (mkPte (frame2pa p) perm) = p :=
    pteFrame_mkPte (L.frame_lt hal.pool) hperm
  have hins := pageInsert_spec hal.inv hd hi (Or.inl hal.pool) (plain_of_unref hal.unref)
    hal.off hperm (fun w _ hw => by
      by_cases heq : pteFrame w = p
      · rw [heq, hload]
        have hhit := hit_le_one (some p) p
        omega
      · rw [hit_of_ne (v := some p) (by simpa using fun h => heq h.symm)]
        exact hal.bounded hb _ hw) hrun
  have hbounded {b : ℕ} (hpos : 0 < b) (hb : Bounded L b dirs m) : Bounded L b dirs m' :=
    hins.bounded hpos (hal.bounded hb) fun _ => Or.inr (by rwa [hframe, hload])
  refine ⟨⟨hins.inv, fun e' i' t ht => hins.tables e' i' t ((hal.tables e' i').trans ht),
    fun e' i' hne => (hins.otherTables e' i' hne).trans (hal.tables e' i'),
    fun e' i' j' => by rw [hins.maps, hal.maps], fun hpos hb _ => hbounded hpos hb,
    hins.cr3.trans hal.cr3, fun c a ha => ?_⟩, hbounded⟩
  have hmem := hins.tlb c a ha
  rwa [hal.tlb, hal.maps] at hmem

/-! ### The null page -/

/-- The frame that `page2pa` makes of the null pointer. -/
def nullFrame (M : Machine) : ℕ := 1048576 - 512 * M.pagesFrame

theorem page2pa_none : page2pa M none = frame2pa (nullFrame M) := by
  have hpos := M.pagesFrame_pos
  have hlt := M.pagesFrame_lt
  have hdiff : (0#32 - M.pagesKva).toNat = 268435456 - 4096 * M.pagesFrame := by
    simp only [Machine.pagesKva, kernbase, BitVec.toNat_sub, BitVec.toNat_add,
      BitVec.toNat_ofNat]
    omega
  have hmsb : (0#32 - M.pagesKva).msb = false := by
    rw [BitVec.msb_eq_false_iff_two_mul_lt, hdiff]
    omega
  have hdiv : ((0#32 - M.pagesKva).sdiv 8#32).toNat = 33554432 - 512 * M.pagesFrame := by
    have hmsb8 : (8#32).msb = false := by decide
    simp only [BitVec.sdiv, hmsb, hmsb8, BitVec.udiv_eq, BitVec.toNat_udiv, hdiff,
      BitVec.toNat_ofNat, Nat.reducePow, Nat.reduceMod]
    omega
  apply BitVec.eq_of_toNat_eq
  simp only [page2pa, frame2pa, nullFrame, BitVec.toNat_shiftLeft, hdiv, BitVec.toNat_ofNat,
    Nat.shiftLeft_eq]
  omega

theorem npages_le_nullFrame (M : Machine) : M.npages ≤ nullFrame M := by
  have hlt := M.pagesFrame_lt
  have hle := M.npages_le
  unfold nullFrame
  omega

theorem nullFrame_lt (M : Machine) : nullFrame M < 1048576 := by
  have hpos := M.pagesFrame_pos
  unfold nullFrame
  omega

/-- A store that goes through a user address reaches a mapped page. -/
theorem kernWritable_spec {c : Fin n} {frame : ℕ} (h : MemInv L nullOk held dirs m)
    (hd : dirs e = some (m.cr3 c)) (hi : (pdx va : ℕ) < 955)
    (hwrite : kernWritable c va m = some frame) :
    ∃ w, mapping m.word dirs e (pdx va) (ptx va) = some w ∧ Flag w pteW ∧
      frame = pteFrame w ∧ L.counted frame ∧ Plain m.word dirs frame := by
  unfold kernWritable at hwrite
  simp only [Option.ite_none_right_eq_some, Option.some.injEq] at hwrite
  obtain ⟨⟨hPde, -, hPte, hW⟩, rfl⟩ := hwrite
  have ht : tableAt m.word dirs e (pdx va) = some (pteFrame (m.word (m.cr3 c) (pdx va))) := by
    rw [tableAt_of_dir hi hd, present_of_flag hPde]
    rfl
  have hw := mapping_of_table (j := ptx va) ht
  rw [present_of_flag hPte] at hw
  refine ⟨_, hw, hW, rfl, ?_, h.tables.separate.plain_of_page hw⟩
  exact (h.tables.page hw).resolve_right fun hnull => hnull.2.2 hW

/-- The kernel directory maps nothing below `UTOP`. -/
theorem kernWritable_kernPgdir {c : Fin n} (h : MemInv L nullOk held dirs m)
    (hcr3 : m.cr3 c = M.kernPgdir) (hi : (pdx va : ℕ) < 955) :
    kernWritable c va m = none := by
  have hzero : m.word (m.cr3 c) (pdx va) = 0#32 := by
    rw [hcr3, h.tables.kern L.pgdir_not_counted]
    exact L.pgdir_user hi
  simp [kernWritable, hzero]

/-- The CPU has the directory of a live environment loaded, or the kernel's. -/
def Loaded (M : Machine) (dirs : Dirs) (m : Mem n) (c : Fin n) : Prop :=
  m.cr3 c = M.kernPgdir ∨ ∃ e, dirs e = some (m.cr3 c)

/-- The count of the null page is a word of user memory. -/
theorem incRef_none (h : MemInv L nullOk none dirs m) (hcr3 : Loaded M dirs m x.cpu)
    (hrun : incRef x none m = .ok m') :
    MemInv L nullOk none dirs m' ∧ slotRef m'.word dirs = slotRef m.word dirs ∧
      (∀ e i, tableAt m'.word dirs e i = tableAt m.word dirs e i) ∧
      (∀ e i j, mapping m'.word dirs e i j = mapping m.word dirs e i j) ∧
      m'.cr3 = m.cr3 ∧ m'.tlb = m.tlb := by
  have hi : (pdx 0#32 : ℕ) < 955 := by decide
  unfold incRef at hrun
  cases hwrite : kernWritable x.cpu 0#32 m with
  | none => simp [hwrite] at hrun
  | some frame =>
      simp only [hwrite, Except.ok.injEq] at hrun
      subst hrun
      rcases hcr3 with hcr3 | ⟨e, hd⟩
      · rw [kernWritable_kernPgdir h hcr3 hi] at hwrite
        cases hwrite
      · obtain ⟨w, -, -, -, hcounted, hplain⟩ := kernWritable_spec h hd hi hwrite
        have hword (q : ℕ) (hq : q ≠ frame) (v : Word) : (m.store frame 1 v).word q = m.word q :=
          Function.update_of_ne hq _ _
        exact ⟨h.write_plain hplain hcounted rfl fun q hq => hword q hq _,
          hplain.slotRef fun q hq => hword q hq _,
          fun _ _ => hplain.tableAt fun q hq => hword q hq _,
          fun _ _ _ => hplain.mapping fun q hq => hword q hq _, rfl, rfl⟩

/-- Mapping the null page writes a read-only entry that leads past the end of
memory. -/
theorem pageInsert_none_spec (h : MemInv L nullOk none dirs m) (hnull : nullOk)
    (hd : dirs e = some d) (hi : (pdx va : ℕ) < 955) (hcr3 : Loaded M dirs m x.cpu)
    (hperm : perm.toNat < 4096) (hW : ¬ Flag perm pteW)
    (hbound : ∀ w, mapping m.word dirs e (pdx va) (ptx va) = some w →
      L.counted (pteFrame w) → pageLoad none m.word dirs (pteFrame w) ≤ 65536)
    (hrun : pageInsert M x d none va perm m = .ok (0, m')) :
    Inserted L nullOk dirs x e d va (mkPte (page2pa M none) perm) m m' := by
  have hframe : pteFrame (mkPte (page2pa M none) perm) = nullFrame M := by
    rw [page2pa_none]
    exact pteFrame_mkPte (nullFrame_lt M) hperm
  have hnpages := npages_le_nullFrame M
  have hne {q : ℕ} (hq : L.pool q) : q ≠ nullFrame M := by
    have hlt := L.pool_lt hq
    omega
  have hvga : vgaFrame ≠ nullFrame M := by
    have hlt := M.pagesFrame_lt
    unfold vgaFrame nullFrame
    omega
  unfold pageInsert at hrun
  simp only [bind_eq_ok] at hrun
  obtain ⟨⟨pte, m₁⟩, hwalk, hrun⟩ := hrun
  rcases pgdirWalk_spec h hd hi hwalk with ⟨rfl, rfl⟩ | ⟨t, rfl, hwalked⟩
  · cases hrun
  · simp only [bind_eq_ok] at hrun
    obtain ⟨m₂, hincr, hrun⟩ := hrun
    have hloaded : Loaded M dirs m₁ x.cpu := by
      unfold Loaded
      rwa [hwalked.cr3]
    obtain ⟨hinv, hslots, htables, hmaps, hcr3', htlb⟩ := incRef_none hwalked.inv hloaded hincr
    obtain ⟨m₃, hremove, rfl⟩ := insert_tail hrun
    refine replace_spec hwalked hinv hd hi htables hmaps
      (fun q => pageRefs_congr hslots) hcr3' htlb (fun v hv hcounted => ?_) hremove
      (flag_mkPte_P _ _) ?_ ?_ ?_ ?_
    · have hq := hbound v hv hcounted
      have hrefs := hwalked.refs (pteFrame v) (h.not_on_page hv)
      unfold pageLoad at hq ⊢
      rw [pageRefs_congr hslots, hrefs]
      omega
    · refine Or.inr ⟨hnull, ?_, ?_⟩
      · rwa [hframe]
      · rwa [page2pa_none, flag_mkPte_W]
    · rw [hframe]
      exact ⟨fun e' hd' => hne (hwalked.inv.tables.dir hd') rfl,
        fun e' i' ht' => hne (hwalked.inv.tables.table ht') rfl⟩
    · rw [hframe]
      exact fun hon => hne (h.refs_of_on hon).1 rfl
    · intro q hq
      rw [hframe, hit_none, hit_of_ne]
      rintro heq
      obtain rfl := Option.some.inj heq
      rcases hq with hq | hq
      · exact hne hq rfl
      · exact hvga hq.symm

end Jos
