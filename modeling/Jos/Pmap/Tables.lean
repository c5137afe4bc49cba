import Jos.Pmap.Invariant

/-!
The writes to page tables that the kernel makes, and why each keeps the tables
in order: to a page that is neither a directory nor a table, to a table entry,
to a directory entry whose table is empty, and to the directory of an
environment that has no tables.
-/

namespace Jos

open Jos.Lib

variable {M : Machine} {L : Layout M} {nullOk : Prop} {word word' : Words} {dirs : Dirs}
  {e : EnvIdx} {i j : PtIdx} {d t p : ℕ} {w : Word}

theorem pteFrame_tablePde (ht : t < 1048576) : pteFrame (tablePde t) = t := by
  unfold tablePde
  rw [BitVec.or_assoc, BitVec.or_assoc]
  exact pteFrame_or ht (by decide)

@[simp] theorem flag_tablePde_P (t : ℕ) : Flag (tablePde t) pteP := by
  simp only [tablePde, flag_or]
  exact Or.inl (Or.inl (Or.inr (by decide)))

@[simp] theorem flag_tablePde_U (t : ℕ) : Flag (tablePde t) pteU := by
  simp only [tablePde, flag_or]
  exact Or.inl (Or.inr (by decide))

@[simp] theorem flag_tablePde_W (t : ℕ) : Flag (tablePde t) pteW := by
  simp only [tablePde, flag_or]
  exact Or.inr (by decide)

@[simp] theorem present_tablePde (ht : t < 1048576) :
    (present (tablePde t)).map pteFrame = some t := by
  simp [present, pteFrame_tablePde ht]

theorem Layout.frame_lt (hp : L.pool p) : p < 1048576 :=
  (L.pool_lt hp).trans_le (M.npages_le.trans (by norm_num))

theorem vgaFrame_lt : vgaFrame < 1048576 := by decide

theorem Layout.counted_lt (hp : L.counted p) : p < 1048576 := by
  rcases hp with hp | rfl
  · exact L.frame_lt hp
  · exact vgaFrame_lt

theorem Layout.pgdir_not_counted (L : Layout M) : ¬ L.counted M.kernPgdir := by
  rintro (h | h)
  · exact L.pgdir_not_pool h
  · exact L.pgdir_ne_vga h

namespace TableInv

theorem user_index (ht : tableAt word dirs e i = some t) : (i : ℕ) < 955 :=
  (tableAt_eq_some.mp ht).1

theorem exists_dir (ht : tableAt word dirs e i = some t) : ∃ d, dirs e = some d := by
  obtain ⟨-, d, hd, -⟩ := tableAt_eq_some.mp ht
  exact ⟨d, hd⟩

theorem plain_of_unref_ne (hp : pageRefs word dirs p = 0) (hd : dirs e = some d) : d ≠ p := by
  rintro rfl
  exact (plain_of_unref hp).dir e hd

theorem write_plain (h : TableInv L nullOk word dirs) (hp : Plain word dirs p)
    (hcounted : L.counted p) (hword : ∀ q, q ≠ p → word' q = word q) :
    TableInv L nullOk word' dirs := by
  have hrefs (q : ℕ) : pageRefs word' dirs q = pageRefs word dirs q :=
    pageRefs_congr (hp.slotRef hword)
  have htable (e i) : tableAt word' dirs e i = tableAt word dirs e i := hp.tableAt hword
  have hmap (e i j) : mapping word' dirs e i j = mapping word dirs e i j := hp.mapping hword
  have hdir {e d} (hd : dirs e = some d) : word' d = word d :=
    hword d (by rintro rfl; exact hp.dir e hd)
  have htab {e i t} (ht : tableAt word dirs e i = some t) : word' t = word t :=
    hword t (by rintro rfl; exact hp.table e i ht)
  constructor
  · constructor
    · intro e d hd
      rw [hrefs, h.separate.dir hd]
    · intro e i t ht
      rw [hrefs, h.separate.table (htable e i ▸ ht)]
  · exact h.dir
  · intro e d hd i hi
    rw [hdir hd, h.dirKern hd hi]
  · intro e i t ht
    exact h.table (htable e i ▸ ht)
  · intro e d i t hd ht
    rw [hdir hd, h.pde hd (htable e i ▸ ht)]
  · intro e i t ht j hj
    rw [htable] at ht
    rw [htab ht] at hj ⊢
    exact h.absent ht j hj
  · intro e i j w hw
    exact h.page (hmap e i j ▸ hw)
  · intro f hf
    have hne : f ≠ p := by
      rintro rfl
      exact hf hcounted
    rw [hword f hne, h.kern hf]

/-- A table entry is cleared, or set to map a page that is neither a directory
nor a table. -/
theorem store_page (h : TableInv L nullOk word dirs) (ht : tableAt word dirs e i = some t)
    (hset : Flag w pteP → PageTarget L nullOk w ∧ Plain word dirs (pteFrame w))
    (hclear : ¬ Flag w pteP → w = 0) :
    TableInv L nullOk (Function.update word t (Function.update (word t) j w)) dirs := by
  set word' := Function.update word t (Function.update (word t) j w) with hword'
  have htable (e' i') : tableAt word' dirs e' i' = tableAt word dirs e' i' :=
    h.separate.tableAt_store_page ht
  have hdir {e' d} (hd : dirs e' = some d) : word' d = word d :=
    Function.update_of_ne (h.separate.table_ne_dir ht hd).symm _ _
  -- the page that the entry maps is neither the old nor the new reference of a structure
  have hrefs {q : ℕ} (hold : ∀ v, mapping word dirs e i j = some v → pteFrame v ≠ q)
      (hnew : Flag w pteP → pteFrame w ≠ q) :
      pageRefs word' dirs q = pageRefs word dirs q := by
    have hstore := h.separate.pageRefs_store_page (j := j) (w := w) ht q
    rw [hit_of_ne, hit_of_ne] at hstore
    · simpa using hstore
    · intro hq
      obtain ⟨v, hv, rfl⟩ := Option.map_eq_some_iff.mp hq
      obtain ⟨hP, rfl⟩ := present_eq_some.mp hv
      exact hnew hP rfl
    · intro hq
      obtain ⟨v, hv, rfl⟩ := Option.map_eq_some_iff.mp hq
      exact hold v hv rfl
  constructor
  · constructor
    · intro e' d hd
      rw [hrefs, h.separate.dir hd]
      · rintro v hv rfl
        exact (h.separate.plain_of_page hv).dir e' hd
      · rintro hP rfl
        exact (hset hP).2.dir e' hd
    · intro e' i' t' ht'
      rw [htable] at ht'
      rw [hrefs, h.separate.table ht']
      · rintro v hv rfl
        exact (h.separate.plain_of_page hv).table e' i' ht'
      · rintro hP rfl
        exact (hset hP).2.table e' i' ht'
  · exact h.dir
  · intro e' d hd i' hi'
    rw [hdir hd, h.dirKern hd hi']
  · intro e' i' t' ht'
    exact h.table (htable e' i' ▸ ht')
  · intro e' d i' t' hd ht'
    rw [hdir hd, h.pde hd (htable e' i' ▸ ht')]
  · intro e' i' t' ht' j' hj'
    rw [htable] at ht'
    by_cases htt : t' = t
    · subst htt
      by_cases hjj : j' = j
      · subst hjj
        simp only [hword', Function.update_self] at hj' ⊢
        exact hclear hj'
      · simp only [hword', Function.update_self, Function.update_of_ne hjj] at hj' ⊢
        exact h.absent ht' j' hj'
    · simp only [hword', Function.update_of_ne htt] at hj' ⊢
      exact h.absent ht' j' hj'
  · intro e' i' j' v hv
    rw [h.separate.mapping_store_page ht] at hv
    split at hv
    · obtain ⟨hP, rfl⟩ := present_eq_some.mp hv
      exact (hset hP).1
    · exact h.page hv
  · intro f hf
    have hne : f ≠ t := by
      rintro rfl
      exact hf (Or.inl (h.table ht))
    rw [hword', Function.update_of_ne hne, h.kern hf]

/-- A directory entry is set to a new empty table or, when its table is empty,
cleared. -/
theorem store_pde (h : TableInv L nullOk word dirs) (hd : dirs e = some d)
    (hi : (i : ℕ) < 955) (hbefore : ∀ j, mapping word dirs e i j = none)
    (hset : Flag w pteP → ∃ p, w = tablePde p ∧ L.pool p ∧ pageRefs word dirs p = 0 ∧
      word p = 0) (hreplace : Flag w pteP → tableAt word dirs e i = none) :
    TableInv L nullOk (Function.update word d (Function.update (word d) i w)) dirs := by
  set word' := Function.update word d (Function.update (word d) i w) with hword'
  have htable (e' i') : tableAt word' dirs e' i' =
      if e' = e ∧ i' = i then (present w).map pteFrame else tableAt word dirs e' i' :=
    h.separate.tableAt_store_pde hd hi
  -- a new entry that is present leads to an empty page without references
  have hnew {t} (ht : (present w).map pteFrame = some t) :
      w = tablePde t ∧ L.pool t ∧ pageRefs word dirs t = 0 ∧ word t = 0 ∧
        tableAt word dirs e i = none := by
    obtain ⟨v, hv, rfl⟩ := Option.map_eq_some_iff.mp ht
    obtain ⟨hP, rfl⟩ := present_eq_some.mp hv
    obtain ⟨p, hp, hpool, hunref, hzero⟩ := hset hP
    have hframe : pteFrame v = p := by rw [hp, pteFrame_tablePde (L.frame_lt hpool)]
    rw [hframe]
    exact ⟨hp, hpool, hunref, hzero, hreplace hP⟩
  have hcontents {q : ℕ} (hq : q ≠ d) : word' q = word q := Function.update_of_ne hq _ _
  -- so nothing is mapped there, as before
  have hafter (j) : mapping word' dirs e i j = none := by
    cases ht : (present w).map pteFrame with
    | none => exact mapping_of_none (by rw [htable, if_pos ⟨rfl, rfl⟩, ht])
    | some t =>
        obtain ⟨-, -, hunref, hzero, -⟩ := hnew ht
        have hne : t ≠ d := fun heq => plain_of_unref_ne hunref hd heq.symm
        rw [mapping_of_table (t := t) (by rw [htable, if_pos ⟨rfl, rfl⟩, ht]), hcontents hne,
          hzero]
        exact present_zero
  have hmap (e' i' j') : mapping word' dirs e' i' j' = mapping word dirs e' i' j' := by
    by_cases heq : e' = e ∧ i' = i
    · obtain ⟨rfl, rfl⟩ := heq
      rw [hafter, hbefore]
    · exact h.separate.mapping_store_pde_of_ne hd hi heq
  have hrefs (q : ℕ) := h.separate.pageRefs_store_pde hd hi hbefore hafter q
  constructor
  · constructor
    · intro e' d' hd'
      have hstore := hrefs d'
      rw [hit_of_ne, hit_of_ne, h.separate.dir hd'] at hstore
      · simpa using hstore
      · intro ht
        obtain ⟨-, -, hunref, -⟩ := hnew ht
        exact plain_of_unref_ne hunref hd' rfl
      · intro ht
        exact h.separate.table_ne_dir ht hd' rfl
    · intro e' i' t ht
      rw [htable] at ht
      have hstore := hrefs t
      split at ht
      · obtain ⟨-, -, hunref, -, hnone⟩ := hnew ht
        rw [ht, hnone, hunref] at hstore
        simpa using hstore
      · rename_i hne
        rw [hit_of_ne, hit_of_ne, h.separate.table ht] at hstore
        · simpa using hstore
        · intro hsome
          obtain ⟨-, -, hunref, -⟩ := hnew hsome
          exact (plain_of_unref hunref).table e' i' ht
        · intro hsome
          exact hne (h.separate.table_inj hsome ht)
  · exact h.dir
  · intro e' d' hd' i' hi'
    by_cases hdd : d' = d
    · subst hdd
      have hne : i' ≠ i := by
        rintro rfl
        omega
      rw [hword', Function.update_self, Function.update_of_ne hne, h.dirKern hd' hi']
    · rw [hcontents hdd, h.dirKern hd' hi']
  · intro e' i' t ht
    rw [htable] at ht
    split at ht
    · exact (hnew ht).2.1
    · exact h.table ht
  · intro e' d' i' t hd' ht
    rw [htable] at ht
    split at ht
    · rename_i heq
      obtain ⟨rfl, rfl⟩ := heq
      obtain rfl : d = d' := Option.some.inj (hd.symm.trans hd')
      rw [hword', Function.update_self, Function.update_self]
      exact (hnew ht).1
    · rename_i hne
      by_cases hdd : d' = d
      · subst hdd
        obtain rfl := h.separate.dir_inj hd hd'
        have hii : i' ≠ i := fun heq => hne ⟨rfl, heq⟩
        rw [hword', Function.update_self, Function.update_of_ne hii, h.pde hd' ht]
      · rw [hcontents hdd, h.pde hd' ht]
  · intro e' i' t ht j' hj'
    rw [htable] at ht
    split at ht
    · obtain ⟨-, -, hunref, hzero, -⟩ := hnew ht
      have hne : t ≠ d := fun heq => plain_of_unref_ne hunref hd heq.symm
      rw [hcontents hne, hzero]
      rfl
    · have hne : t ≠ d := h.separate.table_ne_dir ht hd
      rw [hcontents hne] at hj' ⊢
      exact h.absent ht j' hj'
  · intro e' i' j' v hv
    exact h.page (hmap e' i' j' ▸ hv)
  · intro f hf
    have hne : f ≠ d := by
      rintro rfl
      exact hf (Or.inl (h.dir hd))
    rw [hcontents hne, h.kern hf]

/-- An environment without page tables gives up its directory, or one without
a directory gets a new one. -/
theorem set_dir (h : TableInv L nullOk word dirs) {v : Option ℕ}
    (hbefore : ∀ i, tableAt word dirs e i = none)
    (hset : ∀ {d}, v = some d → dirs e = none ∧ L.pool d ∧ pageRefs word dirs d = 0 ∧
      ∀ {i : PtIdx}, if (i : ℕ) < 955 then word d i = 0 else
        word d i = if i = pdx uvpt then frame2pa d ||| pteP ||| pteU else
          L.kern M.kernPgdir i) :
    TableInv L nullOk word (Function.update dirs e v) := by
  -- the new directory has no page tables, as the old one had none
  have hafter (i) : tableAt word (Function.update dirs e v) e i = none := by
    cases hv : v with
    | none => exact tableAt_of_none (Function.update_self _ _ _)
    | some d =>
        by_cases hi : (i : ℕ) < 955
        · obtain ⟨-, -, -, hcontents⟩ := hset hv
          have hzero := hcontents (i := i)
          rw [if_pos hi] at hzero
          rw [tableAt_of_dir hi (Function.update_self _ _ _), hzero]
          simp
        · simp [tableAt, hi]
  have htable (e' i) : tableAt word (Function.update dirs e v) e' i = tableAt word dirs e' i := by
    by_cases he : e' = e
    · rw [he, hbefore, hafter]
    · exact tableAt_congr (Function.update_of_ne he _ _) fun _ _ => rfl
  have hmap (e' i j) :
      mapping word (Function.update dirs e v) e' i j = mapping word dirs e' i j :=
    mapping_congr (htable e' i) fun _ _ => rfl
  have hrefs (q : ℕ) := pageRefs_set_dir hbefore hafter q
  constructor
  · constructor
    · intro e' d hd
      have hset' := hrefs d
      by_cases he : e' = e
      · subst he
        rw [Function.update_self] at hd
        obtain ⟨hnone, -, hunref, -⟩ := hset hd
        rw [hd, hnone, hunref] at hset'
        simpa [hd] using hset'
      · rw [Function.update_of_ne he] at hd
        rw [hit_of_ne, hit_of_ne, h.separate.dir hd] at hset'
        · simpa using hset'
        · intro hv
          obtain ⟨-, -, hunref, -⟩ := hset hv
          exact plain_of_unref_ne hunref hd rfl
        · intro hd'
          exact he (h.separate.dir_inj hd' hd)
    · intro e' i t ht
      rw [htable] at ht
      have hset' := hrefs t
      rw [hit_of_ne, hit_of_ne, h.separate.table ht] at hset'
      · simpa using hset'
      · intro hv
        obtain ⟨-, -, hunref, -⟩ := hset hv
        exact (plain_of_unref hunref).table e' i ht
      · intro hd
        exact h.separate.table_ne_dir ht hd rfl
  · intro e' d hd
    by_cases he : e' = e
    · subst he
      rw [Function.update_self] at hd
      exact (hset hd).2.1
    · rw [Function.update_of_ne he] at hd
      exact h.dir hd
  · intro e' d hd i hi
    by_cases he : e' = e
    · subst he
      rw [Function.update_self] at hd
      have hcontents := (hset hd).2.2.2 (i := i)
      rwa [if_neg (by omega)] at hcontents
    · rw [Function.update_of_ne he] at hd
      exact h.dirKern hd hi
  · intro e' i t ht
    exact h.table (htable e' i ▸ ht)
  · intro e' d i t hd ht
    rw [htable] at ht
    by_cases he : e' = e
    · subst he
      rw [hbefore] at ht
      cases ht
    · rw [Function.update_of_ne he] at hd
      exact h.pde hd ht
  · intro e' i t ht
    exact h.absent (htable e' i ▸ ht)
  · intro e' i j v hv
    exact h.page (hmap e' i j ▸ hv)
  · exact h.kern

end TableInv

end Jos
