import Jos.Pmap.SetUp

/-!
The memory part of `env_free`, to the frame: which counts go down and by how
much, which frames come free, and what stays as it was. It returns, unless an
entry leads past the end of memory.
-/

namespace Jos

open Jos.Lib

variable {n : ℕ} {M : Machine} {L : Layout M} {nullOk : Prop} {dirs dirs' : Dirs}
  {m m' s s' s₁ : Mem n} {x : Ctx n} {e : EnvIdx} {i j : PtIdx} {b d t p q : ℕ} {va w : Word}

/-! ### One reference less -/

theorem pages_pageDecref (hrun : pageDecref q s = .ok s') (hp : p ≠ q) :
    s'.pages p = s.pages p := by
  rcases pageDecref_eq_ok hrun with ⟨-, rfl⟩ | ⟨-, rfl⟩ <;>
    simp [Mem.setRef, Mem.setLink, Mem.setFreeList, hp]

/-- `page_decref` frees the page if this was its last reference. -/
theorem pageDecref_released {load load' : ℕ → ℕ} (h : s.pool.Counts L.pool L.counted load)
    (hq : L.counted q) (hle : load q ≤ 65536)
    (hload : ∀ p, load' p + hit (some q) p = load p) (hrun : pageDecref q s = .ok s') :
    s.pool.Released s'.pool load load' := by
  have hself : load' q + 1 = load q := by simpa using hload q
  have hother {p : ℕ} (hp : p ≠ q) : load' p = load p := by
    have hne := hload p
    rwa [hit_of_ne (by simpa using fun heq => hp heq.symm), add_zero] at hne
  refine ⟨fun p => by have := hload p; omega, fun p => ?_⟩
  rcases pageDecref_eq_ok hrun with ⟨hone, rfl⟩ | ⟨hone, rfl⟩
  · have hlast : load q = 1 := h.load_eq_one hq (by norm_num) hle hone
    have hpush : (((s.setRef q ((s.pages q).ppRef - 1)).setLink q s.pageFreeList).setFreeList
        (some q)).pool = (s.pool.setRef q (s.pool.ref q - 1)).push q := by
      rw [← pool_setRef, ← pool_push]
      rfl
    rw [hpush, (h.decr (by omega)).on_push (by simpa using h.not_on (by omega)), Pool.on_setRef]
    refine or_congr_right ⟨?_, fun hp => ?_⟩
    · rintro rfl
      omega
    · by_contra hne
      have := hother hne
      omega
  · rw [pool_setRef, Pool.on_setRef]
    refine ⟨Or.inl, fun hon => hon.resolve_right fun hp => hone ?_⟩
    have heq : p = q := by
      by_contra hne
      have := hother hne
      omega
    subst heq
    have href := h.ref p hq
    have hlast : load p = 1 := by omega
    rw [hlast] at href
    exact href

/-! ### In the course of `env_free` -/

/-- State `s` of memory in the course of `env_free(e)`, which began in `m`. -/
structure Releasing (L : Layout M) (nullOk : Prop) (b : ℕ) (dirs : Dirs) (e : EnvIdx)
    (m s : Mem n) : Prop extends Tidy L nullOk none dirs s where
  bounded : Bounded L b dirs s
  released : m.pool.Released s.pool (pageLoad none m.word dirs) (pageLoad none s.word dirs)
  own : ∀ {i t}, tableAt s.word dirs e i = some t → tableAt m.word dirs e i = some t
  entry : ∀ {i j w}, mapping s.word dirs e i j = some w → mapping m.word dirs e i j = some w
  word : ∀ {f}, dirs e ≠ some f → (∀ i, tableAt m.word dirs e i ≠ some f) → s.word f = m.word f
  pages : ∀ {p}, ¬ L.counted p → s.pages p = m.pages p

theorem Releasing.refl (h : Tidy L nullOk none dirs m) (hb : Bounded L b dirs m) :
    Releasing L nullOk b dirs e m m :=
  { toTidy := h
    bounded := hb
    released := .refl _ _
    own := id
    entry := id
    word := fun _ _ => rfl
    pages := fun _ => rfl }

theorem Releasing.remove (h : Releasing L nullOk b dirs e m s) (hle : b ≤ 65536)
    (hd : dirs e = some d) (hi : (pdx va : ℕ) < 955)
    (hrun : pageRemove M x d va s = .ok s') : Releasing L nullOk b dirs e m s' := by
  have hbound (w : Word) (_ : mapping s.word dirs e (pdx va) (ptx va) = some w)
      (hcounted : L.counted (pteFrame w)) : pageLoad none s.word dirs (pteFrame w) ≤ 65536 :=
    (h.bounded _ hcounted).trans hle
  have hremoved := pageRemove_spec h.toMemInv hd hi hbound hrun
  have htidy := h.toTidy.removed hd hi hbound hrun
  cases hw : mapping s.word dirs e (pdx va) (ptx va) with
  | none =>
      rw [pageRemove_absent h.toTidy hd hi hw] at hrun
      obtain rfl := Except.ok.inj hrun
      exact h
  | some w =>
      obtain ⟨t, ht, -⟩ := mapping_eq_some.mp hw
      have hlt : pteFrame w < M.npages := by
        by_contra hnot
        obtain ⟨msg, herror⟩ := pageRemove_null (x := x) hd hi
          (fun hnull : NotNull M s dirs e va => hnot (hnull w hw))
        rw [herror] at hrun
        cases hrun
      have hcounted := pageTarget_counted (h.tables.page hw) hlt
      obtain ⟨s₁, hdecref, hremove⟩ := pageRemove_present (x := x) h.toTidy ht hw hlt hd
      rw [hremove] at hrun
      obtain rfl := Except.ok.inj hrun
      have hload (p : ℕ) : pageLoad none (tlbInvalidate x d va (s₁.store t (ptx va) 0#32)).word
          dirs p + hit (some (pteFrame w)) p = pageLoad none s.word dirs p := by
        have hrefs := hremoved.refs p
        rw [hw, Option.map_some] at hrefs
        unfold pageLoad
        omega
      have hreleased := pageDecref_released h.counts hcounted (hbound w hw hcounted) hload hdecref
      refine { toTidy := htidy, bounded := hremoved.bounded h.bounded, released := ?_,
               own := fun ht' => h.own ((hremoved.tables _ _).symm.trans ht'),
               entry := fun hw' => ?_, word := fun hdir htable => ?_, pages := fun hp => ?_ }
      · refine h.released.trans ?_
        rw [pool_tlbInvalidate, pool_store]
        exact hreleased
      · rw [hremoved.maps] at hw'
        split at hw'
        · cases hw'
        · exact h.entry hw'
      · rename_i f
        have hne : f ≠ t := by
          rintro rfl
          exact htable _ (h.own ht)
        rw [word_tlbInvalidate, word_store, Function.update_of_ne hne, word_pageDecref hdecref]
        exact h.word hdir htable
      · rename_i p
        have hne : p ≠ pteFrame w := by
          rintro rfl
          exact hp hcounted
        obtain ⟨tlb, htlb⟩ := tlbInvalidate_eq x d va (s₁.store t (ptx va) 0#32)
        rw [htlb]
        exact (pages_pageDecref hdecref hne).trans (h.pages hp)

/-- Dropping a page table whose entries are clear. -/
theorem Releasing.drop (h : Releasing L nullOk b dirs e m s) (hle : b ≤ 65536)
    (hd : dirs e = some d) (ht : tableAt s.word dirs e i = some t)
    (hclear : ∀ j, mapping s.word dirs e i j = none)
    (hrun : pageDecref t (s.store d i 0#32) = .ok s') : Releasing L nullOk b dirs e m s' := by
  have hi : (i : ℕ) < 955 := TableInv.user_index ht
  have hpool := h.tables.table ht
  have hsep := h.tables.separate
  obtain ⟨hdropped, htables⟩ := dropTable_spec
    (m := s) (Unmapping.refl h.toMemInv h.bounded) hd ht hclear hrun
  have hword : s'.word = Function.update s.word d (Function.update (s.word d) i 0#32) :=
    word_pageDecref hrun
  have hload (p : ℕ) : pageLoad none s'.word dirs p + hit (some t) p =
      pageLoad none s.word dirs p := by
    have hafter (j) : mapping (Function.update s.word d (Function.update (s.word d) i 0#32))
        dirs e i j = none := by
      rw [← hword]
      exact mapping_of_none (by simp [htables])
    have hstore := hsep.pageRefs_store_pde hd hi hclear hafter p
    rw [ht, present_zero, Option.map_none, hit_none, add_zero] at hstore
    rw [hword]
    unfold pageLoad
    omega
  have hpos : 0 < pageLoad none s.word dirs t := by
    have hself := hload t
    rw [hit_self] at hself
    omega
  have hreleased := pageDecref_released (s := s.store d i 0#32)
    (by rw [pool_store]; exact h.counts) (Or.inl hpool) ((h.bounded t (Or.inl hpool)).trans hle)
    hload hrun
  have hunlinked : s'.pool.Unlinked := pageDecref_unlinked (m := s.store d i 0#32) (L := L)
    (by rw [pool_store]; exact h.unlinked) (by rw [pool_store]; exact h.counts) hpos hrun
  refine { toTidy := ⟨hdropped.inv, hunlinked, fun {e' d'} hd' {i'} hi' hP => ?_, h.vga⟩,
           bounded := hdropped.bounded, released := h.released.trans hreleased,
           own := fun ht' => ?_, entry := fun hw' => ?_, word := fun hdir htable => ?_,
           pages := fun hp => ?_ }
  · rw [hword] at hP ⊢
    by_cases hdd : d' = d
    · subst hdd
      rw [Function.update_self] at hP ⊢
      by_cases hii : i' = i
      · rw [hii, Function.update_self]
      · rw [Function.update_of_ne hii] at hP ⊢
        exact h.clear hd' hi' hP
    · rw [Function.update_of_ne hdd] at hP ⊢
      exact h.clear hd' hi' hP
  · rw [htables] at ht'
    split at ht'
    · cases ht'
    · exact h.own ht'
  · rename_i i' j' w
    by_cases hii : i' = i
    · rw [hii, mapping_of_none (by simp [htables])] at hw'
      cases hw'
    · rw [hword, hsep.mapping_store_pde_of_ne hd hi (fun heq => hii heq.2)] at hw'
      exact h.entry hw'
  · rename_i f
    have hne : f ≠ d := by
      rintro rfl
      exact hdir hd
    rw [hword, Function.update_of_ne hne]
    exact h.word hdir htable
  · refine (pages_pageDecref hrun ?_).trans (h.pages hp)
    rintro rfl
    exact hp (Or.inl hpool)

/-! ### The two loops -/

variable {m₀ : Mem n} {l : List PtIdx}

theorem envFreePte_returns (h : Tidy L nullOk none dirs s) (hd : dirs e = some d)
    (ht : tableAt s.word dirs e i = some t)
    (hown : ∀ w, mapping s.word dirs e i j = some w → pteFrame w < M.npages) :
    ∃ s', envFreePte M x d i t s j = .ok s' := by
  unfold envFreePte
  split
  · rename_i hP
    have hw := mapping_of_table (j := j) ht
    rw [present_of_flag hP] at hw
    obtain ⟨s₁, -, hremove⟩ : ∃ s₁, _ ∧ pageRemove M x d (pgaddr i j 0#32) s = _ :=
      pageRemove_present h (by simpa using ht) (by simpa using hw) (hown _ hw) hd
    exact ⟨_, hremove⟩
  · exact ⟨s, rfl⟩

theorem envFreePte_releasing (h : Releasing L nullOk b dirs e m s) (hle : b ≤ 65536)
    (hd : dirs e = some d) (hi : (i : ℕ) < 955) (hrun : envFreePte M x d i t s j = .ok s') :
    Releasing L nullOk b dirs e m s' := by
  unfold envFreePte at hrun
  split at hrun
  · exact h.remove hle hd (by simpa using hi) hrun
  · cases hrun
    exact h

/-- What holds before a turn of the inner loop, in a run of `env_free` that
began in `m`. -/
theorem tableLoop_start (h : Releasing L nullOk b dirs e m s)
    (ht : tableAt s.word dirs e i = some t) :
    TableLoop L nullOk b dirs e i t s (List.finRange 1024) s ∧
      Releasing L nullOk b dirs e m s :=
  ⟨⟨Unmapping.refl h.toMemInv h.bounded, ht, fun _ => rfl,
    fun j hj => absurd (List.mem_finRange j) hj⟩, h⟩

theorem tableLoop_returns (h : Releasing L nullOk b dirs e m s) (hle : b ≤ 65536)
    (hd : dirs e = some d) (ht : tableAt s.word dirs e i = some t)
    (hown : ∀ i j w, mapping m.word dirs e i j = some w → pteFrame w < M.npages) :
    ∃ s', (List.finRange 1024).foldlM (envFreePte M x d i t) s = .ok s' := by
  obtain ⟨s', hrun, -⟩ := foldlM_total
    (I := fun l s' => TableLoop L nullOk b dirs e i t s l s' ∧ Releasing L nullOk b dirs e m s')
    (fun j l u hu => by
      obtain ⟨v, hv⟩ := envFreePte_returns (x := x) (j := j) hu.2.toTidy hd hu.1.table
        fun w hw => hown i j w (hu.2.entry hw)
      exact ⟨v, hv, envFreePte_step hu.1 hle hd hv,
        envFreePte_releasing hu.2 hle hd (TableInv.user_index ht) hv⟩)
    (tableLoop_start h ht)
  exact ⟨s', hrun⟩

theorem tableLoop_releasing (h : Releasing L nullOk b dirs e m s) (hle : b ≤ 65536)
    (hd : dirs e = some d) (ht : tableAt s.word dirs e i = some t)
    (hrun : (List.finRange 1024).foldlM (envFreePte M x d i t) s = .ok s') :
    TableLoop L nullOk b dirs e i t s [] s' ∧ Releasing L nullOk b dirs e m s' :=
  foldlM_induct
    (I := fun l s' => TableLoop L nullOk b dirs e i t s l s' ∧ Releasing L nullOk b dirs e m s')
    (fun _ _ _ _ hu hv => ⟨envFreePte_step hu.1 hle hd hv,
      envFreePte_releasing hu.2 hle hd (TableInv.user_index ht) hv⟩)
    (tableLoop_start h ht) hrun

theorem table_of_flag {word : Words} (hi : (i : ℕ) < 955) (hd : dirs e = some d)
    (hP : Flag (word d i) pteP) : tableAt word dirs e i = some (pteFrame (word d i)) := by
  rw [tableAt_of_dir hi hd, present_of_flag hP]
  rfl

theorem envFreePde_returns (h : Releasing L nullOk b dirs e m s) (hle : b ≤ 65536)
    (hd : dirs e = some d) (hi : (i : ℕ) < 955)
    (hown : ∀ i j w, mapping m.word dirs e i j = some w → pteFrame w < M.npages) :
    ∃ s', envFreePde M x d s i = .ok s' := by
  unfold envFreePde
  split
  · exact ⟨s, rfl⟩
  · rename_i hP
    have ht := table_of_flag hi hd (not_not.mp hP)
    have hlt := L.pool_lt (h.tables.table ht)
    obtain ⟨s₁, hloop⟩ := tableLoop_returns (x := x) h hle hd ht hown
    obtain ⟨hinner, hreleasing⟩ := tableLoop_releasing h hle hd ht hloop
    have hlink : ((s₁.store d i 0#32).pages (pteFrame (s.word d i))).ppLink = none :=
      hreleasing.unlinked _ (hreleasing.not_on_of_slot (x := .table e i) hinner.table)
    obtain ⟨s', hdecref⟩ := pageDecref_returns hlink
    exact ⟨s', bind_eq_ok.mpr ⟨_, kaddr_eq_ok.mpr ⟨hlt, rfl⟩, bind_eq_ok.mpr ⟨s₁, hloop,
      bind_eq_ok.mpr ⟨_, pa2page_eq_ok.mpr ⟨hlt, rfl⟩, hdecref⟩⟩⟩⟩

theorem envFreePde_releasing (h : Releasing L nullOk b dirs e m s) (hle : b ≤ 65536)
    (hd : dirs e = some d) (hi : (i : ℕ) < 955) (hrun : envFreePde M x d s i = .ok s') :
    Releasing L nullOk b dirs e m s' := by
  unfold envFreePde at hrun
  split at hrun
  · cases hrun
    exact h
  · rename_i hP
    have ht := table_of_flag hi hd (not_not.mp hP)
    simp only [bind_eq_ok, kaddr_eq_ok, pa2page_eq_ok] at hrun
    obtain ⟨t, ⟨-, rfl⟩, s₁, hloop, pp, ⟨-, rfl⟩, hdecref⟩ := hrun
    obtain ⟨hinner, hreleasing⟩ := tableLoop_releasing h hle hd ht hloop
    exact hreleasing.drop hle hd hinner.table (fun j => hinner.clear j (by simp)) hdecref

/-- What holds before a turn of the outer loop. -/
theorem dirLoop_start (h : Tidy L nullOk none dirs m) (hb : Bounded L b dirs m) :
    (DirLoop L nullOk b dirs e m userPdes m ∧ ∀ i ∈ userPdes, (i : ℕ) < 955) ∧
      Releasing L nullOk b dirs e m m := by
  refine ⟨⟨⟨Unmapping.refl h.toMemInv hb, fun i hi => ?_⟩, fun i hi => mem_userPdes.mp hi⟩,
    Releasing.refl h hb⟩
  have hge : ¬ (i : ℕ) < 955 := fun hlt => hi (mem_userPdes.mpr hlt)
  simp [tableAt, hge]

theorem dirLoop_step (hle : b ≤ 65536) (hd : dirs e = some d)
    (h : (DirLoop L nullOk b dirs e m (i :: l) s ∧ ∀ i' ∈ i :: l, (i' : ℕ) < 955) ∧
      Releasing L nullOk b dirs e m s) (hrun : envFreePde M x d s i = .ok s') :
    (DirLoop L nullOk b dirs e m l s' ∧ ∀ i' ∈ l, (i' : ℕ) < 955) ∧
      Releasing L nullOk b dirs e m s' := by
  obtain ⟨⟨hloop, hmem⟩, hreleasing⟩ := h
  have hi := hmem i (by simp)
  exact ⟨⟨envFreePde_step hloop hle hd hi hrun, fun i' hi' => hmem i' (by simp [hi'])⟩,
    envFreePde_releasing hreleasing hle hd hi hrun⟩

/-! ### The whole -/

/-- The references that the address space of `e` makes to `p`: its directory,
its page tables below `UTOP` and their entries. -/
def ownRefs (word : Words) (dirs : Dirs) (e : EnvIdx) (p : ℕ) : ℕ :=
  pageRefs word (Function.update (fun _ => none) e (dirs e)) p

/-- The environment that a slot belongs to. -/
def Slot.env : Slot → EnvIdx
  | .pgdir e => e
  | .table e _ => e
  | .page e _ _ => e

theorem slotRef_own (word : Words) (y : Slot) :
    slotRef word (Function.update (fun _ => none) e (dirs e)) y =
      if y.env = e then slotRef word dirs y else none := by
  by_cases hy : y.env = e
  · rw [if_pos hy]
    have hdir : Function.update (fun _ => none) e (dirs e) y.env = dirs y.env := by
      rw [hy, Function.update_self]
    have htable (i) : tableAt word (Function.update (fun _ => none) e (dirs e)) y.env i =
        tableAt word dirs y.env i := tableAt_congr hdir fun _ _ => rfl
    cases y with
    | pgdir e' => exact hdir
    | table e' i => exact htable i
    | page e' i j => exact congrArg (Option.map pteFrame) (mapping_congr (htable i) fun _ _ => rfl)
  · rw [if_neg hy]
    have hdir : Function.update (fun _ => (none : Option ℕ)) e (dirs e) y.env = none :=
      Function.update_of_ne hy _ _
    cases y with
    | pgdir e' => exact hdir
    | table e' i => exact tableAt_of_none hdir
    | page e' i j => exact congrArg (Option.map pteFrame) (mapping_of_none (tableAt_of_none hdir))

theorem slotRef_tornDown (h : TornDown L nullOk b dirs e m m') (y : Slot) :
    slotRef m'.word (Function.update dirs e none) y =
      if y.env = e then none else slotRef m.word dirs y := by
  by_cases hy : y.env = e
  · rw [if_pos hy]
    cases y with
    | pgdir e' =>
        obtain rfl : e' = e := hy
        exact Function.update_self _ _ _
    | table e' i => exact (h.tables e' i).trans (if_pos hy)
    | page e' i j => exact congrArg (Option.map pteFrame) ((h.maps e' i j).trans (if_pos hy))
  · rw [if_neg hy]
    cases y with
    | pgdir e' => exact Function.update_of_ne hy _ _
    | table e' i => exact (h.tables e' i).trans (if_neg hy)
    | page e' i j => exact congrArg (Option.map pteFrame) ((h.maps e' i j).trans (if_neg hy))

/-- What is gone is what the address space referred to. -/
theorem refs_tornDown (h : TornDown L nullOk b dirs e m m') (p : ℕ) :
    pageRefs m'.word (Function.update dirs e none) p + ownRefs m.word dirs e p =
      pageRefs m.word dirs p := by
  refine (refs_add (fun y => ?_) fun y => ?_).symm
  · rw [slotRef_tornDown h, slotRef_own]
    split <;> simp
  · rw [slotRef_tornDown h, slotRef_own]
    split <;> simp

/-- `env_free` released the memory of `e` and no other. -/
structure MemFreed (L : Layout M) (nullOk : Prop) (dirs : Dirs) (e : EnvIdx) (m m' : Mem n) :
    Prop where
  tidy : Tidy L nullOk none (Function.update dirs e none) m'
  loads : ∀ p, pageLoad none m'.word (Function.update dirs e none) p + ownRefs m.word dirs e p =
    pageLoad none m.word dirs p
  released : m.pool.Released m'.pool (pageLoad none m.word dirs)
    (pageLoad none m'.word (Function.update dirs e none))
  word : ∀ {f}, dirs e ≠ some f → (∀ i, tableAt m.word dirs e i ≠ some f) → m'.word f = m.word f
  pages : ∀ {p}, ¬ L.counted p → m'.pages p = m.pages p

theorem envFreeMem_frees (h : Tidy L nullOk none dirs m) (hb : Bounded L b dirs m)
    (hle : b ≤ 65536) (hd : dirs e = some d) (hrun : envFreeMem M x d m = .ok m') :
    MemFreed L nullOk dirs e m m' := by
  have hdown := envFreeMem_spec h.toMemInv hb hle hd hrun
  have hpool := h.tables.dir hd
  have hrefs := refs_tornDown hdown
  unfold envFreeMem at hrun
  simp only [bind_eq_ok, pa2page_eq_ok, pgnum_frame2pa (L.frame_lt hpool)] at hrun
  obtain ⟨s, hloop, pp, ⟨-, hpp⟩, hdecref⟩ := hrun
  rw [hpp] at hdecref
  obtain ⟨⟨houter, -⟩, hreleasing⟩ := foldlM_induct
    (I := fun l s => (DirLoop L nullOk b dirs e m l s ∧ ∀ i ∈ l, (i : ℕ) < 955) ∧
      Releasing L nullOk b dirs e m s)
    (fun _ _ _ _ hu hv => dirLoop_step hle hd hu hv) (dirLoop_start h hb) hloop
  have hword := word_pageDecref hdecref
  have hload (p : ℕ) : pageLoad none m'.word (Function.update dirs e none) p +
      hit (some d) p = pageLoad none s.word dirs p := by
    have hbefore (i : PtIdx) : tableAt s.word dirs e i = none := houter.clear i (by simp)
    have hafter (i : PtIdx) : tableAt s.word (Function.update dirs e none) e i = none :=
      tableAt_of_none (Function.update_self _ _ _)
    have hset := pageRefs_set_dir hbefore hafter p
    rw [hd, hit_none, add_zero] at hset
    rw [hword]
    unfold pageLoad
    omega
  have hpos : 0 < pageLoad none s.word dirs d := by
    have hself := hload d
    rw [hit_self] at hself
    omega
  refine { tidy := ⟨hdown.inv, ?_, fun {e' d'} hd' {i} hi hP => ?_, h.vga⟩,
           loads := fun p => ?_, released := ?_, word := fun hdir htable => ?_,
           pages := fun hp => ?_ }
  · exact pageDecref_unlinked hreleasing.unlinked hreleasing.counts hpos hdecref
  · rw [hword] at hP ⊢
    have he : e' ≠ e := by
      rintro rfl
      rw [Function.update_self] at hd'
      cases hd'
    rw [Function.update_of_ne he] at hd'
    exact hreleasing.clear hd' hi hP
  · have hp := hrefs p
    unfold pageLoad
    omega
  · exact hreleasing.released.trans (pageDecref_released hreleasing.counts (Or.inl hpool)
      ((hreleasing.bounded d (Or.inl hpool)).trans hle) hload hdecref)
  · rw [hword]
    exact hreleasing.word hdir htable
  · refine (pages_pageDecref hdecref ?_).trans (hreleasing.pages hp)
    rintro rfl
    exact hp (Or.inl hpool)

/-- A page that only `e` refers to, and once, comes free. -/
theorem MemFreed.on_own (h : MemFreed L nullOk dirs e m m') {y : Slot} (hy : y.env = e)
    (href : slotRef m.word dirs y = some p) (hpool : L.pool p)
    (hone : pageRefs m.word dirs p = 1) : m'.pool.On p := by
  have hne : p ≠ vgaFrame := by
    rintro rfl
    exact L.pool_ne_vga hpool
  have hload : pageLoad none m.word dirs p = 1 := by
    unfold pageLoad
    rw [if_neg hne, hone, hit_none]
  have hpos : 0 < ownRefs m.word dirs e p :=
    refs_pos (i := y) (by rw [slotRef_own, if_pos hy, href])
  have hloads := h.loads p
  exact (h.released.on p).mpr (Or.inr ⟨by omega, by omega⟩)

/-- `env_free` returns, unless an entry leads past the end of memory. -/
theorem envFreeMem_returns (h : Tidy L nullOk none dirs m) (hb : Bounded L b dirs m)
    (hle : b ≤ 65536) (hd : dirs e = some d)
    (hown : ∀ i j w, mapping m.word dirs e i j = some w → pteFrame w < M.npages) :
    ∃ m', envFreeMem M x d m = .ok m' := by
  have hpool := h.tables.dir hd
  have hframe := pgnum_frame2pa (L.frame_lt hpool)
  obtain ⟨s, hloop, -, hreleasing⟩ := foldlM_total
    (I := fun l s => (DirLoop L nullOk b dirs e m l s ∧ ∀ i ∈ l, (i : ℕ) < 955) ∧
      Releasing L nullOk b dirs e m s)
    (fun i l u hu => by
      obtain ⟨v, hv⟩ := envFreePde_returns (x := x) hu.2 hle hd (hu.1.2 i (by simp)) hown
      exact ⟨v, hv, dirLoop_step hle hd hu hv⟩)
    (dirLoop_start h hb)
  have hlink : (s.pages d).ppLink = none :=
    hreleasing.unlinked d (hreleasing.not_on_of_slot (x := .pgdir e) hd)
  obtain ⟨m', hdecref⟩ := pageDecref_returns hlink
  exact ⟨m', bind_eq_ok.mpr ⟨s, hloop, bind_eq_ok.mpr ⟨d,
    pa2page_eq_ok.mpr ⟨hframe.symm ▸ L.pool_lt hpool, hframe.symm⟩, hdecref⟩⟩⟩

end Jos
