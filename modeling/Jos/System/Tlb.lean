import Jos.System.Isolation

/-!
The TLBs. While a CPU executes an environment its TLB holds translations that
the page tables of the environment still make, unless a page is unmapped or
replaced under it: `tlb_invalidate` only reaches the TLB of the CPU that makes
the call.
-/

namespace Jos

open Jos.Lib

variable {n : ℕ} {M : Machine} {L : Layout M} {b c c' : Fin n} {cur e : EnvIdx} {q : Request}
  {s t u : Kernel n} {m m' : Mem n} {dirs dirs' : Dirs} {x : Ctx n} {word word' : Words}
  {a : ℕ × ℕ} {va w : Word} {i j : PtIdx}

/-- No CPU that executes an environment has a free page in its TLB. -/
def NoStale (s : Kernel n) : Prop :=
  ∀ c e a, s.cpuEnv c = some e → a ∈ s.mem.tlb c → ¬ s.mem.pool.On a.2

/-! ### The condition -/

/-- A CPU other than `c` executes `e` and has page `p` in its TLB for `va`. -/
def Caches (s : Kernel n) (c : Fin n) (e : EnvIdx) (va : Word) (p : ℕ) : Prop :=
  ∃ c', c' ≠ c ∧ s.cpuEnv c' = some e ∧ (pgnum va, p) ∈ s.mem.tlb c'

section

variable (M : Machine) (c : Fin n) (cur : EnvIdx) (q : Request) (s : Kernel n)

/-- No page is unmapped, or another page mapped in its place, that another CPU
which executes the environment has in its TLB. -/
structure UnmapOk : Prop where
  alloc : ∀ {e w}, q.no = some .pageAlloc → envid2env s cur q.a1 true = some e →
    userPage q.a2 → validPerm q.a3 → s.mem.pageFreeList ≠ none →
    mapping s.mem.word s.dirs e (pdx q.a2) (ptx q.a2) = some w →
    ¬ Caches s c e q.a2 (pteFrame w)
  unmap : ∀ {e w}, q.no = some .pageUnmap → envid2env s cur q.a1 true = some e →
    userPage q.a2 → mapping s.mem.word s.dirs e (pdx q.a2) (ptx q.a2) = some w →
    ¬ Caches s c e q.a2 (pteFrame w)
  insert : ∀ {page d va e w}, Inserts M cur q s page d va → s.dirs e = some d →
    mapping s.mem.word s.dirs e (pdx va) (ptx va) = some w → page ≠ some (pteFrame w) →
    ¬ Caches s c e va (pteFrame w)

/-- The conditions of `CallOk`, and no page is taken from under another CPU. -/
structure CachedOk : Prop where
  call : CallOk M c cur q s
  unmap : UnmapOk M c cur q s

end

/-! ### Translations -/

/-- What the TLB may hold while `e` executes: what `e` maps, its page tables and
its directory, which it can read at `UVPT`, and pages that are never free. -/
inductive Translates (L : Layout M) (word : Words) (dirs : Dirs) (e : EnvIdx) : ℕ × ℕ → Prop
  | page {i j : PtIdx} {w : Word} (hmap : mapping word dirs e i j = some w) :
      Translates L word dirs e ((i : ℕ) * 1024 + j, pteFrame w)
  | table {v t : ℕ} {i : PtIdx} (ht : tableAt word dirs e i = some t) :
      Translates L word dirs e (v, t)
  | dir {v d : ℕ} (hd : dirs e = some d) : Translates L word dirs e (v, d)
  | fixed {v p : ℕ} (hp : ¬ L.pool p) : Translates L word dirs e (v, p)

theorem Translates.not_on (h : Translates L m.word dirs e a) (hinv : MemInv L True none dirs m) :
    ¬ m.pool.On a.2 := by
  cases h with
  | page hmap => exact hinv.not_on_page hmap
  | @table _ _ i ht => exact hinv.not_on_of_slot (x := .table e i) ht
  | dir hd => exact hinv.not_on_of_slot (x := .pgdir e) hd
  | fixed hp => exact fun hon => hp (hinv.refs_of_on hon).1

/-- A translation stays while the page tables are not taken away and every
entry goes on to lead to its page. -/
theorem Translates.mono (h : Translates L word dirs e a) (hdir : dirs' e = dirs e)
    (htables : ∀ i t, tableAt word dirs e i = some t → tableAt word' dirs' e i = some t)
    (hmaps : ∀ i j w, mapping word dirs e i j = some w → a = ((i : ℕ) * 1024 + j, pteFrame w) →
      ∃ w', mapping word' dirs' e i j = some w' ∧ pteFrame w' = pteFrame w) :
    Translates L word' dirs' e a := by
  cases h with
  | page hmap =>
      obtain ⟨w', hmap', hframe⟩ := hmaps _ _ _ hmap rfl
      rw [← hframe]
      exact .page hmap'
  | table ht => exact .table (htables _ _ ht)
  | dir hd => exact .dir (hdir.trans hd)
  | fixed hp => exact .fixed hp

/-- What user code reads is translated. -/
theorem translates_userRead {d frame : ℕ} (h : MemInv L True none dirs m)
    (hd : dirs e = some d) (hread : userRead m d va = some frame) :
    Translates L m.word dirs e (pgnum va, frame) := by
  unfold userRead at hread
  simp only [Option.ite_none_right_eq_some, Option.some.injEq] at hread
  obtain ⟨⟨hP, hU, hPte, hUpte⟩, rfl⟩ := hread
  by_cases hi : (pdx va : ℕ) < 955
  · have ht : tableAt m.word dirs e (pdx va) = some (pteFrame (m.word d (pdx va))) := by
      rw [tableAt_of_dir hi hd, present_of_flag hP]
      rfl
    have hw := mapping_of_table (j := ptx va) ht
    rw [present_of_flag hPte] at hw
    rw [pgnum_indexes]
    exact .page hw
  · have hpde := h.tables.dirKern hd (i := pdx va) (by omega)
    split at hpde
    · -- the directory serves as a page table, and its entries as those of pages
      have hself : pteFrame (m.word d (pdx va)) = d := by
        rw [hpde, BitVec.or_assoc]
        exact pteFrame_or (L.frame_lt (h.tables.dir hd)) (by decide)
      rw [hself] at hPte hUpte ⊢
      by_cases hj : (ptx va : ℕ) < 955
      · refine .table (i := ptx va) ?_
        rw [tableAt_of_dir hj hd, present_of_flag hPte]
        rfl
      · have hpte := h.tables.dirKern hd (i := ptx va) (by omega)
        split at hpte
        · refine .dir ?_
          rw [hpte, BitVec.or_assoc, pteFrame_or (L.frame_lt (h.tables.dir hd)) (by decide)]
          exact hd
        · rename_i hne
          rw [hpte] at hPte ⊢
          exact .fixed (L.table_not_pool (by omega) hne hPte).1
    · rename_i hne
      rw [hpde] at hP hPte hUpte ⊢
      have htable := L.table_not_pool (i := pdx va) (by omega) hne hP
      rw [h.tables.kern (fun hcounted => hcounted.elim htable.1 htable.2)] at hPte hUpte ⊢
      exact .fixed (L.user_not_pool (by omega) hne hP hPte hUpte)

/-! ### Requests -/

/-- Setting an entry moves no other. -/
theorem Inserted.frame {d : ℕ} {e' : EnvIdx} {v : Word}
    (h : Inserted L True dirs x e' d va v m m') (hmap : mapping m.word dirs e i j = some w)
    (hsame : e = e' → i = pdx va → j = ptx va → pteFrame v = pteFrame w) :
    ∃ w', mapping m'.word dirs e i j = some w' ∧ pteFrame w' = pteFrame w := by
  rw [h.maps]
  split
  · rename_i heq
    exact ⟨v, rfl, hsame heq.1 heq.2.1 heq.2.2⟩
  · exact ⟨w, hmap, rfl⟩

theorem TornDown.frame {k : ℕ} {e' : EnvIdx}
    (h : TornDown L True k s.dirs e' (s.freeing M c e') m') (hne : e ≠ e')
    (hmap : mapping s.mem.word s.dirs e i j = some w) :
    ∃ w', mapping m'.word (Function.update s.dirs e' none) e i j = some w' ∧
      pteFrame w' = pteFrame w := by
  refine ⟨w, ?_, rfl⟩
  rw [h.maps, if_neg hne, freeing_word, hmap]

/-- A request takes no page away that another CPU has in its TLB. -/
theorem call_frame (h : SysInv L True (some c) s) (hcur : s.cpuEnv c = some cur)
    (hok : CachedOk M c cur q s) (hcall : Call M c cur q s u) (hc : c' ≠ c)
    (hexec : s.cpuEnv c' = some e) (hmap : mapping s.mem.word s.dirs e i j = some w)
    (ha : ((i : ℕ) * 1024 + j, pteFrame w) ∈ s.mem.tlb c') :
    ∃ w', mapping u.mem.word u.dirs e i j = some w' ∧ pteFrame w' = pteFrame w := by
  have hcaches {va : Word} (hi : i = pdx va) (hj : j = ptx va) : Caches s c e va (pteFrame w) := by
    refine ⟨c', hc, hexec, ?_⟩
    rwa [pgnum_indexes, ← hi, ← hj]
  have hself (hmem : u.mem = s.mem) (hdirs : u.dirs = s.dirs) :
      ∃ w', mapping u.mem.word u.dirs e i j = some w' ∧ pteFrame w' = pteFrame w := by
    rw [hmem, hdirs]
    exact ⟨w, hmap, rfl⟩
  -- what another CPU has in its TLB may be neither unmapped nor replaced
  cases hcall with
  | skip => exact hself rfl rfl
  | setStatus => exact hself rfl dirs_setStatus
  | dying => exact hself rfl (by simp)
  | @destroyOther e' _ hno he hne hst hfree =>
      have hother : e ≠ e' := by
        rintro rfl
        exact hst (hok.call.elsewhere.destroy hno he ⟨c', hc, hexec⟩)
      cases hfree with
      | mk hdir hmem =>
          rw [dirs_emit, dirs_freed]
          exact ((h.cpuSys c).freed_down hdir hmem).frame hother hmap
  | destroySelf _ hfree =>
      have hother : e ≠ cur := by
        rintro rfl
        exact hc (h.envs.uniq hexec hcur)
      cases hfree with
      | mk hdir hmem =>
          rw [dirs_setCur, dirs_freed]
          exact ((h.cpuSys c).freed_down hdir hmem).frame hother hmap
  | @exofork e' d m hno hhead hmem =>
      have hother : e ≠ e' := by
        rintro rfl
        exact h.envs.live_of_exec hexec (h.envs.head_free hhead)
      have hset := envSetupVm_spec h.mem (h.fresh hhead) hmem
      rw [dirs_forked]
      refine ⟨w, ?_, rfl⟩
      rw [← hmap]
      exact (hset.maps e i j).trans (if_neg hother)
  | @pageAlloc e' d page m₁ r m₂ hno he hva hperm hdir halloc hinsert hr =>
      obtain rfl : r = 0 := (pageInsert_ret hinsert).resolve_right fun hfail => hr hfail.1
      obtain ⟨hins, -⟩ := (pageAlloc_spec h.mem halloc).inserted h.bounded hdir
        (pdx_userPage hva) (perm_lt_of_valid hperm) hinsert
      refine hins.frame hmap fun heq hi hj => ?_
      subst heq hi hj
      have hfree : s.mem.pageFreeList ≠ none := by simp [(pageAlloc_some halloc).1]
      exact absurd (hcaches rfl rfl) (hok.unmap.alloc hno he hva hperm hfree hmap)
  | @pageAllocFail e' d page m₁ m₂ m₃ _ _ hva hperm hdir halloc hinsert hfree =>
      rcases pageInsert_ret hinsert with hzero | ⟨-, rfl⟩
      · exact absurd hzero (by decide)
      · have hal := pageAlloc_spec h.mem halloc
        have hword := (pageFree_spec hal.inv hal.pool hal.off hal.unref hfree).2.1
        refine ⟨w, ?_, rfl⟩
        rw [dirs_setMem, ← hmap, ← hal.maps, ← hword]
        rfl
  | @pageMap src dst ds dd pt i page r m hno hsrc hdst hsrcva hdstva hperm hds hdd hlook hw
      hinsert =>
      rcases pageInsert_ret hinsert with rfl | ⟨-, rfl⟩
      · have hinserts : Inserts M cur q s page dd q.a4 := .map hno hsrc hdst hsrcva hdstva hperm
          hds hdd hlook hw (pageInsert_room hinsert (by decide))
        obtain ⟨v, hins, -, -, hframe⟩ := h.mem.inserted_looked h.bounded hds
          (pdx_userPage hsrcva) hlook hw hdd (pdx_userPage hdstva) (perm_lt_of_valid hperm)
          (fun _ => trivial) (fun p hp => hok.call.room.insert (hp ▸ hinserts))
          (h.cpuSys c).loaded hinsert
        refine hins.frame hmap fun heq hi hj => ?_
        subst heq hi hj
        by_contra hne
        exact hok.unmap.insert hinserts hdd hmap (fun hp => hne (hframe _ hp)) (hcaches rfl rfl)
      · exact hself rfl rfl
  | @pageUnmap e' d m hno he hva hdir hremove =>
      have hrem := pageRemove_spec h.mem hdir (pdx_userPage hva)
        (fun w _ hw => h.bounded _ hw) hremove
      refine ⟨w, ?_, rfl⟩
      rw [dirs_setMem, ← hmap]
      refine (hrem.maps e i j).trans (if_neg ?_)
      rintro ⟨rfl, rfl, rfl⟩
      exact hok.unmap.unmap hno he hva hmap (hcaches rfl rfl)
  | ipcFail => exact hself rfl dirs_ipcPerm0
  | ipcValue => exact hself rfl (by simp)
  | @ipcPage target ds dd pt i page r m hno he hrecv hsrcva hdstva hup hperm hds hdd hlook hw
      hinsert hr =>
      obtain rfl : r = 0 := (pageInsert_ret hinsert).resolve_right fun hfail => hr hfail.1
      have hinserts : Inserts M cur q s page dd (s.envs target).envIpcDstva :=
        .send (sends_page hno he hrecv hsrcva hup hperm hds hdd hlook hw hinsert hr) hsrcva.1
          hdstva.1 hds hdd hlook
      obtain ⟨v, hins, -, -, hframe⟩ := h.mem.inserted_looked h.bounded hds
        (pdx_userPage hsrcva) hlook hw hdd (pdx_userPage hdstva) (perm_lt hperm)
        (fun _ => trivial) (fun p hp => hok.call.room.insert (hp ▸ hinserts))
        (h.cpuSys c).loaded hinsert
      rw [dirs_delivered, dirs_setMem, dirs_ipcPerm0]
      refine hins.frame hmap fun heq hi hj => ?_
      subst heq hi hj
      by_contra hne
      exact hok.unmap.insert hinserts hdd hmap (fun hp => hne (hframe _ hp)) (hcaches rfl rfl)
  | ipcRecv => exact hself rfl dirs_received

/-- No request adds a translation to a TLB. -/
theorem MemEdit.tlb {k : ℕ} (h : MemEdit L True k x dirs m dirs' m') (ha : a ∈ m'.tlb c') :
    a ∈ m.tlb c' := by
  cases h with
  | keep _ _ _ _ _ htlb => exact htlb ▸ ha
  | insert _ _ hins => exact (hins.tlb c' a ha).1
  | remove _ _ hrem => exact (hrem.tlb c' a ha).1
  | setUp _ hset => exact hset.tlb c' a ha
  | tearDown _ hm₀ hdown =>
      have hbefore := hdown.tlb c' a ha
      rcases hm₀ with rfl | rfl
      · exact hbefore
      · by_cases hc : c' = x.cpu
        · subst hc
          simp [Mem.lcr3] at hbefore
        · simpa [Mem.lcr3, hc] using hbefore

/-- The other CPUs keep their directories. -/
theorem MemEdit.cr3_of_ne {k : ℕ} (h : MemEdit L True k x dirs m dirs' m') (hc : c' ≠ x.cpu) :
    m'.cr3 c' = m.cr3 c' := by
  cases h with
  | keep _ _ _ _ hcr3 => rw [hcr3]
  | insert _ _ hins => rw [hins.cr3]
  | remove _ _ hrem => rw [hrem.cr3]
  | setUp _ hset => rw [hset.cr3]
  | tearDown _ hm₀ hdown =>
      rw [hdown.cr3]
      rcases hm₀ with rfl | rfl
      · rfl
      · simp [Mem.lcr3, hc]

/-- An environment that keeps its directory keeps its page tables. -/
theorem MemEdit.tables {k t : ℕ} (h : MemEdit L True k x dirs m dirs' m')
    (hdir : dirs' e = dirs e) (ht : tableAt m.word dirs e i = some t) :
    tableAt m'.word dirs' e i = some t := by
  obtain ⟨d, hd⟩ := TableInv.exists_dir ht
  cases h with
  | keep _ _ htables => exact (htables e i).trans ht
  | insert _ _ hins => exact hins.tables e i t ht
  | remove _ _ hrem => exact (hrem.tables e i).trans ht
  | @setUp e' _ _ he' hset =>
      have hne : e ≠ e' := by
        rintro rfl
        rw [he'] at hd
        cases hd
      exact (hset.tables e i hne).trans ht
  | @tearDown e' _ _ _ _ hm₀ hdown =>
      have hne : e ≠ e' := by
        rintro rfl
        rw [hd, Function.update_self] at hdir
        cases hdir
      rw [hdown.tables, if_neg hne]
      rcases hm₀ with rfl | rfl
      · exact ht
      · exact ht

theorem Call.cpuEnv_of_ne (h : Call M c cur q s u) (hc : c' ≠ c) :
    u.cpuEnv c' = s.cpuEnv c' := by
  cases h with
  | destroyOther _ _ _ _ hfree => exact congrFun hfree.cpuEnv c'
  | destroySelf _ hfree => exact (Function.update_of_ne hc _ _).trans (congrFun hfree.cpuEnv c')
  | _ => rfl

/-! ### Runs -/

/-- The TLB of a CPU that executes `e` holds what `e` can reach. -/
def TlbOk (L : Layout M) (s : Kernel n) (c : Fin n) : Prop :=
  ∀ e a, s.cpuEnv c = some e → a ∈ s.mem.tlb c → Translates L s.mem.word s.dirs e a

theorem TlbOk.call (htlb : TlbOk L s c') (h : SysInv L True (some c) s)
    (hcur : s.cpuEnv c = some cur) (hok : CachedOk M c cur q s) (hcall : Call M c cur q s u)
    (hc : c' ≠ c) : TlbOk L u c' := by
  intro e a hexec ha
  have hedit := (h.cpuSys c).call_edit (fun _ _ => h.fresh) hok.call.room (Or.inl trivial) hcall
  have hafter := h.call hcur hok.call (Or.inl trivial) hcall
  have hexec' : s.cpuEnv c' = some e := (hcall.cpuEnv_of_ne hc).symm.trans hexec
  have hdir : u.dirs e = s.dirs e := by
    rw [hafter.cpu.exec hexec, h.cpu.exec hexec', hedit.cr3_of_ne hc]
  have ha' := hedit.tlb ha
  refine (htlb e a hexec' ha').mono hdir (fun _ _ => hedit.tables hdir) fun i j w hmap heq => ?_
  subst heq
  exact call_frame h hcur hok hcall hc hexec' hmap ha'

/-- The last trap of a zombie takes only its own pages away. -/
theorem TlbOk.zombie (htlb : TlbOk L s c') (h : SysInv L True none s)
    (hcur : s.cpuEnv c = some cur) (hfree : Freed M c cur s u) (hc : c' ≠ c) :
    TlbOk L (u.setCur c none) c' := by
  intro e a hexec ha
  have hedit := (h.cpuSys c).freed_edit hfree
  have hexec' : s.cpuEnv c' = some e := by
    rw [← hexec, ← hfree.cpuEnv]
    exact (Function.update_of_ne hc _ _).symm
  have hother : e ≠ cur := by
    rintro rfl
    exact hc (h.envs.uniq hexec' hcur)
  cases hfree with
  | mk hdir hmem =>
      rw [dirs_setCur, dirs_freed]
      rw [dirs_freed] at hedit
      have hsame : Function.update s.dirs cur none e = s.dirs e := Function.update_of_ne hother _ _
      exact (htlb e a hexec' (hedit.tlb ha)).mono hsame (fun _ _ => hedit.tables hsame)
        fun _ _ _ hmap _ => ((h.cpuSys c).freed_down hdir hmem).frame hother hmap

theorem TlbOk.congr (htlb : TlbOk L s c') (hcpu : t.cpuEnv c' = s.cpuEnv c')
    (htlbs : t.mem.tlb c' = s.mem.tlb c') (hword : t.mem.word = s.mem.word)
    (hdirs : t.dirs = s.dirs) : TlbOk L t c' := by
  intro e a hexec ha
  rw [hword, hdirs]
  exact htlb e a (hcpu ▸ hexec) (htlbs ▸ ha)

/-- A CPU that leaves the kernel has an empty TLB. -/
theorem TlbOk.exit (htlb : ∀ c', c' ≠ c → TlbOk L s c') (hexit : Exit M c s t) (c' : Fin n) :
    TlbOk L t c' := by
  obtain ⟨d, hloads⟩ := hexit.loads
  by_cases hc : c' = c
  · subst hc
    intro e a _ ha
    simp [hloads.tlb] at ha
  · refine (htlb c' hc).congr (hloads.cpu_of_ne hc) ?_ hloads.word hloads.dirs
    rw [hloads.tlb, Function.update_of_ne hc]

theorem tlb_step {l : Label n} (h : SysInv L True none s) (htlb : ∀ c, TlbOk L s c)
    (hok : OnCall (CachedOk M) s l) (hstep : Step M s l t) (c' : Fin n) : TlbOk L t c' := by
  cases hstep.taken with
  | @zombie c _ _ _ _ _ hcur _ hfree hexit =>
      exact TlbOk.exit (fun c' hc => (htlb c').zombie h hcur hfree hc) hexit c'
  | @entry c tf _ cur u v _ hcur hst hcall hret hexit =>
      have henter : SysInv L True (some c) s := h.enter fun cur' hcur' => by
        rwa [← Option.some.inj (hcur.symm.trans hcur')]
      refine TlbOk.exit (fun c' hc => ?_) hexit c'
      have hsaved : TlbOk L (s.setTf cur tf) c' := (htlb c').congr rfl rfl rfl dirs_setTf
      have hcalled := hsaved.call henter.setTf hcur (hok rfl hcur hst) hcall hc
      rcases hret with rfl | ⟨-, r, rfl⟩
      · exact hcalled
      · exact hcalled.congr rfl rfl rfl dirs_setTf
  | tick _ hexit => exact TlbOk.exit (fun c' _ => htlb c') hexit c'
  | @fill c va frame hexec hread =>
      intro e a hexec' ha
      by_cases hc : c' = c
      · subst hc
        have hmem : a = (pgnum va, frame) ∨ a ∈ s.mem.tlb c' := by
          simpa [Kernel.setMem] using ha
        rcases hmem with rfl | hmem
        · have hnew : Translates L s.mem.word s.dirs e (pgnum va, frame) :=
            translates_userRead h.mem (h.cpu.exec hexec') hread
          exact hnew
        · exact htlb c' e a hexec' hmem
      · exact htlb c' e a hexec' (by simpa [Kernel.setMem, hc] using ha)
  | @store c va w frame hexec hwrite =>
      intro e a hexec' ha
      obtain ⟨e', he'⟩ := Option.ne_none_iff_exists'.mp hexec
      obtain ⟨-, -, -, hplain⟩ := SysInv.write_plain h.mem (h.cpu.exec he') hwrite
      have hword (q : ℕ) (hq : q ≠ frame) :
          (s.mem.store frame (wordIdx va) w).word q = s.mem.word q := Function.update_of_ne hq _ _
      exact (htlb c' e a hexec' ha).mono rfl (fun _ _ ht => (hplain.tableAt hword).trans ht)
        fun i j w hmap _ => ⟨w, (hplain.mapping hword).trans hmap, rfl⟩

/-- No CPU that executes an environment has a free page in its TLB, in the runs
that take no page from under another CPU. -/
theorem no_stale (hboot : Booted L b s) (hrun : Run (Step M) (OnCall (CachedOk M)) s t) :
    NoStale t := by
  have hinit : ∀ c, TlbOk L s c := fun c e a hexec _ => by
    have hinv : BootInv L True s := hboot.inv
    simp [hinv.idle] at hexec
  have hinv := hrun.invariant (I := fun s => SysInv L True none s ∧ ∀ c, TlbOk L s c)
    (fun h hok hstep => ⟨h.1.step (fun hl hcur hst => (hok hl hcur hst).call) (Or.inl trivial)
      hstep, tlb_step h.1 h.2 hok hstep⟩) ⟨hboot.sys, hinit⟩
  exact fun c e a hexec ha => (hinv.2 c e a hexec ha).not_on hinv.1.mem

/-! ### Two runs -/

/-- No other CPU has the page that is the second argument in its TLB. -/
def checkCached (s : Kernel n) : Label n → Bool
  | .trap c tf _ => decide (∀ c', c' ≠ c → ∀ a ∈ s.mem.tlb c', a.1 ≠ pgnum tf.request.a2)
  | _ => true

theorem cachedOk_of_check {l : Label n}
    (h : (checkElsewhere s l && roomy s l && checkCached s l) = true) :
    OnCall (CachedOk M) s l := by
  obtain ⟨hcall, hcached⟩ := Bool.and_eq_true_iff.mp h
  intro c tf input cur hl hcur hst
  refine ⟨callOk_of_check hcall hl hcur hst, ?_⟩
  subst hl
  have hroomy : tf.request.no ≠ some .pageMap ∧ tf.request.no ≠ some .ipcTrySend ∧
      (s.mem.pages vgaFrame).ppRef ≠ 0 := by
    simpa [roomy] using (Bool.and_eq_true_iff.mp hcall).2
  have hnone {e : EnvIdx} {p : ℕ} : ¬ Caches (s.setTf cur tf) c e tf.request.a2 p := by
    rintro ⟨c', hc, -, ha⟩
    exact of_decide_eq_true hcached c' hc _ ha rfl
  exact ⟨fun _ _ _ _ _ _ => hnone, fun _ _ _ _ => hnone,
    fun hins => absurd hins (not_inserts hroomy.1 hroomy.2.1)⟩

/-- A child executes on another CPU, allocates two pages and reads the first. -/
def childReads : List (Label 2) :=
  forkRun ++ [.trap 1 (syscallTf 4 0 0x20000 7 0 0) 0, .trap 1 (syscallTf 4 0 0x10000 7 0 0) 0,
    .fill 1 0x10000]

/-- The parent unmaps the page that the child has not read. -/
theorem no_stale_unmap : ∃ s t, Booted sampleLayout (0 : Fin 2) s ∧
    Run (Step sampleMachine) (OnCall (CachedOk sampleMachine)) s t ∧
    (t.cpuEnv 1 = some 1 ∧ t.mem.tlb 1 ≠ []) ∧ NoStale t := by
  obtain ⟨s, t, hboot, hrun, htest⟩ := sample_run 0
    (fun s l => checkElsewhere s l && roomy s l && checkCached s l)
    (childReads ++ [.trap 0 (syscallTf 6 0x1001 0x20000 0 0 0) 0])
    (fun t => t.cpuEnv 1 = some 1 ∧ t.mem.tlb 1 ≠ []) cachedOk_of_check (by decide +kernel)
  exact ⟨s, t, hboot, hrun, by simpa using htest, no_stale hboot hrun⟩

/-- The parent unmaps the page that the child has read, which frees it. -/
def unmapRead : List (Label 2) := childReads ++ [.trap 0 (syscallTf 6 0x1001 0x10000 0 0 0) 0]

theorem not_no_stale : ¬ ∀ s t : Kernel 2, Booted sampleLayout 0 s →
    Run (Step sampleMachine) (fun _ _ => True) s t → NoStale t := by
  intro h
  obtain ⟨s, t, hboot, hrun, htest⟩ := sample_run 0
    (fun s l => checkElsewhere s l && roomy s l) unmapRead
    (fun t => decide (t.cpuEnv 1 = some 1) &&
      t.mem.pageFreeList.any fun p => decide ((16, p) ∈ t.mem.tlb 1))
    callOk_of_check (by decide +kernel)
  obtain ⟨hexec, htlb⟩ := Bool.and_eq_true_iff.mp htest
  obtain ⟨p, hhead, ha⟩ := (Option.any_eq_true _ _).mp htlb
  have hsys : SysInv sampleLayout True none t := sysInv_run hboot trivial hrun
  exact h s t hboot (hrun.mono fun _ _ _ => trivial) 1 1 (16, p) (of_decide_eq_true hexec)
    (of_decide_eq_true ha) (hsys.mem.counts.on_head hhead)

end Jos
