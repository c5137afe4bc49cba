import Jos.Pmap.Spaces
import Jos.System.Envs

/-!
Memory along a run. Every request changes memory in one of five ways
(`MemEdit`), and the properties of the page tables are proved from these.
`SysInv` is the invariant of the whole system: the environments, the memory,
and the directory that every CPU has loaded.
-/

namespace Jos

open Jos.Lib

variable {n : ℕ} {M : Machine}

def Kernel.dirs (s : Kernel n) : Dirs := fun e => (s.envs e).envPgdir

/-- Some address space maps page `p` writable. -/
def Writable (word : Words) (dirs : Dirs) (p : ℕ) : Prop :=
  ∃ e i j w, mapping word dirs e i j = some w ∧ pteFrame w = p ∧ Flag w pteW

/-! ### Edits -/

/-- One change of memory: to the free list and contents of pages only, of one
mapping, or of a whole address space. -/
inductive MemEdit (L : Layout M) (nullOk : Prop) (b : ℕ) (x : Ctx n) (dirs : Dirs) (m : Mem n) :
    Dirs → Mem n → Prop
  | keep {m'} (hinv : MemInv L nullOk none dirs m') (hb : Bounded L b dirs m')
      (htables : ∀ e i, tableAt m'.word dirs e i = tableAt m.word dirs e i)
      (hmaps : ∀ e i j, mapping m'.word dirs e i j = mapping m.word dirs e i j)
      (hcr3 : m'.cr3 = m.cr3) (htlb : m'.tlb = m.tlb) : MemEdit L nullOk b x dirs m dirs m'
  | insert {e d va w m'} (hd : dirs e = some d) (hi : (pdx va : ℕ) < 955)
      (hins : Inserted L nullOk dirs x e d va w m m') (hb : Bounded L b dirs m')
      (hsource : Flag w pteW → Writable m.word dirs (pteFrame w) ∨ m.pool.On (pteFrame w)) :
      MemEdit L nullOk b x dirs m dirs m'
  | remove {e d va m'} (hd : dirs e = some d) (hi : (pdx va : ℕ) < 955)
      (hrem : Removed L nullOk none dirs x e d va m m') (hb : Bounded L b dirs m') :
      MemEdit L nullOk b x dirs m dirs m'
  | setUp {e d m'} (he : dirs e = none) (hset : SetUp L nullOk dirs e d m m')
      (hb : Bounded L b (Function.update dirs e (some d)) m') :
      MemEdit L nullOk b x dirs m (Function.update dirs e (some d)) m'
  | tearDown {e d m₀ m'} (hd : dirs e = some d)
      (hm₀ : m₀ = m ∨ m₀ = m.lcr3 x.cpu M.kernPgdir)
      (hdown : TornDown L nullOk b dirs e m₀ m') :
      MemEdit L nullOk b x dirs m (Function.update dirs e none) m'

variable {L : Layout M} {nullOk : Prop} {b : ℕ} {dirs : Dirs}
  {x : Ctx n} {m m' m₁ : Mem n} {c : Fin n} {cur e es : EnvIdx} {s t u : Kernel n}
  {k : Option (Fin n)} {q : Request} {tf : Trapframe} {d ds p : ℕ} {va sva w perm : Word}

theorem MemEdit.inv {dirs' : Dirs} (h : MemEdit L nullOk b x dirs m dirs' m') :
    MemInv L nullOk none dirs' m' ∧ Bounded L b dirs' m' := by
  cases h with
  | keep hinv hb => exact ⟨hinv, hb⟩
  | insert _ _ hins hb => exact ⟨hins.inv, hb⟩
  | remove _ _ hrem hb => exact ⟨hrem.inv, hb⟩
  | setUp _ hset hb => exact ⟨hset.inv, hb⟩
  | tearDown _ _ hdown => exact ⟨hdown.inv, hdown.bounded⟩

/-- Only an address space that is taken apart is unloaded. -/
theorem MemEdit.cr3 {dirs' : Dirs} (h : MemEdit L nullOk b x dirs m dirs' m')
    (hkeep : ∀ e, dirs e ≠ none → dirs' e ≠ none) : m'.cr3 = m.cr3 := by
  cases h with
  | keep _ _ _ _ hcr3 => exact hcr3
  | insert _ _ hins => exact hins.cr3
  | remove _ _ hrem => exact hrem.cr3
  | setUp _ hset => exact hset.cr3
  | @tearDown e d _ _ hd => exact absurd (Function.update_self _ _ _) (hkeep e (by simp [hd]))

theorem MemEdit.refl (h : MemInv L nullOk none dirs m) (hb : Bounded L b dirs m) :
    MemEdit L nullOk b x dirs m dirs m :=
  .keep h hb (fun _ _ => rfl) (fun _ _ _ => rfl) rfl rfl

/-- A count that is not zero, of at most 2^16 references, has not wrapped. -/
theorem MemInv.load_lt (h : MemInv L nullOk none dirs m) (hb : Bounded L 65536 dirs m)
    (hp : L.counted p) (href : (m.pages p).ppRef ≠ 0) : pageLoad none m.word dirs p < 65536 := by
  refine (hb p hp).lt_of_ne fun heq => href ?_
  have hcount := h.counts.ref p hp
  rw [heq] at hcount
  exact hcount

theorem perm_lt (h : ¬ Flag perm (~~~pteSyscall)) : perm.toNat < 4096 := by
  unfold Flag at h
  rw [not_not] at h
  have hmask : perm = perm &&& pteSyscall := by
    rw [← BitVec.and_allOnes (x := perm)]
    conv_lhs => rw [show BitVec.allOnes 32 = pteSyscall ||| ~~~pteSyscall by decide]
    rw [BitVec.and_or_distrib_left, h, BitVec.or_zero, BitVec.and_allOnes]
  have hle : perm.toNat ≤ pteSyscall.toNat := by
    rw [hmask, BitVec.toNat_and]
    exact Nat.and_le_right
  exact hle.trans_lt (by decide)

theorem perm_lt_of_valid (h : validPerm perm) : perm.toNat < 4096 :=
  perm_lt (fun hflag => hflag h.2.2)

theorem pdx_userPage (h : userPage va) : (pdx va : ℕ) < 955 := pdx_lt_of_lt_utop h.1

/-- A page that is looked up in one address space and inserted in another, or
in the same. -/
theorem MemInv.inserted_looked {i : PtIdx} {pt : ℕ} {page : Option ℕ}
    (h : MemInv L nullOk none dirs m) (hb : Bounded L 65536 dirs m)
    (hs : dirs es = some ds) (hsi : (pdx sva : ℕ) < 955)
    (hlook : pageLookup M ds sva m = .ok (some (pt, i), page))
    (hw : Flag perm pteW → Flag (m.word pt i) pteW) (hd : dirs e = some d)
    (hi : (pdx va : ℕ) < 955) (hperm : perm.toNat < 4096) (hnull : page = none → nullOk)
    (hroom : ∀ p, page = some p → (m.pages p).ppRef ≠ 0) (hcr3 : Loaded M dirs m x.cpu)
    (hrun : pageInsert M x d page va perm m = .ok (0, m')) :
    ∃ w, Inserted L nullOk dirs x e d va w m m' ∧ Bounded L 65536 dirs m' ∧
      (Flag w pteW → Writable m.word dirs (pteFrame w) ∨ m.pool.On (pteFrame w)) ∧
      ∀ p, page = some p → pteFrame w = p := by
  obtain ⟨hr, hpage, hlt⟩ := pageLookup_spec hs hsi hlook
  obtain ⟨⟨t, ht⟩, hpti⟩ : (∃ t, tableAt m.word dirs es (pdx sva) = some t) ∧
      (tableAt m.word dirs es (pdx sva)).map (·, ptx sva) = some (pt, i) := by
    refine ⟨?_, hr.symm⟩
    cases htable : tableAt m.word dirs es (pdx sva) with
    | none => simp [htable] at hr
    | some t => exact ⟨t, rfl⟩
  obtain ⟨rfl, rfl⟩ : t = pt ∧ ptx sva = i := by simpa [ht] using hpti
  have hmap := mapping_of_table (j := ptx sva) ht
  cases page with
  | none =>
      -- `page_lookup` found an entry that is not present: the null page is inserted
      have hP : ¬ Flag (m.word t (ptx sva)) pteP := fun hP => by
        rw [hmap, present_of_flag hP] at hpage
        cases hpage
      have hW : ¬ Flag perm pteW := fun hpw => by
        have hzero := h.tables.absent ht _ hP
        rw [hzero] at hw
        exact not_flag_zero _ (hw hpw)
      have hins := pageInsert_none_spec h (hnull rfl) hd hi hcr3 hperm hW
        (fun v _ hv => hb _ hv) hrun
      refine ⟨_, hins, hins.bounded (by norm_num) hb fun hcounted => ?_, fun hflag => ?_, nofun⟩
      · exfalso
        have hnpages := npages_le_nullFrame M
        rw [page2pa_none, pteFrame_mkPte (nullFrame_lt M) hperm] at hcounted
        rcases hcounted with hpool | hvga
        · have hlt := L.pool_lt hpool
          omega
        · have hlt := M.pagesFrame_lt
          unfold vgaFrame nullFrame at hvga
          omega
      · rw [page2pa_none, flag_mkPte_W] at hflag
        exact absurd hflag hW
  | some p =>
      obtain ⟨v, hv, rfl⟩ : ∃ v, mapping m.word dirs es (pdx sva) (ptx sva) = some v ∧
          pteFrame v = p := by
        simpa [eq_comm] using hpage.symm
      have hcounted : L.counted (pteFrame v) := by
        refine (h.tables.page hv).resolve_right fun hnull => ?_
        have := hlt v hv
        omega
      -- the page has references already, so its count does not wrap
      have hload := h.load_lt hb hcounted (hroom _ rfl)
      have hplain := h.tables.separate.plain_of_page hv
      have hframe : pteFrame (mkPte (frame2pa (pteFrame v)) perm) = pteFrame v :=
        pteFrame_mkPte (L.counted_lt hcounted) hperm
      have hins := pageInsert_spec h hd hi hcounted hplain (h.not_on_page hv) hperm
        (fun w _ hw => by
          by_cases heq : pteFrame w = pteFrame v
          · rw [heq, hit_self]
            omega
          · rw [hit_of_ne (v := some (pteFrame v)) (by simpa using fun h => heq h.symm)]
            exact hb _ hw) hrun
      refine ⟨_, hins, hins.bounded (by norm_num) hb fun _ => Or.inr ?_, fun hflag => Or.inl ?_,
        fun p hp => hframe.trans (Option.some.inj hp)⟩
      · rwa [hframe]
      · rw [flag_mkPte_W] at hflag
        refine ⟨es, _, _, v, hv, hframe.symm, ?_⟩
        rw [hmap] at hv
        have hWv := hw hflag
        have hPv : Flag (m.word t (ptx sva)) pteP := by
          by_contra hP
          rw [present_of_not_flag hP] at hv
          cases hv
        rw [present_of_flag hPv] at hv
        obtain rfl := Option.some.inj hv
        exact hWv

theorem MemInv.insert_looked {i : PtIdx} {pt : ℕ} {page : Option ℕ}
    (h : MemInv L nullOk none dirs m) (hb : Bounded L 65536 dirs m)
    (hs : dirs es = some ds) (hsi : (pdx sva : ℕ) < 955)
    (hlook : pageLookup M ds sva m = .ok (some (pt, i), page))
    (hw : Flag perm pteW → Flag (m.word pt i) pteW) (hd : dirs e = some d)
    (hi : (pdx va : ℕ) < 955) (hperm : perm.toNat < 4096) (hnull : page = none → nullOk)
    (hroom : ∀ p, page = some p → (m.pages p).ppRef ≠ 0) (hcr3 : Loaded M dirs m x.cpu)
    (hrun : pageInsert M x d page va perm m = .ok (0, m')) :
    MemEdit L nullOk 65536 x dirs m dirs m' := by
  obtain ⟨w, hins, hbounded, hsource, -⟩ :=
    h.inserted_looked hb hs hsi hlook hw hd hi hperm hnull hroom hcr3 hrun
  exact .insert hd hi hins hbounded hsource

/-- A page that has just been allocated is inserted. -/
theorem MemInv.insert_allocated {z : Bool} (hb : Bounded L 65536 dirs m)
    (hal : Allocated L nullOk dirs z m p m₁) (hd : dirs e = some d) (hi : (pdx va : ℕ) < 955)
    (hperm : perm.toNat < 4096) (hrun : pageInsert M x d (some p) va perm m₁ = .ok (0, m')) :
    MemEdit L nullOk 65536 x dirs m dirs m' := by
  obtain ⟨hins, hb'⟩ := hal.inserted hb hd hi hperm hrun
  have hframe : pteFrame (mkPte (frame2pa p) perm) = p :=
    pteFrame_mkPte (L.frame_lt hal.pool) hperm
  exact .insert hd hi hins (hb' (by norm_num) hb) fun _ => Or.inr (hframe.symm ▸ hal.wasFree)

/-- A page that was allocated and put back. -/
theorem Allocated.putBack {z : Bool} (hal : Allocated L nullOk dirs z m p m₁)
    (hb : Bounded L b dirs m) (hrun : pageFree p m₁ = .ok m') :
    MemEdit L nullOk b x dirs m dirs m' := by
  obtain ⟨hinv, hword, hcr3, htlb⟩ := pageFree_spec hal.inv hal.pool hal.off hal.unref hrun
  refine .keep hinv ?_ (fun e i => ?_) (fun e i j => ?_) (hcr3.trans hal.cr3)
    (htlb.trans hal.tlb)
  · intro p hp
    rw [hword]
    exact hal.bounded hb p hp
  · rw [hword, hal.tables]
  · rw [hword, hal.maps]

/-! ### Requests -/

section

variable (v : Env) (dir : Option EnvIdx) (ev : Event n)

@[simp] theorem dirs_setEnv : (s.setEnv e v).dirs = Function.update s.dirs e v.envPgdir := by
  funext e'
  by_cases he : e' = e
  · subst he
    simp [Kernel.dirs, Kernel.setEnv]
  · simp [Kernel.dirs, Kernel.setEnv, he]

@[simp] theorem dirs_setMem : (s.setMem m).dirs = s.dirs := rfl

@[simp] theorem dirs_setCur : (s.setCur c dir).dirs = s.dirs := rfl

@[simp] theorem dirs_emit : (s.emit ev).dirs = s.dirs := rfl

@[simp] theorem dirs_setTf {tf : Trapframe} : (s.setTf e tf).dirs = s.dirs := by
  simp only [Kernel.setTf, dirs_setEnv]
  exact Function.update_eq_self _ _

@[simp] theorem dirs_setStatus {st : EnvStatus} : (s.setStatus e st).dirs = s.dirs := by
  simp only [Kernel.setStatus, dirs_setEnv]
  exact Function.update_eq_self _ _

@[simp] theorem dirs_ipcPerm0 : (s.ipcPerm0 e).dirs = s.dirs := by
  simp only [Kernel.ipcPerm0, dirs_setEnv]
  exact Function.update_eq_self _ _

@[simp] theorem dirs_received : (s.received e va).dirs = s.dirs := by
  simp only [Kernel.received, dirs_emit, dirs_setEnv]
  exact Function.update_eq_self _ _

@[simp] theorem dirs_delivered {value perm : Word} {page : Option ℕ} :
    (s.delivered cur e value perm page).dirs = s.dirs := by
  simp only [Kernel.delivered, dirs_emit, dirs_setEnv]
  exact Function.update_eq_self _ _

@[simp] theorem dirs_freed : (s.freed c e m).dirs = Function.update s.dirs e none :=
  dirs_setEnv _

@[simp] theorem dirs_forked :
    (s.forked cur e d m).dirs = Function.update s.dirs e (some d) := by
  simp only [Kernel.forked, dirs_setTf, dirs_setStatus]
  exact dirs_setEnv _

end

/-! ### The start of `env_free` -/

theorem freeing_word (s : Kernel n) (c : Fin n) (e : EnvIdx) :
    (s.freeing M c e).word = s.mem.word := by
  unfold Kernel.freeing
  split <;> rfl

theorem freeing_pages (s : Kernel n) (c : Fin n) (e : EnvIdx) :
    (s.freeing M c e).pages = s.mem.pages ∧ (s.freeing M c e).pool = s.mem.pool := by
  unfold Kernel.freeing
  split <;> exact ⟨rfl, rfl⟩

/-- Loading the kernel directory leaves memory in order. -/
theorem MemInv.freeing {dirs : Dirs} (h : MemInv L nullOk none dirs s.mem) :
    MemInv L nullOk none dirs (s.freeing M c e) := by
  refine ⟨?_, ?_⟩
  · rw [(freeing_pages s c e).2, freeing_word]
    exact h.counts
  · rw [freeing_word]
    exact h.tables

theorem Bounded.freeing {b : ℕ} {dirs : Dirs} (h : Bounded L b dirs s.mem) :
    Bounded L b dirs (s.freeing M c e) := by
  unfold Bounded
  rw [freeing_word]
  exact h

/-! ### CPUs -/

/-- Every CPU that executes an environment has its directory loaded, the others
have the kernel's. -/
structure CpuInv (M : Machine) (s : Kernel n) : Prop where
  exec : ∀ {c e}, s.cpuEnv c = some e → s.dirs e = some (s.mem.cr3 c)
  idle : ∀ {c}, s.cpuEnv c = none → s.mem.cr3 c = M.kernPgdir

/-- What CPU `c` relies on: memory is in order, and the directory that it has
loaded is that of the environment it executes or the kernel's. -/
structure CpuSys (L : Layout M) (nullOk : Prop) (c : Fin n) (s : Kernel n) : Prop where
  mem : MemInv L nullOk none s.dirs s.mem
  bounded : Bounded L 65536 s.dirs s.mem
  exec : ∀ {e}, s.cpuEnv c = some e → s.dirs e = some (s.mem.cr3 c)
  idle : s.cpuEnv c = none → s.mem.cr3 c = M.kernPgdir

namespace CpuSys

theorem loaded (h : CpuSys L nullOk c s) : Loaded M s.dirs s.mem c := by
  cases hcur : s.cpuEnv c with
  | none => exact Or.inl (h.idle hcur)
  | some e => exact Or.inr ⟨e, h.exec hcur⟩

theorem edit_self (h : CpuSys L nullOk c s) (hdirs : u.dirs = s.dirs) (hmem : u.mem = s.mem) :
    MemEdit L nullOk 65536 x s.dirs s.mem u.dirs u.mem := by
  rw [hdirs, hmem]
  exact .refl h.mem h.bounded

theorem freed_down {m : Mem n} (h : CpuSys L nullOk c s) (hdir : (s.envs e).envPgdir = some d)
    (hmem : envFreeMem M x d (s.freeing M c e) = .ok m) :
    TornDown L nullOk 65536 s.dirs e (s.freeing M c e) m :=
  envFreeMem_spec h.mem.freeing h.bounded.freeing le_rfl hdir hmem

theorem freed_edit (h : CpuSys L nullOk c s) (hfree : Freed M c e s u) :
    MemEdit L nullOk 65536 (s.ctx c) s.dirs s.mem u.dirs u.mem := by
  cases hfree with
  | mk hdir hmem =>
      rw [dirs_freed]
      refine .tearDown hdir ?_ (h.freed_down hdir hmem)
      unfold Kernel.freeing
      split
      · exact Or.inr rfl
      · exact Or.inl rfl

/-- What a request does to memory. -/
theorem call_edit (h : CpuSys L nullOk c s)
    (hfresh : q.no = some .exofork → ∀ {e}, s.envFreeList = some e → s.dirs e = none)
    (hroom : RoomOk M cur q s) (hsource : nullOk ∨ SourceOk M cur q s)
    (hcall : Call M c cur q s u) :
    MemEdit L nullOk 65536 (s.ctx c) s.dirs s.mem u.dirs u.mem := by
  cases hcall with
  | skip => exact h.edit_self rfl rfl
  | setStatus => exact h.edit_self dirs_setStatus rfl
  | dying => exact h.edit_self (by simp) rfl
  | destroyOther _ _ _ _ hfree =>
      have hedit := h.freed_edit hfree
      exact hedit
  | destroySelf _ hfree =>
      have hedit := h.freed_edit hfree
      exact hedit
  | @exofork e d m hno hhead hmem =>
      rw [dirs_forked]
      have hnone : s.dirs e = none := hfresh hno hhead
      have hset := envSetupVm_spec h.mem hnone hmem
      have hload := h.mem.load_lt h.bounded (Or.inr rfl)
        (hroom.fork hno (by simp [hhead]) hset.wasFree.head_ne_none)
      exact .setUp hnone hset (hset.bounded (by norm_num) h.bounded hload)
  | @pageAlloc e d page m₁ r m₂ _ _ hva hperm hdir halloc hinsert hr =>
      obtain rfl : r = 0 := (pageInsert_ret hinsert).resolve_right fun hfail => hr hfail.1
      exact MemInv.insert_allocated h.bounded (pageAlloc_spec h.mem halloc) hdir
        (pdx_userPage hva) (perm_lt_of_valid hperm) hinsert
  | @pageAllocFail e d page m₁ m₂ m₃ _ _ hva hperm hdir halloc hinsert hfree =>
      rcases pageInsert_ret hinsert with hzero | ⟨-, rfl⟩
      · exact absurd hzero (by decide)
      · exact (pageAlloc_spec h.mem halloc).putBack h.bounded hfree
  | @pageMap src dst ds dd pt i page r m hno hsrc hdst hsrcva hdstva hperm hds hdd hlook hw
      hinsert =>
      rcases pageInsert_ret hinsert with rfl | ⟨-, rfl⟩
      · have hins : Inserts M cur q s page dd q.a4 := .map hno hsrc hdst hsrcva hdstva hperm hds
          hdd hlook hw (pageInsert_room hinsert (by decide))
        refine h.mem.insert_looked h.bounded hds (pdx_userPage hsrcva) hlook hw hdd
          (pdx_userPage hdstva) (perm_lt_of_valid hperm) ?_ ?_ h.loaded hinsert
        · rintro rfl
          exact hsource.resolve_right fun hok => hok hins
        · rintro p rfl
          exact hroom.insert hins
      · exact h.edit_self rfl rfl
  | @pageUnmap e d m _ _ hva hdir hremove =>
      have hrem := pageRemove_spec h.mem hdir (pdx_userPage hva)
        (fun w _ hw => h.bounded _ hw) hremove
      exact .remove hdir (pdx_userPage hva) hrem (hrem.bounded h.bounded)
  | ipcFail => exact h.edit_self dirs_ipcPerm0 rfl
  | ipcValue => exact h.edit_self (by simp) rfl
  | @ipcPage target ds dd pt i page r m hno he hrecv hsrcva hdstva hup hperm hds hdd hlook hw
      hinsert hr =>
      rw [dirs_delivered, dirs_setMem, dirs_ipcPerm0]
      have hins : Inserts M cur q s page dd (s.envs target).envIpcDstva :=
        .send (sends_page hno he hrecv hsrcva hup hperm hds hdd hlook hw hinsert hr) hsrcva.1
          hdstva.1 hds hdd hlook
      obtain rfl : r = 0 := (pageInsert_ret hinsert).resolve_right fun hfail => hr hfail.1
      refine h.mem.insert_looked h.bounded hds (pdx_userPage hsrcva) hlook hw hdd
        (pdx_userPage hdstva) (perm_lt hperm) ?_ ?_ h.loaded hinsert
      · rintro rfl
        exact hsource.resolve_right fun hok => hok hins
      · rintro p rfl
        exact hroom.insert hins
  | ipcRecv => exact h.edit_self dirs_received rfl

end CpuSys

/-! ### The whole system -/

/-- CPU `c` has left the kernel with directory `d` loaded, that of the
environment it executes or the kernel's. -/
structure Loads (M : Machine) (c : Fin n) (d : ℕ) (s t : Kernel n) : Prop where
  dirs : t.dirs = s.dirs
  word : t.mem.word = s.mem.word
  pool : t.mem.pool = s.mem.pool
  cr3 : t.mem.cr3 = Function.update s.mem.cr3 c d
  tlb : t.mem.tlb = Function.update s.mem.tlb c []
  cpu : (∃ e, t.cpuEnv = Function.update s.cpuEnv c (some e) ∧ s.dirs e = some d) ∨
    (t.cpuEnv = Function.update s.cpuEnv c none ∧ d = M.kernPgdir)

theorem dirs_resume : (s.resume c e d).dirs = s.dirs := by
  simp only [Kernel.resume, dirs_emit, dirs_setMem, dirs_setEnv, dirs_setCur]
  exact Function.update_eq_self _ _

theorem dirs_demote : (s.demote c).dirs = s.dirs := by
  rcases demote_cases s c with h | ⟨cur, -, -, h⟩ <;> rw [h]
  exact dirs_setStatus

theorem Exit.loads (h : Exit M c s t) : ∃ d, Loads M c d s t := by
  cases h with
  | @run e d _ hdir =>
      refine ⟨d, ⟨dirs_resume.trans dirs_demote, ?_, ?_, ?_, ?_, Or.inl ⟨e, ?_, hdir⟩⟩⟩
      · simp [Kernel.resume, Kernel.setMem, Kernel.emit, Mem.lcr3]
      · simp only [Kernel.resume, Kernel.setMem, Kernel.emit, pool_lcr3]
        simp
      · simp [Kernel.resume, Kernel.setMem, Kernel.emit, Mem.lcr3]
      · simp [Kernel.resume, Kernel.setMem, Kernel.emit, Mem.lcr3]
      · simp [Kernel.resume, Kernel.setMem, Kernel.emit, Kernel.setEnv, Kernel.setCur,
          demote_cpuEnv]
  | halt => exact ⟨_, ⟨rfl, rfl, rfl, rfl, rfl, Or.inr ⟨rfl, rfl⟩⟩⟩

namespace Loads

theorem mem (h : Loads M c d s t) (hinv : MemInv L nullOk none s.dirs s.mem) :
    MemInv L nullOk none t.dirs t.mem := by
  refine ⟨?_, ?_⟩
  · rw [h.dirs, h.word, h.pool]
    exact hinv.counts
  · rw [h.dirs, h.word]
    exact hinv.tables

theorem exec (h : Loads M c d s t) (hc : t.cpuEnv c = some e) : t.dirs e = some (t.mem.cr3 c) := by
  rw [h.dirs, h.cr3, Function.update_self]
  rcases h.cpu with ⟨e', hcpu, hdir⟩ | ⟨hcpu, -⟩
  · rw [hcpu, Function.update_self] at hc
    rwa [← Option.some.inj hc]
  · rw [hcpu, Function.update_self] at hc
    cases hc

theorem idle (h : Loads M c d s t) (hc : t.cpuEnv c = none) : t.mem.cr3 c = M.kernPgdir := by
  rw [h.cr3, Function.update_self]
  rcases h.cpu with ⟨e', hcpu, -⟩ | ⟨-, hd⟩
  · rw [hcpu, Function.update_self] at hc
    cases hc
  · exact hd

theorem cpu_of_ne {c' : Fin n} (h : Loads M c d s t) (hc : c' ≠ c) :
    t.cpuEnv c' = s.cpuEnv c' := by
  rcases h.cpu with ⟨e, hcpu, -⟩ | ⟨hcpu, -⟩ <;> rw [hcpu, Function.update_of_ne hc]

end Loads

structure SysInv (L : Layout M) (nullOk : Prop) (k : Option (Fin n)) (s : Kernel n) : Prop where
  envs : EnvInv k s
  mem : MemInv L nullOk none s.dirs s.mem
  bounded : Bounded L 65536 s.dirs s.mem
  cpu : CpuInv M s

namespace SysInv

theorem cpuSys (h : SysInv L nullOk k s) (c : Fin n) : CpuSys L nullOk c s :=
  ⟨h.mem, h.bounded, h.cpu.exec, h.cpu.idle⟩

theorem fresh (h : SysInv L nullOk k s) (hhead : s.envFreeList = some e) : s.dirs e = none :=
  h.envs.pgdir.mpr (h.envs.head_free hhead)

/-! ### The directory that a CPU has loaded -/

theorem cpu_congr (h : CpuInv M s) (hcpu : u.cpuEnv = s.cpuEnv) (hcr3 : u.mem.cr3 = s.mem.cr3)
    (hdirs : ∀ {c e}, s.cpuEnv c = some e → u.dirs e = s.dirs e) : CpuInv M u where
  exec hc := by
    rw [hcpu] at hc
    rw [hdirs hc, hcr3]
    exact h.exec hc
  idle hc := by
    rw [hcpu] at hc
    rw [hcr3]
    exact h.idle hc

theorem cpu_freedSelf (h : SysInv L nullOk k s) (hcur : s.cpuEnv c = some cur)
    (hfree : Freed M c cur s u) : CpuInv M (u.setCur c none) := by
  cases hfree with
  | @mk d m hdir hmem =>
      have hcr3 : m.cr3 = Function.update s.mem.cr3 c M.kernPgdir := by
        rw [((h.cpuSys c).freed_down hdir hmem).cr3, Kernel.freeing, if_pos hcur]
        rfl
      have hcpu (c' : Fin n) : ((s.freed c cur m).setCur c none).cpuEnv c' =
          if c' = c then none else s.cpuEnv c' := by
        simp [Kernel.setCur, Kernel.freed, Kernel.setEnv, Kernel.setMem, Kernel.emit,
          Function.update_apply]
      have hmem' : ((s.freed c cur m).setCur c none).mem.cr3 = m.cr3 := rfl
      refine ⟨fun {c' e'} hc' => ?_, fun {c'} hc' => ?_⟩
      · rw [hcpu] at hc'
        split at hc'
        · cases hc'
        · rename_i hc
          have he : e' ≠ cur := by
            rintro rfl
            exact hc (h.envs.uniq hc' hcur)
          rw [dirs_setCur, dirs_freed, Function.update_of_ne he, hmem', hcr3,
            Function.update_of_ne hc]
          exact h.cpu.exec hc'
      · rw [hcpu] at hc'
        rw [hmem', hcr3]
        split at hc'
        · rename_i hc
          rw [hc, Function.update_self]
        · rename_i hc
          rw [Function.update_of_ne hc]
          exact h.cpu.idle hc'

theorem cpu_call (h : SysInv L nullOk (some c) s) (hcur : s.cpuEnv c = some cur)
    (hdestroy : DestroyOk c cur q s)
    (hedit : MemEdit L nullOk b (s.ctx c) s.dirs s.mem u.dirs u.mem)
    (hcall : Call M c cur q s u) : CpuInv M u := by
  have hkeep (hcpu : u.cpuEnv = s.cpuEnv) (hdirs : u.dirs = s.dirs) : CpuInv M u :=
    cpu_congr h.cpu hcpu (hedit.cr3 fun e he => by rwa [hdirs]) fun _ => by rw [hdirs]
  cases hcall with
  | skip => exact h.cpu
  | setStatus => exact hkeep rfl dirs_setStatus
  | dying => exact hkeep rfl (by simp)
  | @destroyOther e u hno he hne hst hfree =>
      cases hfree with
      | @mk d m hdir hmem =>
          have hcr3 : m.cr3 = s.mem.cr3 := by
            rw [((h.cpuSys c).freed_down hdir hmem).cr3, Kernel.freeing, if_neg hne]
          refine cpu_congr h.cpu rfl hcr3 fun {c' e'} hexec => ?_
          rw [dirs_emit, dirs_freed, Function.update_of_ne]
          rintro rfl
          by_cases hc : c' = c
          · exact hne (hc ▸ hexec)
          · exact hst (hdestroy hno he ⟨c', hc, hexec⟩)
  | destroySelf _ hfree => exact h.cpu_freedSelf hcur hfree
  | @exofork e d m _ hhead _ =>
      refine cpu_congr h.cpu rfl (hedit.cr3 fun e' he' => ?_) fun {c' e'} hexec => ?_
      · rw [dirs_forked, Function.update_apply]
        split <;> simp [he']
      · rw [dirs_forked, Function.update_of_ne]
        rintro rfl
        exact h.envs.live_of_exec hexec (h.envs.head_free hhead)
  | pageAlloc => exact hkeep rfl rfl
  | pageAllocFail => exact hkeep rfl rfl
  | pageMap => exact hkeep rfl rfl
  | pageUnmap => exact hkeep rfl rfl
  | ipcFail => exact hkeep rfl dirs_ipcPerm0
  | ipcValue => exact hkeep rfl (by simp)
  | ipcPage => exact hkeep rfl (by simp)
  | ipcRecv => exact hkeep rfl dirs_received

/-! ### The steps -/

/-- A request that meets the conditions. -/
theorem call (h : SysInv L nullOk (some c) s) (hcur : s.cpuEnv c = some cur)
    (hok : CallOk M c cur q s) (hsource : nullOk ∨ SourceOk M cur q s)
    (hcall : Call M c cur q s u) : SysInv L nullOk (some c) u := by
  have hedit := (h.cpuSys c).call_edit (fun _ _ => h.fresh) hok.room hsource hcall
  exact ⟨h.envs.call hcur hok.elsewhere hcall, hedit.inv.1, hedit.inv.2,
    h.cpu_call hcur hok.elsewhere.destroy hedit hcall⟩

theorem zombie (h : SysInv L nullOk none s) (hcur : s.cpuEnv c = some cur)
    (hfree : Freed M c cur s u) : SysInv L nullOk (some c) (u.setCur c none) := by
  have hedit := ((h.cpuSys c).freed_edit hfree).inv
  exact ⟨h.envs.freedSelf (Or.inl rfl) hcur hfree, hedit.1, hedit.2, h.cpu_freedSelf hcur hfree⟩

/-- Changing the registers of an environment. -/
theorem setTf (h : SysInv L nullOk k s) : SysInv L nullOk k (s.setTf e tf) := by
  refine ⟨h.envs.setEnv rfl rfl rfl, ?_, ?_, cpu_congr h.cpu rfl rfl fun _ => by rw [dirs_setTf]⟩
  · rw [dirs_setTf]
    exact h.mem
  · rw [dirs_setTf]
    exact h.bounded

theorem returned {v : Kernel n} (h : SysInv L nullOk k u) (hret : Returned cur tf u v) :
    SysInv L nullOk k v := by
  rcases hret with rfl | ⟨-, r, rfl⟩
  · exact h
  · exact h.setTf

theorem enter (h : SysInv L nullOk none s)
    (hcur : ∀ cur, s.cpuEnv c = some cur → (s.envs cur).envStatus ≠ .dying) :
    SysInv L nullOk (some c) s :=
  ⟨h.envs.enter hcur, h.mem, h.bounded, h.cpu⟩

theorem exit (h : SysInv L nullOk (some c) s) (hexit : Exit M c s t) : SysInv L nullOk none t := by
  obtain ⟨d, hloads⟩ := hexit.loads
  refine ⟨h.envs.exit hexit, hloads.mem h.mem, ?_, ⟨fun {c' e'} hc' => ?_, fun {c'} hc' => ?_⟩⟩
  · unfold Bounded
    rw [hloads.dirs, hloads.word]
    exact h.bounded
  · by_cases hc : c' = c
    · subst hc
      exact hloads.exec hc'
    · rw [hloads.dirs, hloads.cr3, Function.update_of_ne hc]
      exact h.cpu.exec (hloads.cpu_of_ne hc ▸ hc')
  · by_cases hc : c' = c
    · subst hc
      exact hloads.idle hc'
    · rw [hloads.cr3, Function.update_of_ne hc]
      exact h.cpu.idle (hloads.cpu_of_ne hc ▸ hc')

/-- User code writes to a mapped page only. -/
theorem write_plain {frame : ℕ} (h : MemInv L nullOk none dirs m) (hd : dirs e = some d)
    (hwrite : userWrite m d va = some frame) :
    (pdx va : ℕ) < 955 ∧ (∃ w, mapping m.word dirs e (pdx va) (ptx va) = some w ∧
      Flag w pteW ∧ pteFrame w = frame) ∧ L.counted frame ∧ Plain m.word dirs frame := by
  unfold userWrite userRead at hwrite
  simp only [Option.ite_none_right_eq_some, Option.some.injEq] at hwrite
  obtain ⟨⟨hWpde, hWpte⟩, ⟨hP, hU, hPte, hUpte⟩, rfl⟩ := hwrite
  have hi : (pdx va : ℕ) < 955 := by
    by_contra hge
    have hpde := h.tables.dirKern hd (i := pdx va) (by omega)
    split at hpde
    · rw [hpde] at hWpde
      rw [flag_or, flag_or] at hWpde
      have hpa : ¬ Flag (frame2pa d) pteW := not_flag_frame2pa (low_bits_of_lt (by decide)) d
      rcases hWpde with (hW | hW) | hW
      · exact hpa hW
      · exact absurd hW (by decide)
      · exact absurd hW (by decide)
    · rename_i hne
      rw [hpde] at hP hUpte hWpte
      have htable := L.table_not_pool (i := pdx va) (by omega) hne hP
      rw [h.tables.kern (fun hcounted => hcounted.elim htable.1 htable.2)] at hUpte hWpte
      exact L.user_readonly (by omega) hne hP hUpte hWpte
  have ht : tableAt m.word dirs e (pdx va) = some (pteFrame (m.word d (pdx va))) := by
    rw [tableAt_of_dir hi hd, present_of_flag hP]
    rfl
  have hw := mapping_of_table (j := ptx va) ht
  rw [present_of_flag hPte] at hw
  exact ⟨hi, ⟨_, hw, hWpte, rfl⟩,
    (h.tables.page hw).resolve_right fun hnull => hnull.2.2 hWpte,
    h.tables.separate.plain_of_page hw⟩

/-- A store of user code changes no address space. -/
theorem store {frame : ℕ} {i : PtIdx} (h : SysInv L nullOk k s) (hexec : s.cpuEnv c ≠ none)
    (hwrite : userWrite s.mem (s.mem.cr3 c) va = some frame) :
    SysInv L nullOk k (s.setMem (s.mem.store frame i w)) := by
  obtain ⟨e, he⟩ := Option.ne_none_iff_exists'.mp hexec
  obtain ⟨-, -, hcounted, hplain⟩ := write_plain h.mem (h.cpu.exec he) hwrite
  have hword (q : ℕ) (hq : q ≠ frame) : (s.mem.store frame i w).word q = s.mem.word q :=
    Function.update_of_ne hq _ _
  refine ⟨h.envs.congr rfl rfl fun _ => ⟨rfl, rfl, rfl⟩,
    h.mem.write_plain hplain hcounted rfl hword, fun p hp => ?_,
    cpu_congr h.cpu rfl rfl fun _ => rfl⟩
  have hb := h.bounded p hp
  have hrefs : pageRefs (s.setMem (s.mem.store frame i w)).mem.word s.dirs p =
      pageRefs s.mem.word s.dirs p := pageRefs_congr (hplain.slotRef hword)
  unfold pageLoad at hb ⊢
  rwa [dirs_setMem, hrefs]

/-- One step of the system. -/
theorem step {l : Label n} (h : SysInv L nullOk none s) (hok : OnCall (CallOk M) s l)
    (hsource : nullOk ∨ OnCall (fun _ => SourceOk M) s l) (hstep : Step M s l t) :
    SysInv L nullOk none t := by
  cases hstep.taken with
  | zombie hcur _ hfree hexit => exact (h.zombie hcur hfree).exit hexit
  | @entry c tf _ cur _ _ _ hcur hst hcall hret hexit =>
      have henter : SysInv L nullOk (some c) s := h.enter fun cur' hcur' => by
        rwa [← Option.some.inj (hcur.symm.trans hcur')]
      have hsaved : SysInv L nullOk (some c) (s.setTf cur tf) := henter.setTf
      have hcalled := hsaved.call hcur (hok rfl hcur hst)
        (hsource.imp_right fun hsource => hsource rfl hcur hst) hcall
      exact (hcalled.returned hret).exit hexit
  | tick hidle hexit =>
      exact (h.enter fun cur hcur => by rw [hidle] at hcur; cases hcur).exit hexit
  | fill =>
      exact ⟨h.envs.congr rfl rfl fun _ => ⟨rfl, rfl, rfl⟩, ⟨h.mem.counts, h.mem.tables⟩,
        h.bounded, cpu_congr h.cpu rfl rfl fun _ => rfl⟩
  | store hexec hwrite => exact h.store hexec hwrite

end SysInv

end Jos
