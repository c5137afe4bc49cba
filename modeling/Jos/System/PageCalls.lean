import Jos.System.Ready

/-!
The system calls that edit an address space, from any state in order. What a
call should return is written as one chain of the conditions of its
specification, in their order of precedence, and the code is compared with that.
-/

namespace Jos

open Jos.Lib

variable {n : ℕ} {M : Machine} {L : Layout M} {nullOk : Prop} {c : Fin n}
  {cur e src dst : EnvIdx} {s t u : Kernel n} {d p : ℕ}
  {va srcva dstva perm srcenvid dstenvid : Word}

/-! ### The directory of an environment -/

theorem withPgdir_some {α : Type} {f : ℕ → KM n α} (hd : s.dirs e = some d) :
    withPgdir e f s = f d s := by
  have hd' : (s.envs e).envPgdir = some d := hd
  simp only [withPgdir, Comp.bind_apply, Comp.get_apply, hd']

/-- A live environment has a directory. -/
theorem Ready.dir (h : Ready L nullOk s) (he : (s.envs e).envStatus ≠ .free) :
    ∃ d, s.dirs e = some d :=
  Option.ne_none_iff_exists'.mp fun hnone => he (h.pgdir.mp hnone)

theorem Ready.dir_of_envid (h : Ready L nullOk s) (hcur : (s.envs cur).envStatus ≠ .free)
    {id : Word} {checkperm : Bool} (he : envid2env s cur id checkperm = some e) :
    ∃ d, s.dirs e = some d := by
  rcases envid2env_eq_some he with rfl | ⟨hlive, -⟩
  · exact h.dir hcur
  · exact h.dir hlive

/-! ### sys_page_map -/

/-- The entry that maps `va` in `e`. -/
def Kernel.pteOf (s : Kernel n) (e : EnvIdx) (va : Word) : Option Word :=
  mapping s.mem.word s.dirs e (pdx va) (ptx va)

/-- There is a page table for `va` in `e`, or a free page to make one of. -/
def Kernel.RoomAt (s : Kernel n) (e : EnvIdx) (va : Word) : Prop :=
  tableAt s.mem.word s.dirs e (pdx va) ≠ none ∨ s.mem.pageFreeList ≠ none

instance (s : Kernel n) (e : EnvIdx) (va : Word) : Decidable (s.RoomAt e va) :=
  inferInstanceAs (Decidable (_ ∨ _))

/-- What `sys_page_map` should return. -/
def pageMapCode (s : Kernel n) (cur : EnvIdx) (srcenvid srcva dstenvid dstva perm : Word) : Word :=
  match envid2env s cur srcenvid true, envid2env s cur dstenvid true with
  | some src, some dst =>
      if ¬ (userPage srcva ∧ userPage dstva) ∨ ¬ validPerm perm then -eInval
      else
        match s.pteOf src srcva with
        | none => -eInval
        | some w =>
            if Flag perm pteW ∧ ¬ Flag w pteW then -eInval
            else if ¬ s.RoomAt dst dstva then -eNoMem
            else 0
  | _, _ => -eBadEnv

/-- `va` is mapped in `e` to the frame, with exactly these permissions. -/
def Kernel.MapsTo (s : Kernel n) (e : EnvIdx) (va : Word) (frame : ℕ) (perm : Word) : Prop :=
  ∃ w, s.pteOf e va = some w ∧ pteFrame w = frame ∧ w &&& 0xFFF#32 = perm

/-- `sys_page_map` returns what it should, and where that is 0 the destination
maps the frame of the source. -/
def MapsAsSpecified (M : Machine) (c : Fin n) (cur : EnvIdx) (s : Kernel n)
    (srcenvid srcva dstenvid dstva perm : Word) : Prop :=
  ∃ t, sysPageMap M c cur srcenvid srcva dstenvid dstva perm s =
      .ret (pageMapCode s cur srcenvid srcva dstenvid dstva perm) t ∧
    (pageMapCode s cur srcenvid srcva dstenvid dstva perm = 0 →
      ∃ src dst w, envid2env s cur srcenvid true = some src ∧
        envid2env s cur dstenvid true = some dst ∧ s.pteOf src srcva = some w ∧
        t.MapsTo dst dstva (pteFrame w) perm)

/-- An entry at `va` in `e` that has been made of the null page. -/
def Kernel.NullAt (M : Machine) (s : Kernel n) (e : EnvIdx) (va : Word) : Prop :=
  ¬ NotNull M s.mem s.dirs e va

theorem Kernel.NullAt.room (h : s.NullAt M e va) : s.RoomAt e va := by
  refine Or.inl fun hnone => h fun w hw => ?_
  rw [mapping_of_none hnone] at hw
  cases hw

/-- What goes wrong: an absent entry of a page table is taken for a mapping, or
an entry that was made so is met again. -/
inductive MapFails (M : Machine) (s : Kernel n) (src dst : EnvIdx) (srcva dstva perm : Word) : Prop
  | absent (htable : tableAt s.mem.word s.dirs src (pdx srcva) ≠ none)
      (hnone : s.pteOf src srcva = none) (hW : ¬ Flag perm pteW)
  | source (hnull : s.NullAt M src srcva)
  | destination {w} (hw : s.pteOf src srcva = some w) (hW : Flag perm pteW → Flag w pteW)
      (hnull : s.NullAt M dst dstva)

variable {ds dd : ℕ}

/-- `sys_page_map` after its checks of the arguments. -/
theorem sysPageMap_eq (hsrc : envid2env s cur srcenvid true = some src)
    (hdst : envid2env s cur dstenvid true = some dst) (hva : userPage srcva ∧ userPage dstva)
    (hperm : validPerm perm) (hds : s.dirs src = some ds) (hdd : s.dirs dst = some dd) :
    sysPageMap M c cur srcenvid srcva dstenvid dstva perm s =
      match pageLookup M ds srcva s.mem with
      | .error msg => .stop (.panic msg) s
      | .ok (none, _) => .ret (-eInval) s
      | .ok (some (pt, i), page) =>
          if Flag perm pteW ∧ ¬ Flag (s.mem.word pt i) pteW then .ret (-eInval) s
          else
            match pageInsert M (s.ctx c) dd page dstva perm s.mem with
            | .error msg => .stop (.panic msg) s
            | .ok (r, m) => .ret (if r = -eNoMem then -eNoMem else 0) (s.setMem m) := by
  simp only [sysPageMap, Comp.bind_apply, Comp.get_apply, hsrc, hdst, hva, hperm, and_self,
    not_true_eq_false, if_false, withPgdir_some hds]
  cases hlook : pageLookup M ds srcva s.mem with
  | error msg => simp only [readMem, hlook]
  | ok r =>
      obtain ⟨pte, page⟩ := r
      simp only [readMem, hlook]
      cases pte with
      | none => rfl
      | some a =>
          obtain ⟨pt, i⟩ := a
          dsimp only
          split
          · rfl
          · simp only [withPgdir_some hdd, Comp.bind_apply, runMem]
            cases pageInsert M (s.ctx c) dd page dstva perm s.mem with
            | error msg => rfl
            | ok r =>
                dsimp only
                split <;> rfl

/-- The permissions of the entry that `page_insert` writes. -/
theorem mkPte_low (hlt : perm.toNat < 4096) (hP : perm &&& pteP = pteP) :
    mkPte (frame2pa p) perm &&& 0xFFF#32 = perm := by
  have hlow : ∀ j, 12 ≤ j → (0xFFF#32).getLsbD j = false := low_bits_of_lt (by decide)
  have hframe : frame2pa p &&& 0xFFF#32 = 0#32 := not_not.mp (not_flag_frame2pa hlow p)
  have hlow : perm &&& 0xFFF#32 = perm := by
    apply BitVec.eq_of_toNat_eq
    rw [BitVec.toNat_and]
    exact (Nat.and_two_pow_sub_one_eq_mod perm.toNat 12).trans (Nat.mod_eq_of_lt hlt)
  have hor : perm ||| pteP = perm := by
    apply BitVec.eq_of_getLsbD_eq
    intro j _
    have hbit := congrArg (BitVec.getLsbD · j) hP
    simp only [BitVec.getLsbD_and] at hbit
    rw [BitVec.getLsbD_or, ← hbit]
    cases perm.getLsbD j <;> rfl
  rw [mkPte, BitVec.or_assoc, hor, BitVec.and_comm, BitVec.and_or_distrib_left,
    BitVec.and_comm _ (frame2pa p), BitVec.and_comm _ perm, hframe, hlow, BitVec.zero_or]

theorem Kernel.pteOf_of_table (ht : tableAt s.mem.word s.dirs e (pdx va) = some p) :
    s.pteOf e va = present (s.mem.word p (ptx va)) := mapping_of_table ht

/-- A page that is mapped somewhere is entered at `va`, or cannot be because of
what is there. -/
theorem Ready.insert {x : Ctx n} (h : Ready L nullOk s) {w : Word} (hw : s.pteOf src srcva = some w)
    (hnull : ¬ s.NullAt M src srcva) (hdd : s.dirs dst = some dd) (hi : (pdx dstva : ℕ) < 955)
    (hlt : perm.toNat < 4096) (hP : perm &&& pteP = pteP) :
    (¬ s.RoomAt dst dstva ∧
      pageInsert M x dd (some (pteFrame w)) dstva perm s.mem = .ok (-eNoMem, s.mem)) ∨
    (s.RoomAt dst dstva ∧ s.NullAt M dst dstva ∧
      ∃ msg, pageInsert M x dd (some (pteFrame w)) dstva perm s.mem = .error msg) ∨
    (s.RoomAt dst dstva ∧ ¬ s.NullAt M dst dstva ∧
      ∃ m, pageInsert M x dd (some (pteFrame w)) dstva perm s.mem = .ok (0, m) ∧
        (s.setMem m).MapsTo dst dstva (pteFrame w) perm) := by
  have hframe : pteFrame w < M.npages := not_not.mp hnull w hw
  by_cases hroom : s.RoomAt dst dstva
  · by_cases hdst : s.NullAt M dst dstva
    · exact Or.inr (Or.inl ⟨hroom, hdst, pageInsert_null h.mem hdd hi hroom hdst⟩)
    · obtain ⟨m, hinsert, hmap⟩ := pageInsert_returns (x := x) h.mem hdd hi
        (h.mem.not_on_page hw) hroom (not_not.mp hdst)
      refine Or.inr (Or.inr ⟨hroom, hdst, m, hinsert, _, hmap, ?_, mkPte_low hlt hP⟩)
      exact pteFrame_mkPte (hframe.trans_le (M.npages_le.trans (by norm_num))) hlt
  · have hnone := not_or.mp hroom
    exact Or.inl ⟨hroom, pageInsert_full h.mem hdd hi (not_not.mp hnone.1) (not_not.mp hnone.2)⟩

theorem eInval_ne : (-eInval : Word) ≠ 0 := by decide

theorem eNoMem_ne : (-eNoMem : Word) ≠ 0 := by decide

theorem mapFails_some {w : Word} (hw : s.pteOf src srcva = some w) :
    MapFails M s src dst srcva dstva perm ↔ s.NullAt M src srcva ∨
      (Flag perm pteW → Flag w pteW) ∧ s.NullAt M dst dstva := by
  constructor
  · intro h
    cases h with
    | absent _ hnone =>
        rw [hw] at hnone
        cases hnone
    | source hnull => exact Or.inl hnull
    | destination hv hW hnull =>
        obtain rfl := Option.some.inj (hw.symm.trans hv)
        exact Or.inr ⟨hW, hnull⟩
  · rintro (hnull | ⟨hW, hnull⟩)
    · exact .source hnull
    · exact .destination hw hW hnull

theorem mapFails_none (hnone : s.pteOf src srcva = none) :
    MapFails M s src dst srcva dstva perm ↔
      tableAt s.mem.word s.dirs src (pdx srcva) ≠ none ∧ ¬ Flag perm pteW := by
  constructor
  · intro h
    cases h with
    | absent htable _ hW => exact ⟨htable, hW⟩
    | source hnull =>
        refine absurd (fun w hw => ?_) hnull
        rw [show mapping _ _ src _ _ = none from hnone] at hw
        cases hw
    | destination hw =>
        rw [hnone] at hw
        cases hw
  · exact fun ⟨htable, hW⟩ => .absent htable hnone hW

/-- The code once the arguments have passed the checks. -/
theorem pageMapCode_checked (hsrc : envid2env s cur srcenvid true = some src)
    (hdst : envid2env s cur dstenvid true = some dst) (hva : userPage srcva ∧ userPage dstva)
    (hperm : validPerm perm) :
    pageMapCode s cur srcenvid srcva dstenvid dstva perm =
      match s.pteOf src srcva with
      | none => -eInval
      | some w =>
          if Flag perm pteW ∧ ¬ Flag w pteW then -eInval
          else if ¬ s.RoomAt dst dstva then -eNoMem
          else 0 := by
  unfold pageMapCode
  rw [hsrc, hdst]
  exact if_neg (by simp [hva, hperm])

/-- The specification, once the arguments have passed the checks. -/
theorem maps_checked (h : Ready L nullOk s) (hsrc : envid2env s cur srcenvid true = some src)
    (hdst : envid2env s cur dstenvid true = some dst) (hva : userPage srcva ∧ userPage dstva)
    (hperm : validPerm perm) (hds : s.dirs src = some ds) (hdd : s.dirs dst = some dd) :
    MapsAsSpecified M c cur s srcenvid srcva dstenvid dstva perm ↔
      ¬ MapFails M s src dst srcva dstva perm := by
  have hsi := pdx_userPage hva.1
  have hdi := pdx_userPage hva.2
  have hmap : mapping s.mem.word s.dirs src (pdx srcva) (ptx srcva) = s.pteOf src srcva := rfl
  unfold MapsAsSpecified
  rw [sysPageMap_eq hsrc hdst hva hperm hds hdd, pageMapCode_checked hsrc hdst hva hperm]
  by_cases hnull : s.NullAt M src srcva
  · obtain ⟨msg, hlook⟩ := pageLookup_outside (Tidy.not_inMemory hds hsi hnull)
    rw [hlook]
    exact iff_of_false (fun ⟨t, ht, _⟩ => by cases ht) (fun hok => hok (.source hnull))
  · rw [pageLookup_returns h.mem hds hsi (not_not.mp hnull), hmap]
    cases ht : tableAt s.mem.word s.dirs src (pdx srcva) with
    | none =>
        have hpte : s.pteOf src srcva = none := mapping_of_none ht
        rw [mapFails_none hpte, hpte]
        exact iff_of_true ⟨s, rfl, fun h0 => absurd h0 eInval_ne⟩ fun hfail => hfail.1 ht
    | some pt =>
        have hpte : s.pteOf src srcva = present (s.mem.word pt (ptx srcva)) :=
          Kernel.pteOf_of_table ht
        by_cases hP : Flag (s.mem.word pt (ptx srcva)) pteP
        · rw [present_of_flag hP] at hpte
          rw [mapFails_some hpte, hpte]
          dsimp only [Option.map_some]
          by_cases hW : Flag perm pteW ∧ ¬ Flag (s.mem.word pt (ptx srcva)) pteW
          · rw [if_pos hW, if_pos hW]
            refine iff_of_true ⟨s, rfl, fun h0 => absurd h0 eInval_ne⟩ ?_
            rintro (hsource | ⟨hWw, -⟩)
            · exact hnull hsource
            · exact hW.2 (hWw hW.1)
          · rw [if_neg hW, if_neg hW]
            have hWw : Flag perm pteW → Flag (s.mem.word pt (ptx srcva)) pteW :=
              fun hpw => not_not.mp fun hww => hW ⟨hpw, hww⟩
            rw [or_iff_right hnull, and_iff_right hWw]
            rcases h.insert (x := s.ctx c) hpte hnull hdd hdi (perm_lt_of_valid hperm)
                hperm.2.1 with
              ⟨hroom, hinsert⟩ | ⟨-, hdnull, msg, hinsert⟩ | ⟨hroom, hdnull, m, hinsert, hto⟩
            · rw [hinsert, if_pos hroom]
              exact iff_of_true ⟨_, rfl, fun h0 => absurd h0 eNoMem_ne⟩
                fun hdnull => hroom hdnull.room
            · rw [hinsert]
              exact iff_of_false (fun ⟨t, ht, _⟩ => by cases ht) fun hok => hok hdnull
            · rw [hinsert, if_neg (not_not.mpr hroom)]
              exact iff_of_true ⟨_, rfl, fun _ => ⟨src, dst, _, hsrc, hdst, hpte, hto⟩⟩ hdnull
        · -- the entry is not present, but the walk does return its address
          rw [present_of_not_flag hP] at hpte
          have hzero := h.mem.tables.absent ht _ hP
          have htable : tableAt s.mem.word s.dirs src (pdx srcva) ≠ none := by simp [ht]
          rw [mapFails_none hpte, and_iff_right htable, not_not, hpte]
          dsimp only [Option.map_some, Option.map_none]
          by_cases hW : Flag perm pteW
          · have hnot : ¬ Flag (s.mem.word pt (ptx srcva)) pteW := by
              rw [hzero]
              exact not_flag_zero _
            rw [if_pos ⟨hW, hnot⟩]
            exact iff_of_true ⟨s, rfl, fun h0 => absurd h0 eInval_ne⟩ hW
          · rw [if_neg (fun hboth => hW hboth.1)]
            refine iff_of_false (fun ⟨t, hret, _⟩ => ?_) hW
            cases hinsert : pageInsert M (s.ctx c) dd none dstva perm s.mem with
            | error msg =>
                rw [hinsert] at hret
                cases hret
            | ok r =>
                rw [hinsert] at hret
                injection hret with hcode
                split at hcode <;> exact absurd hcode (by decide)

/-- `sys_page_map` does what it should unless its arguments pass the checks and
one of the three mishaps occurs. -/
theorem page_map_spec (h : Ready L nullOk s) (hcur : (s.envs cur).envStatus ≠ .free) :
    MapsAsSpecified M c cur s srcenvid srcva dstenvid dstva perm ↔
      ∀ src dst, envid2env s cur srcenvid true = some src →
        envid2env s cur dstenvid true = some dst → userPage srcva ∧ userPage dstva →
        validPerm perm → ¬ MapFails M s src dst srcva dstva perm := by
  cases hsrc : envid2env s cur srcenvid true with
  | none =>
      refine iff_of_true ⟨s, ?_, fun h0 => ?_⟩ fun _ _ hs => by cases hs
      · simp only [sysPageMap, pageMapCode, Comp.bind_apply, Comp.get_apply, hsrc]
        rfl
      · simp only [pageMapCode, hsrc] at h0
        exact absurd h0 (by decide)
  | some src =>
      cases hdst : envid2env s cur dstenvid true with
      | none =>
          refine iff_of_true ⟨s, ?_, fun h0 => ?_⟩ fun _ _ _ hd => by cases hd
          · simp only [sysPageMap, pageMapCode, Comp.bind_apply, Comp.get_apply, hsrc, hdst]
            rfl
          · simp only [pageMapCode, hsrc, hdst] at h0
            exact absurd h0 (by decide)
      | some dst =>
          by_cases hok : (userPage srcva ∧ userPage dstva) ∧ validPerm perm
          · obtain ⟨ds, hds⟩ := h.dir_of_envid hcur hsrc
            obtain ⟨dd, hdd⟩ := h.dir_of_envid hcur hdst
            rw [maps_checked h hsrc hdst hok.1 hok.2 hds hdd]
            constructor
            · rintro hnot src' dst' hs hd - -
              obtain rfl := Option.some.inj hs
              obtain rfl := Option.some.inj hd
              exact hnot
            · exact fun hall => hall src dst rfl rfl hok.1 hok.2
          · have hcode : pageMapCode s cur srcenvid srcva dstenvid dstva perm = -eInval := by
              unfold pageMapCode
              rw [hsrc, hdst]
              exact if_pos (not_and_or.mp hok)
            rw [MapsAsSpecified, hcode]
            refine iff_of_true ⟨s, ?_, fun h0 => absurd h0 eInval_ne⟩
              fun _ _ _ _ hva hperm => absurd ⟨hva, hperm⟩ hok
            simp only [sysPageMap, Comp.bind_apply, Comp.get_apply, hsrc, hdst]
            by_cases hva : userPage srcva ∧ userPage dstva
            · rw [if_neg (not_not.mpr hva), if_pos fun hperm => hok ⟨hva, hperm⟩]
              rfl
            · rw [if_pos hva]
              rfl

/-- The page of the stack, and the page below it, which is not mapped but has
the same page table. -/
def stackPage : Word := ustacktop - 0x1000#32

def belowStack : Word := ustacktop - 0x2000#32

/-- The first environment maps its stack once more. -/
theorem page_map_spec_stack : ∃ s t : Kernel 1, Booted sampleLayout 0 s ∧
    Run (Step sampleMachine) (OnCall (CallOk sampleMachine)) s t ∧ t.cpuEnv 0 = some 0 ∧
    MapsAsSpecified sampleMachine 0 0 t 0 stackPage 0 0x800000#32 7#32 := by
  obtain ⟨s, t, hboot, hrun, hready, htest⟩ := sample_ready (0 : Fin 1) [.tick 0]
    (fun t => decide (t.cpuEnv 0 = some 0 ∧
      (t.envs 0).envStatus = .running ∧ t.pteOf 0 0x800000#32 = none) &&
      (t.pteOf 0 stackPage).any fun w => decide (pteFrame w < 2048)) (by decide +kernel)
  obtain ⟨htest, hstack⟩ := Bool.and_eq_true_iff.mp htest
  obtain ⟨hcpu, hst, hnone⟩ := of_decide_eq_true htest
  obtain ⟨w, hw, hlt⟩ := (Option.any_eq_true _ _).mp hstack
  have hsource : ¬ t.NullAt sampleMachine 0 stackPage := not_not.mpr fun v hv => by
    obtain rfl := Option.some.inj (hw.symm.trans hv)
    exact of_decide_eq_true hlt
  have hdest : ¬ t.NullAt sampleMachine 0 0x800000#32 := not_not.mpr fun v hv => by
    cases hnone.symm.trans hv
  refine ⟨s, t, hboot, hrun, hcpu, (page_map_spec hready (by simp [hst])).mpr
    fun src dst hsrc hdst _ _ hfail => ?_⟩
  obtain rfl : 0 = src := Option.some.inj hsrc
  obtain rfl : 0 = dst := Option.some.inj hdst
  exact ((mapFails_some hw).mp hfail).elim hsource fun hnull => hdest hnull.2

/-- It asks for a page that is not mapped, and the kernel faults. -/
theorem not_page_map_spec : ¬ ∀ (s t : Kernel 1) (cur : EnvIdx), Booted sampleLayout 0 s →
    Run (Step sampleMachine) (fun _ _ => True) s t → t.cpuEnv 0 = some cur →
    ∀ srcenvid srcva dstenvid dstva perm,
      MapsAsSpecified sampleMachine 0 cur t srcenvid srcva dstenvid dstva perm := by
  intro h
  obtain ⟨s, t, hboot, hrun, htest⟩ := sample_run (0 : Fin 1) (fun _ _ => true) [.tick 0]
    (fun t => decide (t.cpuEnv 0 = some 0) &&
      !(sysPageMap sampleMachine 0 0 0 belowStack 0 0x800000#32 5#32 t).returns fun _ _ => true)
    (fun _ => trivial) (by decide +kernel)
  obtain ⟨hcpu, hstop⟩ := Bool.and_eq_true_iff.mp htest
  obtain ⟨u, hret, -⟩ := h s t 0 hboot hrun (of_decide_eq_true hcpu) 0 belowStack 0 0x800000#32
    5#32
  rw [hret] at hstop
  cases hstop

/-! ### Errors -/

/-- The address spaces and the allocator are as before; pages on the free list
may have other contents. -/
structure SameTables (s t : Kernel n) : Prop where
  dirs : t.dirs = s.dirs
  dir : ∀ {e d}, s.dirs e = some d → t.mem.word d = s.mem.word d
  table : ∀ {e i d}, tableAt s.mem.word s.dirs e i = some d → t.mem.word d = s.mem.word d
  pages : t.mem.pages = s.mem.pages
  list : t.mem.pageFreeList = s.mem.pageFreeList
  words : ∀ f, ¬ s.mem.pool.On f → t.mem.word f = s.mem.word f

theorem SameTables.refl (s : Kernel n) : SameTables s s :=
  ⟨rfl, fun _ => rfl, fun _ => rfl, rfl, rfl, fun _ _ => rfl⟩

/-- Giving back the page that was just allocated undoes the allocation. -/
theorem alloc_free {m m₁ m₂ : Mem n} (halloc : pageAlloc M true m = .ok (some p, m₁))
    (hfree : pageFree p m₁ = .ok m₂) : m₂.pages = m.pages ∧ m₂.pageFreeList = m.pageFreeList ∧
      ∀ f, f ≠ pgnum (frame2pa p) → m₂.word f = m.word f := by
  obtain ⟨hhead, hm₁⟩ := pageAlloc_some halloc
  rw [if_pos rfl] at hm₁
  have hm₂ : m₂ = (m₁.setLink p m₁.pageFreeList).setFreeList (some p) := by
    unfold pageFree at hfree
    split at hfree
    · cases hfree
    · split at hfree
      · cases hfree
      · exact (Except.ok.inj hfree).symm
  rw [hm₂, hm₁]
  refine ⟨?_, hhead.symm, fun f hf => Function.update_of_ne hf _ _⟩
  simp [Mem.setFreeList, Mem.setLink, Mem.fill, Mem.pop]

/-- Memory that differs from memory in order on free pages only. -/
theorem MemInv.sameTables {m : Mem n} (h : MemInv L nullOk none s.dirs s.mem)
    (hpages : m.pages = s.mem.pages) (hlist : m.pageFreeList = s.mem.pageFreeList)
    (hword : ∀ f, ¬ s.mem.pool.On f → m.word f = s.mem.word f) : SameTables s (s.setMem m) where
  dirs := rfl
  dir {e d} hd := hword d (h.not_on_of_slot (x := .pgdir e) hd)
  table {e i d} ht := hword d (h.not_on_of_slot (x := .table e i) ht)
  pages := hpages
  list := hlist
  words := hword

/-- A negative result comes with the address spaces and the allocator as
before. -/
def OnError (s : Kernel n) (r : Word) (t : Kernel n) : Prop := r.slt 0#32 = true → SameTables s t

theorem onError_refl (s : Kernel n) (r : Word) : OnError s r s := fun _ => .refl s

theorem onError_zero (s t : Kernel n) : OnError s 0 t := fun h => absurd h (by decide)

theorem sysPageAlloc_onError (h : MemInv L nullOk none s.dirs s.mem) (envid : Word) :
    Comp.wp (sysPageAlloc M c cur envid va perm) (OnError s) (fun _ => True) (fun _ => True) s := by
  unfold sysPageAlloc withPgdir
  simp only [Comp.wp_bind, Comp.wp_get]
  cases envid2env s cur envid true with
  | none => exact (Comp.wp_pure _).mpr (onError_refl s _)
  | some e =>
      simp only [Comp.wp_ite, Comp.wp_pure, Comp.wp_bind, wp_runMem]
      refine ⟨fun _ => onError_refl s _, fun _ => ⟨fun page m₁ halloc => ?_, fun _ _ => trivial⟩⟩
      cases page with
      | none =>
          obtain ⟨-, rfl⟩ := pageAlloc_none halloc
          exact (Comp.wp_pure _).mpr (onError_refl s _)
      | some page =>
          simp only [Comp.wp_bind, Comp.wp_get]
          split
          · exact (Comp.wp_stop _).mpr trivial
          · simp only [Comp.wp_bind, wp_runMem, Comp.wp_ite, wp_changeMem, Comp.wp_pure]
            refine ⟨fun r m₂ hinsert => ⟨?_, fun _ => onError_zero s _⟩, fun _ _ => trivial⟩
            rintro rfl
            refine ⟨fun m₃ hfree => ?_, fun _ _ => trivial⟩
            obtain ⟨-, rfl⟩ := (pageInsert_ret hinsert).resolve_left (by decide)
            obtain ⟨hpages, hlist, hword⟩ := alloc_free halloc hfree
            have hon : s.mem.pool.On page := h.counts.on_head (pageAlloc_some halloc).1
            have hframe : pgnum (frame2pa page) = page :=
              pgnum_frame2pa (L.frame_lt (h.refs_of_on hon).1)
            refine fun _ => h.sameTables hpages hlist fun f hf => hword f ?_
            rintro rfl
            exact hf (hframe.symm ▸ hon)

theorem sysPageMap_onError :
    Comp.wp (sysPageMap M c cur srcenvid srcva dstenvid dstva perm) (OnError s) (fun _ => True)
      (fun _ => True) s := by
  unfold sysPageMap withPgdir
  simp only [Comp.wp_bind, Comp.wp_get]
  cases envid2env s cur srcenvid true with
  | none => exact (Comp.wp_pure _).mpr (onError_refl s _)
  | some src =>
      cases envid2env s cur dstenvid true with
      | none => exact (Comp.wp_pure _).mpr (onError_refl s _)
      | some dst =>
          simp only [Comp.wp_ite, Comp.wp_pure, Comp.wp_bind, Comp.wp_get]
          refine ⟨fun _ => onError_refl s _, fun _ => ⟨fun _ => onError_refl s _, fun _ => ?_⟩⟩
          cases (s.envs src).envPgdir with
          | none => exact (Comp.wp_stop _).mpr trivial
          | some ds =>
              simp only [Comp.wp_bind, wp_readMem, Comp.wp_get]
              refine ⟨fun look _ => ?_, fun _ _ => trivial⟩
              obtain ⟨pte, page⟩ := look
              cases pte with
              | none => exact (Comp.wp_pure _).mpr (onError_refl s _)
              | some a =>
                  simp only [Comp.wp_ite, Comp.wp_pure, Comp.wp_bind, Comp.wp_get]
                  refine ⟨fun _ => onError_refl s _, fun _ => ?_⟩
                  cases (s.envs dst).envPgdir with
                  | none => exact (Comp.wp_stop _).mpr trivial
                  | some dd =>
                      simp only [Comp.wp_bind, wp_runMem, Comp.wp_ite, Comp.wp_pure]
                      refine ⟨fun r m hinsert => ⟨?_, fun _ => onError_zero s _⟩,
                        fun _ _ => trivial⟩
                      rintro rfl
                      obtain ⟨-, rfl⟩ := (pageInsert_ret hinsert).resolve_left (by decide)
                      exact onError_refl s _

theorem sysPageUnmap_onError (envid : Word) :
    Comp.wp (sysPageUnmap M c cur envid va) (OnError s) (fun _ => True) (fun _ => True) s := by
  unfold sysPageUnmap withPgdir
  simp only [Comp.wp_bind, Comp.wp_get]
  cases envid2env s cur envid true with
  | none => exact (Comp.wp_pure _).mpr (onError_refl s _)
  | some e =>
      simp only [Comp.wp_ite, Comp.wp_pure, Comp.wp_bind, Comp.wp_get]
      refine ⟨fun _ => onError_refl s _, fun _ => ?_⟩
      cases (s.envs e).envPgdir with
      | none => exact (Comp.wp_stop _).mpr trivial
      | some d =>
          simp only [Comp.wp_bind, wp_changeMem, Comp.wp_pure]
          exact ⟨fun m _ => onError_zero s _, fun _ _ => trivial⟩

/-- The page calls change nothing when they fail. -/
theorem page_calls_atomic (h : MemInv L nullOk none s.dirs s.mem) {r : Word}
    (hr : r.slt 0#32 = true)
    (hrun : (∃ envid va perm, sysPageAlloc M c cur envid va perm s = .ret r t) ∨
      (∃ srcenvid srcva dstenvid dstva perm,
        sysPageMap M c cur srcenvid srcva dstenvid dstva perm s = .ret r t) ∨
      ∃ envid va, sysPageUnmap M c cur envid va s = .ret r t) : SameTables s t := by
  rcases hrun with ⟨envid, va, perm, hrun⟩ | ⟨srcenvid, srcva, dstenvid, dstva, perm, hrun⟩ |
    ⟨envid, va, hrun⟩
  · exact (sysPageAlloc_onError h envid).ret hrun hr
  · exact sysPageMap_onError.ret hrun hr
  · exact (sysPageUnmap_onError envid).ret hrun hr

/-- The first environment allocates pages until there is one left. -/
def exhaust : List (Label 1) :=
  [.tick 0, .trap 0 (syscallTf 4 0 belowStack 7 0 0) 0,
    .trap 0 (syscallTf 4 0 (ustacktop - 0x3000#32) 7 0 0) 0]

/-- Then it allocates one more where it has no page table. -/
theorem page_calls_atomic_last : ∃ s t u : Kernel 1, Booted smallLayout 0 s ∧
    Run (Step smallMachine) (OnCall (CallOk smallMachine)) s t ∧ t.mem.pageFreeList ≠ none ∧
    sysPageAlloc smallMachine 0 0 0 0x800000#32 7#32 t = .ret (-eNoMem) u ∧ SameTables t u := by
  obtain ⟨s, t, hboot, hrun, hready, htest⟩ := small_ready (0 : Fin 1) exhaust
    (fun t => decide (t.mem.pageFreeList ≠ none) &&
      (sysPageAlloc smallMachine 0 0 0 0x800000#32 7#32 t).returns fun r _ => decide (r = -eNoMem))
    (by decide +kernel)
  obtain ⟨hfree, hret⟩ := Bool.and_eq_true_iff.mp htest
  obtain ⟨r, u, hcall, hr⟩ := Outcome.returns_eq_true.mp hret
  obtain rfl := of_decide_eq_true hr
  exact ⟨s, t, u, hboot, hrun, of_decide_eq_true hfree, hcall,
    page_calls_atomic hready.mem.toMemInv (by decide) (Or.inl ⟨_, _, _, hcall⟩)⟩

end Jos
