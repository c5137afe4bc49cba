import Jos.System.PageCalls

/-!
Page transfers by `sys_ipc_try_send`, compared with what the call should do in
the terms of `sys_page_map`: the same permissions and the same notion of a
mapped page.
-/

namespace Jos

open Jos.Lib

variable {n : ℕ} {M : Machine} {L : Layout M} {nullOk : Prop} {c : Fin n}
  {cur e target : EnvIdx} {s t u : Kernel n} {ds dt : ℕ} {envid value srcva perm w : Word}

/-- The test of `perm` in `sys_ipc_try_send`: one of the two bits will do. -/
def loosePerm (perm : Word) : Prop := Flag perm (pteU ||| pteP) ∧ ¬ Flag perm (~~~pteSyscall)

instance (perm : Word) : Decidable (loosePerm perm) := inferInstanceAs (Decidable (_ ∧ _))

theorem loosePerm_of_valid (h : validPerm perm) : loosePerm perm := by
  have hU : Flag pteU (pteU ||| pteP) := by decide
  exact ⟨flag_of_and_eq h.1 hU, fun hflag => hflag h.2.2⟩

/-- A page is to be sent to `target`, which waits for one. -/
structure Transfer (s : Kernel n) (cur : EnvIdx) (envid srcva : Word) (target : EnvIdx) :
    Prop where
  found : envid2env s cur envid false = some target
  recving : (s.envs target).envIpcRecving = true
  src : srcva < utop
  dst : (s.envs target).envIpcDstva < utop

/-- The end of a page transfer, with `page` found at the source. -/
def deliverPage (M : Machine) (c : Fin n) (cur target : EnvIdx) (dt : ℕ) (page : Option ℕ)
    (value perm : Word) (s : Kernel n) : Outcome (Kernel n) Stop Word :=
  match pageInsert M ((s.ipcPerm0 target).ctx c) dt page (s.envs target).envIpcDstva perm
      s.mem with
  | .error msg => .stop (.panic msg) (s.ipcPerm0 target)
  | .ok (r, m) =>
      if r = -eNoMem then .ret (-eNoMem) ((s.ipcPerm0 target).setMem m)
      else .ret 0 (((s.ipcPerm0 target).setMem m).delivered cur target value perm page)

/-- `sys_ipc_try_send` once the receiver has been found. -/
theorem sysIpcTrySend_eq (h : Transfer s cur envid srcva target)
    (halign : (s.envs target).envIpcDstva % 0x1000#32 = 0)
    (hds : s.dirs cur = some ds) (hdt : s.dirs target = some dt) :
    sysIpcTrySend M c cur envid value srcva perm s =
      match pageLookup M ds srcva s.mem with
      | .error msg => .stop (.panic msg) (s.ipcPerm0 target)
      | .ok (none, _) => .ret (-eInval) (s.ipcPerm0 target)
      | .ok (some (pt, i), page) =>
          if srcva % 0x1000#32 ≠ 0 ∨ (Flag perm pteW ∧ ¬ Flag (s.mem.word pt i) pteW) ∨
              ¬ loosePerm perm then
            .ret (-eInval) (s.ipcPerm0 target)
          else deliverPage M c cur target dt page value perm s := by
  have hds' : (s.ipcPerm0 target).dirs cur = some ds := by rwa [dirs_ipcPerm0]
  have hdt' : (s.ipcPerm0 target).dirs target = some dt := by rwa [dirs_ipcPerm0]
  have hmem : (s.ipcPerm0 target).mem = s.mem := rfl
  simp only [sysIpcTrySend, Comp.bind_apply, Comp.get_apply, h.found]
  rw [if_neg (not_not.mpr h.recving)]
  simp only [Comp.bind_apply, Comp.modify_apply]
  change (if srcva < utop ∧ (s.envs target).envIpcDstva < utop then _ else _ : KM n Word)
    (s.ipcPerm0 target) = _
  rw [if_pos ⟨h.src, h.dst⟩, withPgdir_some hds']
  simp only [Comp.bind_apply, Comp.get_apply]
  cases hlook : pageLookup M ds srcva s.mem with
  | error msg => simp only [readMem, hmem, hlook]
  | ok r =>
      obtain ⟨pte, page⟩ := r
      simp only [readMem, hmem, hlook]
      cases pte with
      | none => rfl
      | some a =>
          obtain ⟨pt, i⟩ := a
          have hiff : (srcva % 0x1000#32 ≠ 0 ∨ (Flag perm pteW ∧ ¬ Flag (s.mem.word pt i) pteW) ∨
              ¬ Flag perm (pteU ||| pteP) ∨ Flag perm (~~~pteSyscall)) ↔
              (srcva % 0x1000#32 ≠ 0 ∨ (Flag perm pteW ∧ ¬ Flag (s.mem.word pt i) pteW) ∨
                ¬ loosePerm perm) := by
            unfold loosePerm
            tauto
          dsimp only
          by_cases hbad : srcva % 0x1000#32 ≠ 0 ∨
              (Flag perm pteW ∧ ¬ Flag (s.mem.word pt i) pteW) ∨ ¬ loosePerm perm
          · rw [if_pos (hiff.mpr hbad), if_pos hbad]
            rfl
          · rw [if_neg (hiff.not.mpr hbad), if_neg hbad, if_neg (not_not.mpr halign)]
            simp only [withPgdir_some hdt', Comp.bind_apply, runMem, deliverPage]
            rw [hmem]
            cases pageInsert M ((s.ipcPerm0 target).ctx c) dt page
                (s.envs target).envIpcDstva perm s.mem with
            | error msg => rfl
            | ok r =>
                dsimp only
                split <;> rfl

/-- The checks of the address, the permissions and the entry fail. -/
def Rejected (s : Kernel n) (cur : EnvIdx) (srcva perm : Word) : Prop :=
  srcva % 0x1000#32 ≠ 0 ∨
    (Flag perm pteW ∧ ∀ w, s.pteOf cur srcva = some w → ¬ Flag w pteW) ∨ ¬ loosePerm perm

/-! ### The three ways of the call -/

namespace Transfer

theorem dirs (ht : Transfer s cur envid srcva target) (h : Ready L nullOk s)
    (hcur : (s.envs cur).envStatus ≠ .free) :
    ∃ ds dt, s.dirs cur = some ds ∧ s.dirs target = some dt := by
  obtain ⟨ds, hds⟩ := h.dir hcur
  obtain ⟨dt, hdt⟩ := h.dir_of_envid hcur ht.found
  exact ⟨ds, dt, hds, hdt⟩

/-- An entry made of the null page stops the machine. -/
theorem null (ht : Transfer s cur envid srcva target) (h : Ready L nullOk s)
    (hds : s.dirs cur = some ds) (hdt : s.dirs target = some dt) (hnull : s.NullAt M cur srcva) :
    ∃ msg, sysIpcTrySend M c cur envid value srcva perm s =
      .stop (.panic msg) (s.ipcPerm0 target) := by
  obtain ⟨msg, hlook⟩ :=
    pageLookup_outside (Tidy.not_inMemory hds (pdx_lt_of_lt_utop ht.src) hnull)
  refine ⟨msg, ?_⟩
  rw [sysIpcTrySend_eq ht (h.awaits _ ht.recving ht.dst) hds hdt, hlook]

/-- The entry that the walk finds has the write flag if the page is mapped so. -/
theorem writable_iff {pt : ℕ} (h : Ready L nullOk s)
    (hpt : tableAt s.mem.word s.dirs cur (pdx srcva) = some pt) :
    ¬ Flag (s.mem.word pt (ptx srcva)) pteW ↔
      ∀ w, s.pteOf cur srcva = some w → ¬ Flag w pteW := by
  rw [Kernel.pteOf_of_table hpt]
  by_cases hP : Flag (s.mem.word pt (ptx srcva)) pteP
  · simp [present_of_flag hP]
  · rw [h.mem.tables.absent hpt _ hP]
    simp

theorem rejected (ht : Transfer s cur envid srcva target) (h : Ready L nullOk s)
    (hds : s.dirs cur = some ds) (hdt : s.dirs target = some dt)
    (hnull : ¬ s.NullAt M cur srcva)
    (hrej : tableAt s.mem.word s.dirs cur (pdx srcva) = none ∨ Rejected s cur srcva perm) :
    sysIpcTrySend M c cur envid value srcva perm s = .ret (-eInval) (s.ipcPerm0 target) := by
  rw [sysIpcTrySend_eq ht (h.awaits _ ht.recving ht.dst) hds hdt,
    pageLookup_returns h.mem hds (pdx_lt_of_lt_utop ht.src) (not_not.mp hnull)]
  cases hpt : tableAt s.mem.word s.dirs cur (pdx srcva) with
  | none => rfl
  | some pt =>
      have hrej := hrej.resolve_left (by simp [hpt])
      unfold Rejected at hrej
      rw [← writable_iff h hpt] at hrej
      exact if_pos hrej

theorem accepted (ht : Transfer s cur envid srcva target) (h : Ready L nullOk s)
    (hds : s.dirs cur = some ds) (hdt : s.dirs target = some dt)
    (hnull : ¬ s.NullAt M cur srcva)
    (htable : tableAt s.mem.word s.dirs cur (pdx srcva) ≠ none)
    (hrej : ¬ Rejected s cur srcva perm) :
    sysIpcTrySend M c cur envid value srcva perm s =
      deliverPage M c cur target dt ((s.pteOf cur srcva).map pteFrame) value perm s := by
  obtain ⟨pt, hpt⟩ := Option.ne_none_iff_exists'.mp htable
  rw [sysIpcTrySend_eq ht (h.awaits _ ht.recving ht.dst) hds hdt,
    pageLookup_returns h.mem hds (pdx_lt_of_lt_utop ht.src) (not_not.mp hnull), hpt]
  unfold Rejected at hrej
  rw [← writable_iff h hpt] at hrej
  exact if_neg hrej

end Transfer

/-! ### The specification -/

/-- What `sys_ipc_try_send` should return for a page transfer. -/
def sendCode (s : Kernel n) (cur target : EnvIdx) (srcva perm : Word) : Word :=
  if srcva % 0x1000#32 ≠ 0 ∨ ¬ validPerm perm then -eInval
  else
    match s.pteOf cur srcva with
    | none => -eInval
    | some w =>
        if Flag perm pteW ∧ ¬ Flag w pteW then -eInval
        else if ¬ s.RoomAt target (s.envs target).envIpcDstva then -eNoMem
        else 0

/-- `sys_ipc_try_send` returns what it should, and where that is 0 the target
maps the frame of the caller. -/
def SendsAsSpecified (M : Machine) (c : Fin n) (cur target : EnvIdx) (s : Kernel n)
    (envid value srcva perm : Word) : Prop :=
  ∃ t, sysIpcTrySend M c cur envid value srcva perm s = .ret (sendCode s cur target srcva perm) t ∧
    (sendCode s cur target srcva perm = 0 → ∃ w, s.pteOf cur srcva = some w ∧
      t.MapsTo target (s.envs target).envIpcDstva (pteFrame w) perm ∧
      (t.envs target).envIpcPerm = perm)

/-- What goes wrong: one of the bits `PTE_U` and `PTE_P` is accepted for both,
an absent entry of a page table is taken for a mapping, or an entry that was
made so is met again. -/
inductive SendFails (M : Machine) (s : Kernel n) (cur target : EnvIdx) (srcva perm : Word) : Prop
  | perm {v} (hv : s.pteOf cur srcva = some v) (hrej : ¬ Rejected s cur srcva perm)
      (hperm : ¬ validPerm perm)
  | absent (htable : tableAt s.mem.word s.dirs cur (pdx srcva) ≠ none)
      (hnone : s.pteOf cur srcva = none) (hrej : ¬ Rejected s cur srcva perm)
  | source (hnull : s.NullAt M cur srcva)
  | destination {v} (hv : s.pteOf cur srcva = some v) (hrej : ¬ Rejected s cur srcva perm)
      (hnull : s.NullAt M target (s.envs target).envIpcDstva)

theorem deliverPage_ne (page : Option ℕ) :
    deliverPage M c cur target dt page value perm s ≠ .ret (-eInval) t := by
  unfold deliverPage
  cases pageInsert M ((s.ipcPerm0 target).ctx c) dt page (s.envs target).envIpcDstva perm
      s.mem with
  | error msg => nofun
  | ok r =>
      obtain ⟨r, m⟩ := r
      dsimp only
      split
      · intro h
        injection h with h
        exact absurd h (by decide)
      · intro h
        injection h with h
        exact absurd h (by decide)

theorem pteOf_ne_none_table {va : Word} (hw : s.pteOf e va = some w) :
    tableAt s.mem.word s.dirs e (pdx va) ≠ none := fun hnone => by
  have hnone' : s.pteOf e va = none := mapping_of_none hnone
  rw [hnone'] at hw
  cases hw

theorem sendCode_rejected (h : s.pteOf cur srcva = none ∨ Rejected s cur srcva perm) :
    sendCode s cur target srcva perm = -eInval := by
  unfold sendCode
  split
  · rfl
  · rename_i hok
    rw [not_or, not_not, not_not] at hok
    cases hw : s.pteOf cur srcva with
    | none => rfl
    | some w =>
        rcases h with hnone | halign | ⟨hW, hno⟩ | hloose
        · rw [hw] at hnone
          cases hnone
        · exact absurd hok.1 halign
        · exact if_pos ⟨hW, hno w hw⟩
        · exact absurd (loosePerm_of_valid hok.2) hloose

theorem not_sendFails (hnull : ¬ s.NullAt M cur srcva)
    (h : tableAt s.mem.word s.dirs cur (pdx srcva) = none ∨ Rejected s cur srcva perm) :
    ¬ SendFails M s cur target srcva perm := by
  intro hfail
  cases hfail with
  | perm hw hrej => exact h.elim (pteOf_ne_none_table hw) hrej
  | absent htable _ hrej => exact h.elim htable hrej
  | source hnull' => exact hnull hnull'
  | destination hw hrej => exact h.elim (pteOf_ne_none_table hw) hrej

theorem sendFails_accepted (hw : s.pteOf cur srcva = some w) (hnull : ¬ s.NullAt M cur srcva)
    (hrej : ¬ Rejected s cur srcva perm) (hperm : validPerm perm) :
    SendFails M s cur target srcva perm ↔ s.NullAt M target (s.envs target).envIpcDstva := by
  constructor
  · intro hfail
    cases hfail with
    | perm _ _ hnot => exact absurd hperm hnot
    | absent _ hnone =>
        rw [hw] at hnone
        cases hnone
    | source hnull' => exact absurd hnull' hnull
    | destination _ _ hnull' => exact hnull'
  · exact .destination hw hrej

theorem sendCode_accepted (hw : s.pteOf cur srcva = some w)
    (hrej : ¬ Rejected s cur srcva perm) (hperm : validPerm perm) :
    sendCode s cur target srcva perm =
      if ¬ s.RoomAt target (s.envs target).envIpcDstva then -eNoMem else 0 := by
  obtain ⟨halign, hrej⟩ := not_or.mp hrej
  have hW : ¬ (Flag perm pteW ∧ ¬ Flag w pteW) := fun hW => hrej (Or.inl ⟨hW.1, fun v hv => by
    rw [← Option.some.inj (hw.symm.trans hv)]
    exact hW.2⟩)
  unfold sendCode
  rw [if_neg (not_or.mpr ⟨halign, not_not.mpr hperm⟩), hw]
  exact if_neg hW

/-- What `page_insert` did is what the call returns. -/
theorem deliverPage_of_insert {page : Option ℕ} {r : Word} {m : Mem n}
    (hinsert : pageInsert M ((s.ipcPerm0 target).ctx c) dt page (s.envs target).envIpcDstva perm
      s.mem = .ok (r, m)) :
    deliverPage M c cur target dt page value perm s =
      if r = -eNoMem then .ret (-eNoMem) ((s.ipcPerm0 target).setMem m)
      else .ret 0 (((s.ipcPerm0 target).setMem m).delivered cur target value perm page) := by
  unfold deliverPage
  rw [hinsert]

theorem mapsTo_delivered {m : Mem n} {va : Word} {frame : ℕ} {page : Option ℕ}
    (h : (s.setMem m).MapsTo e va frame perm) :
    (((s.ipcPerm0 target).setMem m).delivered cur target value w page).MapsTo e va frame perm := by
  unfold Kernel.MapsTo Kernel.pteOf at h ⊢
  rw [dirs_delivered, dirs_setMem, dirs_ipcPerm0]
  exact h

/-- The specification, once the checks have been passed. -/
theorem sends_accepted (h : Ready L nullOk s) (ht : Transfer s cur envid srcva target)
    (hds : s.dirs cur = some ds) (hdt : s.dirs target = some dt)
    (hnull : ¬ s.NullAt M cur srcva) (hw : s.pteOf cur srcva = some w)
    (hrej : ¬ Rejected s cur srcva perm) (hperm : validPerm perm) :
    SendsAsSpecified M c cur target s envid value srcva perm ↔
      ¬ s.NullAt M target (s.envs target).envIpcDstva := by
  have hrun : sysIpcTrySend M c cur envid value srcva perm s = _ :=
    ht.accepted h hds hdt hnull (pteOf_ne_none_table hw) hrej
  rw [hw] at hrun
  unfold SendsAsSpecified
  rw [hrun, sendCode_accepted hw hrej hperm]
  rcases h.insert (x := (s.ipcPerm0 target).ctx c) hw hnull hdt (pdx_lt_of_lt_utop ht.dst)
      (perm_lt_of_valid hperm) hperm.2.1 with
    ⟨hroom, hinsert⟩ | ⟨-, hdnull, msg, hinsert⟩ | ⟨hroom, hdnull, m, hinsert, hto⟩
  · rw [if_pos hroom]
    refine iff_of_true ⟨_, (deliverPage_of_insert hinsert).trans (if_pos rfl),
      fun h0 => absurd h0 eNoMem_ne⟩ fun hdnull => hroom hdnull.room
  · refine iff_of_false (fun ⟨t, hret, _⟩ => ?_) fun hok => hok hdnull
    unfold deliverPage at hret
    rw [Option.map_some, hinsert] at hret
    cases hret
  · rw [if_neg (not_not.mpr hroom)]
    set v := (((s.ipcPerm0 target).setMem m).delivered cur target value perm (some (pteFrame w)))
      with hv
    have hperm : (v.envs target).envIpcPerm = perm := by
      simp [hv, Kernel.delivered, Kernel.emit, Kernel.setEnv]
    exact iff_of_true ⟨v, (deliverPage_of_insert hinsert).trans (if_neg eNoMem_ne.symm),
      fun _ => ⟨w, hw, mapsTo_delivered hto, hperm⟩⟩ hdnull

/-- The specification holds unless one of the mishaps occurs. -/
theorem page_transfer_spec (h : Ready L nullOk s) (hcur : (s.envs cur).envStatus ≠ .free)
    (ht : Transfer s cur envid srcva target) :
    SendsAsSpecified M c cur target s envid value srcva perm ↔
      ¬ SendFails M s cur target srcva perm := by
  obtain ⟨ds, dt, hds, hdt⟩ := ht.dirs h hcur
  by_cases hnull : s.NullAt M cur srcva
  · obtain ⟨msg, hstop⟩ : ∃ msg, sysIpcTrySend M c cur envid value srcva perm s =
        .stop (.panic msg) (s.ipcPerm0 target) := ht.null h hds hdt hnull
    refine iff_of_false (fun ⟨t, hret, _⟩ => ?_) fun hok => hok (.source hnull)
    rw [hstop] at hret
    cases hret
  · by_cases hrej : tableAt s.mem.word s.dirs cur (pdx srcva) = none ∨ Rejected s cur srcva perm
    · have hcode : sendCode s cur target srcva perm = -eInval :=
        sendCode_rejected (hrej.imp_left fun hnone => mapping_of_none hnone)
      refine iff_of_true ?_ (not_sendFails hnull hrej)
      unfold SendsAsSpecified
      rw [hcode]
      exact ⟨_, ht.rejected h hds hdt hnull hrej, fun h0 => absurd h0 eInval_ne⟩
    · obtain ⟨htable, hrej⟩ := not_or.mp hrej
      cases hw : s.pteOf cur srcva with
      | none =>
          refine iff_of_false (fun ⟨t, hret, _⟩ => ?_) fun hok => hok (.absent htable hw hrej)
          rw [sendCode_rejected (Or.inl hw), ht.accepted h hds hdt hnull htable hrej] at hret
          exact deliverPage_ne _ hret
      | some w =>
          by_cases hperm : validPerm perm
          · rw [sendFails_accepted hw hnull hrej hperm]
            exact sends_accepted h ht hds hdt hnull hw hrej hperm
          · refine iff_of_false (fun ⟨t, hret, _⟩ => ?_) fun hok => hok (.perm hw hrej hperm)
            have hcode : sendCode s cur target srcva perm = -eInval := if_pos (Or.inr hperm)
            rw [hcode, ht.accepted h hds hdt hnull htable hrej] at hret
            exact deliverPage_ne _ hret

/-- A parent forks a child and wakes it up, and the child waits for a page at
8 MB. -/
def receiverRun : List (Label 2) :=
  [.tick 0, .trap 0 (syscallTf 7 0 0 0 0 0) 0, .trap 0 (syscallTf 8 0x1001 2 0 0 0) 0, .tick 1,
    .trap 1 (syscallTf 12 0x800000 0 0 0 0) 0]

/-- The parent may send its stack page to the child. -/
def waits (s : Kernel 2) : Bool :=
  decide (s.cpuEnv 0 = some 0 ∧ (s.envs 0).envStatus = .running ∧
    envid2env s 0 0x1001#32 false = some 1 ∧ (s.envs 1).envIpcRecving = true ∧
    (s.envs 1).envIpcDstva = 0x800000#32)

theorem waits_transfer {s : Kernel 2} (h : waits s = true) :
    Transfer s 0 0x1001#32 stackPage 1 ∧ s.cpuEnv 0 = some 0 ∧ (s.envs 0).envStatus ≠ .free := by
  obtain ⟨hcpu, hst, hfound, hrecv, hdst⟩ := of_decide_eq_true h
  refine ⟨⟨hfound, hrecv, by decide, ?_⟩, hcpu, by simp [hst]⟩
  rw [hdst]
  decide

theorem page_transfer_spec_stack : ∃ s t : Kernel 2, Booted sampleLayout 0 s ∧
    Run (Step sampleMachine) (OnCall (CallOk sampleMachine)) s t ∧
    Transfer t 0 0x1001#32 stackPage 1 ∧
    SendsAsSpecified sampleMachine 0 0 1 t 0x1001#32 5#32 stackPage 7#32 := by
  obtain ⟨s, t, hboot, hrun, hready, htest⟩ := sample_ready (0 : Fin 2) receiverRun
    (fun t => waits t &&
      (decide (t.pteOf 1 0x800000#32 = none ∧ (t.envs 1).envIpcDstva = 0x800000#32) &&
        (t.pteOf 0 stackPage).any fun w => decide (pteFrame w < 2048))) (by decide +kernel)
  obtain ⟨hwaits, htest⟩ := Bool.and_eq_true_iff.mp htest
  obtain ⟨htest, hstack⟩ := Bool.and_eq_true_iff.mp htest
  obtain ⟨hnone, hdst⟩ := of_decide_eq_true htest
  obtain ⟨w, hw, hlt⟩ := (Option.any_eq_true _ _).mp hstack
  obtain ⟨htransfer, hcpu, hlive⟩ := waits_transfer hwaits
  have hsource : ¬ t.NullAt sampleMachine 0 stackPage := not_not.mpr fun v hv => by
    obtain rfl := Option.some.inj (hw.symm.trans hv)
    exact of_decide_eq_true hlt
  have hdest : ¬ t.NullAt sampleMachine 1 (t.envs 1).envIpcDstva := not_not.mpr fun v hv => by
    rw [hdst] at hv
    cases hnone.symm.trans hv
  refine ⟨s, t, hboot, hrun, htransfer, (page_transfer_spec hready hlive htransfer).mpr ?_⟩
  intro hfail
  cases hfail with
  | perm _ _ hperm => exact hperm (by decide)
  | absent _ hnone' => cases hw.symm.trans hnone'
  | source hnull => exact hsource hnull
  | destination _ _ hnull => exact hdest hnull

/-- `PTE_P` alone is accepted. -/
theorem not_page_transfer_spec : ¬ ∀ (s t : Kernel 2) (cur : EnvIdx), Booted sampleLayout 0 s →
    Run (Step sampleMachine) (fun _ _ => True) s t → t.cpuEnv 0 = some cur →
    ∀ envid srcva target value perm, Transfer t cur envid srcva target →
      SendsAsSpecified sampleMachine 0 cur target t envid value srcva perm := by
  intro h
  obtain ⟨s, t, hboot, hrun, htest⟩ := sample_run (0 : Fin 2) (fun _ _ => true) receiverRun
    (fun t => waits t &&
      (sysIpcTrySend sampleMachine 0 0 0x1001#32 5#32 stackPage 1#32 t).returns fun r _ =>
        decide (r = 0)) (fun _ => trivial) (by decide +kernel)
  obtain ⟨hwaits, hsent⟩ := Bool.and_eq_true_iff.mp htest
  obtain ⟨htransfer, hcpu, -⟩ := waits_transfer hwaits
  obtain ⟨u, hret, -⟩ := h s t 0 hboot hrun hcpu _ _ _ 5#32 1#32 htransfer
  have hcode : sendCode t 0 1 stackPage 1#32 = -eInval := if_pos (by decide)
  rw [hret, hcode] at hsent
  have hzero : -eInval = (0 : Word) := of_decide_eq_true hsent
  exact absurd hzero (by decide)

/-! ### Failing -/

/-- The call returns an error after it has cleared `env_ipc_perm`. -/
def Refused (M : Machine) (s : Kernel n) (cur target : EnvIdx) (srcva perm : Word) : Prop :=
  ¬ s.NullAt M cur srcva ∧ (tableAt s.mem.word s.dirs cur (pdx srcva) = none ∨
    Rejected s cur srcva perm ∨ ¬ s.RoomAt target (s.envs target).envIpcDstva)

theorem ipcPerm0_eq_self : s.ipcPerm0 target = s ↔ (s.envs target).envIpcPerm = 0 := by
  constructor
  · intro h
    have hperm := congrArg (fun s : Kernel n => (s.envs target).envIpcPerm) h
    simpa [Kernel.ipcPerm0, Kernel.setEnv] using hperm.symm
  · intro h
    have henv : { s.envs target with envIpcPerm := 0 } = s.envs target := by rw [← h]
    simp only [Kernel.ipcPerm0, Kernel.setEnv, henv, Function.update_eq_self]

/-- A page transfer returns an error exactly if it is refused, and then it has
done no more than clear `env_ipc_perm`. -/
theorem transfer_error (h : Ready L nullOk s) (hcur : (s.envs cur).envStatus ≠ .free)
    (ht : Transfer s cur envid srcva target) :
    (∃ r, r.slt 0#32 = true ∧ sysIpcTrySend M c cur envid value srcva perm s = .ret r t) ↔
      Refused M s cur target srcva perm ∧ t = s.ipcPerm0 target := by
  obtain ⟨ds, dt, hds, hdt⟩ := ht.dirs h hcur
  have hneg : (-eInval : Word).slt 0#32 = true ∧ (-eNoMem : Word).slt 0#32 = true := by decide
  by_cases hnull : s.NullAt M cur srcva
  · obtain ⟨msg, hstop⟩ : ∃ msg, sysIpcTrySend M c cur envid value srcva perm s =
        .stop (.panic msg) (s.ipcPerm0 target) := ht.null h hds hdt hnull
    refine iff_of_false (fun ⟨r, _, hret⟩ => ?_) fun hrefused => hrefused.1.1 hnull
    rw [hstop] at hret
    cases hret
  · by_cases hrej : tableAt s.mem.word s.dirs cur (pdx srcva) = none ∨ Rejected s cur srcva perm
    · rw [ht.rejected h hds hdt hnull hrej]
      constructor
      · rintro ⟨r, -, hret⟩
        injection hret with _ hstate
        exact ⟨⟨hnull, or_assoc.mp (Or.inl hrej)⟩, hstate.symm⟩
      · rintro ⟨-, rfl⟩
        exact ⟨_, hneg.1, rfl⟩
    · have hrefused : Refused M s cur target srcva perm ↔
          ¬ s.RoomAt target (s.envs target).envIpcDstva := by
        unfold Refused
        rw [← or_assoc, or_iff_right hrej, and_iff_right hnull]
      obtain ⟨htable, hrej⟩ := not_or.mp hrej
      rw [ht.accepted h hds hdt hnull htable hrej, hrefused]
      by_cases hroom : s.RoomAt target (s.envs target).envIpcDstva
      · refine iff_of_false (fun ⟨r, hr, hret⟩ => ?_) fun hno => hno.1 hroom
        unfold deliverPage at hret
        cases hinsert : pageInsert M ((s.ipcPerm0 target).ctx c) dt
            ((s.pteOf cur srcva).map pteFrame) (s.envs target).envIpcDstva perm s.mem with
        | error msg =>
            rw [hinsert] at hret
            cases hret
        | ok a =>
            obtain ⟨code, m⟩ := a
            obtain rfl := pageInsert_zero h.mem hdt (pdx_lt_of_lt_utop ht.dst) hroom hinsert
            rw [hinsert] at hret
            injection hret with hcode
            subst hcode
            exact absurd hr (by decide)
      · have hnone := not_or.mp hroom
        have hfull : pageInsert M ((s.ipcPerm0 target).ctx c) dt ((s.pteOf cur srcva).map pteFrame)
            (s.envs target).envIpcDstva perm s.mem = .ok (-eNoMem, s.mem) :=
          pageInsert_full h.mem hdt (pdx_lt_of_lt_utop ht.dst) (not_not.mp hnone.1)
            (not_not.mp hnone.2)
        rw [(deliverPage_of_insert hfull).trans (if_pos rfl)]
        constructor
        · rintro ⟨r, -, hret⟩
          injection hret with _ hstate
          exact ⟨hroom, hstate.symm⟩
        · rintro ⟨-, rfl⟩
          exact ⟨_, hneg.2, rfl⟩

/-- Where no page is to be sent, an error comes before the first write. -/
theorem value_error {r : Word} (hno : ∀ target, ¬ Transfer s cur envid srcva target)
    (hret : sysIpcTrySend M c cur envid value srcva perm s = .ret r t)
    (hr : r.slt 0#32 = true) : t = s := by
  simp only [sysIpcTrySend, Comp.bind_apply, Comp.get_apply] at hret
  cases hfound : envid2env s cur envid false with
  | none =>
      rw [hfound] at hret
      injection hret with _ hstate
      exact hstate.symm
  | some target =>
      simp only [hfound] at hret
      by_cases hrecv : (s.envs target).envIpcRecving = true
      · rw [if_neg (not_not.mpr hrecv)] at hret
        simp only [Comp.bind_apply, Comp.modify_apply] at hret
        change (if srcva < utop ∧ (s.envs target).envIpcDstva < utop then _ else _ : KM n Word)
          (s.ipcPerm0 target) = _ at hret
        rw [if_neg fun hva => hno target ⟨hfound, hrecv, hva.1, hva.2⟩] at hret
        injection hret with hcode
        rw [← hcode] at hr
        exact absurd hr (by decide)
      · rw [if_pos hrecv] at hret
        injection hret with _ hstate
        exact hstate.symm

/-- A failed send changes nothing, unless a page transfer is refused whose
target still has the permissions of an earlier one. -/
theorem failed_send_unchanged (h : Ready L nullOk s) (hcur : (s.envs cur).envStatus ≠ .free) :
    (∀ r t, sysIpcTrySend M c cur envid value srcva perm s = .ret r t → r.slt 0#32 = true →
      t = s) ↔
    ∀ target, Transfer s cur envid srcva target → Refused M s cur target srcva perm →
      (s.envs target).envIpcPerm = 0 := by
  constructor
  · intro hall target ht hrefused
    obtain ⟨r, hr, hret⟩ : ∃ r, r.slt 0#32 = true ∧
        sysIpcTrySend M c cur envid value srcva perm s = .ret r (s.ipcPerm0 target) :=
      (transfer_error h hcur ht).mpr ⟨hrefused, rfl⟩
    exact ipcPerm0_eq_self.mp (hall r _ hret hr)
  · intro hclear r t hret hr
    by_cases htransfer : ∃ target, Transfer s cur envid srcva target
    · obtain ⟨target, ht⟩ := htransfer
      obtain ⟨hrefused, rfl⟩ := (transfer_error h hcur ht).mp ⟨r, hr, hret⟩
      exact ipcPerm0_eq_self.mpr (hclear target ht hrefused)
    · exact value_error (fun target ht => htransfer ⟨target, ht⟩) hret hr

/-- Nothing is mapped at the address that the parent wants to send. -/
theorem failed_send_unchanged_first : ∃ s t u : Kernel 2, Booted sampleLayout 0 s ∧
    Run (Step sampleMachine) (OnCall (CallOk sampleMachine)) s t ∧
    sysIpcTrySend sampleMachine 0 0 0x1001#32 5#32 0x400000#32 7#32 t = .ret (-eInval) u ∧
    u = t := by
  obtain ⟨s, t, hboot, hrun, hready, htest⟩ := sample_ready (0 : Fin 2) receiverRun
    (fun t => waits t && (decide ((t.envs 1).envIpcPerm = 0) &&
      (sysIpcTrySend sampleMachine 0 0 0x1001#32 5#32 0x400000#32 7#32 t).returns fun r _ =>
        decide (r = -eInval))) (by decide +kernel)
  obtain ⟨hwaits, htest⟩ := Bool.and_eq_true_iff.mp htest
  obtain ⟨hclear, hret⟩ := Bool.and_eq_true_iff.mp htest
  obtain ⟨htransfer, hcpu, hlive⟩ := waits_transfer hwaits
  obtain ⟨r, u, hcall, hr⟩ := Outcome.returns_eq_true.mp hret
  obtain rfl := of_decide_eq_true hr
  refine ⟨s, t, u, hboot, hrun, hcall, (failed_send_unchanged hready hlive).mpr
    (fun target ht _ => ?_) _ u hcall (by decide)⟩
  obtain rfl := Option.some.inj (ht.found.symm.trans htransfer.found)
  exact of_decide_eq_true hclear

/-- The parent sends its stack page, and the child waits for another one. -/
def secondRun : List (Label 2) :=
  receiverRun ++ [.trap 0 (syscallTf 11 0x1001 5 stackPage 7 0) 0, .tick 1,
    .trap 1 (syscallTf 12 0x800000 0 0 0 0) 0]

/-- Then it sends the page without permissions. -/
theorem not_failed_send_unchanged : ¬ ∀ (s t u : Kernel 2) (cur : EnvIdx),
    Booted sampleLayout 0 s → Run (Step sampleMachine) (fun _ _ => True) s t →
    t.cpuEnv 0 = some cur → ∀ envid value srcva perm r,
      sysIpcTrySend sampleMachine 0 cur envid value srcva perm t = .ret r u →
      r.slt 0#32 = true → u.envs = t.envs ∧ u.mem = t.mem := by
  intro h
  obtain ⟨s, t, hboot, hrun, htest⟩ := sample_run (0 : Fin 2) (fun _ _ => true) secondRun
    (fun t => decide (t.cpuEnv 0 = some 0) &&
      (sysIpcTrySend sampleMachine 0 0 0x1001#32 5#32 stackPage 0#32 t).returns fun r u =>
        decide (r.slt 0#32 = true ∧ (u.envs 1).envIpcPerm ≠ (t.envs 1).envIpcPerm))
    (fun _ => trivial) (by decide +kernel)
  obtain ⟨hcpu, hret⟩ := Bool.and_eq_true_iff.mp htest
  obtain ⟨r, u, hcall, hr⟩ := Outcome.returns_eq_true.mp hret
  obtain ⟨hneg, hne⟩ := of_decide_eq_true hr
  obtain ⟨henvs, -⟩ := h s t u 0 hboot hrun (of_decide_eq_true hcpu) _ _ _ _ r hcall hneg
  exact hne (by rw [henvs])

end Jos
