import Jos.System.Conservation
import Jos.System.Creation
import Jos.System.Freeing
import Jos.System.Transfer

/-!
The kernel goes on. From a state in order, with no absent page mapped, a kernel
entry ends in user mode or with a halted CPU. What can stop the machine instead
is a breakpoint, a string that `sys_cputs` cannot read, an environment created
with the last page, and the monitor that starts when no environment is left.
-/

namespace Jos

open Jos.Lib

variable {n : ℕ} {α : Type} {M : Machine} {L : Layout M} {nullOk : Prop} {b c : Fin n}
  {cur e : EnvIdx} {s t u v : Kernel n} {k : Option (Fin n)} {q : Request} {tf : Trapframe}
  {input : Word}

/-- No environment is left that runs or could run. -/
def NoneLeft (s : Kernel n) : Prop :=
  ∀ e, (s.envs e).envStatus ≠ .runnable ∧ ¬ Active (s.envs e).envStatus

/-- The monitor starts because no environment is left. -/
def OutOfWork (why : Stop) (s : Kernel n) : Prop := why = .monitor ∧ NoneLeft s

/-- From `s`, `m` stops for want of environments only. -/
def Answers (m : KM n α) (s : Kernel n) : Prop := Comp.StopsOnly OutOfWork m s

namespace Answers

variable {β : Type} {m : KM n α} {f : α → KM n β} {a : α}

theorem bind (h : Answers m s) (hf : ∀ a t, m s = .ret a t → Answers (f a) t) :
    Answers (m >>= f) s :=
  Comp.StopsOnly.bind h hf

theorem after (hm : m s = .ret a t) (h : Answers (f a) t) : Answers (m >>= f) s :=
  Comp.StopsOnly.after hm h

theorem of_ret (h : m s = .ret a t) : Answers m s := Comp.stopsOnly_of_ret h

theorem of_leave (h : m s = .leave t) : Answers m s := Comp.stopsOnly_of_leave h

theorem of_eq {m' : KM n α} (h : m s = m' t) (h' : Answers m' t) : Answers m s :=
  Comp.stopsOnly_of_eq h h'

theorem pure (a : α) : Answers (Pure.pure a : KM n α) s := of_ret rfl

theorem get {f : Kernel n → KM n α} (h : Answers (f s) s) : Answers (Comp.get >>= f) s :=
  after rfl h

theorem modify {g : Kernel n → Kernel n} {f : Unit → KM n α} (h : Answers (f ()) (g s)) :
    Answers (Comp.modify g >>= f) s :=
  after rfl h

end Answers

/-! ### Leaving the kernel -/

theorem envRun_answers (hst : ((s.demote c).envs e).envStatus = .runnable)
    (hdir : (s.envs e).envPgdir ≠ none) : Answers (envRun c e) s := by
  obtain ⟨d, hd⟩ := Option.ne_none_iff_exists'.mp hdir
  rw [← demote_pgdir (c := c)] at hd
  apply Answers.of_leave (t := (s.demote c).resume c e d)
  simp only [envRun, Comp.bind_apply, Comp.modify_apply, Comp.get_apply]
  rw [if_neg (not_not.mpr hst), hd]
  rfl

theorem demote_runnable (hst : (s.envs e).envStatus = .runnable) :
    ((s.demote c).envs e).envStatus = .runnable := by
  rcases demote_cases s c with h | ⟨cur, -, hrun, h⟩
  · rw [h]
    exact hst
  · rw [h]
    have hne : e ≠ cur := by
      rintro rfl
      rw [hst] at hrun
      cases hrun
    simpa [Kernel.setStatus, Kernel.setEnv, hne] using hst

theorem demote_self (hcur : s.cpuEnv c = some e) (hst : (s.envs e).envStatus = .running) :
    ((s.demote c).envs e).envStatus = .runnable := by
  rw [demote_running hcur hst]
  simp [Kernel.setStatus, Kernel.setEnv]

theorem schedHalt_answers : Answers (schedHalt M c) s := by
  intro why t hstop
  simp only [schedHalt, Comp.bind_apply, Comp.get_apply] at hstop
  split at hstop
  · cases hstop
  · rename_i hany
    cases hstop
    refine ⟨rfl, fun e => ?_⟩
    have hnot : ¬ ((s.envs e).envStatus = .runnable ∨ (s.envs e).envStatus = .running ∨
        (s.envs e).envStatus = .dying) := fun hor =>
      hany (List.any_eq_true.mpr ⟨e, List.mem_finRange e, by simpa [or_assoc] using hor⟩)
    exact ⟨fun h => hnot (.inl h), fun h => hnot (.inr h)⟩

/-- An environment that runs or could run has a page directory. -/
theorem schedYield_answers (h : EnvInv k s) : Answers (schedYield M c) s := by
  have hdir {e : EnvIdx} (hst : (s.envs e).envStatus ≠ .free) : (s.envs e).envPgdir ≠ none :=
    fun hnone => hst (h.pgdir.mp hnone)
  unfold schedYield
  apply Answers.get
  cases hfind : (schedOrder (s.cpuEnv c)).find? fun e => (s.envs e).envStatus = .runnable with
  | some e =>
      have hst : (s.envs e).envStatus = .runnable := by simpa using List.find?_some hfind
      dsimp only
      exact envRun_answers (demote_runnable hst) (hdir (by simp [hst]))
  | none =>
      dsimp only
      split
      · rename_i cur hcur
        split
        · rename_i hst
          exact envRun_answers (demote_self hcur hst) (hdir (by simp [hst]))
        · exact schedHalt_answers
      · exact schedHalt_answers

/-! ### Destroying -/

theorem envFree_returns (h : Conserved L k s) (hlive : (s.envs e).envStatus ≠ .free) :
    ∃ u, envFree M c e s = .ret () u ∧ Freed M c e s u := by
  obtain ⟨d, hd⟩ := h.sys.envs.live hlive
  have hown (i j : PtIdx) (w : Word) (hw : mapping (s.freeing M c e).word s.dirs e i j = some w) :
      pteFrame w < M.npages := by
    rw [freeing_word] at hw
    exact h.mapped_lt hw
  obtain ⟨m, hm⟩ := envFreeMem_returns (x := s.ctx c) h.ready.mem.freeing h.sys.bounded.freeing
    le_rfl hd hown
  exact ⟨s.freed c e m, envFree_ret hd hm, .mk hd hm⟩

theorem envDestroy_answers (h : Conserved L (some c) s) (hlive : (s.envs e).envStatus ≠ .free) :
    Answers (envDestroy M c e) s := by
  unfold envDestroy
  apply Answers.get
  split
  · exact Answers.of_ret rfl
  · obtain ⟨u, hrun, hfree⟩ := envFree_returns (c := c) h hlive
    refine Answers.bind (Answers.of_ret hrun) fun a t hret => ?_
    rw [hrun] at hret
    cases hret
    apply Answers.get
    split
    · rename_i hcur
      apply Answers.modify
      rw [hfree.cpuEnv] at hcur
      exact schedYield_answers (h.sys.envs.freedSelf (.inr rfl) hcur hfree)
    · exact Answers.of_ret rfl

/-! ### System calls -/

/-- What can stop the machine in the service of a trap, when the registers of
the caller have been saved. -/
inductive StopsAt (M : Machine) (c : Fin n) (cur : EnvIdx) (tf : Trapframe) (s : Kernel n) : Prop
  | breakpoint (hno : tf.tfTrapno = tBrkpt)
  | walk {d msg} (hno : tf.request.no = some .cputs) (hd : s.dirs cur = some d)
      (hcheck : userMemCheck M d tf.request.a1 tf.request.a2 pteU s.mem = .error msg)
  | read {d} (hno : tf.request.no = some .cputs) (hd : s.dirs cur = some d)
      (hcheck : userMemCheck M d tf.request.a1 tf.request.a2 pteU s.mem = .ok none)
      (hend : (printString (loadByte c s.mem) tf.request.a1 tf.request.a2).ending ≠ .done)
  | exhausted (hno : tf.request.no = some .exofork) (hone : OnePageLeft s)

/-- `user_mem_assert`, by the answer of `user_mem_check`. -/
theorem userMemAssert_eq {d : ℕ} {va len : Word} {r : Option Word} (hd : s.dirs e = some d)
    (hcheck : userMemCheck M d va len pteU s.mem = .ok r) :
    userMemAssert M c e va len 0 s =
      if r = none then .ret () s else envDestroy M c e s := by
  have hperm : (0 : Word) ||| pteU = pteU := rfl
  unfold userMemAssert
  rw [withPgdir_some hd, Comp.bind_apply]
  simp only [readMem, hperm, hcheck]
  cases r <;> rfl

theorem sysCputs_answers (h : Conserved L (some c) s) (hcur : s.cpuEnv c = some cur)
    (hno : tf.request.no = some .cputs) (hstop : ¬ StopsAt M c cur tf s) :
    Answers (sysCputs M c cur tf.request.a1 tf.request.a2) s := by
  have hlive := (h.sys.envs.cur rfl hcur).1
  obtain ⟨d, hd⟩ := h.ready.dir hlive
  unfold sysCputs
  cases hcheck : userMemCheck M d tf.request.a1 tf.request.a2 pteU s.mem with
  | error msg => exact absurd (.walk hno hd hcheck) hstop
  | ok r =>
      have hassert := userMemAssert_eq (c := c) hd hcheck
      cases r with
      | some va =>
          -- a caller that is destroyed does not come back
          have hleaves : Comp.wp (envDestroy M c cur) (fun _ _ => False) (fun _ => True)
              (fun _ => True) s :=
            (envDestroy_self (q := tf.request) hcur).mono (fun _ _ h => h) (fun _ _ => trivial)
              fun _ _ => trivial
          refine Answers.bind (.of_eq hassert (envDestroy_answers h hlive)) fun a t hret => ?_
          rw [hassert] at hret
          exact (hleaves.ret hret).elim
      | none =>
          refine Answers.after hassert (.get ?_)
          cases hend : (printString (loadByte c s.mem) tf.request.a1 tf.request.a2).ending with
          | done => exact Answers.pure ()
          | fault => exact absurd (.read hno hd hcheck (by simp [hend])) hstop
          | diverge => exact absurd (.read hno hd hcheck (by simp [hend])) hstop

theorem sysEnvDestroy_answers (h : Conserved L (some c) s) (hcur : s.cpuEnv c = some cur)
    (envid : Word) : Answers (sysEnvDestroy M c cur envid) s := by
  unfold sysEnvDestroy
  apply Answers.get
  cases he : envid2env s cur envid true with
  | none => exact Answers.pure _
  | some e =>
      refine Answers.bind (envDestroy_answers h (h.sys.envs.not_free hcur he)) fun _ t _ => ?_
      exact Answers.modify (.pure 0)

theorem sysExofork_answers (h : Conserved L (some c) s) (hone : ¬ OnePageLeft s) :
    Answers (sysExofork M c cur) s := by
  have hforks : AllocatesOrFails M c 0 s ∧ ForksOrFails M c cur s :=
    (creation_exhausted h.ready).mpr hone
  obtain ⟨-, r, t, hret, -⟩ := hforks
  exact Answers.of_ret hret

theorem sysEnvSetStatus_answers (envid status : Word) :
    Answers (sysEnvSetStatus cur envid status) s := by
  unfold sysEnvSetStatus
  apply Answers.get
  cases statusOfWord status with
  | none => exact Answers.pure _
  | some st =>
      cases envid2env s cur envid true with
      | none => exact Answers.pure _
      | some e => exact Answers.modify (.pure 0)

theorem sysIpcRecv_answers (h : Conserved L (some c) s) (hcur : s.cpuEnv c = some cur)
    (dstva : Word) : Answers (sysIpcRecv M c cur dstva) s := by
  unfold sysIpcRecv
  split
  · exact Answers.pure _
  · refine Answers.modify (.modify ?_)
    have hreceived : EnvInv (some c) (s.received cur dstva) := h.sys.envs.received hcur
    exact Answers.bind (schedYield_answers hreceived) fun _ t _ => .pure 0

/-! ### Calls that edit an address space -/

/-- `page_remove` returns where no entry leads past the end of memory. -/
theorem pageRemove_returns {x : Ctx n} {d : ℕ} {va : Word} (h : Ready L False s)
    (hd : s.dirs e = some d) (hi : (pdx va : ℕ) < 955) :
    ∃ m, pageRemove M x d va s.mem = .ok m := by
  cases hw : mapping s.mem.word s.dirs e (pdx va) (ptx va) with
  | none => exact ⟨s.mem, pageRemove_absent h.mem hd hi hw⟩
  | some w =>
      obtain ⟨t, ht, -, -⟩ := mapping_eq_some.mp hw
      obtain ⟨m, -, hrun⟩ := pageRemove_present h.mem ht hw (h.mem.notNull w hw) hd
      exact ⟨_, hrun⟩

theorem sysPageUnmap_answers (h : Conserved L (some c) s) (hcur : s.cpuEnv c = some cur)
    (envid va : Word) : Answers (sysPageUnmap M c cur envid va) s := by
  have hlive := (h.sys.envs.cur rfl hcur).1
  unfold sysPageUnmap
  apply Answers.get
  cases he : envid2env s cur envid true with
  | none => exact Answers.pure _
  | some e =>
      dsimp only
      split
      · exact Answers.pure _
      · rename_i hva
        obtain ⟨d, hd⟩ := h.ready.dir_of_envid hlive he
        obtain ⟨m, hm⟩ := pageRemove_returns (x := s.ctx c) h.ready hd
          (pdx_userPage (not_not.mp hva))
        exact Answers.of_eq (withPgdir_some hd) (.after (changeMem_ok hm) (.pure 0))

/-- The page that was just allocated is inserted, or there is no page left for
a page table. -/
theorem insert_allocated {d p : ℕ} {va : Word} {m : Mem n} (x : Ctx n) (perm : Word)
    (h : Ready L False s) (hd : s.dirs e = some d) (hi : (pdx va : ℕ) < 955)
    (halloc : pageAlloc M true s.mem = .ok (some p, m)) :
    (∃ m', pageInsert M x d (some p) va perm m = .ok (0, m')) ∨
      pageInsert M x d (some p) va perm m = .ok (-eNoMem, m) := by
  have hal := pageAlloc_spec h.mem.toMemInv halloc
  have htidy := h.mem.allocated halloc
  have hoff : ¬ m.pool.On p := fun hon => ((hal.on p).mp hon).2 rfl
  by_cases hroom : tableAt m.word s.dirs e (pdx va) ≠ none ∨ m.pageFreeList ≠ none
  · obtain ⟨m', hrun, -⟩ : ∃ m', pageInsert M x d (some p) va perm m = .ok (0, m') ∧ _ :=
      pageInsert_returns htidy hd hi hoff hroom htidy.notNull
    exact .inl ⟨m', hrun⟩
  · rw [not_or, not_not, not_not] at hroom
    exact .inr (pageInsert_full htidy hd hi hroom.1 hroom.2)

/-- A page that was just allocated can be given back. -/
theorem free_allocated {p : ℕ} {m : Mem n} (h : Ready L False s)
    (halloc : pageAlloc M true s.mem = .ok (some p, m)) : ∃ m', pageFree p m = .ok m' := by
  have hal := pageAlloc_spec h.mem.toMemInv halloc
  have htidy := h.mem.allocated halloc
  have hoff : ¬ m.pool.On p := fun hon => ((hal.on p).mp hon).2 rfl
  have hlink : (m.pages p).ppLink = none := htidy.unlinked p hoff
  have href : (m.pages p).ppRef = 0 := by
    have hne : p ≠ vgaFrame := by
      rintro rfl
      exact L.pool_ne_vga hal.pool
    have hload : pageLoad none m.word s.dirs p = 0 := by simp [pageLoad, hne, hal.unref]
    have hcount := htidy.counts.ref p (.inl hal.pool)
    rw [hload] at hcount
    exact hcount
  simp [pageFree, href, hlink]

/-- `runMem` of a function that returns. -/
theorem runMem_ok {f : Kernel n → Except String (α × Mem n)} {a : α} {m : Mem n}
    (hf : f s = .ok (a, m)) : runMem f s = .ret a (s.setMem m) := by
  simp only [runMem, hf]

theorem sysPageAlloc_answers (h : Conserved L (some c) s) (hcur : s.cpuEnv c = some cur)
    (envid va perm : Word) : Answers (sysPageAlloc M c cur envid va perm) s := by
  have hlive := (h.sys.envs.cur rfl hcur).1
  unfold sysPageAlloc
  apply Answers.get
  cases he : envid2env s cur envid true with
  | none => exact Answers.pure _
  | some e =>
      dsimp only
      split
      · exact Answers.pure _
      · rename_i hargs
        obtain ⟨d, hd⟩ := h.ready.dir_of_envid hlive he
        have hi : (pdx va : ℕ) < 955 := pdx_userPage (not_not.mp hargs).1
        cases hhead : s.mem.pageFreeList with
        | none =>
            have halloc : pageAlloc M true s.mem = .ok (none, s.mem) := by simp [pageAlloc, hhead]
            exact Answers.after (runMem_ok halloc) (.pure _)
        | some p =>
            have halloc := pageAlloc_returns h.ready.mem hhead
            set m := (s.mem.pop p).fill p fun _ => 0#32
            refine Answers.after (runMem_ok halloc) ?_
            have hdm : (s.setMem m).dirs e = some d := by rwa [dirs_setMem]
            refine Answers.of_eq (withPgdir_some hdm) ?_
            rcases insert_allocated (s.ctx c) perm h.ready hd hi halloc with
              ⟨m', hins⟩ | hins
            · exact Answers.after (runMem_ok hins) (.pure 0)
            · obtain ⟨m', hfree⟩ := free_allocated h.ready halloc
              exact Answers.after (runMem_ok hins) (.after (changeMem_ok hfree) (.pure _))

/-- A page that was looked up is entered, or there is no page left for a page
table. The page is there, since no request maps an absent one. -/
theorem insert_looked {es : EnvIdx} {ds dd pt : ℕ} {i : PtIdx} {page : Option ℕ}
    {sva va : Word} (x : Ctx n) (perm : Word) (h : Ready L False s) (hok : SourceOk M cur q s)
    (hds : s.dirs es = some ds) (hsva : (pdx sva : ℕ) < 955)
    (hlook : pageLookup M ds sva s.mem = .ok (some (pt, i), page))
    (hdd : s.dirs e = some dd) (hi : (pdx va : ℕ) < 955)
    (hins : Flag (s.mem.word dd (pdx va)) pteP ∨ s.mem.pageFreeList ≠ none →
      Inserts M cur q s page dd va) :
    ∃ r m, pageInsert M x dd page va perm s.mem = .ok (r, m) := by
  have htable : tableAt s.mem.word s.dirs e (pdx va) ≠ none ↔
      Flag (s.mem.word dd (pdx va)) pteP := by
    simp [tableAt_of_dir hi hdd, present]
  by_cases hroom : tableAt s.mem.word s.dirs e (pdx va) ≠ none ∨ s.mem.pageFreeList ≠ none
  · cases page with
    | none => exact absurd (hins (hroom.imp_left htable.mp)) hok
    | some p =>
        obtain ⟨m, hrun, -⟩ : ∃ m, pageInsert M x dd (some p) va perm s.mem = .ok (0, m) ∧ _ :=
          pageInsert_returns h.mem hdd hi (looked_off h.mem.toMemInv hds hsva hlook) hroom
            h.mem.notNull
        exact ⟨0, m, hrun⟩
  · rw [not_or, not_not, not_not] at hroom
    exact ⟨_, _, pageInsert_full h.mem hdd hi hroom.1 hroom.2⟩

/-- `readMem` of a function that returns. -/
theorem readMem_ok {f : Kernel n → Except String α} {a : α} (hf : f s = .ok a) :
    readMem f s = .ret a s := by
  simp only [readMem, hf]

theorem sysPageMap_answers (h : Conserved L (some c) s) (hcur : s.cpuEnv c = some cur)
    (hno : q.no = some .pageMap) (hok : SourceOk M cur q s) :
    Answers (sysPageMap M c cur q.a1 q.a2 q.a3 q.a4 q.a5) s := by
  have hlive := (h.sys.envs.cur rfl hcur).1
  unfold sysPageMap
  apply Answers.get
  cases hsrc : envid2env s cur q.a1 true with
  | none => exact Answers.pure _
  | some src =>
      cases hdst : envid2env s cur q.a3 true with
      | none => exact Answers.pure _
      | some dst =>
          dsimp only
          split
          · exact Answers.pure _
          rename_i hva
          split
          · exact Answers.pure _
          rename_i hperm
          rw [not_not] at hva hperm
          obtain ⟨ds, hds⟩ := h.ready.dir_of_envid hlive hsrc
          obtain ⟨dd, hdd⟩ := h.ready.dir_of_envid hlive hdst
          have hi := pdx_userPage hva.1
          have hlook := pageLookup_returns h.ready.mem hds hi h.ready.mem.notNull
          refine Answers.of_eq (withPgdir_some hds) (.after (readMem_ok hlook) (.get ?_))
          cases ht : tableAt s.mem.word s.dirs src (pdx q.a2) with
          | none => exact Answers.pure _
          | some pt =>
              rw [ht] at hlook
              dsimp only [Option.map_some]
              split
              · exact Answers.pure _
              rename_i hw
              obtain ⟨r, m, hrun⟩ := insert_looked (s.ctx c) q.a5 h.ready hok hds hi
                hlook hdd (pdx_userPage hva.2) fun hroom =>
                  .map hno hsrc hdst hva.1 hva.2 hperm hds hdd hlook
                    (fun hW => by_contra fun hnW => hw ⟨hW, hnW⟩) hroom
              refine Answers.of_eq (withPgdir_some hdd) (.after (runMem_ok hrun) ?_)
              split
              · exact Answers.pure _
              · exact Answers.pure _

theorem sysIpcTrySend_answers (h : Conserved L (some c) s) (hcur : s.cpuEnv c = some cur)
    (hno : q.no = some .ipcTrySend) (hok : SourceOk M cur q s) :
    Answers (sysIpcTrySend M c cur q.a1 q.a2 q.a3 q.a4) s := by
  have hlive := (h.sys.envs.cur rfl hcur).1
  cases he : envid2env s cur q.a1 false with
  | none =>
      unfold sysIpcTrySend
      apply Answers.get
      rw [he]
      exact Answers.pure _
  | some target =>
      by_cases hpage : (s.envs target).envIpcRecving = true ∧ q.a3 < utop ∧
          (s.envs target).envIpcDstva < utop
      · obtain ⟨hrecv, hsrc, hdst⟩ := hpage
        have halign := h.ready.awaits target hrecv hdst
        have hi := pdx_lt_of_lt_utop hsrc
        obtain ⟨ds, hds⟩ := h.ready.dir hlive
        obtain ⟨dt, hdt⟩ := h.ready.dir_of_envid hlive he
        have hlook := pageLookup_returns h.ready.mem hds hi h.ready.mem.notNull
        have heq : sysIpcTrySend M c cur q.a1 q.a2 q.a3 q.a4 s = _ :=
          sysIpcTrySend_eq ⟨he, hrecv, hsrc, hdst⟩ halign hds hdt
        cases ht : tableAt s.mem.word s.dirs cur (pdx q.a3) with
        | none =>
            rw [hlook, ht] at heq
            exact Answers.of_ret heq
        | some pt =>
            rw [ht] at hlook
            rw [hlook] at heq
            dsimp only [Option.map_some] at heq
            split at heq
            · exact Answers.of_ret heq
            rename_i hperm
            simp only [not_or, not_and, not_not] at hperm
            have hpasses (hroom : Flag (s.mem.word dt (pdx (s.envs target).envIpcDstva)) pteP ∨
                s.mem.pageFreeList ≠ none) : PagePasses M cur q s target := fun _ =>
              ⟨ds, dt, pt, ptx q.a3, _, hds, hdt, hlook, hperm.1, hperm.2.1, hperm.2.2.1,
                hperm.2.2.2, hroom⟩
            obtain ⟨r, m, hrun⟩ := insert_looked ((s.ipcPerm0 target).ctx c) q.a4
              h.ready hok hds hi hlook hdt (pdx_lt_of_lt_utop hdst) fun hroom =>
                .send ⟨hno, he, hrecv, hpasses hroom⟩ hsrc hdst hds hdt hlook
            unfold deliverPage at heq
            rw [hrun] at heq
            dsimp only at heq
            split at heq
            · exact Answers.of_ret heq
            · exact Answers.of_ret heq
      · unfold sysIpcTrySend
        apply Answers.get
        rw [he]
        dsimp only
        split
        · exact Answers.pure _
        rename_i hrecv
        apply Answers.modify
        rw [if_neg fun hva => hpage ⟨by simpa using hrecv, hva⟩]
        exact Answers.get (.modify (.modify (.pure 0)))

/-! ### Traps -/

/-- A system call is answered unless something stops the machine. -/
theorem syscall_answers (h : Conserved L (some c) s) (hcur : s.cpuEnv c = some cur)
    (hok : SourceOk M cur tf.request s) (htf : tf.tfTrapno = tSyscall)
    (hstop : ¬ StopsAt M c cur tf s) :
    Answers (syscall M c cur input tf.tfRegs.regEax tf.tfRegs.regEdx tf.tfRegs.regEcx
      tf.tfRegs.regEbx tf.tfRegs.regEdi tf.tfRegs.regEsi) s := by
  have hno : tf.request.no = Sysno.ofWord tf.tfRegs.regEax := if_pos htf
  unfold syscall
  cases hsys : Sysno.ofWord tf.tfRegs.regEax with
  | none => exact Answers.pure _
  | some no =>
      rw [hsys] at hno
      cases no with
      | cputs =>
          exact Answers.bind (sysCputs_answers h hcur hno hstop) fun _ _ _ => .pure 0
      | cgetc => exact Answers.pure _
      | getenvid => exact Answers.get (.pure _)
      | envDestroy => exact sysEnvDestroy_answers h hcur _
      | pageAlloc => exact sysPageAlloc_answers h hcur _ _ _
      | pageMap => exact sysPageMap_answers h hcur hno hok
      | pageUnmap => exact sysPageUnmap_answers h hcur _ _
      | exofork => exact sysExofork_answers h fun hone => hstop (.exhausted hno hone)
      | envSetStatus => exact sysEnvSetStatus_answers _ _
      | envSetPgfaultUpcall => exact Answers.pure _
      | yield =>
          -- what follows the call of `sys_yield` is not reached
          refine Answers.bind (schedYield_answers h.sys.envs) fun a t hret => ?_
          exact (schedYield_wp.ret hret).elim
      | ipcTrySend => exact sysIpcTrySend_answers h hcur hno hok
      | ipcRecv => exact sysIpcRecv_answers h hcur _

theorem trapDispatch_answers (h : Conserved L (some c) s) (hcur : s.cpuEnv c = some cur)
    (htf : (s.envs cur).envTf = tf) (hok : SourceOk M cur tf.request s)
    (hstop : ¬ StopsAt M c cur tf s) : Answers (trapDispatch M c cur input) s := by
  have hlive := (h.sys.envs.cur rfl hcur).1
  unfold trapDispatch
  apply Answers.get
  rw [htf]
  dsimp only
  split
  · rename_i hbrkpt
    exact absurd (.breakpoint hbrkpt) hstop
  split
  · exact envDestroy_answers h hlive
  split
  · rename_i hsys
    exact Answers.bind (syscall_answers h hcur hok hsys hstop) fun _ _ _ => .of_ret rfl
  split
  · exact Answers.pure ()
  split
  · exact schedYield_answers h.sys.envs
  · exact envDestroy_answers h hlive

/-- A request that is served has made one change. -/
theorem trapDispatch_ret (hcur : s.cpuEnv c = some cur) (htf : (s.envs cur).envTf = tf)
    (hret : trapDispatch M c cur input s = .ret () v) :
    ∃ u, Call M c cur tf.request s u ∧ Returned cur tf u v := by
  have hwp : Comp.wp (trapDispatch M c cur input)
      (fun _ v => ∃ u, Call M c cur tf.request s u ∧ Returned cur tf u v) (fun _ => True)
      (fun _ => True) s := by
    have hleaves {m : KM n Unit} {R : Unit → Kernel n → Prop} {E H : Kernel n → Prop}
        (hm : Comp.wp m (fun _ _ => False) E H s) : Comp.wp m R (fun _ => True) (fun _ => True) s :=
      hm.mono (fun _ _ h => h.elim) (fun _ _ => trivial) fun _ _ => trivial
    have hdestroy {R : Unit → Kernel n → Prop} :
        Comp.wp (envDestroy M c cur) R (fun _ => True) (fun _ => True) s :=
      hleaves (envDestroy_self (q := tf.request) hcur)
    unfold trapDispatch pageFaultHandler
    simp only [Comp.wp_bind, Comp.wp_get, Comp.wp_ite, Comp.wp_stop, Comp.wp_modify, Comp.wp_pure,
      htf]
    refine ⟨fun _ => trivial, fun _ => ⟨fun _ => hdestroy, fun _ => ⟨fun hsys => ?_,
      fun _ => ⟨fun _ => ⟨s, .skip, .inl rfl⟩, fun _ => ⟨fun _ => hleaves schedYield_wp,
        fun _ => hdestroy⟩⟩⟩⟩⟩
    exact (syscall_handles hcur hsys).mono (fun r u hcall => ⟨u, hcall, .inr ⟨hsys, r, rfl⟩⟩)
      (fun _ _ => trivial) fun _ _ => trivial
  exact hwp.ret hret

/-- The end of `trap`. -/
theorem goOn_answers (h : EnvInv (some c) v) :
    Answers (match v.cpuEnv c with
      | some e => if (v.envs e).envStatus = .running then envRun c e else schedYield M c
      | none => schedYield M c : KM n Unit) v := by
  cases hcur : v.cpuEnv c with
  | none => exact schedYield_answers h
  | some e =>
      dsimp only
      split
      · rename_i hst
        exact envRun_answers (demote_self hcur hst) fun hnone => by
          simp [h.pgdir.mp hnone] at hst
      · exact schedYield_answers h

theorem trap_answers (h : Conserved L none s) (hcur : s.cpuEnv c = some cur)
    (hok : OnCall (PresentOk M) s (.trap c tf input))
    (hstop : (s.envs cur).envStatus ≠ .dying → ¬ StopsAt M c cur tf (s.setTf cur tf)) :
    Answers (trap M c tf input) s := by
  by_cases hst : (s.envs cur).envStatus = .dying
  · obtain ⟨u, hrun, hfree⟩ := envFree_returns (e := cur) (c := c) h (by simp [hst])
    unfold trap
    apply Answers.get
    rw [hcur]
    dsimp only
    rw [if_pos hst]
    exact Answers.after hrun (.modify (schedYield_answers (h.sys.zombie hcur hfree).envs))
  · have henter : Conserved L (some c) s := h.enter fun cur' hcur' => by
      rwa [← Option.some.inj (hcur.symm.trans hcur')]
    have hset : Conserved L (some c) (s.setTf cur tf) := henter.setTf
    have hok' := hok rfl hcur hst
    have htf : ((s.setTf cur tf).envs cur).envTf = tf := by simp [Kernel.setTf, Kernel.setEnv]
    refine Answers.of_eq (trap_apply hcur hst) (.bind ?_ fun a v hret => .get ?_)
    · exact trapDispatch_answers hset hcur htf hok'.source (hstop hst)
    · have hcur' : (s.setTf cur tf).cpuEnv c = some cur := hcur
      obtain ⟨u, hcall, hreturned⟩ := trapDispatch_ret hcur' htf hret
      exact goOn_answers ((hset.call hcur hok' hcall).returned hreturned).sys.envs

/-- Nothing is printed of a range that cannot be walked or read. -/
theorem sysCputs_stops {d : ℕ} {str len : Word} (hd : s.dirs cur = some d)
    (h : (∃ msg, userMemCheck M d str len pteU s.mem = .error msg) ∨
      userMemCheck M d str len pteU s.mem = .ok none ∧
        (printString (loadByte c s.mem) str len).ending ≠ .done) :
    ∃ why t, sysCputs M c cur str len s = .stop why t := by
  rcases h with ⟨msg, hcheck⟩ | ⟨hcheck, hend⟩
  · have hperm : (0 : Word) ||| pteU = pteU := rfl
    have hassert : userMemAssert M c cur str len 0 s = .stop (.panic msg) s := by
      unfold userMemAssert
      rw [withPgdir_some hd, Comp.bind_apply]
      simp only [readMem, hperm, hcheck]
    exact ⟨_, _, Comp.bind_of_stop hassert⟩
  · unfold sysCputs
    rw [Comp.bind_of_ret (userMemAssert_eq hd hcheck)]
    simp only [Comp.bind_apply, Comp.get_apply]
    cases hprint : (printString (loadByte c s.mem) str len).ending with
    | done => exact absurd hprint hend
    | fault => exact ⟨_, _, rfl⟩
    | diverge => exact ⟨_, _, rfl⟩

theorem sysExofork_stops (h : Ready L nullOk s) (hone : OnePageLeft s) :
    ∃ why t, sysExofork M c cur s = .stop why t := by
  obtain ⟨hslot, p, hhead, hlast⟩ := hone
  obtain ⟨e, he⟩ := Option.ne_none_iff_exists'.mp hslot
  obtain ⟨msg, hsetup⟩ : ∃ msg, envSetupVm M (s.ctx c) s.mem = .error msg :=
    ⟨_, envSetupVm_one h.mem (h.pgdir.mpr (h.head he)) hhead hlast⟩
  refine ⟨.panic msg, s, ?_⟩
  unfold sysExofork
  simp only [Comp.bind_apply, Comp.get_apply]
  rw [envAlloc_stop he hsetup]

/-- The system call number of a request. -/
theorem request_no {no : Sysno} (h : tf.request.no = some no) :
    tf.tfTrapno = tSyscall ∧ Sysno.ofWord tf.tfRegs.regEax = some no := by
  unfold Trapframe.request at h
  dsimp only at h
  split at h
  · rename_i hsys
    exact ⟨hsys, h⟩
  · cases h

theorem syscall_stops (input : Word) (h : Ready L nullOk s) (hstop : StopsAt M c cur tf s)
    (hbrkpt : tf.tfTrapno ≠ tBrkpt) :
    tf.tfTrapno = tSyscall ∧
      ∃ why t, syscall M c cur input tf.tfRegs.regEax tf.tfRegs.regEdx tf.tfRegs.regEcx
        tf.tfRegs.regEbx tf.tfRegs.regEdi tf.tfRegs.regEsi s = .stop why t := by
  cases hstop with
  | breakpoint hno => exact absurd hno hbrkpt
  | @walk d msg hno hd hcheck =>
      obtain ⟨hsys, heax⟩ := request_no hno
      obtain ⟨why, t, hrun⟩ := sysCputs_stops (c := c) hd (.inl ⟨msg, hcheck⟩)
      refine ⟨hsys, why, t, ?_⟩
      unfold syscall
      rw [heax]
      exact Comp.bind_of_stop hrun
  | @read d hno hd hcheck hend =>
      obtain ⟨hsys, heax⟩ := request_no hno
      obtain ⟨why, t, hrun⟩ := sysCputs_stops hd (.inr ⟨hcheck, hend⟩)
      refine ⟨hsys, why, t, ?_⟩
      unfold syscall
      rw [heax]
      exact Comp.bind_of_stop hrun
  | exhausted hno hone =>
      obtain ⟨hsys, heax⟩ := request_no hno
      obtain ⟨why, t, hrun⟩ : ∃ why t, sysExofork M c cur s = .stop why t :=
        sysExofork_stops h hone
      refine ⟨hsys, why, t, ?_⟩
      unfold syscall
      rw [heax]
      exact hrun

theorem trap_stops (input : Word) (h : Conserved L k s) (hcur : s.cpuEnv c = some cur)
    (hst : (s.envs cur).envStatus ≠ .dying) (hstop : StopsAt M c cur tf (s.setTf cur tf)) :
    ∃ why t, trap M c tf input s = .stop why t := by
  have hset : Conserved L k (s.setTf cur tf) := h.setTf
  have htf : ((s.setTf cur tf).envs cur).envTf = tf := by simp [Kernel.setTf, Kernel.setEnv]
  obtain ⟨why, t, hrun⟩ : ∃ why t, trapDispatch M c cur input (s.setTf cur tf) = .stop why t := by
    unfold trapDispatch
    simp only [Comp.bind_apply, Comp.get_apply, htf]
    by_cases hbrkpt : tf.tfTrapno = tBrkpt
    · rw [if_pos hbrkpt]
      exact ⟨_, _, rfl⟩
    · obtain ⟨hsys, why, t, hrun⟩ := syscall_stops input hset.ready hstop hbrkpt
      rw [if_neg hbrkpt, if_neg (by rw [hsys]; decide), if_pos hsys]
      exact ⟨why, t, Comp.bind_of_stop hrun⟩
  exact ⟨why, t, (trap_apply hcur hst).trans (Comp.bind_of_stop hrun)⟩

/-! ### Along a run -/

/-- A CPU can enter the kernel as the label says. -/
def EntersKernel (s : Kernel n) : Label n → Prop
  | .trap c _ _ => s.cpuEnv c ≠ none
  | .tick c => s.cpuEnv c = none
  | _ => False

/-- A kernel entry that stops the machine: for one of the reasons of
`StopsAt`, or because no environment is left. -/
def Halts (M : Machine) (s : Kernel n) : Label n → Prop
  | .trap c tf input => ∃ cur, s.cpuEnv c = some cur ∧
      ((s.envs cur).envStatus ≠ .dying ∧ StopsAt M c cur tf (s.setTf cur tf) ∨
        ∃ t, trap M c tf input s = .stop .monitor t ∧ NoneLeft t)
  | .tick _ => NoneLeft s
  | _ => False

theorem step_trap (hcur : s.cpuEnv c ≠ none) :
    Step M s (.trap c tf input) t ↔ trap M c tf input s = .leave t := by
  rw [Step, step, if_neg hcur, left_eq_some]

theorem step_tick (hidle : s.cpuEnv c = none) :
    Step M s (.tick c) t ↔ schedYield M c s = .leave t := by
  rw [Step, step, if_pos hidle, left_eq_some]

/-- An idle CPU finds nothing to do. -/
theorem schedYield_noneLeft (hidle : s.cpuEnv c = none) (hnone : NoneLeft s) :
    schedYield M c s = .stop .monitor s := by
  have hfind : ((schedOrder none).find? fun e => (s.envs e).envStatus = .runnable) = none :=
    List.find?_eq_none.mpr fun e _ => by simpa using (hnone e).1
  have hany : ¬ (List.finRange 1024).any (fun e =>
      (s.envs e).envStatus = .runnable || (s.envs e).envStatus = .running ||
        (s.envs e).envStatus = .dying) := by
    rw [List.any_eq_true]
    rintro ⟨e, -, he⟩
    obtain ⟨hrunnable, hactive⟩ := hnone e
    rw [Active, not_or] at hactive
    simp [hrunnable, hactive.1, hactive.2] at he
  simp only [schedYield, Comp.bind_apply, Comp.get_apply, hidle, hfind]
  simp only [schedHalt, Comp.bind_apply, Comp.get_apply]
  rw [if_neg hany]
  rfl

theorem schedYield_stop {why : Stop} (hidle : s.cpuEnv c = none)
    (hstop : schedYield M c s = .stop why t) : t = s := by
  have hdemote : s.demote c = s := demote_eq_self fun hcur => by
    rw [hidle] at hcur
    cases hcur
  have hwp : Comp.wp (schedYield M c) (fun _ _ => True) (fun _ => True) (fun t => t = s) s := by
    unfold schedYield
    simp only [Comp.wp_bind, Comp.wp_get, hidle]
    cases (schedOrder none).find? fun e => (s.envs e).envStatus = .runnable with
    | some e =>
        simp only [envRun, Comp.wp_bind, Comp.wp_modify, Comp.wp_get, hdemote, Comp.wp_ite,
          Comp.wp_stop]
        refine ⟨fun _ => trivial, fun _ => ?_⟩
        cases (s.envs e).envPgdir with
        | none => exact (Comp.wp_stop _).mpr rfl
        | some d => simp only [Comp.wp_bind, Comp.wp_modify, Comp.wp_exit]
    | none =>
        simp only [schedHalt, Comp.wp_bind, Comp.wp_get, Comp.wp_ite, Comp.wp_modify,
          Comp.wp_exit, Comp.wp_stop, implies_true, and_self]
  exact hwp.stop hstop

theorem Conserved.trap_step (h : Conserved L none t) (hcur : t.cpuEnv c = some cur)
    (hok : OnCall (PresentOk M) t (.trap c tf input)) :
    (∃ u, Step M t (.trap c tf input) u) ↔ ¬ Halts M t (.trap c tf input) := by
  have hentry : t.cpuEnv c ≠ none := by simp [hcur]
  constructor
  · rintro ⟨u, hstep⟩ ⟨cur', hcur', hhalts⟩
    obtain rfl := Option.some.inj (hcur.symm.trans hcur')
    rw [step_trap hentry] at hstep
    rcases hhalts with ⟨hst, hstop⟩ | ⟨v, hstop, -⟩
    · obtain ⟨why, v, hstop⟩ := trap_stops input h hcur hst hstop
      rw [hstep] at hstop
      cases hstop
    · rw [hstep] at hstop
      cases hstop
  · intro hnot
    have hanswers : Answers (trap M c tf input) t := trap_answers h hcur hok fun hst hstop =>
      hnot ⟨cur, hcur, .inl ⟨hst, hstop⟩⟩
    cases hrun : trap M c tf input t with
    | ret a u =>
        by_cases hst : (t.envs cur).envStatus = .dying
        · exact ((trap_dying_wp hcur hst).ret hrun).elim
        · exact ((trap_wp hcur hst).ret hrun).elim
    | leave u => exact ⟨u, (step_trap hentry).mpr hrun⟩
    | stop why u =>
        obtain ⟨rfl, hnone⟩ := hanswers why u hrun
        exact absurd ⟨cur, hcur, .inr ⟨u, hrun, hnone⟩⟩ hnot

theorem Conserved.tick_step (h : Conserved L none t) (hidle : t.cpuEnv c = none) :
    (∃ u, Step M t (.tick c) u) ↔ ¬ Halts M t (.tick c) := by
  constructor
  · rintro ⟨u, hstep⟩ hnone
    rw [step_tick hidle, schedYield_noneLeft hidle hnone] at hstep
    cases hstep
  · intro hnot
    cases hrun : schedYield M c t with
    | ret a u => exact (schedYield_wp.ret hrun).elim
    | leave u => exact ⟨u, (step_tick hidle).mpr hrun⟩
    | stop why u =>
        obtain ⟨-, hnone⟩ := schedYield_answers h.sys.envs why u hrun
        rw [schedYield_stop hidle hrun] at hnone
        exact absurd hnone hnot

end Jos
