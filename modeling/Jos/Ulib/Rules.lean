import Jos.System.Image
import Jos.Ulib.Family

/-!
The rules by which programs are verified: what each system call and each memory
access does to a view, with the others at work before it. Page tables are
memory too: a program reads its own through the window at `UVPT`, where a table
that it has found once stays.
-/

namespace Jos

open Jos.Lib

variable {n : ℕ} {M : Machine} {L : Layout M} {c : Fin n} {e o : EnvIdx} {s t : Kernel n}
  {l : Label n} {dirs : Dirs} {m m' : Mem n} {p d f : ℕ} {i : PtIdx} {k va stack : Word}
  {V : View} {a : Action}

/-! ### Page tables stay -/

/-- A page table is not given back before its environment is freed. -/
theorem MemEdit.keeps_table {nullOk : Prop} {b : ℕ} {x : Ctx n} {dirs' : Dirs}
    (h : MemEdit L nullOk b x dirs m dirs' m') (hlive : dirs' e ≠ none)
    (ht : tableAt m.word dirs e i = some f) : tableAt m'.word dirs' e i = some f := by
  cases h with
  | keep _ _ htables => rw [htables, ht]
  | insert _ _ hins => exact hins.tables e i f ht
  | remove _ _ hrem => rw [hrem.tables, ht]
  | @setUp e' d m' he hset =>
      have hne : e ≠ e' := by
        rintro rfl
        rw [tableAt_of_none he] at ht
        cases ht
      rw [hset.tables e i hne, ht]
  | @tearDown e' d m₀ m' hd hm₀ hdown =>
      have hne : e ≠ e' := by
        rintro rfl
        exact hlive (Function.update_self ..)
      have hword : m₀.word = m.word := by
        rcases hm₀ with rfl | rfl <;> rfl
      rw [hdown.tables, if_neg hne, hword, ht]

/-- No step takes a page table from an environment that goes on. -/
theorem step_keeps_table (h : Conserved L none s) (hok : OnCall (PresentOk M) s l)
    (hstep : Step M s l t) (hlive : t.dirs e ≠ none)
    (ht : tableAt s.mem.word s.dirs e i = some f) :
    tableAt t.mem.word t.dirs e i = some f := by
  have hexits {c : Fin n} {u : Kernel n} (hexit : Exit M c u t)
      (hu : u.dirs e ≠ none → tableAt u.mem.word u.dirs e i = some f) :
      tableAt t.mem.word t.dirs e i = some f := by
    obtain ⟨d, hloads⟩ := hexit.loads
    rw [hloads.dirs] at hlive
    rw [hloads.dirs, hloads.word]
    exact hu hlive
  cases hstep.taken with
  | @zombie c tf input cur u _ hcur hst hfree hexit =>
      have hedit := (h.sys.cpuSys c).freed_edit hfree
      exact hexits hexit fun hlive => hedit.keeps_table hlive ht
  | @entry c tf input cur u v _ hcur hst hcall hret hexit =>
      have henter : SysInv L False (some c) (s.setTf cur tf) :=
        (h.sys.enter fun cur' hcur' => by rwa [← Option.some.inj (hcur.symm.trans hcur')]).setTf
      have hcallOk := hok rfl hcur hst
      have hedit := (henter.cpuSys c).call_edit (fun _ _ hhead => henter.fresh hhead)
        hcallOk.call.room (.inr hcallOk.source) hcall
      have hbefore : tableAt (s.setTf cur tf).mem.word (s.setTf cur tf).dirs e i = some f := by
        rw [dirs_setTf]
        exact ht
      refine hexits hexit fun hlive => ?_
      rcases hret with rfl | ⟨-, r, rfl⟩
      · exact hedit.keeps_table hlive hbefore
      · rw [dirs_setTf] at hlive ⊢
        exact hedit.keeps_table hlive hbefore
  | tick _ hexit => exact hexits hexit fun _ => ht
  | fill => exact ht
  | @store c va w frame hexec hwrite =>
      obtain ⟨o, hcur⟩ := Option.ne_none_iff_exists'.mp hexec
      obtain ⟨-, -, -, hplain⟩ := SysInv.write_plain h.sys.mem (h.sys.cpu.exec hcur) hwrite
      rw [dirs_setMem]
      exact (hplain.tableAt fun q hq => Function.update_of_ne hq _ _).trans ht

theorem onCall_store {va w : Word} : OnCall (PresentOk M) s (.store c va w) :=
  fun hl => by cases hl

/-- What happens before an action is one step. -/
theorem Meantime.step (h : Meantime M e stack a s t) :
    ∃ l, OnCall (PresentOk M) s l ∧ Step M s l t := by
  cases h with
  | other hok _ _ hstep => exact ⟨_, hok, hstep⟩
  | interrupt _ _ _ hok hstep => exact ⟨_, hok, hstep⟩
  | locals _ _ _ hstep => exact ⟨_, onCall_store, hstep⟩

/-- An action is a step, or only looks at the state. -/
theorem Does.step {r : a.Answer} (h : Does M e s a r t) :
    t = s ∨ ∃ l, OnCall (PresentOk M) s l ∧ Step M s l t := by
  cases h with
  | trap _ _ hok hstep => exact .inr ⟨_, hok, hstep⟩
  | result => exact .inl rfl
  | load => exact .inl rfl
  | store _ hstep => exact .inr ⟨_, onCall_store, hstep⟩
  | loadByte => exact .inl rfl
  | storeByte _ _ hstep => exact .inr ⟨_, onCall_store, hstep⟩
  | locals => exact .inl rfl

/-- Nothing that happens before an action takes a page table away. -/
theorem Meantime.keeps_table (hmean : Meantime M e stack a s t) (hc : Conserved L none s)
    (hc' : Conserved L none t) (h' : Holds e V t.world)
    (ht : tableAt s.mem.word s.dirs e i = some f) : tableAt t.mem.word t.dirs e i = some f := by
  obtain ⟨l, hok, hstep⟩ := hmean.step
  have hlive : t.dirs e ≠ none := fun hnone => h'.live (.inl rfl) (hc'.sys.envs.pgdir.mp hnone)
  exact step_keeps_table hc hok hstep hlive ht

/-! ### What user code reads -/

/-- What a view maps for users can be read, and with `PTE_W` written. -/
theorem Holds.access (hc : Conserved L none s) (h : Holds e V s.world)
    (hcur : s.cpuEnv c = some e) (hva : va < utop)
    (hmap : V.spaces.map e (pageAddr va) = some (p, k)) (hU : Flag k pteU) :
    userRead s.mem (s.mem.cr3 c) va = some p ∧
      (Flag k pteW → userWrite s.mem (s.mem.cr3 c) va = some p) := by
  have hd := hc.sys.cpu.exec hcur
  have hi := pdx_lt_of_lt_utop hva
  rw [← h.map e (.inl rfl)] at hmap
  obtain ⟨w, hw, heq⟩ := Option.map_eq_some_iff.mp
    (show (mapping s.mem.word s.dirs e (pdx va) (ptx va)).map
      (fun w => (pteFrame w, w &&& 0xFFF#32)) = some (p, k) from hmap)
  obtain ⟨rfl, rfl⟩ := Prod.mk.inj heq
  have hread := userRead_found hc.sys.mem hd hva ((foundPte_eq_mapping hd hi).trans hw)
    ((flag_and_low (by decide)).mp hU)
  exact ⟨hread.1, fun hW => hread.2 ((flag_and_low (by decide)).mp hW)⟩

/-- The entry of a directory for the window. -/
theorem window_entry (h : MemInv L False none dirs m) (hd : dirs e = some d) :
    Flag (m.word d (pdx uvpt)) pteP ∧ Flag (m.word d (pdx uvpt)) pteU ∧
      pteFrame (m.word d (pdx uvpt)) = d := by
  have hself : m.word d (pdx uvpt) = frame2pa d ||| pteP ||| pteU :=
    (h.tables.dirKern hd (i := pdx uvpt) (by decide)).trans (if_pos rfl)
  rw [hself]
  refine ⟨(flag_or ..).mpr (.inl ((flag_or ..).mpr (.inr (by decide)))),
    (flag_or ..).mpr (.inr (by decide)), ?_⟩
  rw [BitVec.or_assoc]
  exact pteFrame_or (L.frame_lt (h.tables.dir hd)) (by decide)

/-- Through the window at `UVPT` a directory is read as if it were a table. -/
theorem userRead_window (h : MemInv L False none dirs m) (hd : dirs e = some d)
    (hva : pdx va = pdx uvpt) (hP : Flag (m.word d (ptx va)) pteP)
    (hU : Flag (m.word d (ptx va)) pteU) :
    userRead m d va = some (pteFrame (m.word d (ptx va))) := by
  obtain ⟨hP', hU', hframe⟩ := window_entry h hd
  unfold userRead
  dsimp only
  rw [hva, hframe]
  exact if_pos ⟨hP', hU', hP, hU⟩

/-- The directory is one page of the window. -/
theorem userRead_uvpd {a : Word} (h : MemInv L False none dirs m) (hd : dirs e = some d)
    (ha : a.toNat = 0xEF7BD000 + 4 * (i : ℕ)) :
    userRead m d a = some d ∧ wordIdx a = i := by
  have hi : (i : ℕ) < 1024 := i.isLt
  have hpdx : pdx a = pdx uvpt := by
    apply Fin.ext
    rw [pdx_val, ha, show ((pdx uvpt : PtIdx) : ℕ) = 957 from rfl]
    omega
  have hptx : ptx a = pdx uvpt := by
    apply Fin.ext
    rw [ptx_val, ha, show ((pdx uvpt : PtIdx) : ℕ) = 957 from rfl]
    omega
  obtain ⟨hP, hU, hframe⟩ := window_entry h hd
  rw [userRead_window h hd hpdx (hptx ▸ hP) (hptx ▸ hU), hptx, hframe]
  refine ⟨rfl, Fin.ext ?_⟩
  rw [wordIdx, ha, Fin.val_ofNat]
  omega

/-- The other pages are the page tables. -/
theorem userRead_uvpt {a : Word} (h : MemInv L False none dirs m) (hd : dirs e = some d)
    (hva : va < utop) (ha : a.toNat = 0xEF400000 + 4 * pgnum va)
    (ht : tableAt m.word dirs e (pdx va) = some f) :
    userRead m d a = some f ∧ wordIdx a = ptx va := by
  have hi := pdx_lt_of_lt_utop hva
  have hj : (ptx va : ℕ) < 1024 := (ptx va).isLt
  rw [pgnum_indexes] at ha
  have hpdx : pdx a = pdx uvpt := by
    apply Fin.ext
    rw [pdx_val, ha, show ((pdx uvpt : PtIdx) : ℕ) = 957 from rfl]
    omega
  have hptx : ptx a = pdx va := by
    apply Fin.ext
    rw [ptx_val, ha]
    omega
  have hpde : m.word d (ptx a) = tablePde f := by rw [hptx, h.tables.pde hd ht]
  have hframe := pteFrame_tablePde (L.frame_lt (h.tables.table ht))
  rw [userRead_window h hd hpdx (hpde ▸ flag_tablePde_P f) (hpde ▸ flag_tablePde_U f), hpde, hframe]
  refine ⟨rfl, Fin.ext ?_⟩
  rw [wordIdx, ha, Fin.val_ofNat]
  omega

/-! ### Verification conditions -/

/-- What a program has to be before each of its actions: in a position to make
the access, at a system call where `before` holds, and in a `panic` for no other
reason than that there is no memory or no environment. -/
def Safe (e : EnvIdx) (before : SysArgs → Kernel n → Prop) : Action → Kernel n → Prop
  | .trap q, s => before q s
  | .load va, s | .loadByte va, s =>
      ∀ c, s.cpuEnv c = some e → userRead s.mem (s.mem.cr3 c) va ≠ none
  | .store va _, s | .storeByte va _, s =>
      ∀ c, s.cpuEnv c = some e → userWrite s.mem (s.mem.cr3 c) va ≠ none
  | .panic _ r, _ => r = -eNoMem ∨ r = -eNoFreeEnv
  | .result, _ | .locals, _ => True

/-- The states that a run visits are in order. -/
structure Visits (L : Layout M) (W : Kernel n → Prop) : Prop where
  conserved : ∀ {s}, W s → Conserved L none s
  slotted : ∀ {s}, W s → s.world.Slotted

/-- Nothing is known about what the stack page holds. -/
def View.OffStack (e : EnvIdx) (stack : Word) (V : View) : Prop :=
  ∀ p k, V.spaces.map e (pageAddr stack) = some (p, k) → p ∉ V.known

section

variable {W : Kernel n → Prop} {before : SysArgs → Kernel n → Prop} {α : Type}
  {Q : α → Kernel n → Prop} {R : Word → View → Prop} {q : SysArgs} {r : Word} {msg : String}

theorem meets_panic (hr : r = -eNoMem ∨ r = -eNoFreeEnv) :
    (userArena M e stack).Meets W (Safe e before) Q (User.panic msg r) s :=
  fun _ _ _ => ⟨hr, fun r => r.elim⟩

theorem meets_locals (hW : Visits L W) (h : Holds e V s.world) (hstack : V.OffStack e stack) :
    (userArena M e stack).Meets W (Safe e before) (fun _ t => W t ∧ Holds e V t.world)
      (User.perform .locals) s := by
  refine Arena.meets_perform (fun t => Holds e V t.world) h (fun s t hs _ h hmean => ?_)
    (fun _ _ _ => trivial) fun t r u hWt _ h hdo => ?_
  · exact h.meantime (hW.conserved hs) (hW.slotted hs) hmean fun _ => hstack
  · cases hdo
    exact ⟨hWt, h⟩

/-- A system call: `R` says what it returns and which view it leaves. -/
theorem meets_trap (hW : Visits L W) (h : Holds e V s.world) (hstack : V.OffStack e stack)
    (hbefore : ∀ t, W t → Holds e V t.world → before q t)
    (hcall : ∀ t u, W t → Holds e V t.world → Does M e t (.trap q) () u →
      ∃ V', R (u.envs e).envTf.tfRegs.regEax V' ∧ Holds e V' u.world) :
    (userArena M e stack).Meets W (Safe e before)
      (fun r t => ∃ V', R r V' ∧ Holds e V' t.world) (User.trap q) s := by
  have hafter (t : Kernel n) (V' : View) (hV' : R (t.envs e).envTf.tfRegs.regEax V' ∧
      Holds e V' t.world) : (userArena M e stack).Meets W (Safe e before)
        (fun r t => ∃ V', R r V' ∧ Holds e V' t.world) (User.perform .result) t := by
    refine Arena.meets_perform (fun t => R (t.envs e).envTf.tfRegs.regEax V' ∧ Holds e V' t.world)
      hV' (fun s t hs _ h hmean => ?_) (fun _ _ _ => trivial) fun t r u _ _ h hdo => ?_
    · rw [Holds.result (hW.conserved hs) (hW.slotted hs) h.2 hmean]
      exact ⟨h.1, h.2.meantime (hW.conserved hs) (hW.slotted hs) hmean fun hl => by cases hl⟩
    · cases hdo
      exact ⟨V', h⟩
  have htrap (t : Kernel n) (ht : Holds e V t.world) :
      (userArena M e stack).Meets W (Safe e before)
        (fun _ u => ∃ V', R (u.envs e).envTf.tfRegs.regEax V' ∧ Holds e V' u.world)
        (User.perform (.trap q)) t := by
    refine Arena.meets_perform (fun t => Holds e V t.world) ht (fun s t hs _ h hmean => ?_)
      (fun t hWt h => hbefore t hWt h) fun t r u hWt _ h hdo => ?_
    · exact h.meantime (hW.conserved hs) (hW.slotted hs) hmean fun hl => by cases hl
    · exact hcall t u hWt h hdo
  unfold User.trap
  refine (meets_locals hW h hstack).seq fun _ t ht => (htrap t ht.2).seq fun _ u hu => ?_
  obtain ⟨V', hV'⟩ := hu
  exact hafter u V' hV'

/-- A stub of lib/syscall.c whose call returns 0, with a view that satisfies
`P`, or fails for want of memory. -/
theorem meets_call {P : View → Prop} {num a1 a2 a3 a4 a5 : Word} {check : Bool}
    (hW : Visits L W) (h : Holds e V s.world) (hstack : V.OffStack e stack)
    (hbefore : ∀ t, W t → Holds e V t.world → before ⟨num, a1, a2, a3, a4, a5⟩ t)
    (hcall : ∀ t u, W t → Holds e V t.world →
      Does M e t (.trap ⟨num, a1, a2, a3, a4, a5⟩) () u →
      (u.envs e).envTf.tfRegs.regEax = -eNoMem ∧ Holds e V u.world ∨
        (u.envs e).envTf.tfRegs.regEax = 0 ∧ ∃ V', P V' ∧ Holds e V' u.world) :
    (userArena M e stack).Meets W (Safe e before)
      (fun r t => r = -eNoMem ∨ r = 0 ∧ ∃ V', P V' ∧ Holds e V' t.world)
      (User.syscall num check a1 a2 a3 a4 a5) s := by
  have htrap := meets_trap (R := fun r V' => r = -eNoMem ∨ r = 0 ∧ P V') hW h hstack hbefore
    fun t u hWt h hdo => ?_
  · unfold User.syscall
    refine htrap.seq fun r t ht => ?_
    obtain ⟨V', rfl | ⟨rfl, hP⟩, hV'⟩ := ht
    · rw [if_neg fun h => absurd h.2 (by decide)]
      exact .inl rfl
    · rw [if_neg fun h => absurd h.2 (by decide)]
      exact .inr ⟨rfl, V', hP, hV'⟩
  · rcases hcall t u hWt h hdo with ⟨hr, hV⟩ | ⟨hr, V', hP, hV'⟩
    · exact ⟨V, .inl hr, hV⟩
    · exact ⟨V', .inr ⟨hr, hP⟩, hV'⟩

/-- The result of a call that may fail for want of memory. -/
theorem meets_check {P : Kernel n → Prop} (h : r = -eNoMem ∨ r = 0 ∧ P s) :
    (userArena M e stack).Meets W (Safe e before) (fun _ t => P t) (User.check msg r) s := by
  unfold User.check
  rcases h with rfl | ⟨rfl, hP⟩
  · rw [if_pos (by decide)]
    exact meets_panic (.inl rfl)
  · rw [if_neg (by decide)]
    exact hP

/-- A call whose result is checked. -/
theorem meets_checked {P : Kernel n → Prop} {call : UserProgram Word}
    (hcall : (userArena M e stack).Meets W (Safe e before)
      (fun r t => r = -eNoMem ∨ r = 0 ∧ P t) call s) :
    (userArena M e stack).Meets W (Safe e before) (fun _ t => P t)
      (call >>= User.check msg) s :=
  hcall.seq fun _ _ hr => meets_check hr

/-- The program goes on after it. -/
theorem meets_checked_seq {P : Kernel n → Prop} {call : UserProgram Word} {rest : UserProgram α}
    (hcall : (userArena M e stack).Meets W (Safe e before)
      (fun r t => r = -eNoMem ∨ r = 0 ∧ P t) call s)
    (hrest : ∀ t, P t → (userArena M e stack).Meets W (Safe e before) Q rest t) :
    (userArena M e stack).Meets W (Safe e before) Q
      (call >>= fun r => User.check msg r >>= fun _ => rest) s :=
  hcall.seq fun _ _ hr => (meets_check hr).seq fun _ t ht => hrest t ht

section

variable (hW : Visits L W) (h : Holds e V s.world) (hstack : V.OffStack e stack)
  (hbefore : ∀ q (t : Kernel n), q.no ≠ 8 → before q t)
include hW h hstack hbefore

theorem meets_pageAlloc {id perm : Word} (hnames : V.Names e id o) (hva : userPage va)
    (hperm : validPerm perm) :
    (userArena M e stack).Meets W (Safe e before)
      (fun r t => r = -eNoMem ∨ r = 0 ∧ ∃ V', (∃ p, p ∉ devices ∧ ¬ V.Uses e p ∧
        V' = V.alloc o (pageAddr va) p (perm ||| pteP)) ∧ Holds e V' t.world)
      (User.sysPageAlloc id va perm) s := by
  refine meets_call hW h hstack (fun t _ _ => hbefore _ t (show (4 : Word) ≠ 8 by decide))
    fun t u hWt h hdo => ?_
  have hret := h.pageAlloc (hW.conserved hWt) (hW.slotted hWt) hnames hva hperm hdo
  refine hret.imp_right fun hdone => ?_
  obtain ⟨hr, p, hD, hp, hV⟩ := hdone
  exact ⟨hr, _, ⟨p, hD, hp, rfl⟩, hV⟩

theorem meets_pageMap {srcid srcva dstid dstva perm w : Word} {src dst : EnvIdx}
    (hsrc : V.Names e srcid src) (hdst : V.Names e dstid dst)
    (hva : userPage srcva ∧ userPage dstva) (hperm : validPerm perm)
    (hpage : V.spaces.map src (pageAddr srcva) = some (p, w))
    (hw : Flag perm pteW → Flag w pteW) (hself : dst = e → V.Keeps e p) :
    (userArena M e stack).Meets W (Safe e before)
      (fun r t => r = -eNoMem ∨ r = 0 ∧ ∃ V',
        V' = V.enter dst (pageAddr dstva) p (perm ||| pteP) ∧ Holds e V' t.world)
      (User.sysPageMap srcid srcva dstid dstva perm) s := by
  refine meets_call hW h hstack (fun t _ _ => hbefore _ t (show (5 : Word) ≠ 8 by decide))
    fun t u hWt h hdo => ?_
  have hret := h.pageMap (hW.conserved hWt) (hW.slotted hWt) hsrc hdst hva hperm hpage hw hself hdo
  exact hret.imp_right fun hdone => ⟨hdone.1, _, rfl, hdone.2⟩

theorem meets_pageUnmap {id : Word} (hnames : V.Names e id o) (hva : userPage va) :
    (userArena M e stack).Meets W (Safe e before)
      (fun r t => r = -eNoMem ∨ r = 0 ∧ ∃ V',
        V' = V.clear o (pageAddr va) ∧ Holds e V' t.world)
      (User.sysPageUnmap id va) s := by
  refine meets_call hW h hstack (fun t _ _ => hbefore _ t (show (6 : Word) ≠ 8 by decide))
    fun t u hWt h hdo => ?_
  obtain ⟨hr, hV⟩ := h.pageUnmap (hW.conserved hWt) (hW.slotted hWt) hnames hva hdo
  exact .inr ⟨hr, _, rfl, hV⟩

end

/-! ### Accesses -/

/-- The contents of a frame that a view maps are those of memory. -/
theorem Holds.content (h : Holds e V s.world) (ho : o ∈ V.members e)
    {b : PageAddr} (hmap : V.spaces.map o b = some (p, k)) (hD : p ∉ devices) :
    s.world.spaces.content p = s.mem.word p := by
  rw [← h.map o ho] at hmap
  exact Spaces.content_forget (S := s.userSpaces) hD ⟨b, k, hmap⟩

theorem meets_load (hW : Visits L W) (h : Holds e V s.world) (hva : va < utop)
    (hmap : V.spaces.map e (pageAddr va) = some (p, k)) (hU : Flag k pteU) :
    (userArena M e stack).Meets W (Safe e before)
      (fun w t => Holds e V t.world ∧ (p ∈ V.known → p ∉ devices → V.Keeps e p →
        w = V.spaces.content p (wordIdx va))) (User.perform (.load va)) s := by
  refine Arena.meets_perform (fun t => Holds e V t.world) h (fun s t hs _ h hmean => ?_)
    (fun t hWt h c hcur => ?_) fun t w u hWt _ h hdo => ?_
  · exact h.meantime (hW.conserved hs) (hW.slotted hs) hmean fun hl => by cases hl
  · rw [(h.access (hW.conserved hWt) hcur hva hmap hU).1]
    exact Option.some_ne_none p
  · cases hdo with
    | @load _ c frame hcur hread =>
        have hframe := (h.access (hW.conserved hWt) hcur hva hmap hU).1
        obtain rfl := Option.some.inj (hread.symm.trans hframe)
        refine ⟨h, fun hknown hD hkeeps => ?_⟩
        rw [← h.known _ hknown hD hkeeps, h.content (.inl rfl) hmap hD]

/-- A store to a frame whose contents are known. -/
theorem meets_store {w : Word} (hW : Visits L W) (h : Holds e V s.world) (hva : va < utop)
    (hmap : V.spaces.map e (pageAddr va) = some (p, k)) (hU : Flag k pteU) (hwrite : Flag k pteW)
    (hknown : p ∈ V.known) (hD : p ∉ devices) (hkeeps : V.Keeps e p) :
    (userArena M e stack).Meets W (Safe e before)
      (fun _ t => Holds e (V.put p (Function.update (V.spaces.content p) (wordIdx va) w)) t.world)
      (User.perform (.store va w)) s := by
  refine Arena.meets_perform (fun t => Holds e V t.world) h (fun s t hs _ h hmean => ?_)
    (fun t hWt h c hcur => ?_) fun t r u hWt _ h hdo => ?_
  · exact h.meantime (hW.conserved hs) (hW.slotted hs) hmean fun hl => by cases hl
  · rw [(h.access (hW.conserved hWt) hcur hva hmap hU).2 hwrite]
    exact Option.some_ne_none p
  · cases hdo with
    | @store _ _ c u hcur hstep =>
        obtain ⟨p', k', hmap', hworld⟩ := h.store (hW.conserved hWt) hcur hstep
        obtain ⟨rfl, rfl⟩ := Prod.mk.inj (Option.some.inj (hmap'.symm.trans hmap))
        rw [hworld, h.known _ hknown hD hkeeps]
        exact h.put hkeeps _

/-! ### The window at `UVPT` -/

/-- The entry of a page directory, read through the window. -/
theorem meets_uvpd {a : Word} (hW : Visits L W) (h : Holds e V s.world) (hva : va < utop)
    (ha : a.toNat = 0xEF7BD000 + 4 * (pdx va : ℕ)) :
    (userArena M e stack).Meets W (Safe e before)
      (fun w t => Holds e V t.world ∧
        (Flag w pteP → ∃ f, tableAt t.mem.word t.dirs e (pdx va) = some f) ∧
        (¬ Flag w pteP → V.spaces.map e (pageAddr va) = none)) (User.perform (.load a)) s := by
  have hread {t : Kernel n} {c : Fin n} (hWt : W t) (hcur : t.cpuEnv c = some e) :=
    userRead_uvpd (hW.conserved hWt).sys.mem ((hW.conserved hWt).sys.cpu.exec hcur) ha
  refine Arena.meets_perform (fun t => Holds e V t.world) h (fun s t hs _ h hmean => ?_)
    (fun t hWt h c hcur => ?_) fun t w u hWt _ h hdo => ?_
  · exact h.meantime (hW.conserved hs) (hW.slotted hs) hmean fun hl => by cases hl
  · rw [(hread hWt hcur).1]
    exact Option.some_ne_none _
  · cases hdo with
    | @load c' _ _ hcur hframe =>
        obtain rfl := Option.some.inj (hframe.symm.trans (hread hWt hcur).1)
        rw [(hread hWt hcur).2]
        have hd := (hW.conserved hWt).sys.cpu.exec hcur
        have htable : tableAt t.mem.word t.dirs e (pdx va) =
            (present (t.mem.word (t.mem.cr3 c') (pdx va))).map pteFrame :=
          tableAt_of_dir (pdx_lt_of_lt_utop hva) hd
        refine ⟨h, fun hP => ?_, fun hP => ?_⟩
        · rw [present_of_flag hP] at htable
          exact ⟨_, htable⟩
        · rw [present_of_not_flag hP] at htable
          rw [← h.map e (.inl rfl)]
          change (mapping t.mem.word t.dirs e (pdx va) (ptx va)).map _ = none
          rw [mapping_of_none htable]
          rfl

/-- The entry of a page table, which is there. -/
theorem meets_uvpt {a : Word} (hW : Visits L W) (h : Holds e V s.world) (hva : va < utop)
    (ha : a.toNat = 0xEF400000 + 4 * pgnum va)
    (ht : tableAt s.mem.word s.dirs e (pdx va) = some f) :
    (userArena M e stack).Meets W (Safe e before)
      (fun w t => Holds e V t.world ∧ tableAt t.mem.word t.dirs e (pdx va) = some f ∧
        V.spaces.map e (pageAddr va) =
          if Flag w pteP then some (pteFrame w, w &&& 0xFFF#32) else none)
      (User.perform (.load a)) s := by
  have hread {t : Kernel n} {c : Fin n} (hWt : W t) (hcur : t.cpuEnv c = some e)
      (ht : tableAt t.mem.word t.dirs e (pdx va) = some f) :=
    userRead_uvpt (hW.conserved hWt).sys.mem ((hW.conserved hWt).sys.cpu.exec hcur) hva ha ht
  refine Arena.meets_perform
    (fun t => Holds e V t.world ∧ tableAt t.mem.word t.dirs e (pdx va) = some f) ⟨h, ht⟩
    (fun s t hs ht' h hmean => ?_) (fun t hWt h c hcur => ?_) fun t w u hWt _ h hdo => ?_
  · have hafter : Holds e V t.world := by
      exact h.1.meantime (hW.conserved hs) (hW.slotted hs) hmean fun hl => by cases hl
    exact ⟨hafter, hmean.keeps_table (hW.conserved hs) (hW.conserved ht') hafter h.2⟩
  · rw [(hread hWt hcur h.2).1]
    exact Option.some_ne_none _
  · cases hdo with
    | @load _ c frame hcur hframe =>
        obtain rfl := Option.some.inj (hframe.symm.trans (hread hWt hcur h.2).1)
        rw [(hread hWt hcur h.2).2]
        refine ⟨h.1, h.2, ?_⟩
        rw [← h.1.map e (.inl rfl)]
        change (mapping t.mem.word t.dirs e (pdx va) (ptx va)).map _ = _
        rw [mapping_of_table h.2, present]
        split <;> rfl

end

end Jos
