import Mathlib.Data.Fintype.Prod
import Jos.System.Freeing

/-!
Reference counts under any use of the operations on pages and address spaces.
They are exact as long as no page gets its 65536th reference. A process can
give it one, since the entries of 64 page tables may all lead to one page, and
then the count is zero again.
-/

namespace Jos

open Jos.Lib

variable {n : ℕ} {M : Machine} {L : Layout M} {c : Fin n} {e : EnvIdx} {s t : Kernel n}
  {m m' : Mem n} {va perm : Word} {d p : ℕ}

/-! ### Operations -/

inductive SpaceOp where
  | pageAlloc (allocZero : Bool)
  | pageFree (pp : ℕ)
  | pgdirWalk (e : EnvIdx) (va : Word)
  | pageInsert (e : EnvIdx) (pp : ℕ) (va perm : Word)
  | pageRemove (e : EnvIdx) (va : Word)
  | envAlloc (parentId : Word)
  | envFree (e : EnvIdx)

namespace SpaceOp

/-- The call; `page_insert` and its like get the directory of an
environment. -/
def run (M : Machine) (c : Fin n) : SpaceOp → KM n Unit
  | .pageAlloc allocZero => do
      let _ ← runMem fun s => Jos.pageAlloc M allocZero s.mem
  | .pageFree pp => changeMem fun s => Jos.pageFree pp s.mem
  | .pgdirWalk e va => withPgdir e fun d => do
      let _ ← runMem fun s => Jos.pgdirWalk M d va true s.mem
  | .pageInsert e pp va perm => withPgdir e fun d => do
      let _ ← runMem fun s => Jos.pageInsert M (s.ctx c) d (some pp) va perm s.mem
  | .pageRemove e va => withPgdir e fun d =>
      changeMem fun s => Jos.pageRemove M (s.ctx c) d va s.mem
  | .envAlloc parentId => do
      let _ ← Jos.envAlloc M c parentId
  | .envFree e => Jos.envFree M c e

/-- The page is one that `page_alloc` hands out, or the VGA buffer; it is not
free, and no directory or page table. -/
structure ValidPage (L : Layout M) (s : Kernel n) (p : ℕ) : Prop where
  counted : L.counted p
  plain : Plain s.mem.word s.dirs p
  off : ¬ s.mem.pool.On p

/-- The arguments are valid: user addresses, and pages that may be mapped; what
is freed was handed out and is not mapped. -/
def Valid (L : Layout M) (s : Kernel n) : SpaceOp → Prop
  | .pageAlloc _ | .envAlloc _ | .envFree _ => True
  | .pageFree pp => L.pool pp ∧ ¬ s.mem.pool.On pp ∧ pageRefs s.mem.word s.dirs pp = 0
  | .pgdirWalk _ va | .pageRemove _ va => userPage va
  | .pageInsert _ pp va perm => userPage va ∧ ValidPage L s pp ∧ perm.toNat < 4096

/-- No page gets its 65536th reference, that of the boot to the VGA buffer
included. -/
def Room (s : Kernel n) : SpaceOp → Prop
  | .pageInsert e pp va _ =>
      (mapping s.mem.word s.dirs e (pdx va) (ptx va)).map pteFrame = some pp ∨
        pageLoad none s.mem.word s.dirs pp < 65535
  | .envAlloc _ => pageLoad none s.mem.word s.dirs vgaFrame < 65535
  | _ => True

/-- One call after the other, as long as they return. -/
def runAll (M : Machine) (c : Fin n) (ops : List SpaceOp) (s : Kernel n) : Option (Kernel n) :=
  ops.foldlM (fun s op => match op.run M c s with
    | .ret () t => some t
    | _ => none) s

theorem runAll_cons {op : SpaceOp} {ops : List SpaceOp} :
    runAll M c (op :: ops) s = some t ↔
      ∃ u, op.run M c s = .ret () u ∧ runAll M c ops u = some t := by
  simp only [runAll, List.foldlM_cons, Option.bind_eq_bind, Option.bind_eq_some_iff]
  refine exists_congr fun u => and_congr_left fun _ => ?_
  cases op.run M c s with
  | ret a v => simp
  | leave v => simp
  | stop why v => simp

theorem runAll_append (ops ops' : List SpaceOp) :
    runAll M c (ops ++ ops') s = (runAll M c ops s).bind (runAll M c ops') :=
  List.foldlM_append

/-- A call with valid arguments that returns, on any CPU. -/
def Step (L : Layout M) (s : Kernel n) (op : SpaceOp) (t : Kernel n) : Prop :=
  op.Valid L s ∧ ∃ c, op.run M c s = .ret () t

end SpaceOp

/-- The count of every page that `page_alloc` hands out is the number of
references to it, and free pages have none. -/
structure CountsExact (L : Layout M) (s : Kernel n) : Prop where
  ref : ∀ {p}, L.pool p → (s.mem.pages p).ppRef.toNat = pageRefs s.mem.word s.dirs p
  free : ∀ {p}, s.mem.pool.On p → pageRefs s.mem.word s.dirs p = 0

/-! ### What each operation preserves -/

structure CountInv (L : Layout M) (s : Kernel n) : Prop where
  mem : MemInv L False none s.dirs s.mem
  bounded : Bounded L 65535 s.dirs s.mem
  pgdir : ∀ {e}, s.dirs e = none ↔ (s.envs e).envStatus = .free
  slots : FreeSlots s

namespace CountInv

theorem setMem (h : CountInv L s) (hmem : MemInv L False none s.dirs m)
    (hbound : Bounded L 65535 s.dirs m) : CountInv L (s.setMem m) :=
  ⟨hmem, hbound, h.pgdir, h.slots⟩

theorem exact (h : CountInv L s) : CountsExact L s where
  ref {p} hp := by
    have hne : p ≠ vgaFrame := by
      rintro rfl
      exact L.pool_ne_vga hp
    have hload : pageLoad none s.mem.word s.dirs p = pageRefs s.mem.word s.dirs p := by
      simp [pageLoad, hne]
    rw [← hload]
    exact toNat_ref h.mem.counts (Or.inl hp) (h.bounded p (Or.inl hp))
  free hp := (h.mem.refs_of_on hp).2

theorem pageAlloc {z : Bool} {r : Option ℕ} (h : CountInv L s)
    (hrun : Jos.pageAlloc M z s.mem = .ok (r, m)) : CountInv L (s.setMem m) := by
  cases r with
  | none =>
      rw [(pageAlloc_none hrun).2]
      exact h
  | some p =>
      have hal := pageAlloc_spec h.mem hrun
      exact h.setMem hal.inv (hal.bounded h.bounded)

theorem pageFree (h : CountInv L s) (hpool : L.pool p) (hoff : ¬ s.mem.pool.On p)
    (hunref : pageRefs s.mem.word s.dirs p = 0) (hrun : Jos.pageFree p s.mem = .ok m) :
    CountInv L (s.setMem m) := by
  obtain ⟨hinv, hword, -, -⟩ := pageFree_spec h.mem hpool hoff hunref hrun
  refine h.setMem hinv ?_
  unfold Bounded
  rw [hword]
  exact h.bounded

theorem pgdirWalk {r : Option (ℕ × PtIdx)} (h : CountInv L s) (hd : s.dirs e = some d)
    (hva : userPage va) (hrun : Jos.pgdirWalk M d va true s.mem = .ok (r, m)) :
    CountInv L (s.setMem m) := by
  rcases pgdirWalk_spec h.mem hd (pdx_lt_of_lt_utop hva.1) hrun with ⟨-, rfl⟩ | ⟨t, -, hwalked⟩
  · exact h
  · exact h.setMem hwalked.inv (hwalked.bounded (by norm_num) h.bounded)

theorem pageInsert {r : Word} (h : CountInv L s) (hd : s.dirs e = some d)
    (hvalid : SpaceOp.Valid L s (.pageInsert e p va perm))
    (hroom : SpaceOp.Room s (.pageInsert e p va perm))
    (hrun : Jos.pageInsert M (s.ctx c) d (some p) va perm s.mem = .ok (r, m)) :
    CountInv L (s.setMem m) := by
  obtain ⟨hva, hpage, hperm⟩ := hvalid
  rcases pageInsert_ret hrun with rfl | ⟨-, rfl⟩
  · have hins := pageInsert_spec h.mem hd (pdx_lt_of_lt_utop hva.1) hpage.counted hpage.plain
      hpage.off hperm (fun w hw hcounted => ?_) hrun
    · refine h.setMem hins.inv (hins.bounded (by norm_num) h.bounded fun _ => ?_)
      rwa [pteFrame_mkPte (L.counted_lt hpage.counted) hperm]
    · have hle := h.bounded _ hcounted
      have hone := hit_le_one (some p) (pteFrame w)
      omega
  · exact h

theorem pageRemove (h : CountInv L s) (hd : s.dirs e = some d) (hva : userPage va)
    (hrun : Jos.pageRemove M (s.ctx c) d va s.mem = .ok m) : CountInv L (s.setMem m) := by
  have hremoved := pageRemove_spec h.mem hd (pdx_lt_of_lt_utop hva.1)
    (fun w _ hcounted => (h.bounded _ hcounted).trans (by norm_num)) hrun
  exact h.setMem hremoved.inv (hremoved.bounded h.bounded)

theorem envAlloc {parentId : Word} {r : Except Word EnvIdx} (h : CountInv L s)
    (hroom : SpaceOp.Room s (.envAlloc parentId))
    (hrun : Jos.envAlloc M c parentId s = .ret r t) : CountInv L t := by
  have hwp := envAlloc_wp.ret hrun
  cases r with
  | error r =>
      rw [hwp]
      exact h
  | ok e =>
      obtain ⟨d, m, hhead, hsetup, rfl⟩ := hwp
      have hother (e') (he : e' ≠ e) : (s.allocated e d m parentId).envs e' = s.envs e' :=
        Kernel.allocated_of_ne he
      obtain ⟨hfree, hslots⟩ := h.slots.pop hhead rfl
        (by simp [Kernel.allocated_self]) hother
      have hnone : s.dirs e = none := h.pgdir.mpr hfree
      have hdirs : (s.allocated e d m parentId).dirs = Function.update s.dirs e (some d) :=
        dirs_setEnv _
      have hset := envSetupVm_spec h.mem hnone hsetup
      refine ⟨?_, ?_, fun {e'} => ?_, hslots⟩
      · rw [hdirs]
        exact hset.inv
      · rw [hdirs]
        exact hset.bounded (by norm_num) h.bounded hroom
      · by_cases he : e' = e
        · subst he
          rw [hdirs, Function.update_self]
          simp [Kernel.allocated_self]
        · rw [hdirs, Function.update_of_ne he, hother e' he]
          exact h.pgdir

theorem envFree (h : CountInv L s) (hrun : Jos.envFree M c e s = .ret () t) : CountInv L t := by
  obtain ⟨hdir, hfreed⟩ := envFree_wp.ret hrun
  rename_i d m
  have hdown := envFreeMem_spec h.mem.freeing h.bounded.freeing (by norm_num) hdir hfreed
  have hother (e') (he : e' ≠ e) : (s.freed c e m).envs e' = s.envs e' := Kernel.freed_of_ne he
  have hlive : (s.envs e).envStatus ≠ .free := fun hfree => by
    have hnone : (s.envs e).envPgdir = none := h.pgdir.mpr hfree
    rw [hnone] at hdir
    cases hdir
  refine ⟨?_, ?_, fun {e'} => ?_, h.slots.push hlive ?_ hother rfl⟩
  · rw [dirs_freed]
    exact hdown.inv
  · rw [dirs_freed]
    exact hdown.bounded
  · by_cases he : e' = e
    · subst he
      rw [dirs_freed, Function.update_self]
      simp [Kernel.freed_self]
    · rw [dirs_freed, Function.update_of_ne he, hother e' he]
      exact h.pgdir
  · simp [Kernel.freed_self]

theorem withPgdir {α : Type} {f : ℕ → KM n α} {R : α → Kernel n → Prop}
    (hf : ∀ d, s.dirs e = some d → Comp.wp (f d) R (fun _ => True) (fun _ => True) s) :
    Comp.wp (Jos.withPgdir e f) R (fun _ => True) (fun _ => True) s := by
  unfold Jos.withPgdir
  simp only [Comp.wp_bind, Comp.wp_get]
  cases hd : (s.envs e).envPgdir with
  | none => exact (Comp.wp_stop _).mpr trivial
  | some d => exact hf d hd

theorem run {op : SpaceOp} (h : CountInv L s) (hvalid : op.Valid L s) (hroom : op.Room s) :
    Comp.wp (op.run M c) (fun _ t => CountInv L t) (fun _ => True) (fun _ => True) s := by
  cases op with
  | pageAlloc z =>
      simp only [SpaceOp.run, Comp.wp_bind, wp_runMem, Comp.wp_pure]
      exact ⟨fun r m hm => h.pageAlloc hm, fun _ _ => trivial⟩
  | pageFree p =>
      simp only [SpaceOp.run, wp_changeMem]
      exact ⟨fun m hm => h.pageFree hvalid.1 hvalid.2.1 hvalid.2.2 hm, fun _ _ => trivial⟩
  | pgdirWalk e va =>
      refine withPgdir fun d hd => ?_
      simp only [Comp.wp_bind, wp_runMem, Comp.wp_pure]
      exact ⟨fun r m hm => h.pgdirWalk hd hvalid hm, fun _ _ => trivial⟩
  | pageInsert e p va perm =>
      refine withPgdir fun d hd => ?_
      simp only [Comp.wp_bind, wp_runMem, Comp.wp_pure]
      exact ⟨fun r m hm => h.pageInsert hd hvalid hroom hm, fun _ _ => trivial⟩
  | pageRemove e va =>
      refine withPgdir fun d hd => ?_
      simp only [wp_changeMem]
      exact ⟨fun m hm => h.pageRemove hd hvalid hm, fun _ _ => trivial⟩
  | envAlloc parentId =>
      simp only [SpaceOp.run, Comp.wp_bind, Comp.wp_pure]
      exact Comp.wp_intro (fun _ _ hret => h.envAlloc hroom hret) (fun _ _ => trivial)
        fun _ _ _ => trivial
  | envFree e =>
      exact Comp.wp_intro (fun _ _ hret => h.envFree hret) (fun _ _ => trivial)
        fun _ _ _ => trivial

theorem init (h : MemInit L m) : CountInv L (initial m) where
  mem := h.loading.inv
  bounded := bounded_init (by norm_num)
  pgdir := iff_of_true rfl rfl
  slots := (envInit_inv m).free

end CountInv

/-- As long as no page gets its 65536th reference, the counts are exact after
any sequence of operations. -/
theorem counts_exact (hinit : MemInit L m)
    (hrun : Run (SpaceOp.Step L) (fun s op => op.Room s) (initial m) s) : CountsExact L s :=
  (hrun.invariant (I := CountInv L) (fun h hroom ⟨hvalid, _, hret⟩ => (h.run hvalid hroom).ret hret)
    (.init hinit)).exact

/-! ### One page in many entries -/

/-- Page `p` can be entered in the address space of `e`. -/
structure Mapper (L : Layout M) (e : EnvIdx) (p : ℕ) (s : Kernel n) : Prop where
  mem : Tidy L False none s.dirs s.mem
  dir : s.dirs e ≠ none
  page : SpaceOp.ValidPage L s p

namespace Mapper

/-- A page table is made. -/
theorem walk (h : Mapper L e p s) (hva : userPage va)
    (hrun : SpaceOp.run M c (.pgdirWalk e va) s = .ret () t) :
    Mapper L e p t ∧ t.dirs = s.dirs ∧
      ∀ i j, mapping t.mem.word t.dirs e i j = mapping s.mem.word s.dirs e i j := by
  have hi := pdx_lt_of_lt_utop hva.1
  have hwp : Comp.wp (SpaceOp.run M c (.pgdirWalk e va)) (fun _ t => ∃ d r m, s.dirs e = some d ∧
      pgdirWalk M d va true s.mem = .ok (r, m) ∧ t = s.setMem m) (fun _ => True)
      (fun _ => True) s := by
    refine CountInv.withPgdir fun d hd => ?_
    simp only [Comp.wp_bind, wp_runMem, Comp.wp_pure]
    exact ⟨fun r m hm => ⟨d, r, m, hd, hm, rfl⟩, fun _ _ => trivial⟩
  obtain ⟨d, r, m, hd, hwalk, rfl⟩ := hwp.ret hrun
  rcases pgdirWalk_spec h.mem.toMemInv hd hi hwalk with ⟨-, rfl⟩ | ⟨q, -, hwalked⟩
  · exact ⟨h, rfl, fun _ _ => rfl⟩
  · exact ⟨⟨h.mem.walked hd hi hwalk, h.dir, h.page.counted, hwalked.plain h.page.plain h.page.off,
      fun hon => h.page.off (hwalked.on p hon)⟩, rfl, hwalked.maps e⟩

/-- The page is entered where nothing was. -/
theorem insert (c : Fin n) (va perm : Word) (h : Mapper L e p s) (hva : userPage va)
    (hperm : perm.toNat < 4096)
    (htable : tableAt s.mem.word s.dirs e (pdx va) ≠ none)
    (hnone : mapping s.mem.word s.dirs e (pdx va) (ptx va) = none) :
    ∃ m, SpaceOp.Step L s (.pageInsert e p va perm) (s.setMem m) ∧ Mapper L e p (s.setMem m) ∧
      (∀ i, tableAt s.mem.word s.dirs e i ≠ none → tableAt m.word s.dirs e i ≠ none) ∧
      ∀ i j, mapping m.word s.dirs e i j = if i = pdx va ∧ j = ptx va then
        some (mkPte (frame2pa p) perm) else mapping s.mem.word s.dirs e i j := by
  obtain ⟨d, hd⟩ := Option.ne_none_iff_exists'.mp h.dir
  have hi := pdx_lt_of_lt_utop hva.1
  obtain ⟨m, hrun, -⟩ : ∃ m, pageInsert M (s.ctx c) d (some p) va perm s.mem = .ok (0, m) ∧ _ :=
    pageInsert_returns h.mem hd hi h.page.off (Or.inl htable) h.mem.notNull
  have hins := pageInsert_spec h.mem.toMemInv hd hi h.page.counted h.page.plain h.page.off hperm
    (fun w hw => by rw [hnone] at hw; cases hw) hrun
  have hoffpage (q) (hq : some p = some q) : ¬ s.mem.pool.On q := by
    obtain rfl := Option.some.inj hq
    exact h.page.off
  have htidy := h.mem.inserted hd hi hoffpage nofun hins.inv hrun
  have hmaps (i j) : mapping m.word s.dirs e i j = if i = pdx va ∧ j = ptx va then
      some (mkPte (frame2pa p) perm) else mapping s.mem.word s.dirs e i j := by
    rw [hins.maps]
    simp only [true_and]
  have hplain : Plain m.word s.dirs p := by
    refine ⟨h.page.plain.dir, fun e' i ht => ?_⟩
    by_cases heq : e' = e ∧ i = pdx va
    · obtain ⟨rfl, rfl⟩ := heq
      obtain ⟨q, hq⟩ := Option.ne_none_iff_exists'.mp htable
      rw [hins.tables _ _ q hq] at ht
      exact h.page.plain.table _ _ (hq.trans ht)
    · rw [hins.otherTables e' i heq] at ht
      exact h.page.plain.table e' i ht
  have hoff : ¬ m.pool.On p := by
    have hw := hmaps (pdx va) (ptx va)
    rw [if_pos ⟨rfl, rfl⟩] at hw
    have hnot := hins.inv.not_on_page hw
    rwa [pteFrame_mkPte (L.counted_lt h.page.counted) hperm] at hnot
  refine ⟨m, ⟨⟨hva, h.page, hperm⟩, c, ?_⟩, ⟨htidy, h.dir, h.page.counted, hplain, hoff⟩,
    fun i ht => ?_, hmaps⟩
  · have hdir : (s.envs e).envPgdir = some d := hd
    have hins' : runMem (fun s => pageInsert M (s.ctx c) d (some p) va perm s.mem) s =
        .ret 0 (s.setMem m) := by
      simp only [runMem, hrun]
    simp only [SpaceOp.run, withPgdir, Comp.bind_apply, Comp.get_apply, hdir, hins']
    rfl
  · obtain ⟨q, hq⟩ := Option.ne_none_iff_exists'.mp ht
    rw [hins.tables _ _ q hq]
    exact Option.some_ne_none q

theorem userPage_pgaddr {i j : PtIdx} (hi : (i : ℕ) < 955) : userPage (pgaddr i j 0#32) := by
  have hj := j.isLt
  have htop : utop.toNat = 955 * 4194304 := by decide
  refine ⟨?_, ?_⟩
  · rw [BitVec.lt_def, pgaddr_toNat, htop]
    omega
  · apply BitVec.eq_of_toNat_eq
    rw [BitVec.toNat_umod, pgaddr_toNat]
    simp
    omega

/-- The page is entered in one place after the other. -/
theorem fill (c : Fin n) {l : List (PtIdx × PtIdx)} (h : Mapper L e p s) (hnodup : l.Nodup)
    (hl : ∀ x ∈ l, tableAt s.mem.word s.dirs e x.1 ≠ none ∧
      mapping s.mem.word s.dirs e x.1 x.2 = none) :
    ∃ t, Run (SpaceOp.Step L) (fun _ _ => True) s t ∧
      (∀ x ∈ l, mapping t.mem.word t.dirs e x.1 x.2 = some (mkPte (frame2pa p) 7#32)) ∧
      ∀ x ∉ l, mapping t.mem.word t.dirs e x.1 x.2 = mapping s.mem.word s.dirs e x.1 x.2 := by
  induction l generalizing s with
  | nil => exact ⟨s, .refl, by simp, fun _ _ => rfl⟩
  | cons x l ih =>
      obtain ⟨hx, hnodup⟩ := List.nodup_cons.mp hnodup
      obtain ⟨htable, hnone⟩ := hl x (by simp)
      obtain ⟨q, hq⟩ := Option.ne_none_iff_exists'.mp htable
      obtain ⟨m, hstep, hmapper, htables, hmaps⟩ := h.insert c (pgaddr x.1 x.2 0#32) 7#32
        (userPage_pgaddr (TableInv.user_index hq)) (by decide : (7#32 : Word).toNat < 4096)
        (by rwa [pdx_pgaddr]) (by rwa [pdx_pgaddr, ptx_pgaddr])
      have hself (y : PtIdx × PtIdx) : mapping m.word s.dirs e y.1 y.2 =
          if y = x then some (mkPte (frame2pa p) 7#32)
          else mapping s.mem.word s.dirs e y.1 y.2 := by
        rw [hmaps, pdx_pgaddr, ptx_pgaddr]
        exact if_congr Prod.ext_iff.symm rfl rfl
      obtain ⟨t, hrun, hdone, hrest⟩ := ih hmapper hnodup fun y hy => by
        obtain ⟨hyt, hyn⟩ := hl y (by simp [hy])
        have hne : y ≠ x := by
          rintro rfl
          exact hx hy
        exact ⟨htables _ hyt, ((hself y).trans (if_neg hne)).trans hyn⟩
      refine ⟨t, .head ⟨_, trivial, hstep⟩ hrun, fun y hy => ?_, fun y hy => ?_⟩
      · rcases List.mem_cons.mp hy with rfl | hy
        · rw [hrest y hx]
          exact (hself y).trans (if_pos rfl)
        · exact hdone y hy
      · have hne : y ≠ x := fun heq => hy (by simp [heq])
        rw [hrest y fun hyl => hy (by simp [hyl])]
        exact (hself y).trans (if_neg hne)

/-- Page tables are made one after the other. -/
theorem walks {l : List Word} (h : Mapper L e p s) (hl : ∀ va ∈ l, userPage va)
    (hrun : SpaceOp.runAll M c (l.map (.pgdirWalk e)) s = some t) :
    Run (SpaceOp.Step L) (fun _ _ => True) s t ∧ Mapper L e p t ∧
      ∀ i j, mapping t.mem.word t.dirs e i j = mapping s.mem.word s.dirs e i j := by
  induction l generalizing s with
  | nil =>
      cases hrun
      exact ⟨.refl, h, fun _ _ => rfl⟩
  | cons va l ih =>
      rw [List.map_cons, SpaceOp.runAll_cons] at hrun
      obtain ⟨u, hu, hrun⟩ := hrun
      obtain ⟨hmapper, -, hmaps⟩ := h.walk (hl va (by simp)) hu
      obtain ⟨hrest, hmapper', hmaps'⟩ := ih hmapper (fun va' hva' => hl va' (by simp [hva'])) hrun
      have hstep : SpaceOp.Step L s (.pgdirWalk e va) u := ⟨hl va (by simp), c, hu⟩
      refine ⟨.head ⟨_, trivial, hstep⟩ hrest, hmapper', fun i j => ?_⟩
      rw [hmaps', hmaps]

end Mapper

/-! ### The 65536th reference -/

/-- The indexes of 64 page tables. -/
def tableIdx (i : Fin 64) : PtIdx := (i.natAdd 64).castLE (by decide)

/-- An address in the region of each of them. -/
def regions : List Word := (List.finRange 64).map fun i => pgaddr (tableIdx i) 0 0#32

theorem regions_user : ∀ va ∈ regions, userPage va := by
  intro va hva
  obtain ⟨i, -, rfl⟩ := List.mem_map.mp hva
  have hi := i.isLt
  have hidx : (tableIdx i : ℕ) = 64 + i := rfl
  exact Mapper.userPage_pgaddr (by omega)

/-- The first environment is allocated. It maps the VGA buffer only. -/
theorem first_env : ∃ s : Kernel 1, SpaceOp.run sampleMachine 0 (.envAlloc 0)
      (initial (sampleMem 1)) = .ret () s ∧
    Tidy sampleLayout False none s.dirs s.mem ∧ s.dirs 0 = some 2047 ∧
    ∀ i j, mapping s.mem.word s.dirs 0 i j =
      if i = pdx vgaUser ∧ j = ptx vgaUser then some vgaPte else none := by
  have htidy : Tidy sampleLayout False none (initial (sampleMem 1)).dirs (sampleMem 1) :=
    (sample_init 1).tidy (sample_unlinked 1) sample_vga
  obtain ⟨m, hsetup⟩ := envSetupVm_two (x := (initial (sampleMem 1)).ctx 0) (e := 0) (p := 2047)
    (q := 2046) htidy rfl rfl rfl
  have hnone : (initial (sampleMem 1)).dirs 0 = none := rfl
  have hset := envSetupVm_spec htidy.toMemInv hnone hsetup
  have hdirs : ((initial (sampleMem 1)).allocated 0 2047 m 0).dirs =
      Function.update (initial (sampleMem 1)).dirs 0 (some 2047) := dirs_setEnv _
  refine ⟨(initial (sampleMem 1)).allocated 0 2047 m 0, ?_, ?_, ?_, fun i j => ?_⟩
  · simp only [SpaceOp.run, Comp.bind_of_ret (envAlloc_done rfl hsetup)]
    rfl
  · rw [hdirs]
    exact htidy.setUp hnone hsetup
  · rw [hdirs, Function.update_self]
  · rw [hdirs]
    exact (hset.maps 0 i j).trans (if_pos rfl)

/-- It gets a page that it may map. -/
theorem first_mapper : ∃ (s : Kernel 1) (p : ℕ),
    SpaceOp.runAll sampleMachine 0 [.envAlloc 0, .pageAlloc true] (initial (sampleMem 1)) = some s ∧
    Run (SpaceOp.Step sampleLayout) (fun s op => op.Room s) (initial (sampleMem 1)) s ∧
    sampleLayout.pool p ∧ pageRefs s.mem.word s.dirs p = 0 ∧ Mapper sampleLayout 0 p s ∧
    tableAt s.mem.word s.dirs 0 (pdx vgaUser) ≠ none ∧
    ∀ i j, ¬ (i = pdx vgaUser ∧ j = ptx vgaUser) → mapping s.mem.word s.dirs 0 i j = none := by
  obtain ⟨s, hrun, htidy, hdir, hmaps⟩ := first_env
  have hfree : (SpaceOp.runAll sampleMachine 0 [.envAlloc 0] (initial (sampleMem 1))).any
      (fun t => t.mem.pageFreeList.isSome) = true := by
    decide +kernel
  rw [SpaceOp.runAll_cons.mpr ⟨s, hrun, rfl⟩] at hfree
  obtain ⟨p, hhead⟩ := Option.isSome_iff_exists.mp hfree
  have halloc := pageAlloc_returns htidy hhead
  set m := (s.mem.pop p).fill p fun _ => 0#32 with hm
  have hal := pageAlloc_spec htidy.toMemInv halloc
  have hstep : SpaceOp.run sampleMachine 0 (.pageAlloc true) s = .ret () (s.setMem m) := by
    simp only [SpaceOp.run, Comp.bind_apply, runMem, halloc]
    rfl
  have hroom : SpaceOp.Room (initial (sampleMem 1)) (.envAlloc 0) := sample_vga_load (by norm_num)
  have hslot (x) : slotRef m.word s.dirs x = slotRef s.mem.word s.dirs x := congrFun hal.slots x
  refine ⟨s.setMem m, p, SpaceOp.runAll_cons.mpr ⟨s, hrun, SpaceOp.runAll_cons.mpr ⟨_, hstep, rfl⟩⟩,
    .head ⟨.envAlloc 0, hroom, trivial, 0, hrun⟩
      (.single ⟨.pageAlloc true, trivial, trivial, 0, hstep⟩),
    hal.pool, hal.unref,
    ⟨htidy.allocated halloc, ?_, Or.inl hal.pool, plain_of_unref hal.unref, hal.off⟩, ?_,
    fun i j hne => ?_⟩
  · exact fun hd => Option.some_ne_none _ (hdir.symm.trans hd)
  · have htable : tableAt m.word s.dirs 0 (pdx vgaUser) = _ := hslot (.table 0 (pdx vgaUser))
    have hvga := hmaps (pdx vgaUser) (ptx vgaUser)
    intro hnone
    rw [mapping_of_none (htable.symm.trans hnone), if_pos ⟨rfl, rfl⟩] at hvga
    cases hvga
  · have hpage : (mapping m.word s.dirs 0 i j).map pteFrame =
        (mapping s.mem.word s.dirs 0 i j).map pteFrame := hslot (.page 0 i j)
    rw [hmaps, if_neg hne] at hpage
    exact Option.map_eq_none_iff.mp hpage

/-- It maps the page in the region of the VGA buffer. -/
theorem counts_exact_first : ∃ s : Kernel 1,
    Run (SpaceOp.Step sampleLayout) (fun s op => op.Room s) (initial (sampleMem 1)) s ∧
    mapping s.mem.word s.dirs 0 (pdx utemp) (ptx utemp) ≠ none ∧ CountsExact sampleLayout s := by
  obtain ⟨s, p, -, hfirst, hpool, hunref, hmapper, htable, hnone⟩ := first_mapper
  have hidx : ¬ (pdx utemp = pdx vgaUser ∧ ptx utemp = ptx vgaUser) := by decide
  obtain ⟨m, hstep, -, -, hmaps⟩ := hmapper.insert 0 utemp 7#32
    (by decide) (by decide) htable (hnone _ _ hidx)
  have hroom : SpaceOp.Room s (.pageInsert 0 p utemp 7#32) := by
    have hne : p ≠ vgaFrame := by
      rintro rfl
      exact sampleLayout.pool_ne_vga hpool
    refine Or.inr ?_
    simp [pageLoad, hne, hunref]
  have hrun := hfirst.tail ⟨_, hroom, hstep⟩
  refine ⟨_, hrun, ?_, counts_exact (sample_init 1) hrun⟩
  have hmap : mapping m.word s.dirs 0 (pdx utemp) (ptx utemp) = _ := hmaps _ _
  rw [if_pos ⟨rfl, rfl⟩] at hmap
  exact fun hnot => Option.some_ne_none _ (hmap.symm.trans hnot)

/-- The page tables are made. -/
theorem tables_made : (SpaceOp.runAll sampleMachine 0
    ([.envAlloc 0, .pageAlloc true] ++ regions.map (.pgdirWalk 0)) (initial (sampleMem 1))).any
      (fun t => (List.finRange 64).all fun i =>
        (tableAt t.mem.word t.dirs 0 (tableIdx i)).isSome) = true := by
  decide +kernel

/-- Their entries. -/
def entries : List (PtIdx × PtIdx) := ((List.finRange 64).map tableIdx) ×ˢ List.finRange 1024

theorem tableIdx_injective : Function.Injective tableIdx :=
  (Fin.castLE_injective _).comp (Fin.natAdd_injective _ _)

theorem entries_nodup : entries.Nodup :=
  ((List.nodup_finRange 64).map tableIdx_injective).product (List.nodup_finRange 1024)

theorem mem_entries {x : PtIdx × PtIdx} : x ∈ entries ↔ ∃ i, tableIdx i = x.1 := by
  obtain ⟨i, j⟩ := x
  simp [entries, List.mem_product]

/-- One page is entered in every entry of 64 page tables, and its count, which
has 16 bits, is wrong. -/
theorem not_counts_exact : ¬ ∀ (m : Mem 1) (s : Kernel 1), MemInit sampleLayout m →
    Run (SpaceOp.Step sampleLayout) (fun _ _ => True) (initial m) s →
    CountsExact sampleLayout s := by
  intro hexact
  obtain ⟨s, p, hstart, hfirst, hpool, -, hmapper, -, hnone⟩ := first_mapper
  have htables := tables_made
  rw [SpaceOp.runAll_append, hstart] at htables
  obtain ⟨t, hwalks, htables⟩ := (Option.any_eq_true _ _).mp htables
  obtain ⟨hmade, hmapper, hmaps⟩ := hmapper.walks regions_user hwalks
  obtain ⟨u, hfilled, hentered, -⟩ := hmapper.fill 0 entries_nodup fun x hx => by
    obtain ⟨i, hi⟩ := mem_entries.mp hx
    rw [← hi, hmaps]
    have hvga : (pdx vgaUser : ℕ) < (tableIdx i : ℕ) :=
      lt_of_lt_of_le (by decide) (Nat.le_add_right 64 i)
    refine ⟨?_, hnone _ _ fun heq => hvga.ne (congrArg Fin.val heq.1).symm⟩
    have hsome := List.all_eq_true.mp htables i (List.mem_finRange i)
    exact Option.ne_none_iff_isSome.mpr hsome
  have hrefs : Fintype.card (Fin 64 × PtIdx) ≤ pageRefs u.mem.word u.dirs p :=
    card_le_refs (fun k => .page 0 (tableIdx k.1) k.2) (fun k k' h => by
      injection h with he hi hj
      exact Prod.ext (tableIdx_injective hi) hj) fun k => by
        have hk := hentered (tableIdx k.1, k.2) (mem_entries.mpr ⟨k.1, rfl⟩)
        rw [slotRef, hk, Option.map_some]
        exact congrArg some (pteFrame_mkPte (sampleLayout.counted_lt (Or.inl hpool)) (by decide))
  have hcard : Fintype.card (Fin 64 × PtIdx) = 65536 := by
    rw [Fintype.card_prod, Fintype.card_fin, Fintype.card_fin]
  have href := (hexact _ u (sample_init 1) ((hfirst.mono fun _ _ _ => trivial).trans
    (hmade.trans hfilled))).ref hpool
  have hlt := (u.mem.pages p).ppRef.isLt
  omega

end Jos
