import Jos.System.Counting
import Jos.System.Delivery
import Jos.System.Image
import Jos.System.RoundRobin
import Jos.System.Transfer

/-!
A page that is sent over and over. Environment 0 sends its stack page to
environment 1, which receives it at one address after the other, until the
count of the page is zero again. Received once more at the first address, the
page is counted and released, so it is mapped and on the free list, and the next
reception gets it as a page table.
-/

namespace Jos

open Jos.Lib

variable {s t u v : Kernel 1} {x y z : EnvIdx} {st : EnvStatus} {dst value : Word} {p : ℕ}

/-! ### Two environments take turns -/

/-- `x` runs, `y` is the only other environment that may be made runnable, and
its status is `st`. -/
structure Duo (x y : EnvIdx) (st : EnvStatus) (s : Kernel 1) : Prop where
  ne : x ≠ y
  cpu : s.cpuEnv 0 = some x
  running : (s.envs x).envStatus = .running
  other : (s.envs y).envStatus = st
  rest : ∀ z, z ≠ x → z ≠ y → (s.envs z).envStatus ≠ .runnable
  cr3 : s.dirs x = some (s.mem.cr3 0)
  dir : s.dirs y ≠ none

/-- The address spaces, the allocator and the ids are the same. -/
structure SameSpaces (s t : Kernel 1) : Prop where
  dirs : t.dirs = s.dirs
  word : t.mem.word = s.mem.word
  pool : t.mem.pool = s.mem.pool
  ids : ∀ z, (t.envs z).envId = (s.envs z).envId

theorem SameSpaces.trans (h : SameSpaces s t) (h' : SameSpaces t u) : SameSpaces s u where
  dirs := h'.dirs.trans h.dirs
  word := h'.word.trans h.word
  pool := h'.pool.trans h.pool
  ids z := (h'.ids z).trans (h.ids z)

/-- A scan finds the only environment that is runnable. -/
theorem pick_only {last : Option EnvIdx} (hy : (s.envs y).envStatus = .runnable)
    (hrest : ∀ z, z ≠ y → (s.envs z).envStatus ≠ .runnable) : pick s last = some y := by
  cases hpick : pick s last with
  | none =>
      have hnone := List.find?_eq_none.mp hpick y (mem_schedOrder _ y)
      simp [hy] at hnone
  | some z =>
      have hz := List.find?_some hpick
      by_contra hne
      exact hrest z (fun heq => hne (congrArg some heq)) (of_decide_eq_true hz)

/-- `sched_yield` gives the CPU to the other. -/
theorem schedYield_turn {d : ℕ} (hne : x ≠ y) (hcpu : s.cpuEnv 0 = some x)
    (hx : (s.envs x).envStatus ≠ .runnable) (hst : ((s.demote 0).envs x).envStatus = st)
    (hy : (s.envs y).envStatus = .runnable)
    (hrest : ∀ z, z ≠ x → z ≠ y → (s.envs z).envStatus ≠ .runnable)
    (hdir : s.dirs x ≠ none) (hd : s.dirs y = some d) :
    schedYield sampleMachine 0 s = .leave ((s.demote 0).resume 0 y d) ∧
      Duo y x st ((s.demote 0).resume 0 y d) := by
  have hpick : pick s (s.cpuEnv 0) = some y := by
    refine pick_only hy fun z hz => ?_
    by_cases hzx : z = x
    · rwa [hzx]
    · exact hrest z hzx hz
  have hdemote (z : EnvIdx) (hz : z ≠ x) :
      ((s.demote 0).envs z).envStatus = (s.envs z).envStatus := by
    refine demote_status fun hcur => hz ?_
    exact Option.some.inj (hcur.symm.trans hcpu)
  have hdir' : ((s.demote 0).envs y).envPgdir = some d := (demote_pgdir y).trans hd
  have hrun : envRun 0 y s = .leave ((s.demote 0).resume 0 y d) := by
    simp only [envRun, Comp.bind_apply, Comp.modify_apply, Comp.get_apply]
    rw [if_neg (not_not.mpr ((hdemote y hne.symm).trans hy)), hdir']
    rfl
  refine ⟨?_, hne.symm, ?_, ?_, ?_, fun z hzy hzx => ?_, ?_, ?_⟩
  · unfold pick at hpick
    simp only [schedYield, Comp.bind_apply, Comp.get_apply, hpick]
    exact hrun
  · rw [resume_cpuEnv, Function.update_self]
  · rw [resume_status, if_pos rfl]
  · rw [resume_status, if_neg hne, hst]
  · rw [resume_status, if_neg hzy, hdemote z hzx]
    exact hrest z hzx hzy
  · rw [dirs_resume, dirs_demote, hd]
    simp [Kernel.resume, Kernel.setMem, Kernel.setEnv, Kernel.setCur, Kernel.emit, Mem.lcr3]
  · rwa [dirs_resume, dirs_demote]

/-- What `env_run` leaves as it is. -/
theorem sameSpaces_resume {d : ℕ} : SameSpaces s ((s.demote 0).resume 0 y d) where
  dirs := dirs_resume.trans dirs_demote
  word := by
    change (s.demote 0).mem.word = s.mem.word
    rw [demote_mem]
  pool := by
    change (s.demote 0).mem.pool = s.mem.pool
    rw [demote_mem]
  ids z := by
    have hdemote : ((s.demote 0).envs z).envId = (s.envs z).envId := by
      rcases demote_cases s 0 with h | ⟨cur, -, -, h⟩ <;> rw [h]
      by_cases hz : z = cur
      · subst hz
        simp [Kernel.setStatus, Kernel.setEnv]
      · simp [Kernel.setStatus, Kernel.setEnv, hz]
    by_cases hz : z = y
    · subst hz
      rw [Kernel.resume_self]
      exact hdemote
    · rw [Kernel.resume_of_ne hz]
      exact hdemote

theorem sameSpaces_setTf {tf : Trapframe} : SameSpaces s (s.setTf x tf) :=
  ⟨sameView_setTf.dirs, rfl, rfl, sameView_setTf.id⟩

/-- A system call that ends with `sched_yield`. -/
theorem syscall_leave {no a1 a2 a3 a4 a5 : Word} (hcur : s.cpuEnv 0 = some x)
    (hst : (s.envs x).envStatus = .running)
    (hcall : syscall sampleMachine 0 x 0 no a1 a2 a3 a4 a5
      (s.setTf x (syscallTf no a1 a2 a3 a4 a5)) = .leave t) :
    Step sampleMachine s (.trap 0 (syscallTf no a1 a2 a3 a4 a5) 0) t := by
  have hdying : (s.envs x).envStatus ≠ .dying := by simp [hst]
  simp only [Step, step, Option.ite_none_left_eq_some, left_eq_some]
  refine ⟨by simp [hcur], ?_⟩
  rw [trap_apply hcur hdying]
  refine Comp.bind_of_leave ?_
  rw [trapDispatch_syscall]
  exact Comp.bind_of_leave hcall

namespace Duo

theorem setTf {tf : Trapframe} (h : Duo x y st s) : Duo x y st (s.setTf x tf) where
  ne := h.ne
  cpu := h.cpu
  running := (sameView_setTf.status x).trans h.running
  other := (sameView_setTf.status y).trans h.other
  rest z hx hy := by
    rw [sameView_setTf.status]
    exact h.rest z hx hy
  cr3 := by
    rw [dirs_setTf]
    exact h.cr3
  dir := by
    rw [dirs_setTf]
    exact h.dir

/-- The environment that runs yields. -/
theorem yields (h : Duo x y .runnable s) : ∃ t, Step sampleMachine s yieldLabel t ∧
    Duo y x .runnable t ∧ SameSpaces s t ∧ t.log = .envRun 0 y :: s.log := by
  obtain ⟨d, hd⟩ := Option.ne_none_iff_exists'.mp h.dir
  set w := s.setTf x (syscallTf 10 0 0 0 0 0) with hw
  have hduo : Duo x y .runnable w := h.setTf
  have hdemote : w.demote 0 = w.setStatus x .runnable := demote_running hduo.cpu hduo.running
  have hst : ((w.demote 0).envs x).envStatus = .runnable := by
    simp [hdemote, Kernel.setStatus, Kernel.setEnv]
  obtain ⟨hyield, hturned⟩ := schedYield_turn hduo.ne hduo.cpu (by simp [hduo.running]) hst
    hduo.other hduo.rest (by simp [hduo.cr3]) (d := d) (by rw [hw, dirs_setTf, hd])
  refine ⟨_, syscall_leave h.cpu h.running (Comp.bind_of_leave hyield), hturned,
    sameSpaces_setTf.trans sameSpaces_resume, ?_⟩
  exact congrArg (List.cons _) demote_log

/-- It calls `sys_ipc_recv`. -/
theorem receives (h : Duo x y .runnable s) (hdst : dst % 0x1000#32 = 0) : ∃ t,
    Step sampleMachine s (.trap 0 (syscallTf 12 dst 0 0 0 0) 0) t ∧ Duo y x .notRunnable t ∧
      SameSpaces s t ∧ (t.envs x).envIpcRecving = true ∧ (t.envs x).envIpcDstva = dst ∧
      t.log = .envRun 0 y :: .ipcRecv x dst :: s.log := by
  obtain ⟨d, hd⟩ := Option.ne_none_iff_exists'.mp h.dir
  set w := s.setTf x (syscallTf 12 dst 0 0 0 0) with hw
  have hduo : Duo x y .runnable w := h.setTf
  set v := w.received x dst with hv
  have hself : v.envs x = { w.envs x with
      envIpcDstva := dst, envIpcRecving := true, envStatus := .notRunnable } :=
    Function.update_self _ _ _
  have hother (z : EnvIdx) (hz : z ≠ x) : v.envs z = w.envs z := Kernel.received_of_ne hz
  have hdemote : v.demote 0 = v := demote_eq_self fun {cur} hcur => by
    obtain rfl := Option.some.inj (hcur.symm.trans hduo.cpu)
    simp [hself]
  have hvdirs : v.dirs = s.dirs := dirs_received.trans dirs_setTf
  have hrest (z : EnvIdx) (hx : z ≠ x) (hy : z ≠ y) : (v.envs z).envStatus ≠ .runnable := by
    rw [hother z hx]
    exact hduo.rest z hx hy
  obtain ⟨hyield, hturned⟩ : schedYield sampleMachine 0 v =
      .leave ((v.demote 0).resume 0 y d) ∧ Duo y x .notRunnable ((v.demote 0).resume 0 y d) :=
    schedYield_turn hduo.ne hduo.cpu (by simp [hself]) (by rw [hdemote, hself])
      (by rw [hother y hduo.ne.symm, hduo.other]) hrest
      (by rw [hvdirs, h.cr3]; exact Option.some_ne_none _) (by rw [hvdirs, hd])
  have hcall : sysIpcRecv sampleMachine 0 x dst w = .leave ((v.demote 0).resume 0 y d) := by
    unfold sysIpcRecv
    rw [if_neg fun hbad => hbad.2 hdst]
    simp only [Comp.bind_apply, Comp.modify_apply]
    rw [show (w.setEnv x { w.envs x with
      envIpcDstva := dst, envIpcRecving := true, envStatus := .notRunnable }).emit
        (.ipcRecv x dst) = v from rfl, hyield]
  refine ⟨_, syscall_leave h.cpu h.running hcall, hturned, ?_, ?_, ?_, ?_⟩
  · have hreceived : SameSpaces w v := ⟨dirs_received, rfl, rfl, fun z => by
      by_cases hz : z = x
      · subst hz
        rw [hself]
      · rw [hother z hz]⟩
    exact (sameSpaces_setTf.trans hreceived).trans sameSpaces_resume
  · rw [Kernel.resume_of_ne hduo.ne, hdemote, hself]
  · rw [Kernel.resume_of_ne hduo.ne, hdemote, hself]
  · exact congrArg (List.cons _) demote_log

end Duo

/-! ### The page is sent -/

def sendTf : Trapframe := syscallTf 11 0x1001 5 stackPage 7 0

def sendLabel : Label 1 := .trap 0 sendTf 0

/-- Environment 0 runs, and environment 1 waits for a message. -/
structure Waits (dst : Word) (s : Kernel 1) : Prop extends Duo 0 1 .notRunnable s where
  recving : (s.envs 1).envIpcRecving = true
  dstva : (s.envs 1).envIpcDstva = dst

/-- Environment 0 can send its stack page, which is `p`. This is about the page
tables alone, and not about the counts. -/
structure Lends (p : ℕ) (s : Kernel 1) : Prop where
  tables : TableInv sampleLayout True s.mem.word s.dirs
  clear : ∀ {d : ℕ} {i : PtIdx}, s.dirs 1 = some d → (i : ℕ) < 955 →
    ¬ Flag (s.mem.word d i) pteP → s.mem.word d i = 0#32
  id : (s.envs 1).envId = 0x1001#32
  pool : sampleLayout.pool p
  source : ∃ w, s.pteOf 0 stackPage = some w ∧ pteFrame w = p ∧ Flag w pteU ∧ Flag w pteW
  last : tableAt s.mem.word s.dirs 1 128 = none

theorem pteOf_setTf {e : EnvIdx} {tf : Trapframe} (va : Word) :
    (s.setTf x tf).pteOf e va = s.pteOf e va := by
  unfold Kernel.pteOf
  rw [dirs_setTf]
  rfl

/-- A call that delivers the page, as a step. -/
theorem Duo.sends {m : Mem 1} (h : Duo 0 1 .notRunnable s)
    (hcall : sysIpcTrySend sampleMachine 0 0 0x1001 5 stackPage 7 (s.setTf 0 sendTf) =
      .ret 0 ((((s.setTf 0 sendTf).ipcPerm0 1).setMem m).delivered 0 1 5 7 (some p))) :
    ∃ t, Step sampleMachine s sendLabel t ∧ Duo 0 1 .runnable t ∧ SameSpaces (s.setMem m) t ∧
      ∃ source, t.log = .envRun 0 0 :: .ipcSend 1 5 source 7 (some p) :: s.log := by
  set v := (((s.setTf 0 sendTf).ipcPerm0 1).setMem m).delivered 0 1 5 7 (some p) with hv
  have hsaved : SameView s (s.setTf 0 sendTf) := sameView_setTf
  have hother (z : EnvIdx) (hz : z ≠ 1) : (v.envs z).envStatus = (s.envs z).envStatus := by
    refine Eq.trans ?_ (hsaved.status z)
    simp [hv, Kernel.delivered, Kernel.ipcPerm0, Kernel.setMem, Kernel.setEnv, Kernel.emit, hz]
  have hid (z : EnvIdx) : (v.envs z).envId = (s.envs z).envId := by
    refine Eq.trans ?_ (hsaved.id z)
    by_cases hz : z = 1
    · subst hz
      simp [hv, Kernel.delivered, Kernel.ipcPerm0, Kernel.setMem, Kernel.setEnv, Kernel.emit]
    · simp [hv, Kernel.delivered, Kernel.ipcPerm0, Kernel.setMem, Kernel.setEnv, Kernel.emit, hz]
  have hwoken : (v.envs 1).envStatus = .runnable := by
    simp [hv, Kernel.delivered, Kernel.setEnv, Kernel.emit]
  have hdirs : v.dirs = s.dirs := by
    rw [hv, dirs_delivered, dirs_setMem, dirs_ipcPerm0, dirs_setTf]
  have hrunning : (v.envs 0).envStatus = .running := (hother 0 (by decide)).trans h.running
  have hsyscall : syscall sampleMachine 0 0 0 11 0x1001 5 stackPage 7 0
      (s.setTf 0 (syscallTf 11 0x1001 5 stackPage 7 0)) = .ret 0 v := hcall
  obtain ⟨t, hstep, -, hview, hcr3, hlog⟩ := syscall_step h.cpu h.running hsyscall h.cpu hrunning
    (by rw [hdirs, h.cr3]; exact Option.some_ne_none _)
  have hstatus := hview.status
  refine ⟨t, hstep, ⟨by decide, (congrFun hview.cpu 0).trans h.cpu, (hstatus 0).trans hrunning,
    (hstatus 1).trans hwoken, fun z h0 h1 => ?_, hcr3, ?_⟩,
    ⟨hview.dirs.trans hdirs, hview.word, hview.pool, fun z => (hview.id z).trans (hid z)⟩,
    ⟨_, hlog⟩⟩
  · rw [hstatus, hother z h1]
    exact h.rest z h0 h1
  · rw [hview.dirs, hdirs]
    exact h.dir

namespace Lends

theorem congr (h : Lends p s) (hdirs : t.dirs = s.dirs) (hword : t.mem.word = s.mem.word)
    (hid : (t.envs 1).envId = (s.envs 1).envId) : Lends p t where
  tables := by
    rw [hword, hdirs]
    exact h.tables
  clear hd hi hP := by
    rw [hdirs] at hd
    rw [hword] at hP ⊢
    exact h.clear hd hi hP
  id := hid.trans h.id
  pool := h.pool
  source := by
    obtain ⟨w, hw, hrest⟩ := h.source
    exact ⟨w, (pteOf_congr hword hdirs stackPage).trans hw, hrest⟩
  last := by
    rw [hword, hdirs]
    exact h.last

theorem sameSpaces (h : Lends p s) (hsame : SameSpaces s t) : Lends p t :=
  h.congr hsame.dirs hsame.word (hsame.ids 1)

theorem mapped (h : Lends p s) : s.pteOf 0 stackPage ≠ none := by
  obtain ⟨w, hw, -⟩ := h.source
  rw [hw]
  exact Option.some_ne_none w

theorem found (h : Lends p s) (hlive : (s.envs 1).envStatus ≠ .free) :
    envid2env s 0 0x1001#32 false = some 1 := by
  have hne : (0x1001#32 : Word) ≠ 0 := by decide
  have hslot : (Fin.ofNat 1024 ((0x1001#32 : Word) &&& 0x3FF#32).toNat : EnvIdx) = 1 := rfl
  unfold envid2env
  simp only [if_neg hne, hslot, h.id, hlive]
  simp

/-- The sender finds its page. -/
theorem lookup {d : ℕ} (h : Lends p s) (hd : s.dirs 0 = some d) : ∃ pt,
    pageLookup sampleMachine d stackPage s.mem = .ok (some (pt, ptx stackPage), some p) ∧
      Flag (s.mem.word pt (ptx stackPage)) pteW := by
  obtain ⟨w, hw, rfl, -, hW⟩ := h.source
  have hi : (pdx stackPage : ℕ) < 955 := by decide
  obtain ⟨pt, hpt, -, rfl⟩ := mapping_eq_some.mp hw
  have hpde := h.tables.pde hd hpt
  have hpool := h.tables.table hpt
  have hfound := (foundPte_eq_mapping (m := s.mem) hd hi).trans hw
  have hin : InMemory sampleMachine s.mem d stackPage := by
    refine ⟨?_, fun v hv => ?_⟩
    · rw [hpde, pteFrame_tablePde (sampleLayout.frame_lt hpool)]
      exact sampleLayout.pool_lt hpool
    · rw [← Option.some.inj (hfound.symm.trans hv)]
      exact sampleLayout.pool_lt h.pool
  refine ⟨pt, ?_, hW⟩
  rw [pageLookup_found hin, hfound, hpde, present_of_flag (flag_tablePde_P pt)]
  simp only [Option.map_some, pteFrame_tablePde (sampleLayout.frame_lt hpool)]

/-- What `page_insert` does in the call decides what the step does. -/
theorem sends {d : ℕ} {m : Mem 1} (h : Lends p s) (hwait : Waits dst s) (hdst : userPage dst)
    (hd : s.dirs 1 = some d)
    (hinsert : pageInsert sampleMachine (((s.setTf 0 sendTf).ipcPerm0 1).ctx 0) d (some p) dst 7
      s.mem = .ok (0, m)) :
    ∃ t, Step sampleMachine s sendLabel t ∧ Duo 0 1 .runnable t ∧ SameSpaces (s.setMem m) t ∧
      ∃ source, t.log = .envRun 0 0 :: .ipcSend 1 5 source 7 (some p) :: s.log := by
  refine hwait.toDuo.sends ?_
  have henv : (s.setTf 0 sendTf).envs 1 = s.envs 1 := by simp [Kernel.setTf, Kernel.setEnv]
  have hdst' : ((s.setTf 0 sendTf).envs 1).envIpcDstva = dst := by rw [henv, hwait.dstva]
  have htransfer : Transfer (s.setTf 0 sendTf) 0 0x1001 stackPage 1 := by
    refine ⟨?_, ?_, by decide, ?_⟩
    · rw [envid2env_setTf]
      exact h.found (by rw [hwait.other]; decide)
    · rw [henv, hwait.recving]
    · rw [hdst']
      exact hdst.1
  obtain ⟨pt, hlook, hW⟩ := h.lookup hwait.cr3
  rw [sysIpcTrySend_eq htransfer (by rw [hdst']; exact hdst.2)
    (by rw [dirs_setTf]; exact hwait.cr3) (by rw [dirs_setTf]; exact hd)]
  have hmem : (s.setTf 0 sendTf).mem = s.mem := rfl
  rw [hmem, hlook]
  have haccepted : ¬ (stackPage % 0x1000#32 ≠ 0 ∨
      (Flag (7 : Word) pteW ∧ ¬ Flag (s.mem.word pt (ptx stackPage)) pteW) ∨
      ¬ loosePerm (7 : Word)) := by
    rw [not_or, not_or]
    exact ⟨by decide, fun hno => hno.2 hW, by decide⟩
  dsimp only
  rw [if_neg haccepted, deliverPage_of_insert (by rw [hdst']; exact hinsert)]
  exact if_neg (by decide)

end Lends

/-! ### The page is received -/

/-- A page is entered where nothing was. It takes a free page if there is no
page table yet. -/
theorem pageInsert_fresh {M : Machine} {L : Layout M} {nullOk : Prop} {m : Mem 1} {dirs : Dirs}
    {e : EnvIdx} {d : ℕ} {va : Word} {l : List ℕ} (a : Ctx 1) (p : ℕ) (perm : Word)
    (h : Tidy L nullOk none dirs m) (hd : dirs e = some d) (hi : (pdx va : ℕ) < 955)
    (hnone : mapping m.word dirs e (pdx va) (ptx va) = none)
    (hl : Linked m.pool.link m.pool.head l)
    (hroom : tableAt m.word dirs e (pdx va) = none → l ≠ []) :
    ∃ m' l', pageInsert M a d (some p) va perm m = .ok (0, m') ∧
      Linked m'.pool.link m'.pool.head l' ∧
      l.length = l'.length + (if tableAt m.word dirs e (pdx va) = none then 1 else 0) := by
  obtain ⟨t, m₁, l', hwalk, -, hwalked, hl', hlen, -⟩ := pgdirWalk_takes h hd hi hl hroom
  have hP : ¬ Flag (m₁.word t (ptx va)) pteP := fun hP => by
    have hmap := hwalked.maps e (pdx va) (ptx va)
    rw [hnone, mapping_of_table hwalked.table] at hmap
    exact Option.some_ne_none _ ((present_of_flag hP).symm.trans hmap)
  refine ⟨_, l', pageInsert_absent perm hwalk hP, ?_, hlen⟩
  rw [pool_store, pool_setRef]
  exact hl'

/-- The entries of environment 1 that have no page table. -/
def noTable (s : Kernel 1) : Finset (Fin 64) :=
  Finset.univ.filter fun i => tableAt s.mem.word s.dirs 1 (tableIdx i) = none

theorem mem_noTable {i : Fin 64} :
    i ∈ noTable s ↔ tableAt s.mem.word s.dirs 1 (tableIdx i) = none := by
  simp [noTable]

/-- Environment 1 has received the page at the entries `ys`, and there are pages
for the page tables that are missing. -/
structure Lent (p : ℕ) (ys : List (PtIdx × PtIdx)) (s : Kernel 1) : Prop extends Lends p s where
  sys : SysInv sampleLayout True none s
  ready : Ready sampleLayout True s
  entered : ∀ y ∈ entries, mapping s.mem.word s.dirs 1 y.1 y.2 =
    if y ∈ ys then some (mkPte (frame2pa p) 7) else none
  room : ∃ l, Linked s.mem.pool.link s.mem.pool.head l ∧ (noTable s).card ≤ l.length

namespace Lent

variable {ys : List (PtIdx × PtIdx)}

theorem sameSpaces (h : Lent p ys s) (hsame : SameSpaces s t)
    (hsys : SysInv sampleLayout True none t) (hready : Ready sampleLayout True t) :
    Lent p ys t where
  toLends := h.toLends.sameSpaces hsame
  sys := hsys
  ready := hready
  entered y hy := by
    rw [hsame.word, hsame.dirs]
    exact h.entered y hy
  room := by
    unfold noTable
    rw [hsame.word, hsame.dirs, hsame.pool]
    exact h.room

end Lent

/-! ### The conditions on the requests -/

/-- With one CPU no environment executes elsewhere. -/
theorem callOk_one {M : Machine} {l : Label 1} (h : OnCall (fun _ => IpcOk M) s l) :
    OnCall (CallOk M) s l := fun {c tf _ cur} hl hcur hst =>
  have hno {e : EnvIdx} : ¬ Elsewhere (s.setTf cur tf) c e := fun helse =>
    helse.elim fun c' hc => hc.1 (Subsingleton.elim c' c)
  ⟨⟨fun _ _ _ => hno, fun _ => hno, fun _ _ helse => absurd helse hno⟩, (h hl hcur hst).2⟩

theorem OnCall.ipcCall {M : Machine} {l : Label 1} (h : OnCall (fun _ => IpcOk M) s l) :
    OnCall (fun _ => IpcCall) s l := fun hl hcur hst => (h hl hcur hst).1

theorem ipcOk_quiet {M : Machine} {tf : Trapframe}
    (hno : tf.request.no = some .yield ∨ tf.request.no = some .ipcRecv) :
    OnCall (fun _ => IpcOk M) s (.trap 0 tf 0) := by
  rintro c tf' input cur hl - -
  cases hl
  refine ⟨⟨?_, ?_, ?_, ?_⟩, ?_, ?_⟩ <;> rcases hno with hno | hno <;> simp [hno, not_inserts]

/-- The sender has its stack page mapped. -/
theorem ipcCall_send (hcpu : s.cpuEnv 0 = some 0) (hw : s.pteOf 0 stackPage ≠ none) :
    OnCall (fun _ => IpcCall) s sendLabel := by
  rintro c tf input cur hl hcur -
  cases hl
  obtain rfl := Option.some.inj (hcpu.symm.trans hcur)
  refine ⟨⟨by decide, by decide, by decide⟩, fun hno => absurd hno (by decide),
    fun hno => absurd hno (by decide), fun _ _ => ?_⟩
  rwa [pteOf_setTf]

namespace Lent

variable {ys : List (PtIdx × PtIdx)} {y : PtIdx × PtIdx}

theorem ipcOk_send (h : Lent p ys s) (hcpu : s.cpuEnv 0 = some 0)
    (href : (s.mem.pages p).ppRef ≠ 0) :
    OnCall (fun _ => IpcOk sampleMachine) s sendLabel := by
  intro c tf input cur hl hcur hst
  refine ⟨ipcCall_send hcpu h.mapped hl hcur hst, fun hinserts => ?_, fun hno => ?_⟩
  · cases hl
    obtain rfl := Option.some.inj (hcpu.symm.trans hcur)
    cases hinserts with
    | map hno => exact absurd hno (by decide)
    | send hsend hsrcva _ hds _ hlook =>
        have hdir : (s.setTf 0 _).dirs 0 = some _ := hds
        have hpage := (pageLookup_spec hdir (pdx_lt_of_lt_utop hsrcva) hlook).2.1
        obtain ⟨w, hw, rfl, -⟩ := h.source
        have hfound : (s.setTf 0 (syscallTf 11 0x1001 5 stackPage 7 0)).pteOf 0 stackPage =
          some w := (pteOf_setTf stackPage).trans hw
        obtain rfl := Option.some.inj (hpage.trans (congrArg (Option.map pteFrame) hfound))
        exact href
  · cases hl
    exact absurd hno (by decide)

/-- The invariants of the system go on. -/
theorem next {l : Label 1} (h : Lent p ys s) (hok : OnCall (fun _ => IpcOk sampleMachine) s l)
    (hstep : Step sampleMachine s l t) :
    SysInv sampleLayout True none t ∧ Ready sampleLayout True t :=
  ⟨h.sys.step (callOk_one hok) (Or.inl trivial) hstep,
    h.ready.step h.sys (callOk_one hok) (Or.inl trivial) hstep⟩

/-- Environment 1 is run, and waits for a page at `dst`. -/
theorem turn (h : Lent p ys s) (hduo : Duo 0 1 .runnable s) (hdst : dst % 0x1000#32 = 0) :
    ∃ t, Run (Step sampleMachine) (OnCall fun _ => IpcCall) s t ∧ Lent p ys t ∧ Waits dst t ∧
      (t.mem.pages p).ppRef = (s.mem.pages p).ppRef := by
  obtain ⟨u, hyield, hduo', hsame, -⟩ := hduo.yields
  have hok : OnCall (fun _ => IpcOk sampleMachine) s yieldLabel := ipcOk_quiet (Or.inl rfl)
  have hu := h.sameSpaces hsame (h.next hok hyield).1 (h.next hok hyield).2
  obtain ⟨t, hrecv, hduo'', hsame', hrecving, hdstva, -⟩ := hduo'.receives hdst
  have hok' : OnCall (fun _ => IpcOk sampleMachine) u (.trap 0 (syscallTf 12 dst 0 0 0 0) 0) :=
    ipcOk_quiet (Or.inr rfl)
  refine ⟨t, .head ⟨_, hok.ipcCall, hyield⟩ (.single ⟨_, hok'.ipcCall, hrecv⟩),
    hu.sameSpaces hsame' (hu.next hok' hrecv).1 (hu.next hok' hrecv).2,
    ⟨hduo'', hrecving, hdstva⟩, congrFun (congrArg Pool.ref (hsame.trans hsame').pool) p⟩

theorem entry_user (hy : y ∈ entries) : (y.1 : ℕ) < 128 ∧ userPage (pgaddr y.1 y.2 0#32) := by
  obtain ⟨i, hi⟩ := mem_entries.mp hy
  have hlt := i.isLt
  have hidx : (y.1 : ℕ) = 64 + i := congrArg Fin.val hi.symm
  exact ⟨by omega, Mapper.userPage_pgaddr (by omega)⟩

theorem noTable_card {m : Mem 1} {l l' : List ℕ} {i : Fin 64}
    (htables : ∀ j, tableAt s.mem.word s.dirs 1 j ≠ none → tableAt m.word s.dirs 1 j ≠ none)
    (hi : tableAt m.word s.dirs 1 (tableIdx i) ≠ none) (hcard : (noTable s).card ≤ l.length)
    (hlen : l.length = l'.length +
      if tableAt s.mem.word s.dirs 1 (tableIdx i) = none then 1 else 0) :
    (noTable (s.setMem m)).card ≤ l'.length := by
  have hsub : noTable (s.setMem m) ⊆ noTable s := fun j hj => by
    rw [mem_noTable] at hj ⊢
    by_contra hne
    exact htables _ hne hj
  by_cases hnone : tableAt s.mem.word s.dirs 1 (tableIdx i) = none
  · -- the page table that was made is missing no longer
    have hssub : noTable (s.setMem m) ⊂ noTable s := by
      refine hsub.ssubset_of_ne fun heq => hi ?_
      have hmem : i ∈ noTable (s.setMem m) := heq ▸ mem_noTable.mpr hnone
      exact mem_noTable.mp hmem
    have hlt := Finset.card_lt_card hssub
    rw [if_pos hnone] at hlen
    omega
  · have hle := Finset.card_le_card hsub
    rw [if_neg hnone] at hlen
    omega

/-- The page is entered once more, where nothing was. -/
theorem insert {d : ℕ} (h : Lent p ys s) (hy : y ∈ entries) (hnew : y ∉ ys)
    (hd : s.dirs 1 = some d) (a : Ctx 1) :
    ∃ m, pageInsert sampleMachine a d (some p) (pgaddr y.1 y.2 0#32) 7 s.mem = .ok (0, m) ∧
      (∀ e i j, mapping m.word s.dirs e i j = if e = 1 ∧ i = y.1 ∧ j = y.2 then
        some (mkPte (frame2pa p) 7) else mapping s.mem.word s.dirs e i j) ∧
      (∀ i, i ≠ y.1 → tableAt m.word s.dirs 1 i = tableAt s.mem.word s.dirs 1 i) ∧
      ∃ l, Linked m.pool.link m.pool.head l ∧ (noTable (s.setMem m)).card ≤ l.length := by
  obtain ⟨i, hi⟩ := mem_entries.mp hy
  obtain ⟨w, hw, hframe, -⟩ := h.source
  obtain ⟨l, hl, hcard⟩ := h.room
  have hidx : (pdx (pgaddr y.1 y.2 0#32) : ℕ) < 955 := pdx_lt_of_lt_utop (entry_user hy).2.1
  have hnone : mapping s.mem.word s.dirs 1 (pdx (pgaddr y.1 y.2 0#32))
      (ptx (pgaddr y.1 y.2 0#32)) = none := by
    rw [pdx_pgaddr, ptx_pgaddr, h.entered y hy, if_neg hnew]
  have hroom : tableAt s.mem.word s.dirs 1 (pdx (pgaddr y.1 y.2 0#32)) = none → l ≠ [] := by
    rintro hnoTable rfl
    rw [pdx_pgaddr, ← hi, ← mem_noTable] at hnoTable
    have hpos := Finset.card_pos.mpr ⟨i, hnoTable⟩
    exact absurd hcard (Nat.not_le.mpr hpos)
  obtain ⟨m, l', hinsert, hl', hlen⟩ := pageInsert_fresh a p 7 h.ready.mem hd hidx hnone hl hroom
  have hplain : Plain s.mem.word s.dirs p := hframe ▸ h.tables.separate.plain_of_page hw
  have hoff : ¬ s.mem.pool.On p := hframe ▸ h.sys.mem.not_on_page hw
  have hins := pageInsert_spec h.sys.mem hd hidx (Or.inl h.pool) hplain hoff (by decide)
    (fun v hv => by rw [hnone] at hv; cases hv) hinsert
  have hmaps := hins.maps
  have hothers := hins.otherTables 1
  rw [pdx_pgaddr] at hlen
  simp only [pdx_pgaddr, ptx_pgaddr] at hmaps hothers
  refine ⟨m, hinsert, hmaps, fun j hj => hothers j fun heq => hj heq.2, l', hl',
    noTable_card (i := i) (fun j hj => ?_) ?_ hcard (by rwa [hi])⟩
  · obtain ⟨q, hq⟩ := Option.ne_none_iff_exists'.mp hj
    rw [hins.tables 1 j q hq]
    exact Option.some_ne_none q
  · intro hnoTable
    have hentry := hmaps 1 y.1 y.2
    rw [if_pos ⟨rfl, rfl, rfl⟩, ← hi, mapping_of_none hnoTable] at hentry
    cases hentry

/-- It is received there. -/
theorem send (h : Lent p ys s) (hwait : Waits (pgaddr y.1 y.2 0#32) s) (hy : y ∈ entries)
    (hnew : y ∉ ys) (href : (s.mem.pages p).ppRef ≠ 0) :
    ∃ t, Admitted (Step sampleMachine) (OnCall fun _ => IpcCall) s t ∧ Lent p (y :: ys) t ∧
      Duo 0 1 .runnable t := by
  obtain ⟨hlt, huser⟩ := entry_user hy
  obtain ⟨d, hd⟩ := Option.ne_none_iff_exists'.mp hwait.dir
  obtain ⟨m, hinsert, hmaps, htables, hroom⟩ := h.insert hy hnew hd
    (((s.setTf 0 sendTf).ipcPerm0 1).ctx 0)
  obtain ⟨t, hstep, hduo, hsame, -⟩ := h.sends hwait huser hd hinsert
  have hok : OnCall (fun _ => IpcOk sampleMachine) s sendLabel := h.ipcOk_send hwait.cpu href
  obtain ⟨hsys, hready⟩ := h.next hok hstep
  have hword : t.mem.word = m.word := hsame.word
  have hdirs : t.dirs = s.dirs := hsame.dirs
  refine ⟨t, ⟨_, hok.ipcCall, hstep⟩,
    ⟨⟨hsys.mem.tables, fun hd hi hP => hready.mem.clear hd hi hP, (hsame.ids 1).trans h.id,
      h.pool, ?_, ?_⟩, hsys, hready, fun z hz => ?_, ?_⟩, hduo⟩
  · obtain ⟨w, hw, hrest⟩ := h.source
    refine ⟨w, Eq.trans ?_ hw, hrest⟩
    unfold Kernel.pteOf
    rw [hword, hdirs, hmaps, if_neg fun heq => absurd heq.1 (by decide)]
  · have hne : (128 : PtIdx) ≠ y.1 := fun heq => hlt.ne (congrArg Fin.val heq.symm)
    rw [hword, hdirs, htables _ hne, h.last]
  · rw [hword, hdirs, hmaps, h.entered z hz]
    by_cases hzy : z = y
    · rw [if_pos ⟨rfl, congrArg Prod.fst hzy, congrArg Prod.snd hzy⟩, if_pos (by simp [hzy])]
    · rw [if_neg fun heq => hzy (Prod.ext heq.2.1 heq.2.2)]
      simp [hzy]
  · unfold noTable
    rw [hword, hdirs, hsame.pool]
    exact hroom

/-- The page is received at one entry after the other, unless its count is zero,
and then environment 1 waits at entry `x`. -/
theorem feed {x : PtIdx × PtIdx} {xs : List (PtIdx × PtIdx)} (h : Lent p ys s)
    (hduo : Duo 0 1 .runnable s) (hx : x ∈ entries) (hxs : ∀ y ∈ xs, y ∈ entries ∧ y ∉ ys)
    (hnodup : xs.Nodup) :
    ∃ t zs, Run (Step sampleMachine) (OnCall fun _ => IpcCall) s t ∧ Lent p zs t ∧
      Waits (pgaddr x.1 x.2 0#32) t ∧ ys ⊆ zs ∧ ((t.mem.pages p).ppRef ≠ 0 → xs ⊆ zs) := by
  induction xs generalizing s ys with
  | nil =>
      obtain ⟨t, hrun, hlent, hwait, -⟩ := h.turn hduo (entry_user hx).2.2
      exact ⟨t, ys, hrun, hlent, hwait, List.Subset.refl _, fun _ => List.nil_subset _⟩
  | cons y xs ih =>
      obtain ⟨hy, hnew⟩ := hxs y List.mem_cons_self
      obtain ⟨hnot, hnodup⟩ := List.nodup_cons.mp hnodup
      by_cases href : (s.mem.pages p).ppRef = 0
      · obtain ⟨t, hrun, hlent, hwait, hsame⟩ := h.turn hduo (entry_user hx).2.2
        exact ⟨t, ys, hrun, hlent, hwait, List.Subset.refl _,
          fun hne => absurd (hsame.trans href) hne⟩
      · obtain ⟨u, hrun, hlent, hwait, hsame⟩ := h.turn hduo (entry_user hy).2.2
        obtain ⟨v, hsend, hlent', hduo'⟩ := hlent.send hwait hy hnew fun hzero =>
          href (hsame.symm.trans hzero)
        have hothers (z) (hz : z ∈ xs) : z ∈ entries ∧ z ∉ y :: ys := by
          obtain ⟨hentry, hnone⟩ := hxs z (List.mem_cons_of_mem _ hz)
          refine ⟨hentry, fun hmem => ?_⟩
          rcases List.mem_cons.mp hmem with rfl | hmem
          · exact hnot hz
          · exact hnone hmem
        obtain ⟨t, zs, hrest, hlent'', hwait', hsub, hall⟩ := ih hlent' hduo' hothers hnodup
        refine ⟨t, zs, hrun.trans (.head hsend hrest), hlent'', hwait',
          fun z hz => hsub (List.mem_cons_of_mem _ hz), fun hne z hz => ?_⟩
        rcases List.mem_cons.mp hz with rfl | hz
        · exact hsub List.mem_cons_self
        · exact hall hne hz

/-- A page that is received at all the entries has a count of zero. -/
theorem wrapped (h : Lent p ys s) (hall : ∀ y ∈ entries, y ∈ ys) :
    (s.mem.pages p).ppRef = 0 := by
  have hrefs : Fintype.card (Fin 64 × PtIdx) ≤ pageRefs s.mem.word s.dirs p :=
    card_le_refs (fun k => .page 1 (tableIdx k.1) k.2) (fun k k' heq => by
      injection heq with he hi hj
      exact Prod.ext (tableIdx_injective hi) hj) fun k => by
        have hk : (tableIdx k.1, k.2) ∈ entries := mem_entries.mpr ⟨k.1, rfl⟩
        rw [slotRef, h.entered _ hk, if_pos (hall _ hk), Option.map_some]
        exact congrArg some (pteFrame_mkPte (sampleLayout.counted_lt (Or.inl h.pool)) (by decide))
  have hcard : Fintype.card (Fin 64 × PtIdx) = 65536 := by
    rw [Fintype.card_prod, Fintype.card_fin, Fintype.card_fin]
  have hload : pageLoad none s.mem.word s.dirs p = pageRefs s.mem.word s.dirs p := by
    have hne : p ≠ vgaFrame := by
      rintro rfl
      exact sampleLayout.pool_ne_vga h.pool
    simp [pageLoad, hne]
  have hbound := h.sys.bounded p (Or.inl h.pool)
  have hexact : pageLoad none s.mem.word s.dirs p = 65536 := by omega
  have hcount := h.sys.mem.counts.ref p (Or.inl h.pool)
  rw [hexact] at hcount
  exact hcount

end Lent

/-! ### The page is lost -/

/-- Received once more where it is mapped, the page is released. -/
theorem Lent.release {ys : List (PtIdx × PtIdx)} {y : PtIdx × PtIdx} {d : ℕ} (h : Lent p ys s)
    (hy : y ∈ entries) (hmem : y ∈ ys) (href : (s.mem.pages p).ppRef = 0)
    (hd : s.dirs 1 = some d) (a : Ctx 1) :
    ∃ m, pageInsert sampleMachine a d (some p) (pgaddr y.1 y.2 0#32) 7 s.mem = .ok (0, m) ∧
      m.word = s.mem.word ∧ m.pageFreeList = some p := by
  have hw : mapping s.mem.word s.dirs 1 (pdx (pgaddr y.1 y.2 0#32)) (ptx (pgaddr y.1 y.2 0#32)) =
      some (mkPte (frame2pa p) 7) := by
    rw [pdx_pgaddr, ptx_pgaddr, h.entered y hy, if_pos hmem]
  have hframe : pteFrame (mkPte (frame2pa p) 7) = p :=
    pteFrame_mkPte (sampleLayout.counted_lt (Or.inl h.pool)) (by decide)
  obtain ⟨pt, hpt, hP, hword⟩ := mapping_eq_some.mp hw
  have hoff : ¬ s.mem.pool.On p := hframe ▸ h.sys.mem.not_on_page hw
  set m₁ := s.mem.setRef p ((s.mem.pages p).ppRef + 1) with hm₁
  have hheld : Tidy sampleLayout True (some p) s.dirs m₁ := h.ready.mem.hold hoff
  obtain ⟨m₂, hdecref, hremove⟩ := pageRemove_present (x := a) hheld hpt hw
    (by rw [hframe]; exact sampleLayout.pool_lt h.pool) hd
  rw [hframe] at hdecref
  have hone : (m₁.pages p).ppRef = 1 := by
    simp [hm₁, Mem.setRef, href]
  have hhead : m₂.pageFreeList = some p := by
    rcases pageDecref_eq_ok hdecref with ⟨-, rfl⟩ | ⟨hne, -⟩
    · rfl
    · exact absurd hone hne
  refine ⟨_, bind_eq_ok.mpr ⟨_, pgdirWalk_table h.ready.mem hd hpt, bind_eq_ok.mpr ⟨_, rfl,
    insert_tail_eq.trans (bind_eq_ok.mpr ⟨_, (if_pos hP).trans hremove, rfl⟩)⟩⟩, ?_, ?_⟩
  · -- the entry is cleared, and set to what it was
    rw [word_store, word_tlbInvalidate, word_store, word_pageDecref hdecref, Function.update_idem,
      Function.update_self, Function.update_idem]
    have hword₁ : m₁.word = s.mem.word := rfl
    have hpte : mkPte (page2pa sampleMachine (some p)) 7 =
        s.mem.word pt (ptx (pgaddr y.1 y.2 0#32)) := hword
    rw [hword₁, hpte, Function.update_eq_self, Function.update_eq_self]
  · obtain ⟨tlb, htlb⟩ := tlbInvalidate_eq a d (pgaddr y.1 y.2 0#32)
      (m₂.store pt (ptx (pgaddr y.1 y.2 0#32)) 0#32)
    rw [htlb]
    exact hhead

namespace Lends

/-- The page is free, and becomes the page table of environment 1 that is
missing. -/
theorem reuse {d : ℕ} (h : Lends p s) (hhead : s.mem.pageFreeList = some p)
    (hd : s.dirs 1 = some d) (a : Ctx 1) :
    ∃ m, pageInsert sampleMachine a d (some p) (pgaddr 128 0 0#32) 7 s.mem = .ok (0, m) ∧
      m.word d 128 = tablePde p ∧ ∀ q, q ≠ p → q ≠ d → m.word q = s.mem.word q := by
  obtain ⟨w, hw, hframe, -⟩ := h.source
  have hplain : Plain s.mem.word s.dirs p := hframe ▸ h.tables.separate.plain_of_page hw
  have hne : d ≠ p := fun heq => hplain.dir 1 (heq ▸ hd)
  have hlt : p < sampleMachine.npages := sampleLayout.pool_lt h.pool
  have hP : ¬ Flag (s.mem.word d 128) pteP := fun hP => by
    have hlast := h.last
    rw [tableAt_of_dir (by decide) hd, present_of_flag hP] at hlast
    cases hlast
  have hpde : pteFrame (s.mem.word d (pdx (pgaddr 128 0 0#32))) < sampleMachine.npages := by
    rw [pdx_pgaddr, h.clear hd (by decide) hP]
    decide
  have hP' : ¬ Flag (s.mem.word d (pdx (pgaddr 128 0 0#32))) pteP := by rwa [pdx_pgaddr]
  have hwalk := pgdirWalk_alloc hpde hP' hhead hlt
  set m₁ := s.mem.newTable d (pgaddr 128 0 0#32) p with hm₁
  have hword : m₁.word = Function.update (Function.update s.mem.word p fun _ => 0#32) d
      (Function.update (s.mem.word d) 128 (tablePde p)) := by
    rw [hm₁, word_newTable (sampleLayout.frame_lt h.pool) hne, pdx_pgaddr]
  have hclear : ¬ Flag (m₁.word p (ptx (pgaddr 128 0 0#32))) pteP := by
    rw [hword, Function.update_of_ne hne.symm, Function.update_self]
    exact not_flag_zero _
  refine ⟨_, pageInsert_absent 7 hwalk hclear, ?_, fun q hqp hqd => ?_⟩
  · rw [word_store, Function.update_of_ne hne, word_setRef, hword, Function.update_self,
      Function.update_self]
  · rw [word_store, Function.update_of_ne hqp, word_setRef, hword, Function.update_of_ne hqd,
      Function.update_of_ne hqp]

/-- The sender writes to the page. -/
theorem writes {m : Mem 1} {d d₀ : ℕ} (h : Lends p s) (hd₀ : s.dirs 0 = some d₀)
    (hd : s.dirs 1 = some d) (hword : ∀ q, q ≠ p → q ≠ d → m.word q = s.mem.word q) :
    userWrite m d₀ stackPage = some p := by
  obtain ⟨w, hw, rfl, hU, hW⟩ := h.source
  have hsep := h.tables.separate
  have hplain := hsep.plain_of_page hw
  obtain ⟨pt, hpt, hP, rfl⟩ := mapping_eq_some.mp hw
  have hdir : m.word d₀ = s.mem.word d₀ :=
    hword d₀ (fun heq => hplain.dir 0 (heq ▸ hd₀)) fun heq =>
      absurd (hsep.dir_inj hd (heq ▸ hd₀)) (by decide)
  have htable : m.word pt = s.mem.word pt :=
    hword pt (fun heq => hplain.table 0 _ (heq ▸ hpt)) (hsep.table_ne_dir hpt hd)
  have hpde := h.tables.pde hd₀ hpt
  have hframe := pteFrame_tablePde (sampleLayout.frame_lt (h.tables.table hpt))
  unfold userWrite userRead
  rw [hdir, hpde]
  dsimp only
  rw [hframe, htable, if_pos ⟨flag_tablePde_W pt, hW⟩,
    if_pos ⟨flag_tablePde_P pt, flag_tablePde_U pt, hP, hU⟩]

end Lends

/-- The address of the entry that is lost. -/
def lostVa : Word := pgaddr 128 0 0#32

theorem lostVa_user : userPage lostVa := Mapper.userPage_pgaddr (by decide)

/-- The free page is sent once more, to an address that needs a page table. It
becomes this table, and the sender writes to it. -/
theorem Lends.lose (h : Lends p s) (hduo : Duo 1 0 .runnable s)
    (hhead : s.mem.pageFreeList = some p) :
    ∃ t, Run (Step sampleMachine) (OnCall fun _ => IpcCall) s t ∧
      ¬ DeliversOnce sampleMachine t := by
  -- environment 1 waits at the address
  obtain ⟨s₁, hrecv, hduo₁, hsame₁, hrecving, hdstva, hlog₁⟩ := hduo.receives lostVa_user.2
  have h₁ := h.sameSpaces hsame₁
  have hhead₁ : s₁.mem.pageFreeList = some p := (congrArg Pool.head hsame₁.pool).trans hhead
  obtain ⟨d, hd⟩ := Option.ne_none_iff_exists'.mp hduo₁.dir
  -- the page is sent
  obtain ⟨m, hinsert, hpde, hkept⟩ := h₁.reuse hhead₁ hd (((s₁.setTf 0 sendTf).ipcPerm0 1).ctx 0)
  obtain ⟨s₂, hsend, hduo₂, hsame₂, source, hlog₂⟩ :=
    h₁.sends ⟨hduo₁, hrecving, hdstva⟩ lostVa_user hd hinsert
  have hdirs₂ : s₂.dirs = s₁.dirs := hsame₂.dirs
  have hword₂ : s₂.mem.word = m.word := hsame₂.word
  -- its first word is cleared by the sender
  have hwrite : userWrite s₂.mem (s₂.mem.cr3 0) stackPage = some p :=
    h₁.writes (hdirs₂ ▸ hduo₂.cr3) hd fun q hqp hqd => by rw [hword₂, hkept q hqp hqd]
  set s₃ := s₂.setMem (s₂.mem.store p (wordIdx stackPage) 0) with hs₃
  have hstore : Step sampleMachine s₂ (.store 0 stackPage 0) s₃ := by
    simp only [Step, step, hduo₂.cpu, hwrite]
    rfl
  have hduo₃ : Duo 0 1 .runnable s₃ :=
    ⟨hduo₂.ne, hduo₂.cpu, hduo₂.running, hduo₂.other, hduo₂.rest, hduo₂.cr3, hduo₂.dir⟩
  -- and environment 1 goes on
  obtain ⟨t, hyield, hduo₄, hsame₄, hlog₄⟩ := hduo₃.yields
  have hrecvOk : OnCall (fun _ => IpcOk sampleMachine) s
      (.trap 0 (syscallTf 12 lostVa 0 0 0 0) 0) := ipcOk_quiet (Or.inr rfl)
  have hyieldOk : OnCall (fun _ => IpcOk sampleMachine) s₃ yieldLabel := ipcOk_quiet (Or.inl rfl)
  have hstoreOk : OnCall (fun _ => IpcCall) s₂ (.store 0 stackPage 0) := by
    intro c tf input cur heq
    cases heq
  refine ⟨t, .head ⟨_, hrecvOk.ipcCall, hrecv⟩ (.head ⟨_, ipcCall_send hduo₁.cpu h₁.mapped, hsend⟩
    (.head ⟨.store 0 stackPage 0, hstoreOk, hstore⟩ (.single ⟨_, hyieldOk.ipcCall, hyield⟩))),
    fun honce => ?_⟩
  have hlog : t.log = [.envRun 0 1, .envRun 0 0] ++ .ipcSend 1 5 source 7 (some p) ::
      (.envRun 0 0 :: .ipcRecv 1 lostVa :: s.log) := by
    rw [hlog₄, hs₃, ← hlog₁]
    exact congrArg (List.cons _) hlog₂
  have hrequested : Requested 1 lostVa (.envRun 0 0 :: .ipcRecv 1 lostVa :: s.log) :=
    ⟨[.envRun 0 0], s.log, rfl, by simp [Event.beginsRecv, Event.endsRecv]⟩
  obtain ⟨-, -, hpage⟩ := honce.returns hlog hrequested
    (by simp [Event.beginsRecv, Event.creates]) (by rw [hduo₄.running]; decide)
  obtain ⟨w, hw, -⟩ := hpage p rfl
  have hword : t.mem.word = Function.update m.word p (Function.update (m.word p) 0 0) := by
    rw [hsame₄.word, hs₃, ← hword₂]
    rfl
  have hdirs : t.dirs = s₁.dirs := hsame₄.dirs.trans hdirs₂
  obtain ⟨v, hv, hframe, -⟩ := h₁.source
  have hplain : Plain s₁.mem.word s₁.dirs p := hframe ▸ h₁.tables.separate.plain_of_page hv
  have hne : d ≠ p := fun heq => hplain.dir 1 (heq ▸ hd)
  have htable : tableAt t.mem.word t.dirs 1 128 = some p := by
    rw [hdirs, tableAt_of_dir (by decide) hd, hword, Function.update_of_ne hne, hpde,
      present_of_flag (flag_tablePde_P p), Option.map_some,
      pteFrame_tablePde (sampleLayout.frame_lt h.pool)]
  have hnone : t.pteOf 1 lostVa = none := by
    unfold Kernel.pteOf lostVa
    rw [pdx_pgaddr, ptx_pgaddr, mapping_of_table htable, hword, Function.update_self,
      Function.update_self]
    exact present_zero
  rw [hnone] at hw
  cases hw

/-- With a count of zero the page is sent to an address where it is mapped. -/
theorem Lent.lost {ys : List (PtIdx × PtIdx)} {y : PtIdx × PtIdx} (h : Lent p ys s)
    (hwait : Waits (pgaddr y.1 y.2 0#32) s) (hy : y ∈ entries) (hmem : y ∈ ys)
    (href : (s.mem.pages p).ppRef = 0) :
    ∃ t, Run (Step sampleMachine) (OnCall fun _ => IpcCall) s t ∧
      ¬ DeliversOnce sampleMachine t := by
  obtain ⟨d, hd⟩ := Option.ne_none_iff_exists'.mp hwait.dir
  obtain ⟨m, hinsert, hword, hhead⟩ := h.release hy hmem href hd
    (((s.setTf 0 sendTf).ipcPerm0 1).ctx 0)
  obtain ⟨u, hsend, hduo, hsame, -⟩ := h.sends hwait (entry_user hy).2 hd hinsert
  obtain ⟨v, hyield, hduo', hsame', -⟩ := hduo.yields
  have hu : Lends p u := h.toLends.congr hsame.dirs (hsame.word.trans hword) (hsame.ids 1)
  have hhead' : v.mem.pageFreeList = some p :=
    (congrArg Pool.head (hsame.trans hsame').pool).trans hhead
  obtain ⟨t, hrun, hnot⟩ := (hu.sameSpaces hsame').lose hduo' hhead'
  have hyieldOk : OnCall (fun _ => IpcOk sampleMachine) u yieldLabel := ipcOk_quiet (Or.inl rfl)
  exact ⟨t, .head ⟨_, ipcCall_send hwait.cpu h.mapped, hsend⟩
    (.head ⟨_, hyieldOk.ipcCall, hyield⟩ hrun), hnot⟩

/-- A parent forks a child and wakes it up. -/
def pairRun : List (Label 1) :=
  [.tick 0, .trap 0 (syscallTf 7 0 0 0 0 0) 0, .trap 0 (syscallTf 8 0x1001 2 0 0 0) 0]

/-- The two environments can begin, and there are pages for 64 page tables. -/
def begins (s : Kernel 1) : Bool :=
  decide (s.cpuEnv 0 = some 0 ∧ (s.envs 0).envStatus = .running ∧
    (s.envs 1).envStatus = .runnable ∧ (s.envs 1).envId = 0x1001#32 ∧ s.dirs 1 ≠ none ∧
    tableAt s.mem.word s.dirs 1 128 = none) &&
  ((List.finRange 1024).all (fun z => decide (z ≠ 0 → z ≠ 1 → (s.envs z).envStatus ≠ .runnable)) &&
  ((List.finRange 64).all (fun i => decide (tableAt s.mem.word s.dirs 1 (tableIdx i) = none)) &&
  ((s.pteOf 0 stackPage).any (fun w => decide (Flag w pteU ∧ Flag w pteW ∧
    (1024 ≤ pteFrame w ∧ pteFrame w < 2048) ∧ (s.mem.pages (pteFrame w)).ppRef ≠ 0)) &&
  decide ((fun a : Option ℕ => a.bind s.mem.pool.link)^[64] s.mem.pool.head ≠ none))))

theorem Lent.start (h : begins s = true) (hsys : SysInv sampleLayout True none s)
    (hready : Ready sampleLayout True s) :
    ∃ p, Lent p [] s ∧ Duo 0 1 .runnable s ∧ (s.mem.pages p).ppRef ≠ 0 := by
  simp only [begins, Bool.and_eq_true, decide_eq_true_eq] at h
  obtain ⟨⟨hcpu, hrunning, hother, hid, hdir, hlast⟩, hrest, htables, hsource, hpages⟩ := h
  obtain ⟨w, hw, hflags⟩ := (Option.any_eq_true _ _).mp hsource
  obtain ⟨hU, hW, hpool, href⟩ := of_decide_eq_true hflags
  obtain ⟨l, hl, -⟩ := hsys.mem.counts.list
  refine ⟨pteFrame w, ⟨⟨hsys.mem.tables, fun hd hi hP => hready.mem.clear hd hi hP, hid, hpool,
    ⟨w, hw, rfl, hU, hW⟩, hlast⟩, hsys, hready, fun y hy => ?_, l, hl, ?_⟩,
    ⟨by decide, hcpu, hrunning, hother, fun z hx hy => ?_, hsys.cpu.exec hcpu, hdir⟩, href⟩
  · obtain ⟨i, hi⟩ := mem_entries.mp hy
    have hnone := of_decide_eq_true (List.all_eq_true.mp htables i (List.mem_finRange i))
    rw [← hi, mapping_of_none hnone]
    rfl
  · have hlong := hl.lt_length hpages
    have hle := Finset.card_le_univ (noTable s)
    rw [Fintype.card_fin] at hle
    omega
  · exact of_decide_eq_true (List.all_eq_true.mp hrest z (List.mem_finRange z)) hx hy

/-- The page is received at the first entry, and then at the others until its
count is zero. -/
theorem Lent.exhaust (h : Lent p [] s) (hduo : Duo 0 1 .runnable s)
    (href : (s.mem.pages p).ppRef ≠ 0) :
    ∃ t y zs, Run (Step sampleMachine) (OnCall fun _ => IpcCall) s t ∧ Lent p zs t ∧
      Waits (pgaddr y.1 y.2 0#32) t ∧ y ∈ entries ∧ y ∈ zs ∧ (t.mem.pages p).ppRef = 0 := by
  obtain ⟨y, xs, hlist⟩ : ∃ y xs, entries = y :: xs :=
    List.exists_cons_of_ne_nil (List.ne_nil_of_mem (mem_entries.mpr ⟨0, rfl⟩ :
      (tableIdx 0, (0 : PtIdx)) ∈ entries))
  have hsplit (z) : z ∈ entries ↔ z = y ∨ z ∈ xs := by rw [hlist, List.mem_cons]
  have hnodup := entries_nodup
  rw [hlist] at hnodup
  obtain ⟨hnot, hnodup⟩ := List.nodup_cons.mp hnodup
  have hy := (hsplit y).mpr (Or.inl rfl)
  obtain ⟨u, hrun, hlent, hwait, hsame⟩ := h.turn hduo (entry_user hy).2.2
  obtain ⟨v, hsend, hlent', hduo'⟩ := hlent.send hwait hy List.not_mem_nil fun hzero =>
    href (hsame.symm.trans hzero)
  obtain ⟨t, zs, hrest, hlent'', hwait', hsub, hall⟩ := hlent'.feed hduo' hy (fun z hz =>
    ⟨(hsplit z).mpr (Or.inr hz), fun hmem => hnot (List.mem_singleton.mp hmem ▸ hz)⟩) hnodup
  have hmem : y ∈ zs := hsub (List.mem_singleton.mpr rfl)
  refine ⟨t, y, zs, hrun.trans (.head hsend hrest), hlent'', hwait', hy, hmem, ?_⟩
  by_contra hne
  -- it has been received at all the entries, which is too often
  refine hne (hlent''.wrapped fun z hz => ?_)
  rcases (hsplit z).mp hz with rfl | hz
  · exact hmem
  · exact hall hne hz

/-- The page is received until its count is zero, and then twice more. -/
theorem not_ipc_delivers_once : ¬ ∀ s t : Kernel 1, Booted sampleLayout 0 s →
    Run (Step sampleMachine) (OnCall fun _ => IpcCall) s t → DeliversOnce sampleMachine t := by
  intro hall
  have hcomputed : (scenario sampleMachine (sampleMem 1) 0 [sampleElf] checkIpc pairRun).map
      begins = some true := by decide +kernel
  obtain ⟨t, ht, hbegins⟩ := Option.map_eq_some_iff.mp hcomputed
  obtain ⟨s, hs, ht⟩ := Option.bind_eq_some_iff.mp ht
  have hboot := bootWith_booted (sample_init 1) sampleElf_wellFormed hs
  have hrun : Run (Step sampleMachine) (OnCall fun _ => IpcOk sampleMachine) s t :=
    steps_run ipcOk_of_check ht
  have hcalls : Run (Step sampleMachine) (OnCall (CallOk sampleMachine)) s t :=
    Run.mono (fun s l hok => show OnCall (CallOk sampleMachine) s l from callOk_one hok) hrun
  obtain ⟨p, hlent, hduo, href⟩ := Lent.start hbegins (sysInv_run hboot trivial hcalls)
    (ready_run hboot.sys (bootWith_ready (sample_init 1) (sample_unlinked 1) sample_vga
      sampleElf_wellFormed hs) hcalls)
  obtain ⟨u, y, zs, hfed, hlent', hwait, hy, hmem, hzero⟩ := hlent.exhaust hduo href
  obtain ⟨v, hlost, hnot⟩ := hlent'.lost hwait hy hmem hzero
  have hcalled : Run (Step sampleMachine) (OnCall fun _ => IpcCall) s t :=
    Run.mono (fun s l hok => show OnCall (fun _ => IpcCall) s l from hok.ipcCall) hrun
  exact hnot (hall s v hboot (hcalled.trans (hfed.trans hlost)))

end Jos
