import Jos.Kern.Schedule
import Jos.System.Freeing
import Jos.System.Isolation

/-!
Waiting for the CPU, on a machine that has one. Every scan of `sched_yield`
starts after the environment that ran last, so fewer are ahead of a runnable
one each time it is passed over. An exit breaks this: the next scan starts from
slot 0, and two environments that take turns in creating each other and exiting
keep one in a higher slot waiting for ever.
-/

namespace Jos

open Jos.Lib

variable {M : Machine} {L : Layout M} {nullOk : Prop} {ok : Kernel 1 → Label 1 → Prop}
  {e x a b cur : EnvIdx} {s t u v : Kernel 1} {k : ℕ}

/-- A part of a run in which `e` stays runnable. `k` of its steps end with a
decision of `sched_yield` that picks some environment, and none picks `e`. -/
inductive PassedOver (M : Machine) (ok : Kernel 1 → Label 1 → Prop) (e : EnvIdx) :
    ℕ → Kernel 1 → Kernel 1 → Prop
  | start {s : Kernel 1} (he : (s.envs e).envStatus = .runnable) : PassedOver M ok e 0 s s
  | goesOn {k : ℕ} {s t u : Kernel 1} {l : Label 1} (h : PassedOver M ok e k s t)
      (hok : ok t l) (hstep : Step M t l u) (hno : decides M t l = false)
      (he : (u.envs e).envStatus = .runnable) : PassedOver M ok e k s u
  | decision {k : ℕ} {s t u : Kernel 1} {l : Label 1} {x : EnvIdx} (h : PassedOver M ok e k s t)
      (hok : ok t l) (hstep : Step M t l u) (hdecides : decides M t l = true)
      (hx : u.cpuEnv 0 = some x) (hne : x ≠ e) (he : (u.envs e).envStatus = .runnable) :
      PassedOver M ok e (k + 1) s u

/-- The step is the exit of an environment in a lower slot than `e`. -/
def ExitsBelow (M : Machine) (e : EnvIdx) (s : Kernel 1) (l : Label 1) : Prop :=
  exits M s l = true ∧ ∃ cur < e, s.cpuEnv 0 = some cur

/-! ### One decision -/

/-- A decision that picks another environment found `e` runnable. -/
theorem schedYield_pick (h : schedYield M 0 v = .leave u) (hx : u.cpuEnv 0 = some x) (hne : x ≠ e)
    (he : (u.envs e).envStatus = .runnable) (hcur : v.cpuEnv 0 ≠ some e) :
    (v.envs e).envStatus = .runnable ∧ pick v (v.cpuEnv 0) = some x := by
  have hrunnable : (v.envs e).envStatus = .runnable := by
    cases schedYield_wp.leave h with
    | @run x' d =>
        rw [resume_cpuEnv, Function.update_self] at hx
        rwa [Option.some.inj hx, resume_status, if_neg hne.symm, demote_status hcur] at he
    | halt =>
        simp [Kernel.halt, Kernel.setCur, Kernel.setMem] at hx
  obtain ⟨x', hpick, hrun⟩ := schedYield_leave h hrunnable
  obtain ⟨-, d, rfl⟩ := envRun_leave hrun
  rw [resume_cpuEnv, Function.update_self] at hx
  exact ⟨hrunnable, hpick.trans hx⟩

/-- What is picked before `e` leaves less ahead of it. -/
theorem pick_ahead {last : Option EnvIdx} (hpick : pick v last = some x)
    (he : (v.envs e).envStatus = .runnable) (hne : x ≠ e) :
    ahead ((x : ℕ) + 1) e < ahead (scanStart last) e := by
  have hstart := scanStart_le last
  rw [pick, schedOrder_eq] at hpick
  exact ahead_succ hstart (scan_find hstart hpick (by simp [he])).2 hne

/-- After any other environment, not every slot is ahead. -/
theorem ahead_succ_lt (hne : x ≠ e) : ahead ((x : ℕ) + 1) e < ahead ((e : ℕ) + 1) e := by
  have hx := x.isLt
  have he := e.isLt
  have hval : (x : ℕ) ≠ e := fun h => hne (Fin.ext h)
  unfold ahead
  rw [if_neg (by omega : ¬ (e : ℕ) + 1 ≤ e)]
  split <;> omega

/-- A scan from slot 0 finds `e` no later than one from a higher slot. -/
theorem ahead_zero_le (hle : e ≤ cur) : ahead 0 e ≤ ahead ((cur : ℕ) + 1) e := by
  have hcur := cur.isLt
  have hval : (e : ℕ) ≤ cur := hle
  unfold ahead
  rw [if_pos (Nat.zero_le _), if_neg (by omega)]
  omega

/-- A decision for another environment, unless the last one was an exit in a
lower slot. -/
theorem decision_ahead {l : Label 1} (hok : ¬ ExitsBelow M e t l) (hstep : Step M t l u)
    (hdecides : decides M t l = true) (hx : u.cpuEnv 0 = some x) (hne : x ≠ e)
    (he : (u.envs e).envStatus = .runnable) :
    ahead (scanStart (u.cpuEnv 0)) e < ahead (scanStart (t.cpuEnv 0)) e := by
  rw [hx]
  cases l with
  | trap c tf input =>
      obtain rfl := Subsingleton.elim c 0
      simp only [Step, step, Option.ite_none_left_eq_some, left_eq_some] at hstep
      obtain ⟨hbusy, htrap⟩ := hstep
      obtain ⟨cur, hcur⟩ := Option.ne_none_iff_exists'.mp hbusy
      rw [hcur]
      rcases trap_decides htrap hcur with ⟨-, v, hgives, hyield⟩ | ⟨hno, -⟩
      · cases hgives with
        | keeps hcpu =>
            rw [hcur] at hcpu
            by_cases hself : cur = e
            · subst hself
              exact ahead_succ_lt hne
            · have hpick := schedYield_pick hyield hx hne he (by simpa [hcpu] using hself)
              rw [hcpu] at hpick
              exact pick_ahead hpick.2 hpick.1 hne
        | frees hexit hcpu =>
            have hpick := schedYield_pick hyield hx hne he (by simp [hcpu])
            rw [hcpu] at hpick
            have hle : e ≤ cur := not_lt.mp fun hlt => hok ⟨hexit, cur, hlt, hcur⟩
            exact (pick_ahead hpick.2 hpick.1 hne).trans_le (ahead_zero_le hle)
      · rw [hdecides] at hno
        cases hno
  | tick c =>
      obtain rfl := Subsingleton.elim c 0
      simp only [Step, step, Option.ite_none_right_eq_some, left_eq_some] at hstep
      obtain ⟨hidle, hyield⟩ := hstep
      have hpick := schedYield_pick hyield hx hne he (by simp [hidle])
      exact pick_ahead hpick.2 hpick.1 hne
  | fill c va => cases hdecides
  | store c va w => cases hdecides

/-- In between, `curenv` goes on. -/
theorem goesOn_cpuEnv {l : Label 1} (hstep : Step M t l u) (hno : decides M t l = false) :
    u.cpuEnv = t.cpuEnv := by
  cases l with
  | trap c tf input =>
      simp only [Step, step, Option.ite_none_left_eq_some, left_eq_some] at hstep
      obtain ⟨hbusy, htrap⟩ := hstep
      obtain ⟨cur, hcur⟩ := Option.ne_none_iff_exists'.mp hbusy
      rcases trap_decides htrap hcur with ⟨hyes, -⟩ | ⟨-, hcpu⟩
      · rw [hno] at hyes
        cases hyes
      · funext c'
        rw [Subsingleton.elim c' c, hcpu, hcur]
  | tick c => cases hno
  | fill c va =>
      simp only [Step, step, Option.ite_none_left_eq_some, Option.map_eq_some_iff] at hstep
      obtain ⟨-, frame, -, rfl⟩ := hstep
      rfl
  | store c va w =>
      simp only [Step, step, Option.ite_none_left_eq_some, Option.map_eq_some_iff] at hstep
      obtain ⟨-, frame, -, rfl⟩ := hstep
      rfl

/-! ### A run -/

/-- Each decision that passes over `e` leaves less ahead of it. -/
theorem PassedOver.ahead_le (h : PassedOver M (fun s l => ¬ ExitsBelow M e s l) e k s t) :
    k + ahead (scanStart (t.cpuEnv 0)) e < 1024 := by
  induction h with
  | start he =>
      rw [Nat.zero_add]
      exact ahead_lt (scanStart_le _)
  | goesOn h hok hstep hno he ih =>
      rwa [goesOn_cpuEnv hstep hno]
  | decision h hok hstep hdecides hx hne he ih =>
      have hless := decision_ahead hok hstep hdecides hx hne he
      omega

/-- While no environment in a lower slot exits, `sched_yield` does not pass over
a runnable one `NENV` times. -/
theorem round_robin (h : PassedOver M (fun s l => ¬ ExitsBelow M e s l) e k s t) : k < 1024 := by
  have hahead := h.ahead_le
  omega

/-- The first environment creates two others. -/
def threeRun : List (Label 1) :=
  [.tick 0, .trap 0 (syscallTf 7 0 0 0 0 0) 0, .trap 0 (syscallTf 7 0 0 0 0 0) 0,
    .trap 0 (syscallTf 8 0x1001 2 0 0 0) 0, .trap 0 (syscallTf 8 0x1002 2 0 0 0) 0]

def yieldLabel : Label 1 := .trap 0 (syscallTf 10 0 0 0 0 0) 0

/-- It yields, and the second goes before the third. -/
theorem round_robin_third : ∃ s t u : Kernel 1, Booted sampleLayout 0 s ∧
    Run (Step sampleMachine) (fun _ _ => True) s t ∧
    PassedOver sampleMachine (fun s l => ¬ ExitsBelow sampleMachine 2 s l) 2 1 t u ∧ 1 < 1024 := by
  obtain ⟨s, t, hboot, hrun, htest⟩ := sample_run (0 : Fin 1) (fun _ _ => true) threeRun
    (fun t => decide ((t.envs 2).envStatus = .runnable ∧ exits sampleMachine t yieldLabel = false ∧
      decides sampleMachine t yieldLabel = true) &&
        (step sampleMachine t yieldLabel).any fun u : Kernel 1 =>
          decide (u.cpuEnv 0 = some 1 ∧ (u.envs 2).envStatus = .runnable)) (fun _ => trivial)
    (by decide +kernel)
  obtain ⟨htest, hnext⟩ := Bool.and_eq_true_iff.mp htest
  obtain ⟨hwaiting, hstays, hdecides⟩ := of_decide_eq_true htest
  obtain ⟨u, hstep, hpicked⟩ := (Option.any_eq_true _ _).mp hnext
  obtain ⟨hcpu, hstill⟩ := of_decide_eq_true hpicked
  have hpassed : PassedOver sampleMachine (fun s l => ¬ ExitsBelow sampleMachine 2 s l) 2 1 t u :=
    (PassedOver.start hwaiting).decision (fun hexit => by simp [hexit.1] at hstays) hstep hdecides
      hcpu (by decide) hstill
  exact ⟨s, t, u, hboot, hrun, hpassed, round_robin hpassed⟩

/-! ### Calls that return -/

/-- `t` is `s` as far as scheduling and address spaces go. -/
structure SameView (s t : Kernel 1) : Prop where
  cpu : t.cpuEnv = s.cpuEnv
  status : ∀ x, (t.envs x).envStatus = (s.envs x).envStatus
  id : ∀ x, (t.envs x).envId = (s.envs x).envId
  parent : ∀ x, (t.envs x).envParentId = (s.envs x).envParentId
  list : t.envFreeList = s.envFreeList
  dirs : t.dirs = s.dirs
  word : t.mem.word = s.mem.word
  pool : t.mem.pool = s.mem.pool

theorem SameView.trans (h : SameView s t) (h' : SameView t u) : SameView s u where
  cpu := h'.cpu.trans h.cpu
  status x := (h'.status x).trans (h.status x)
  id x := (h'.id x).trans (h.id x)
  parent x := (h'.parent x).trans (h.parent x)
  list := h'.list.trans h.list
  dirs := h'.dirs.trans h.dirs
  word := h'.word.trans h.word
  pool := h'.pool.trans h.pool

theorem sameView_setEnv {w : Env} (hstatus : w.envStatus = (s.envs x).envStatus)
    (hid : w.envId = (s.envs x).envId) (hparent : w.envParentId = (s.envs x).envParentId)
    (hdir : w.envPgdir = (s.envs x).envPgdir) : SameView s (s.setEnv x w) := by
  have hfield {β : Type} (f : Env → β) (hf : f w = f (s.envs x)) (y : EnvIdx) :
      f ((s.setEnv x w).envs y) = f (s.envs y) := by
    by_cases hy : y = x
    · subst hy
      simpa [Kernel.setEnv] using hf
    · simp [Kernel.setEnv, hy]
  exact ⟨rfl, hfield _ hstatus, hfield _ hid, hfield _ hparent, rfl, funext (hfield _ hdir), rfl,
    rfl⟩

theorem sameView_setTf {tf : Trapframe} : SameView s (s.setTf x tf) :=
  sameView_setEnv rfl rfl rfl rfl

/-- Going back to `curenv`. -/
theorem envRun_back {d : ℕ} (hcur : s.cpuEnv 0 = some a) (hst : (s.envs a).envStatus = .running)
    (hd : s.dirs a = some d) : ∃ t, envRun 0 a s = .leave t ∧ SameView s t ∧
      t.dirs a = some (t.mem.cr3 0) ∧ t.log = .envRun 0 a :: s.log := by
  have hdemote : s.demote 0 = s.setStatus a .runnable := demote_running hcur hst
  have hrun : envRun 0 a s = .leave ((s.setStatus a .runnable).resume 0 a d) := by
    have hdir : (s.envs a).envPgdir = some d := hd
    simp only [envRun, Comp.bind_apply, Comp.modify_apply, Comp.get_apply, hdemote]
    simp [Kernel.setStatus, Kernel.setEnv, hdir]
    rfl
  have hsame (y : EnvIdx) : let t := (s.setStatus a .runnable).resume 0 a d
      (t.envs y).envStatus = (s.envs y).envStatus ∧ (t.envs y).envId = (s.envs y).envId ∧
        (t.envs y).envParentId = (s.envs y).envParentId ∧ t.dirs y = s.dirs y := by
    by_cases hy : y = a
    · subst hy
      simp [Kernel.resume, Kernel.setStatus, Kernel.setEnv, Kernel.setMem, Kernel.setCur,
        Kernel.emit, Kernel.dirs, hst]
    · simp [Kernel.resume, Kernel.setStatus, Kernel.setEnv, Kernel.setMem, Kernel.setCur,
        Kernel.emit, Kernel.dirs, hy]
  refine ⟨_, hrun, ⟨?_, fun y => (hsame y).1, fun y => (hsame y).2.1, fun y => (hsame y).2.2.1, rfl,
    funext fun y => (hsame y).2.2.2, rfl, rfl⟩, ?_, rfl⟩
  · funext c
    rw [Subsingleton.elim c 0, hcur]
    simp [Kernel.resume, Kernel.setCur, Kernel.setEnv, Kernel.setMem, Kernel.emit]
  · rw [(hsame a).2.2.2, hd]
    simp [Kernel.resume, Kernel.setCur, Kernel.setEnv, Kernel.setMem, Kernel.emit, Mem.lcr3]

theorem trapDispatch_syscall {no a1 a2 a3 a4 a5 : Word} :
    trapDispatch M 0 a 0 (s.setTf a (syscallTf no a1 a2 a3 a4 a5)) =
      (syscall M 0 a 0 no a1 a2 a3 a4 a5 >>= fun r =>
        Comp.modify fun v => v.setTf a ((v.envs a).envTf.setEax r))
        (s.setTf a (syscallTf no a1 a2 a3 a4 a5)) := by
  have htf : ((s.setTf a (syscallTf no a1 a2 a3 a4 a5)).envs a).envTf =
      syscallTf no a1 a2 a3 a4 a5 := by simp [Kernel.setTf, Kernel.setEnv]
  have hbrk : tSyscall ≠ tBrkpt := by decide
  have hflt : tSyscall ≠ tPgflt := by decide
  simp only [trapDispatch, Comp.bind_apply, Comp.get_apply, htf]
  rw [if_neg (by exact hbrk), if_neg (by exact hflt), if_pos (by rfl)]
  rfl

/-- A system call that returns, with `curenv` running as before. -/
theorem syscall_step {no a1 a2 a3 a4 a5 r : Word} (hcur : s.cpuEnv 0 = some a)
    (hst : (s.envs a).envStatus = .running)
    (hcall : syscall M 0 a 0 no a1 a2 a3 a4 a5 (s.setTf a (syscallTf no a1 a2 a3 a4 a5)) = .ret r v)
    (hcpu : v.cpuEnv 0 = some a) (hrunning : (v.envs a).envStatus = .running)
    (hdir : v.dirs a ≠ none) :
    ∃ t, Step M s (.trap 0 (syscallTf no a1 a2 a3 a4 a5) 0) t ∧
      decides M s (.trap 0 (syscallTf no a1 a2 a3 a4 a5) 0) = false ∧ SameView v t ∧
      t.dirs a = some (t.mem.cr3 0) ∧ t.log = .envRun 0 a :: v.log := by
  obtain ⟨d, hd⟩ := Option.ne_none_iff_exists'.mp hdir
  set w := v.setTf a ((v.envs a).envTf.setEax r) with hw
  have hview : SameView v w := sameView_setTf
  have hdispatch : trapDispatch M 0 a 0 (s.setTf a (syscallTf no a1 a2 a3 a4 a5)) = .ret () w := by
    rw [trapDispatch_syscall, Comp.bind_of_ret hcall]
    rfl
  have hwcur : w.cpuEnv 0 = some a := (congrFun hview.cpu 0).trans hcpu
  have hwst : (w.envs a).envStatus = .running := (hview.status a).trans hrunning
  obtain ⟨t, hrun, hback, hcr3, hlog⟩ :=
    envRun_back hwcur hwst ((congrFun hview.dirs a).trans hd)
  have hdying : (s.envs a).envStatus ≠ .dying := by simp [hst]
  refine ⟨t, ?_, ?_, hview.trans hback, hcr3, hlog⟩
  · simp only [Step, step, Option.ite_none_left_eq_some, left_eq_some]
    refine ⟨by simp [hcur], ?_⟩
    rw [trap_apply hcur hdying, Comp.bind_of_ret hdispatch]
    simp only [Comp.bind_apply, Comp.get_apply, hwcur]
    rw [if_pos hwst]
    exact hrun
  · simp only [decides, hcur, Option.any_some, hst, hdispatch, hwcur, hwst]
    rfl

/-! ### Taking turns -/

variable {q : ℕ}

/-- An environment id is a generation, which is not zero, and a slot. -/
theorem nextEnvId_parts (old : Word) (e : EnvIdx) : ∃ g : Word,
    nextEnvId old e = g ||| BitVec.ofNat 32 e ∧ g &&& 0x3FF#32 = 0#32 ∧ g ≠ 0#32 := by
  unfold nextEnvId
  dsimp only
  by_cases hle : BitVec.sle ((old + 0x1000#32) &&& ~~~0x3FF#32) 0 = true
  · exact ⟨0x1000#32, by rw [if_pos hle], by decide, by decide⟩
  · refine ⟨(old + 0x1000#32) &&& ~~~0x3FF#32, ?_, ?_, fun hzero => ?_⟩
    · rw [if_neg hle]
    · rw [BitVec.and_assoc]
      exact BitVec.and_zero
    · rw [hzero] at hle
      exact hle (by decide)

/-- A parent finds its child by the id that `sys_exofork` returned. -/
theorem envid2env_child {old : Word} (hid : (s.envs b).envId = nextEnvId old b)
    (hst : (s.envs b).envStatus ≠ .free) (hparent : (s.envs b).envParentId = (s.envs a).envId) :
    envid2env s a (nextEnvId old b) true = some b := by
  obtain ⟨g, hg, hlow, hpos⟩ := nextEnvId_parts old b
  have hne : nextEnvId old b ≠ 0 := fun hzero =>
    hpos (BitVec.or_eq_zero_iff.mp (hg.symm.trans hzero)).1
  have hslot : Fin.ofNat 1024 (nextEnvId old b &&& 0x3FF#32).toNat = b := by
    have hb := b.isLt
    ext
    rw [hg, BitVec.and_or_distrib_right, hlow, BitVec.zero_or, Fin.val_ofNat, and_3ff,
      BitVec.toNat_ofNat]
    omega
  unfold envid2env
  simp only [if_neg hne, hslot, hst, hid, hparent]
  simp

/-- What `a` needs to hold the CPU while `e` waits: no one else below `e` but
`b` can be runnable, and `a` has the VGA buffer. -/
structure Turn (L : Layout M) (a b e : EnvIdx) (s : Kernel 1) : Prop where
  lt : a < e ∧ b < e ∧ a ≠ b
  cpu : s.cpuEnv 0 = some a
  running : (s.envs a).envStatus = .running
  waiting : (s.envs e).envStatus = .runnable
  others : ∀ x < e, x ≠ a → x ≠ b → (s.envs x).envStatus ≠ .runnable
  mem : Tidy L False none s.dirs s.mem
  bounded : Bounded L 65536 s.dirs s.mem
  vga : mapping s.mem.word s.dirs a (pdx vgaUser) (ptx vgaUser) = some vgaPte

/-- Slot `b` is the next to be allocated, and there is memory for it. -/
structure TurnAlone (L : Layout M) (a b e : EnvIdx) (s : Kernel 1) : Prop
    extends Turn L a b e s where
  head : s.envFreeList = some b
  dir : s.dirs b = none
  room : pageLoad none s.mem.word s.dirs vgaFrame < 65536
  pages : ∃ p q, s.mem.pageFreeList = some p ∧ (s.mem.pages p).ppLink = some q

/-- Environment `b` is a child of `a`. -/
structure Paired (L : Layout M) (a b e : EnvIdx) (st : EnvStatus) (s : Kernel 1) : Prop
    extends Turn L a b e s where
  child : (s.envs b).envStatus = st
  id : ∃ old, (s.envs b).envId = nextEnvId old b
  parent : (s.envs b).envParentId = (s.envs a).envId
  childVga : mapping s.mem.word s.dirs b (pdx vgaUser) (ptx vgaUser) = some vgaPte

namespace Turn

theorem sameView (h : Turn L a b e s) (hsame : SameView s t) : Turn L a b e t where
  lt := h.lt
  cpu := (congrFun hsame.cpu 0).trans h.cpu
  running := (hsame.status a).trans h.running
  waiting := (hsame.status e).trans h.waiting
  others x hx ha hb := by
    rw [hsame.status]
    exact h.others x hx ha hb
  mem := by
    rw [hsame.dirs]
    exact h.mem.congr hsame.pool hsame.word
  bounded := by
    unfold Bounded
    rw [hsame.dirs, hsame.word]
    exact h.bounded
  vga := by rw [hsame.dirs, hsame.word, h.vga]

theorem dirs_ne_none (h : Turn L a b e s) : s.dirs a ≠ none := by
  intro hnone
  have hvga := h.vga
  rw [mapping_of_none (tableAt_of_none hnone)] at hvga
  cases hvga

end Turn

theorem Paired.sameView {st : EnvStatus} (h : Paired L a b e st s) (hsame : SameView s t) :
    Paired L a b e st t where
  toTurn := h.toTurn.sameView hsame
  child := (hsame.status b).trans h.child
  id := by
    obtain ⟨old, hold⟩ := h.id
    exact ⟨old, (hsame.id b).trans hold⟩
  parent := by rw [hsame.parent, hsame.id, h.parent]
  childVga := by rw [hsame.dirs, hsame.word, h.childVga]

/-- The first call: `a` creates `b`. -/
theorem TurnAlone.fork (h : TurnAlone L a b e s) : ∃ t,
    Step M s (.trap 0 (syscallTf 7 0 0 0 0 0) 0) t ∧
      decides M s (.trap 0 (syscallTf 7 0 0 0 0 0) 0) = false ∧ Paired L a b e .notRunnable t := by
  obtain ⟨p, q, hhead, hnext⟩ := h.pages
  set w := s.setTf a (syscallTf 7 0 0 0 0 0) with hw
  have hview : SameView s w := sameView_setTf
  have hmem : Tidy L False none w.dirs w.mem := (h.toTurn.sameView hview).mem
  have hnone : w.dirs b = none := (congrFun hview.dirs b).trans h.dir
  obtain ⟨m, hsetup⟩ : ∃ m, envSetupVm M (w.ctx 0) w.mem = .ok (some p, m) :=
    envSetupVm_two hmem hnone hhead hnext
  have halloc : envAlloc M 0 (w.envs a).envId w = _ :=
    envAlloc_done (hview.list.trans h.head) hsetup
  have hcall : syscall M 0 a 0 7 0 0 0 0 0 w = .ret _ (w.forked a b p m) := sysExofork_done halloc
  have hset := envSetupVm_spec hmem.toMemInv hnone hsetup
  have hstatus (x : EnvIdx) (hx : x ≠ b) :
      ((w.forked a b p m).envs x).envStatus = (s.envs x).envStatus := by
    rw [← hview.status]
    simp [Kernel.forked, Kernel.allocated, Kernel.setStatus, Kernel.setTf, Kernel.setEnv,
      Kernel.setMem, hx]
  have hpaired : Paired L a b e .notRunnable (w.forked a b p m) := by
    refine { lt := h.lt, cpu := h.cpu, running := (hstatus a h.lt.2.2).trans h.running,
             waiting := (hstatus e h.lt.2.1.ne').trans h.waiting,
             others := fun x hx ha hb => by rw [hstatus x hb]; exact h.others x hx ha hb,
             mem := ?_, bounded := ?_, vga := ?_, child := ?_,
             id := ⟨(w.envs b).envId, ?_⟩, parent := ?_, childVga := ?_ }
    · rw [dirs_forked]
      exact hmem.setUp hnone hsetup
    · rw [dirs_forked]
      exact hset.bounded (by norm_num) (h.toTurn.sameView hview).bounded (by
        rw [hview.word, hview.dirs]
        exact h.room)
    · rw [dirs_forked]
      refine (hset.maps a _ _).trans ?_
      rw [if_neg h.lt.2.2, hview.word, hview.dirs, h.vga]
    · simp [Kernel.forked, Kernel.allocated, Kernel.setStatus, Kernel.setTf, Kernel.setEnv,
        Kernel.setMem]
    · simp [Kernel.forked, Kernel.allocated, Kernel.setStatus, Kernel.setTf, Kernel.setEnv,
        Kernel.setMem]
    · simp [Kernel.forked, Kernel.allocated, Kernel.setStatus, Kernel.setTf, Kernel.setEnv,
        Kernel.setMem, h.lt.2.2]
    · rw [dirs_forked]
      refine (hset.maps b _ _).trans ?_
      rw [if_pos rfl, if_pos ⟨rfl, rfl⟩]
  obtain ⟨t, hstep, hno, hback, -⟩ := syscall_step h.cpu h.running hcall hpaired.cpu hpaired.running
    hpaired.dirs_ne_none
  exact ⟨t, hstep, hno, hpaired.sameView hback⟩

/-- The second call: `a` makes `b` runnable. -/
theorem Paired.start (h : Paired L a b e .notRunnable s) : ∃ l t, Step M s l t ∧
    decides M s l = false ∧ Paired L a b e .runnable t := by
  obtain ⟨old, hid⟩ := h.id
  set tf := syscallTf 8 (nextEnvId old b) 2 0 0 0 with htf
  have hview : SameView s (s.setTf a tf) := sameView_setTf
  have hw := h.sameView hview
  have hfound : envid2env (s.setTf a tf) a (nextEnvId old b) true = some b :=
    envid2env_child ((hview.id b).trans hid) (by rw [hw.child]; decide) hw.parent
  have hcall : syscall M 0 a 0 8 (nextEnvId old b) 2 0 0 0 (s.setTf a tf) =
      .ret 0 ((s.setTf a tf).setStatus b .runnable) := by
    change sysEnvSetStatus a (nextEnvId old b) 2 (s.setTf a tf) = _
    simp only [sysEnvSetStatus, Comp.bind_apply, Comp.get_apply, hfound]
    rfl
  have hstatus (x : EnvIdx) (hx : x ≠ b) :
      (((s.setTf a tf).setStatus b .runnable).envs x).envStatus = (s.envs x).envStatus := by
    rw [← hview.status]
    simp [Kernel.setStatus, Kernel.setEnv, hx]
  have hsame : ∀ x, (((s.setTf a tf).setStatus b .runnable).envs x).envId =
      ((s.setTf a tf).envs x).envId ∧
      (((s.setTf a tf).setStatus b .runnable).envs x).envParentId =
        ((s.setTf a tf).envs x).envParentId := by
    intro x
    by_cases hx : x = b
    · subst hx
      simp [Kernel.setStatus, Kernel.setEnv]
    · simp [Kernel.setStatus, Kernel.setEnv, hx]
  have hpaired : Paired L a b e .runnable ((s.setTf a tf).setStatus b .runnable) :=
    { lt := h.lt, cpu := h.cpu, running := (hstatus a h.lt.2.2).trans h.running,
      waiting := (hstatus e h.lt.2.1.ne').trans h.waiting,
      others := fun x hx ha hb => by rw [hstatus x hb]; exact h.others x hx ha hb,
      mem := by rw [dirs_setStatus]; exact hw.mem,
      bounded := by rw [dirs_setStatus]; exact hw.bounded,
      vga := by rw [dirs_setStatus]; exact hw.vga,
      child := by simp [Kernel.setStatus, Kernel.setEnv],
      id := ⟨old, (hsame b).1.trans ((hview.id b).trans hid)⟩,
      parent := by rw [(hsame b).2, (hsame a).1, hw.parent],
      childVga := by rw [dirs_setStatus]; exact hw.childVga }
  obtain ⟨t, hstep, hno, hback, -⟩ := syscall_step h.cpu h.running hcall hpaired.cpu hpaired.running
    hpaired.dirs_ne_none
  exact ⟨_, t, hstep, hno, hpaired.sameView hback⟩

/-! ### The exit -/

/-- `sched_yield` without `curenv` runs the first environment that is
runnable. -/
theorem pick_first (hb : (s.envs b).envStatus = .runnable)
    (hlow : ∀ x < b, (s.envs x).envStatus ≠ .runnable) : pick s none = some b := by
  cases hpick : pick s none with
  | none =>
      have hnone := List.find?_eq_none.mp hpick b (mem_schedOrder _ b)
      simp [hb] at hnone
  | some x =>
      have hx := hpick
      rw [pick, schedOrder_eq] at hx
      obtain ⟨hrunnable, hle⟩ := scan_find (scanStart_le _) hx (decide_eq_true hb)
      have hxb : x ≤ b := by
        simpa [ahead, scanStart] using hle
      rcases hxb.lt_or_eq with hlt | rfl
      · exact absurd (of_decide_eq_true hrunnable) (hlow x hlt)
      · rfl

theorem envRun_idle {d : ℕ} (hidle : s.cpuEnv 0 = none) (hb : (s.envs b).envStatus = .runnable)
    (hd : s.dirs b = some d) : envRun 0 b s = .leave (s.resume 0 b d) := by
  have hdemote : s.demote 0 = s := demote_eq_self fun hcur => by
    rw [hidle] at hcur
    cases hcur
  have hdir : (s.envs b).envPgdir = some d := hd
  simp only [envRun, Comp.bind_apply, Comp.modify_apply, Comp.get_apply, hdemote]
  rw [if_neg (not_not.mpr hb), hdir]
  rfl

/-- The memory that `b` finds once `a` has exited. -/
theorem Paired.release {x : Ctx 1} {m m' : Mem 1} {d : ℕ} (h : Paired L a b e .runnable s)
    (hword : m.word = s.mem.word) (hpool : m.pool = s.mem.pool) (hd : s.dirs a = some d)
    (hrun : envFreeMem M x d m = .ok m') :
    Tidy L False none (Function.update s.dirs a none) m' ∧
      Bounded L 65536 (Function.update s.dirs a none) m' ∧
      mapping m'.word (Function.update s.dirs a none) b (pdx vgaUser) (ptx vgaUser) = some vgaPte ∧
      pageLoad none m'.word (Function.update s.dirs a none) vgaFrame < 65536 ∧
      ∃ p q, m'.pool.head = some p ∧ m'.pool.link p = some q := by
  have htidy : Tidy L False none s.dirs m := h.mem.congr hpool hword
  have hbound : Bounded L 65536 s.dirs m := by
    unfold Bounded
    rw [hword]
    exact h.bounded
  have hvga := h.vga
  rw [← hword] at hvga
  have hdown := envFreeMem_spec htidy.toMemInv hbound (by norm_num) hd hrun
  have hfreed := envFreeMem_frees htidy hbound (by norm_num) hd hrun
  have hloads := hfreed.loads
  obtain ⟨t, ht, -⟩ := mapping_eq_some.mp hvga
  have hsep := htidy.tables.separate
  have hown : 0 < ownRefs m.word s.dirs a vgaFrame := by
    refine refs_pos (i := .page a (pdx vgaUser) (ptx vgaUser)) ?_
    rw [slotRef_own, if_pos (show (Slot.page a _ _).env = a from rfl), slotRef, hvga,
      Option.map_some, pteFrame_vgaPte]
  have hdir := hfreed.on_own (y := .pgdir a) rfl hd (htidy.tables.dir hd) (hsep.dir hd)
  have htable := hfreed.on_own (y := .table a (pdx vgaUser)) rfl ht (htidy.tables.table ht)
    (hsep.table ht)
  refine ⟨hfreed.tidy, fun p hp => ?_, ?_, ?_, hdir.head_link htable (hsep.table_ne_dir ht hd).symm⟩
  · have hp' := hloads p
    have hle := hbound p hp
    omega
  · rw [hdown.maps, if_neg h.lt.2.2.symm, hword]
    exact h.childVga
  · have hp' := hloads vgaFrame
    have hle := hbound vgaFrame (Or.inr rfl)
    omega

/-- The third call: `a` exits, and `b` is picked. -/
theorem Paired.exit (h : Paired L a b e .runnable s) : ∃ t,
    Step M s (.trap 0 (syscallTf 3 0 0 0 0 0) 0) t ∧
      decides M s (.trap 0 (syscallTf 3 0 0 0 0 0) 0) = true ∧ TurnAlone L b a e t := by
  obtain ⟨d, hd⟩ := Option.ne_none_iff_exists'.mp h.dirs_ne_none
  set w := s.setTf a (syscallTf 3 0 0 0 0 0) with hw
  have hview : SameView s w := sameView_setTf
  have hwd : w.dirs a = some d := (congrFun hview.dirs a).trans hd
  have hword : (w.freeing M 0 a).word = s.mem.word := (freeing_word w 0 a).trans hview.word
  have hpool : (w.freeing M 0 a).pool = s.mem.pool := (freeing_pages w 0 a).2.trans hview.pool
  obtain ⟨m', hrun⟩ : ∃ m', envFreeMem M (w.ctx 0) d (w.freeing M 0 a) = .ok m' :=
    envFreeMem_returns (h.mem.congr hpool hword)
      (by unfold Bounded; rw [hword]; exact h.bounded) (by norm_num) hd
      fun i j v hv => by
        have hpage := h.mem.tables.page (by rwa [hword] at hv)
        exact h.mem.counted_lt (hpage.resolve_right fun hnull => hnull.1)
  obtain ⟨htidy, hbound, hvga, hroom, p, q, hhead, hlink⟩ := h.release hword hpool hd hrun
  set u := (w.freed 0 a m').setCur 0 none with hu
  have hudirs : u.dirs = Function.update s.dirs a none := by
    rw [hu, dirs_setCur, dirs_freed, hview.dirs]
  have hstatus (x : EnvIdx) (hx : x ≠ a) : (u.envs x).envStatus = (s.envs x).envStatus := by
    rw [← hview.status]
    simp [hu, Kernel.setCur, Kernel.freed, Kernel.setEnv, Kernel.setMem, Kernel.emit, hx]
  have hfree : (u.envs a).envStatus = .free := by
    simp [hu, Kernel.setCur, Kernel.freed, Kernel.setEnv]
  have hidle : u.cpuEnv 0 = none := by simp [hu, Kernel.setCur]
  obtain ⟨db, hdb⟩ : ∃ db, u.dirs b = some db := by
    refine Option.ne_none_iff_exists'.mp fun hnone => ?_
    rw [hudirs] at hnone
    rw [mapping_of_none (tableAt_of_none hnone)] at hvga
    cases hvga
  have hbrun : (u.envs b).envStatus = .runnable := (hstatus b h.lt.2.2.symm).trans h.child
  have hpick : pick u none = some b := by
    refine pick_first hbrun fun x hx => ?_
    by_cases hxa : x = a
    · rw [hxa, hfree]
      decide
    · rw [hstatus x hxa]
      exact h.others x (hx.trans h.lt.2.1) hxa hx.ne
  have hyield : schedYield M 0 u = .leave (u.resume 0 b db) := by
    unfold pick at hpick
    simp only [schedYield, Comp.bind_apply, Comp.get_apply, hidle, hpick]
    exact envRun_idle hidle hbrun hdb
  have hdestroy : envDestroy M 0 a w = .leave (u.resume 0 b db) := by
    have hcur : (w.freed 0 a m').cpuEnv 0 = some a := h.cpu
    have hnot : ¬ ((w.envs a).envStatus = .running ∧ w.cpuEnv 0 ≠ some a) := fun hne => hne.2 h.cpu
    simp only [envDestroy, Comp.bind_apply, Comp.get_apply]
    rw [if_neg hnot, Comp.bind_of_ret (envFree_ret hwd hrun)]
    simp only [Comp.bind_apply, Comp.get_apply]
    rw [if_pos hcur, Comp.bind_apply, Comp.modify_apply]
    exact hyield
  have hcall : syscall M 0 a 0 3 0 0 0 0 0 w = .leave (u.resume 0 b db) := by
    have hself : envid2env w a 0 true = some a := if_pos rfl
    change sysEnvDestroy M 0 a 0 w = _
    unfold sysEnvDestroy
    rw [Comp.bind_apply, Comp.get_apply]
    dsimp only
    rw [hself]
    exact Comp.bind_of_leave hdestroy
  have hdispatch : trapDispatch M 0 a 0 w = .leave (u.resume 0 b db) := by
    rw [hw, trapDispatch_syscall]
    exact Comp.bind_of_leave hcall
  have hdying : (s.envs a).envStatus ≠ .dying := by simp [h.running]
  have hturn (x : EnvIdx) (hx : x ≠ b) :
      ((u.resume 0 b db).envs x).envStatus = (u.envs x).envStatus := by
    rw [resume_status, if_neg hx]
  have halone : TurnAlone L b a e (u.resume 0 b db) := by
    refine { lt := ⟨h.lt.2.1, h.lt.1, h.lt.2.2.symm⟩, cpu := ?_, running := ?_, waiting := ?_,
             others := fun x hx hb ha => ?_, mem := ?_, bounded := ?_, vga := ?_, head := rfl,
             dir := ?_, room := ?_, pages := ⟨p, q, hhead, hlink⟩ }
    · rw [resume_cpuEnv, Function.update_self]
    · rw [resume_status, if_pos rfl]
    · rw [hturn e h.lt.2.1.ne', hstatus e h.lt.1.ne', h.waiting]
    · rw [hturn x hb, hstatus x ha]
      exact h.others x hx ha hb
    · rw [dirs_resume, hudirs]
      exact htidy.congr rfl rfl
    · rw [dirs_resume, hudirs]
      exact hbound
    · rw [dirs_resume, hudirs]
      exact hvga
    · rw [dirs_resume, hudirs, Function.update_self]
    · rw [dirs_resume, hudirs]
      exact hroom
  refine ⟨u.resume 0 b db, ?_, ?_, halone⟩
  · simp only [Step, step, Option.ite_none_left_eq_some, left_eq_some]
    refine ⟨by simp [h.cpu], ?_⟩
    rw [trap_apply h.cpu hdying]
    exact Comp.bind_of_leave hdispatch
  · simp only [decides, h.cpu, Option.any_some, h.running, ← hw, hdispatch]
    rfl

/-- The turns can go on for ever. -/
theorem TurnAlone.passedOver (h : TurnAlone L a b e s) (k : ℕ) : ∃ a' b' t,
    PassedOver M (fun _ _ => True) e k s t ∧ TurnAlone L a' b' e t := by
  induction k with
  | zero => exact ⟨a, b, s, .start h.waiting, h⟩
  | succ k ih =>
      obtain ⟨a', b', t, hpassed, halone⟩ := ih
      obtain ⟨t₁, hfork, hno₁, hborn⟩ := halone.fork (M := M)
      obtain ⟨l, t₂, hstart, hno₂, hready⟩ := hborn.start (M := M)
      obtain ⟨t₃, hexit, hyes, halone'⟩ := hready.exit (M := M)
      refine ⟨b', a', t₃, ?_, halone'⟩
      have hforked := hpassed.goesOn trivial hfork hno₁ hborn.waiting
      have hstarted := hforked.goesOn trivial hstart hno₂ hready.waiting
      exact hstarted.decision trivial hexit hyes halone'.cpu halone'.lt.1.ne halone'.waiting

theorem OnCall.callOk {l : Label 1} (h : OnCall (PresentOk M) s l) : OnCall (CallOk M) s l :=
  fun hl hcur hst => (h hl hcur hst).call

/-- When it has exited, the second can take turns with a child while the third
waits. -/
theorem sample_alone : ∃ s t : Kernel 1, Booted sampleLayout 0 s ∧
    Run (Step sampleMachine) (fun _ _ => True) s t ∧ TurnAlone sampleLayout 1 0 2 t := by
  have hcomputed : (scenario sampleMachine (sampleMem 1) 0 [sampleElf]
      (fun s l => checkElsewhere s l && roomy s l)
      (threeRun ++ [.trap 0 (syscallTf 3 0 0 0 0 0) 0])).map (fun t =>
        decide (t.cpuEnv 0 = some 1 ∧ (t.envs 1).envStatus = .running ∧
          (t.envs 2).envStatus = .runnable ∧ t.envFreeList = some 0 ∧ t.dirs 0 = none ∧
          mapping t.mem.word t.dirs 1 (pdx vgaUser) (ptx vgaUser) = some vgaPte ∧
          (t.mem.pages vgaFrame).ppRef ≠ 0) &&
        t.mem.pageFreeList.any fun p => (t.mem.pages p).ppLink.isSome) = some true := by
    decide +kernel
  obtain ⟨t, ht, htest⟩ := Option.map_eq_some_iff.mp hcomputed
  obtain ⟨s, hs, ht⟩ := Option.bind_eq_some_iff.mp ht
  obtain ⟨htest, hpages⟩ := Bool.and_eq_true_iff.mp htest
  obtain ⟨hcpu, hrunning, hwaiting, hhead, hdir, hvga, href⟩ := of_decide_eq_true htest
  have hboot := bootWith_booted (sample_init 1) sampleElf_wellFormed hs
  have hrun : Run (Step sampleMachine) (OnCall (PresentOk sampleMachine)) s t :=
    steps_run presentOk_of_check ht
  have hready : Ready sampleLayout True t := ready_run hboot.sys
    (bootWith_ready (sample_init 1) (sample_unlinked 1) sample_vga sampleElf_wellFormed hs)
    (hrun.mono fun _ _ hok => hok.callOk)
  have hsys := (isolated_run hboot hrun).1
  refine ⟨s, t, hboot, hrun.mono fun _ _ _ => trivial, ?_⟩
  refine { lt := by decide, cpu := hcpu, running := hrunning, waiting := hwaiting,
           others := fun x hx hne hne' => ?_,
           mem := ⟨hsys.mem, hready.mem.unlinked, hready.mem.clear, sample_vga⟩,
           bounded := hsys.bounded, vga := hvga, head := hhead, dir := hdir, room := ?_,
           pages := ?_ }
  · have hlt : (x : ℕ) < 2 := hx
    have h0 : (x : ℕ) ≠ 0 := fun h => hne' (Fin.ext h)
    have h1 : (x : ℕ) ≠ 1 := fun h => hne (Fin.ext h)
    omega
  · have hle := hsys.bounded vgaFrame (Or.inr rfl)
    refine hle.lt_of_ne fun heq => href ?_
    have hcount := hsys.mem.counts.ref vgaFrame (Or.inr rfl)
    rw [heq] at hcount
    exact hcount
  · obtain ⟨p, hp, hlink⟩ := (Option.any_eq_true _ _).mp hpages
    obtain ⟨q, hq⟩ := Option.isSome_iff_exists.mp hlink
    exact ⟨p, q, hp, hq⟩

/-- The third environment waits for more than `NENV` decisions. -/
theorem not_round_robin : ¬ ∀ (s t u : Kernel 1) (e : EnvIdx) (k : ℕ), Booted sampleLayout 0 s →
    Run (Step sampleMachine) (fun _ _ => True) s t →
    PassedOver sampleMachine (fun _ _ => True) e k t u → k < 1025 := by
  intro h
  obtain ⟨s, t, hboot, hrun, halone⟩ := sample_alone
  obtain ⟨_, _, u, hpassed, -⟩ := halone.passedOver (M := sampleMachine) 1025
  exact absurd (h s t u 2 1025 hboot hrun hpassed) (lt_irrefl _)

end Jos
