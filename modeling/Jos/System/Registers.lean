import Jos.System.Boot

/-!
Registers survive preemption. Next to the kernel runs a record of the last
kernel entry of every environment. The saved registers are those of that entry,
but for `%eax`, into which go the result of a system call and the answer to a
`sys_ipc_recv`. `sys_ipc_try_send` looks at `env_ipc_recving` alone, which stays
set when a blocked receiver is made runnable, so a send may also overwrite the
`%eax` of an environment that has been preempted since.
-/

namespace Jos

open Jos.Lib

variable {n : ℕ}

/-- A kernel entry: the registers, what the system call returned, if it did, and
whether a send has been delivered to the environment since. -/
structure Entry where
  tf : Trapframe
  result : Option Word
  answered : Bool

/-- The kernel and the last entry of every environment. -/
structure Watched (n : ℕ) where
  kernel : Kernel n
  entry : EnvIdx → Option Entry

namespace Watched

/-- What one event means for the entry of `e`: a new environment has not
entered the kernel, and a send answers. -/
def after (e : EnvIdx) : Event n → Option Entry → Option Entry
  | .envAlloc e', x => if e' = e then none else x
  | .ipcSend e' _ _ _ _, x => if e' = e then x.map fun x => { x with answered := true } else x
  | _, x => x

/-- The events of a step. -/
def news (s t : Kernel n) : List (Event n) := t.log.take (t.log.length - s.log.length)

variable (M : Machine)

/-- The system call of a trap. -/
def trapCall (c : Fin n) (cur : EnvIdx) (tf : Trapframe) (input : Word) : KM n Word :=
  syscall M c cur input tf.tfRegs.regEax tf.tfRegs.regEdx tf.tfRegs.regEcx tf.tfRegs.regEbx
    tf.tfRegs.regEdi tf.tfRegs.regEsi

/-- What the system call of a trap returns, if there is one and it does. -/
def result (c : Fin n) (cur : EnvIdx) (tf : Trapframe) (input : Word) (s : Kernel n) :
    Option Word :=
  if tf.tfTrapno = tSyscall then
    match trapCall M c cur tf input (s.setTf cur tf) with
    | .ret r _ => some r
    | _ => none
  else none

/-- The entries once a trap has copied its registers. A zombie is freed
instead. -/
def entered (w : Watched n) : Label n → EnvIdx → Option Entry
  | .trap c tf input =>
      match w.kernel.cpuEnv c with
      | none => w.entry
      | some cur =>
          if (w.kernel.envs cur).envStatus = .dying then w.entry
          else Function.update w.entry cur (some ⟨tf, result M c cur tf input w.kernel, false⟩)
  | _ => w.entry

/-- A step of the kernel, watched. -/
def step (w : Watched n) (l : Label n) : Option (Watched n) :=
  (Jos.step M w.kernel l).map fun t =>
    ⟨t, fun e => (news w.kernel t).foldr (after e) (entered M w l e)⟩

def Step (w : Watched n) (l : Label n) (w' : Watched n) : Prop := step M w l = some w'

end Watched

/-- Before any environment has entered the kernel. -/
def Kernel.watched (s : Kernel n) : Watched n := ⟨s, fun _ => none⟩

/-- The registers `tf` are those of the entry, but for `%eax`. This differs only
after a system call, and then it is what the call returned, or 0 where the call
was a `sys_ipc_recv` that has been answered. -/
def Entry.Kept (x : Entry) (tf : Trapframe) : Prop :=
  ∃ r, tf = x.tf.setEax r ∧ (r = x.tf.tfRegs.regEax ∨
    x.tf.tfTrapno = tSyscall ∧ (x.result = some r ∨
      x.tf.request.no = some .ipcRecv ∧ x.answered = true ∧ r = 0))

/-- Every environment that has entered the kernel would resume with the
registers of its last entry. -/
def RegistersKept (w : Watched n) : Prop :=
  ∀ e x, w.entry e = some x → x.Kept (w.kernel.envs e).envTf

/-- No send is delivered to another environment whose last entry was not a
`sys_ipc_recv`. -/
def AnswerOk (M : Machine) (w : Watched n) (l : Label n) : Prop :=
  ∀ {c tf input cur e x}, l = .trap c tf input → w.kernel.cpuEnv c = some cur →
    (w.kernel.envs cur).envStatus ≠ .dying → e ≠ cur →
    Sends M cur tf.request (w.kernel.setTf cur tf) e → w.entry e = some x →
    x.tf.request.no = some .ipcRecv

/-! ### What a request does to the saved registers -/

variable {M : Machine} {c : Fin n} {cur e : EnvIdx} {q : Request} {s t u : Kernel n}
  {evs : List (Event n)} {w w' : Watched n} {x : Entry} {tf : Trapframe} {input : Word}

open Watched

/-- The events tell nothing about `e`. -/
def Silent (e : EnvIdx) (evs : List (Event n)) : Prop :=
  ∀ x : Option Entry, evs.foldr (after e) x = x

/-- What a change means for `e`: it is a new environment, it gets an answer, or
its registers stay as they are. -/
inductive Resaved (M : Machine) (cur : EnvIdx) (q : Request) (e : EnvIdx) (s u : Kernel n)
    (evs : List (Event n)) : Prop
  | new (hevs : ∀ x : Option Entry, evs.foldr (after e) x = none)
  | answer (hsend : Sends M cur q s e)
      (hevs : ∀ x : Option Entry,
        evs.foldr (after e) x = x.map fun x => { x with answered := true })
      (htf : (u.envs e).envTf = (s.envs e).envTf.setEax 0)
  | same (hevs : Silent e evs) (htf : (u.envs e).envTf = (s.envs e).envTf)

theorem silent_nil : Silent e ([] : List (Event n)) := fun _ => rfl

theorem envTf_setEnv {v : Env} {e' : EnvIdx} (hv : v.envTf = (s.envs e').envTf) :
    ((s.setEnv e' v).envs e).envTf = (s.envs e).envTf := by
  simp only [Kernel.setEnv, Function.update_apply]
  split
  · rename_i he
    rw [he, hv]
  · rfl

theorem Freed.envTf (h : Freed M c e s u) (e' : EnvIdx) :
    (u.envs e').envTf = (s.envs e').envTf := by
  cases h with
  | mk => exact envTf_setEnv rfl

theorem Freed.log (h : Freed M c e s u) : u.log = [.envFree c e s.cpuEnv] ++ s.log := by
  cases h with
  | mk => rfl

theorem delivered_registers {target : EnvIdx} {value perm : Word} {page : Option ℕ}
    (htf : ∀ e, (u.envs e).envTf = (s.envs e).envTf) (hsend : Sends M cur q s target)
    (e : EnvIdx) : Resaved M cur q e s (u.delivered cur target value perm page)
      [.ipcSend target value (u.envs cur).envId perm page] := by
  by_cases he : target = e
  · subst he
    refine .answer hsend (fun x => ?_) ?_
    · exact if_pos rfl
    · simp only [Kernel.delivered, Kernel.emit, Kernel.setEnv, Function.update_self, htf]
  · refine .same (fun x => ?_) ?_
    · exact if_neg he
    · simp only [Kernel.delivered, Kernel.emit, Kernel.setEnv, Function.update_of_ne (Ne.symm he),
        htf]

theorem Call.registers (h : Call M c cur q s u) :
    ∃ evs, u.log = evs ++ s.log ∧ ∀ e, Resaved M cur q e s u evs := by
  cases h with
  | skip => exact ⟨[], rfl, fun e => .same silent_nil rfl⟩
  | setStatus => exact ⟨[], rfl, fun e => .same silent_nil (envTf_setEnv rfl)⟩
  | @dying e => exact ⟨[.envDestroyed e], rfl, fun e => .same (fun _ => rfl) (envTf_setEnv rfl)⟩
  | @destroyOther e u _ _ _ _ hfree =>
      refine ⟨[.envDestroyed e, .envFree c e s.cpuEnv], ?_, fun e' => .same (fun _ => rfl) ?_⟩
      · show _ :: u.log = _
        rw [hfree.log]
        rfl
      · exact hfree.envTf e'
  | @destroySelf u _ hfree =>
      exact ⟨[.envFree c cur s.cpuEnv], hfree.log, fun e => .same (fun _ => rfl) (hfree.envTf e)⟩
  | @exofork new d m _ _ _ =>
      refine ⟨[.envAlloc new], rfl, fun e => ?_⟩
      by_cases he : new = e
      · exact .new fun x => if_pos he
      · refine .same (fun x => if_neg he) ?_
        simp only [Kernel.forked, Kernel.allocated, Kernel.setTf, Kernel.setStatus, Kernel.setEnv,
          Kernel.setMem, Function.update_of_ne (Ne.symm he)]
  | pageAlloc => exact ⟨[], rfl, fun e => .same silent_nil rfl⟩
  | pageAllocFail => exact ⟨[], rfl, fun e => .same silent_nil rfl⟩
  | pageMap => exact ⟨[], rfl, fun e => .same silent_nil rfl⟩
  | pageUnmap => exact ⟨[], rfl, fun e => .same silent_nil rfl⟩
  | ipcFail => exact ⟨[], rfl, fun e => .same silent_nil (envTf_setEnv rfl)⟩
  | ipcValue hno he hrecv hpage =>
      exact ⟨_, rfl, delivered_registers (fun e => envTf_setEnv rfl)
        (sends_value hno he hrecv hpage)⟩
  | ipcPage hno he hrecv hsrcva hdstva hup hperm hds hdd hlook hw hinsert hr =>
      exact ⟨_, rfl, delivered_registers (fun e => envTf_setEnv rfl)
        (sends_page hno he hrecv hsrcva hup hperm hds hdd hlook hw hinsert hr)⟩
  | ipcRecv =>
      exact ⟨[.ipcRecv cur q.a1], rfl, fun e => .same (fun _ => rfl) (envTf_setEnv rfl)⟩

theorem demote_envTf (e : EnvIdx) : ((s.demote c).envs e).envTf = (s.envs e).envTf := by
  rcases demote_cases s c with h | ⟨cur, -, -, h⟩ <;> rw [h]
  exact envTf_setEnv rfl

theorem resume_envTf {d : ℕ} (e' : EnvIdx) :
    ((s.resume c e d).envs e').envTf = (s.envs e').envTf := by
  simp only [Kernel.resume, Kernel.emit, Kernel.setMem, Kernel.setCur, Kernel.setEnv,
    Function.update_apply]
  split
  · rename_i he
    rw [he]
  · rfl

/-- `env_run` restores the registers as they were saved. -/
theorem Exit.registers (h : Exit M c s t) : ∃ evs, t.log = evs ++ s.log ∧
    (∀ e, Silent e evs) ∧ ∀ e, (t.envs e).envTf = (s.envs e).envTf := by
  cases h with
  | @run e d _ _ =>
      refine ⟨[.envRun c e], ?_, fun _ _ => rfl, fun e' => ?_⟩
      · show _ :: (s.demote c).log = _
        rw [demote_log]
        rfl
      · rw [resume_envTf, demote_envTf]
  | halt => exact ⟨[], rfl, fun _ => silent_nil, fun _ => rfl⟩

/-! ### A trap -/

/-- The end of a trap, for each of the three ways in which its request can
end. -/
theorem trap_cases (hcur : s.cpuEnv c = some cur) (hst : (s.envs cur).envStatus ≠ .dying)
    (h : trap M c tf input s = .leave t) :
    (tf.tfTrapno ≠ tSyscall ∧ ∃ u, Call M c cur tf.request (s.setTf cur tf) u ∧ Exit M c u t) ∨
      (tf.tfTrapno = tSyscall ∧ trapCall M c cur tf input (s.setTf cur tf) = .leave t ∧
        ∃ u, Call M c cur tf.request (s.setTf cur tf) u ∧ Exit M c u t) ∨
      (tf.tfTrapno = tSyscall ∧ ∃ r u, trapCall M c cur tf input (s.setTf cur tf) = .ret r u ∧
        Call M c cur tf.request (s.setTf cur tf) u ∧
        Exit M c (u.setTf cur ((u.envs cur).envTf.setEax r)) t) := by
  by_cases hsys : tf.tfTrapno = tSyscall
  · right
    have hcur' : (s.setTf cur tf).cpuEnv c = some cur := hcur
    have hsaved : ((s.setTf cur tf).envs cur).envTf = tf := by simp [Kernel.setTf, Kernel.setEnv]
    have hhandles : Handles M c cur tf.request (s.setTf cur tf) (trapCall M c cur tf input) :=
      syscall_handles hcur' hsys
    have hbrk : tSyscall ≠ tBrkpt := by decide
    have hflt : tSyscall ≠ tPgflt := by decide
    have hdispatch : trapDispatch M c cur input (s.setTf cur tf) =
        (trapCall M c cur tf input >>= fun r => Comp.modify fun s =>
          s.setTf cur ((s.envs cur).envTf.setEax r)) (s.setTf cur tf) := by
      simp only [trapDispatch, Comp.bind_apply, Comp.get_apply, hsaved, hsys, if_neg hbrk,
        if_neg hflt, if_true]
      rfl
    rw [trap_apply hcur hst, Comp.bind_apply, hdispatch, Comp.bind_apply] at h
    cases hcall : trapCall M c cur tf input (s.setTf cur tf) with
    | leave v =>
        rw [hcall] at h
        cases h
        exact Or.inl ⟨hsys, rfl, hhandles.leave hcall⟩
    | stop why v =>
        rw [hcall] at h
        cases h
    | ret r u =>
        rw [hcall] at h
        refine Or.inr ⟨hsys, r, u, rfl, hhandles.ret hcall, ?_⟩
        simp only [Comp.modify_apply, Comp.bind_apply, Comp.get_apply] at h
        generalize u.setTf cur ((u.envs cur).envTf.setEax r) = v at h ⊢
        cases hv : v.cpuEnv c with
        | none =>
            rw [hv] at h
            exact schedYield_wp.leave h
        | some e =>
            simp only [hv] at h
            split at h
            · exact envRun_wp.leave h
            · exact schedYield_wp.leave h
  · left
    obtain ⟨u, v, hcall, hret, hexit⟩ := (trap_wp hcur hst).leave h
    obtain rfl : v = u := hret.resolve_right fun h => hsys h.1
    exact ⟨hsys, v, hcall, hexit⟩

/-! ### Watched runs -/

theorem news_eq (h : t.log = evs ++ s.log) : news s t = evs := by
  rw [news, h, List.length_append, Nat.add_sub_cancel, List.take_left]

theorem news_setMem {m : Mem n} : news s (s.setMem m) = [] :=
  news_eq rfl

theorem Watched.Step.kernel {l : Label n} (h : Watched.Step M w l w') :
    Jos.Step M w.kernel l w'.kernel ∧
      ∀ e, w'.entry e = (news w.kernel w'.kernel).foldr (after e) (entered M w l e) := by
  obtain ⟨t, ht, rfl⟩ := Option.map_eq_some_iff.mp h
  exact ⟨ht, fun e => rfl⟩

theorem trapCall_stays (hno : tf.request.no = some .ipcTrySend) :
    trapCall M c cur tf input s ≠ .leave t := by
  intro h
  simp only [Trapframe.request, Option.ite_none_right_eq_some] at hno
  simp only [trapCall, syscall, hno.2] at h
  exact sysIpcTrySend_envs.leave h

theorem Entry.Kept.answered (h : x.Kept tf) (hno : x.tf.request.no = some .ipcRecv) :
    Entry.Kept { x with answered := true } (tf.setEax 0) := by
  obtain ⟨r, rfl, -⟩ := h
  have hsys : x.tf.tfTrapno = tSyscall := by
    simp only [Trapframe.request, Option.ite_none_right_eq_some] at hno
    exact hno.1
  exact ⟨0, rfl, Or.inr ⟨hsys, Or.inr ⟨hno, rfl, rfl⟩⟩⟩

theorem silent_append {evs' : List (Event n)} (h : Silent e evs) (x : Option Entry) :
    (evs ++ evs').foldr (after e) x = evs'.foldr (after e) x := by
  rw [List.foldr_append, h]

/-- The other environments, in a step in which they were told what happened. -/
theorem kept_other {u : Kernel n} (h : ∀ x, w.entry e = some x → x.Kept (w.kernel.envs e).envTf)
    (hs : (s.envs e).envTf = (w.kernel.envs e).envTf) (hre : Resaved M cur q e s u evs)
    (hok : ∀ x, Sends M cur q s e → w.entry e = some x → x.tf.request.no = some .ipcRecv)
    (hx : evs.foldr (after e) (w.entry e) = some x) : x.Kept (u.envs e).envTf := by
  cases hre with
  | new hevs =>
      rw [hevs] at hx
      cases hx
  | answer hsend hevs htf =>
      rw [hevs, Option.map_eq_some_iff] at hx
      obtain ⟨x₀, hx₀, rfl⟩ := hx
      rw [htf, hs]
      exact (h x₀ hx₀).answered (hok x₀ hsend hx₀)
  | same hevs htf =>
      rw [hevs] at hx
      rw [htf, hs]
      exact h x hx

/-- The environment that entered the kernel, when its registers are stored. -/
theorem kept_self {result : Option Word} {u : Kernel n} {r : Word}
    (hs : (s.envs cur).envTf = tf) (hre : Resaved M cur tf.request cur s u evs)
    (hr : result = some r ∧ tf.tfTrapno = tSyscall)
    (hx : evs.foldr (after cur) (some ⟨tf, result, false⟩) = some x) :
    x.Kept ((u.envs cur).envTf.setEax r) := by
  obtain ⟨rfl, hsys⟩ := hr
  cases hre with
  | new hevs =>
      rw [hevs] at hx
      cases hx
  | answer hsend hevs htf =>
      rw [hevs] at hx
      cases hx
      rw [htf, hs]
      exact ⟨r, rfl, Or.inr ⟨hsys, Or.inl rfl⟩⟩
  | same hevs htf =>
      rw [hevs] at hx
      cases hx
      rw [htf, hs]
      exact ⟨r, rfl, Or.inr ⟨hsys, Or.inl rfl⟩⟩

/-- The same where nothing is stored. -/
theorem kept_self' {result : Option Word} {u : Kernel n}
    (hs : (s.envs cur).envTf = tf) (hre : Resaved M cur tf.request cur s u evs)
    (hstays : tf.request.no ≠ some .ipcTrySend)
    (hx : evs.foldr (after cur) (some ⟨tf, result, false⟩) = some x) :
    x.Kept (u.envs cur).envTf := by
  cases hre with
  | new hevs =>
      rw [hevs] at hx
      cases hx
  | answer hsend => exact absurd hsend.1 hstays
  | same hevs htf =>
      rw [hevs] at hx
      cases hx
      rw [htf, hs]
      exact ⟨tf.tfRegs.regEax, rfl, Or.inl rfl⟩

/-- A step in which nobody's registers are saved. -/
theorem kept_quiet {u : Kernel n} {c : Fin n} (h : RegistersKept w)
    (hlog : u.log = evs ++ w.kernel.log) (hevs : ∀ e, Silent e evs)
    (htf : ∀ e, (u.envs e).envTf = (w.kernel.envs e).envTf) (hexit : Exit M c u t)
    (hx : (news w.kernel t).foldr (after e) (w.entry e) = some x) : x.Kept (t.envs e).envTf := by
  obtain ⟨evs', hlog', hevs', htf'⟩ := hexit.registers
  rw [hlog, ← List.append_assoc] at hlog'
  rw [news_eq hlog', silent_append (hevs' e), hevs] at hx
  rw [htf', htf]
  exact h e x hx

/-- A kernel entry. -/
theorem kept_entry (h : RegistersKept w) (hok : AnswerOk M w (.trap c tf input))
    (hcur : w.kernel.cpuEnv c = some cur) (hst : (w.kernel.envs cur).envStatus ≠ .dying)
    (htrap : trap M c tf input w.kernel = .leave t)
    (hx : (news w.kernel t).foldr (after e) (Function.update w.entry cur
      (some ⟨tf, result M c cur tf input w.kernel, false⟩) e) = some x) :
    x.Kept (t.envs e).envTf := by
  have hsaved : ((w.kernel.setTf cur tf).envs cur).envTf = tf := by
    simp [Kernel.setTf, Kernel.setEnv]
  have hother (he : e ≠ cur) :
      ((w.kernel.setTf cur tf).envs e).envTf = (w.kernel.envs e).envTf := by
    simp only [Kernel.setTf, Kernel.setEnv, Function.update_of_ne he]
  -- the events of the call and of the exit, and what they leave of the registers
  have hevents {u v : Kernel n} (hcall : Call M c cur tf.request (w.kernel.setTf cur tf) u)
      (hlog : v.log = u.log) (hexit : Exit M c v t) : ∃ evs,
        (∀ e, Resaved M cur tf.request e (w.kernel.setTf cur tf) u evs) ∧
        (∀ x, (news w.kernel t).foldr (after e) x = evs.foldr (after e) x) ∧
        (t.envs e).envTf = (v.envs e).envTf := by
    obtain ⟨evs, hulog, hre⟩ := hcall.registers
    obtain ⟨evs', htlog, hevs', htf⟩ := hexit.registers
    have hnews : t.log = (evs' ++ evs) ++ w.kernel.log := by
      rw [htlog, hlog, hulog, List.append_assoc]
      rfl
    exact ⟨evs, hre, fun x => by rw [news_eq hnews, silent_append (hevs' e)], htf e⟩
  have hok' (he : e ≠ cur) (x : Entry)
      (hsend : Sends M cur tf.request (w.kernel.setTf cur tf) e) (hx : w.entry e = some x) :
      x.tf.request.no = some .ipcRecv := hok rfl hcur hst he hsend hx
  rcases trap_cases hcur hst htrap with ⟨hsys, u, hcall, hexit⟩ | ⟨hsys, hleave, u, hcall, hexit⟩ |
    ⟨hsys, r, u, hret, hcall, hexit⟩
  · obtain ⟨evs, hre, hfold, htf⟩ := hevents hcall rfl hexit
    rw [hfold] at hx
    rw [htf]
    by_cases he : e = cur
    · subst he
      rw [Function.update_self] at hx
      refine kept_self' hsaved (hre e) ?_ hx
      simp [Trapframe.request, hsys]
    · rw [Function.update_of_ne he] at hx
      exact kept_other (h e) (hother he) (hre e) (hok' he) hx
  · obtain ⟨evs, hre, hfold, htf⟩ := hevents hcall rfl hexit
    rw [hfold] at hx
    rw [htf]
    by_cases he : e = cur
    · subst he
      rw [Function.update_self] at hx
      exact kept_self' hsaved (hre e) (fun hno => trapCall_stays hno hleave) hx
    · rw [Function.update_of_ne he] at hx
      exact kept_other (h e) (hother he) (hre e) (hok' he) hx
  · obtain ⟨evs, hre, hfold, htf⟩ :=
      @hevents u (u.setTf cur ((u.envs cur).envTf.setEax r)) hcall rfl hexit
    rw [hfold] at hx
    rw [htf]
    by_cases he : e = cur
    · subst he
      rw [Function.update_self] at hx
      have hstored : ((u.setTf e ((u.envs e).envTf.setEax r)).envs e).envTf =
          (u.envs e).envTf.setEax r := by simp [Kernel.setTf, Kernel.setEnv]
      rw [hstored]
      refine kept_self hsaved (hre e) ⟨?_, hsys⟩ hx
      rw [result, if_pos hsys, hret]
    · rw [Function.update_of_ne he] at hx
      have hkept : ((u.setTf cur ((u.envs cur).envTf.setEax r)).envs e).envTf =
          (u.envs e).envTf := by
        simp only [Kernel.setTf, Kernel.setEnv, Function.update_of_ne he]
      rw [hkept]
      exact kept_other (h e) (hother he) (hre e) (hok' he) hx

theorem kept_step {l : Label n} (h : RegistersKept w) (hok : AnswerOk M w l)
    (hstep : Watched.Step M w l w') : RegistersKept w' := by
  obtain ⟨hkernel, hentry⟩ := hstep.kernel
  intro e x hx
  rw [hentry] at hx
  cases l with
  | trap c tf input =>
      simp only [Jos.Step, Jos.step, Option.ite_none_left_eq_some, left_eq_some] at hkernel
      obtain ⟨hexec, htrap⟩ := hkernel
      obtain ⟨cur, hcur⟩ := Option.ne_none_iff_exists'.mp hexec
      simp only [entered, hcur] at hx
      by_cases hst : (w.kernel.envs cur).envStatus = .dying
      · rw [if_pos hst] at hx
        obtain ⟨u, hfree, hexit⟩ := (trap_dying_wp hcur hst).leave htrap
        exact kept_quiet (u := u.setCur c none) h hfree.log (fun _ _ => rfl) hfree.envTf hexit hx
      · rw [if_neg hst] at hx
        exact kept_entry h hok hcur hst htrap hx
  | tick c =>
      cases hkernel.taken with
      | tick _ hexit => exact kept_quiet h rfl (fun _ => silent_nil) (fun _ => rfl) hexit hx
  | fill c va =>
      generalize w'.kernel = t at hkernel hx ⊢
      cases hkernel.taken with
      | fill =>
          rw [news_setMem] at hx
          exact h e x hx
  | store c va v =>
      generalize w'.kernel = t at hkernel hx ⊢
      cases hkernel.taken with
      | store =>
          rw [news_setMem] at hx
          exact h e x hx

/-- In every run in which no send is delivered to another environment whose
last entry was not a `sys_ipc_recv`, the saved registers are those of the last
entry, but for the result of a system call. -/
theorem registers_kept (hrun : Run (Watched.Step M) (AnswerOk M) s.watched w) :
    RegistersKept w :=
  hrun.invariant (fun h hok hstep => kept_step h hok hstep) fun _ _ h => by cases h

/-! ### Two runs -/

/-- The registers of an environment that the timer interrupts. -/
def timerTf (eax : Word) : Trapframe :=
  { syscallTf eax 0 0 0 0 0 with tfTrapno := 32 }

/-- A watched run of the sample machine, computed. -/
theorem watched_run {ok : Watched 1 → Label 1 → Prop} (check : Watched 1 → Label 1 → Bool)
    (hok : ∀ {w l}, check w l = true → ok w l) (ls : List (Label 1)) (test : Watched 1 → Bool)
    (h : ((bootWith sampleMachine (sampleMem 1) 0 [sampleElf]).bind fun s =>
      ls.foldlM (fun w l => if check w l then Watched.step sampleMachine w l else none)
        s.watched).map test = some true) :
    ∃ s w, Booted sampleLayout (0 : Fin 1) s ∧ Run (Watched.Step sampleMachine) ok s.watched w ∧
      test w = true := by
  obtain ⟨w, hw, htest⟩ := Option.map_eq_some_iff.mp h
  obtain ⟨s, hs, hw⟩ := Option.bind_eq_some_iff.mp hw
  refine ⟨s, w, bootWith_booted (sample_init 1) sampleElf_wellFormed hs,
    Run.of_foldlM (fun {u l v} hu => ?_) hw, htest⟩
  obtain ⟨hcheck, hstep⟩ := Option.ite_none_right_eq_some.mp hu
  exact ⟨hok hcheck, hstep⟩

/-- A check of `AnswerOk` that takes every send for a successful one. -/
def checkAnswer (w : Watched n) : Label n → Bool
  | .trap c tf _ =>
      (w.kernel.cpuEnv c).all fun cur =>
        decide (tf.request.no ≠ some .ipcTrySend) ||
          (envid2env (w.kernel.setTf cur tf) cur tf.request.a1 false).all fun e =>
            (w.entry e).all fun x => decide (x.tf.request.no = some .ipcRecv)
  | _ => true

theorem answerOk_of_check {l : Label n} (h : checkAnswer w l = true) : AnswerOk M w l := by
  rintro c tf input cur e x rfl hcur - - hsend hx
  simp only [checkAnswer, hcur, Option.all_some, Bool.or_eq_true, decide_eq_true_eq] at h
  have he := h.resolve_left fun hno => hno hsend.1
  simpa [hsend.2.1, hx] using he

/-- A child that its parent has woken up waits for a message, the parent sends
one, and the child is interrupted by the timer and resumes. -/
def sendToReceiver : List (Label 1) :=
  [.tick 0, .trap 0 (syscallTf 7 0 0 0 0 0) 0, .trap 0 (syscallTf 8 0x1001 2 0 0 0) 0,
    .trap 0 (syscallTf 10 0 0 0 0 0) 0, .trap 0 (syscallTf 12 0xEEC00000 0 0 0 0) 0,
    .trap 0 (syscallTf 11 0x1001 5 0xEEC00000 0 0) 0, .trap 0 (syscallTf 10 0 0 0 0 0) 0,
    .trap 0 (timerTf 7) 0, .trap 0 (syscallTf 10 0 0 0 0 0) 0]

theorem registers_kept_receiver : ∃ s w, Booted sampleLayout (0 : Fin 1) s ∧
    Run (Watched.Step sampleMachine) (AnswerOk sampleMachine) s.watched w ∧
    w.kernel.cpuEnv 0 = some 1 ∧ RegistersKept w := by
  obtain ⟨s, w, hboot, hrun, htest⟩ := watched_run checkAnswer answerOk_of_check sendToReceiver
    (fun w => w.kernel.cpuEnv 0 = some 1) (by decide +kernel)
  exact ⟨s, w, hboot, hrun, by simpa using htest, registers_kept hrun⟩

/-- The child waits, its parent wakes it up, the timer interrupts it, and the
parent sends to it before it resumes. -/
def sendToPreempted : List (Label 1) :=
  [.tick 0, .trap 0 (syscallTf 7 0 0 0 0 0) 0, .trap 0 (syscallTf 8 0x1001 2 0 0 0) 0,
    .trap 0 (syscallTf 10 0 0 0 0 0) 0, .trap 0 (syscallTf 12 0xEEC00000 0 0 0 0) 0,
    .trap 0 (syscallTf 8 0x1001 2 0 0 0) 0, .trap 0 (syscallTf 10 0 0 0 0 0) 0,
    .trap 0 (timerTf 7) 0, .trap 0 (syscallTf 11 0x1001 5 0xEEC00000 0 0) 0,
    .trap 0 (syscallTf 10 0 0 0 0 0) 0]

theorem not_registers_kept : ¬ ∀ (s : Kernel 1) w, Booted sampleLayout 0 s →
    Run (Watched.Step sampleMachine) (fun _ _ => True) s.watched w →
    ∀ c e x, w.kernel.cpuEnv c = some e → w.entry e = some x →
      x.Kept (w.kernel.envs e).envTf := by
  intro h
  obtain ⟨s, w, hboot, hrun, htest⟩ := watched_run (fun _ _ => true) (fun _ => trivial)
    sendToPreempted
    (fun w => decide (w.kernel.cpuEnv 0 = some 1) && (w.entry 1).any fun x =>
      decide (x.tf.tfTrapno ≠ tSyscall) &&
        decide ((w.kernel.envs 1).envTf.tfRegs.regEax ≠ x.tf.tfRegs.regEax))
    (by decide +kernel)
  simp only [Bool.and_eq_true, decide_eq_true_eq, Option.any_eq_true_iff_get] at htest
  obtain ⟨hexec, hsome, htrapno, heax⟩ := htest
  obtain ⟨r, htf, hr⟩ := h s w hboot hrun 0 1 _ hexec (Option.some_get hsome).symm
  obtain rfl := hr.resolve_right fun hsys => htrapno hsys.1
  rw [htf] at heax
  exact heax rfl

end Jos
