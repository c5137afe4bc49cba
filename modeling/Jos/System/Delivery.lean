import Jos.Lib.Mailbox
import Jos.System.PageCalls
import Jos.System.Receivers
import Jos.System.Transfer

/-!
Delivery of messages. The fields `env_ipc_*` of an environment are a mailbox
with one place: `sys_ipc_recv` requests a message, a successful
`sys_ipc_try_send` fills it, and the environment takes the message when it runs
again and `ipc_recv` of lib/ipc.c loads the fields through `thisenv`. The log
of the kernel says what has happened to every mailbox, and the invariant is
that this was in order and the fields agree with it.
-/

namespace Jos

open Jos.Lib

variable {n : ℕ} {M : Machine} {L : Layout M} {b c : Fin n} {s t u : Kernel n}
  {cur e : EnvIdx} {q : Request} {tf : Trapframe} {ev : Event n} {dstva : Word}

/-! ### The requests -/

def Event.creates (e : EnvIdx) : Event n → Prop
  | .envAlloc e' => e' = e
  | _ => False

def Event.runs (e : EnvIdx) : Event n → Prop
  | .envRun _ e' => e' = e
  | _ => False

instance (e : EnvIdx) : DecidablePred (Event.creates e : Event n → Prop)
  | .envAlloc e' => inferInstanceAs (Decidable (e' = e))
  | .envFree _ _ _ | .envDestroyed _ | .envRun _ _ | .ipcRecv _ _ | .ipcSend _ _ _ _ _ =>
      isFalse id

instance (e : EnvIdx) : DecidablePred (Event.runs e : Event n → Prop)
  | .envRun _ e' => inferInstanceAs (Decidable (e' = e))
  | .envAlloc _ | .envFree _ _ _ | .envDestroyed _ | .ipcRecv _ _ | .ipcSend _ _ _ _ _ =>
      isFalse id

/-- `e` has not run since it was created. -/
def NotRun (e : EnvIdx) : List (Event n) → Prop := Since (Event.creates e) (Event.runs e)

instance (e : EnvIdx) (l : List (Event n)) : Decidable (NotRun e l) :=
  inferInstanceAs (Decidable (Since (Event.creates e) (Event.runs e) l))

/-- The requests of environments that send, receive, yield, exit and create
children, and make only those runnable that have not run yet. A page to be sent
is mapped in the sender. -/
structure IpcCall (cur : EnvIdx) (q : Request) (s : Kernel n) : Prop where
  pages : q.no ≠ some .pageAlloc ∧ q.no ≠ some .pageMap ∧ q.no ≠ some .pageUnmap
  exit : ∀ {e}, q.no = some .envDestroy → envid2env s cur q.a1 true = some e → e = cur
  start : ∀ {e}, q.no = some .envSetStatus → envid2env s cur q.a1 true = some e → NotRun e s.log
  source : q.no = some .ipcTrySend → q.a3 < utop → s.pteOf cur q.a3 ≠ none

/-! ### Exactly once -/

/-- `ipc_recv` of lib/ipc.c, when `sys_ipc_recv` has returned `errcode`: what it
returns, and what it stores in `*from_env_store` and `*perm_store`. -/
def ipcRecv (errcode : Word) (thisenv : Env) : Word × Word × Word :=
  if errcode ≠ 0 then (errcode, 0, 0)
  else (thisenv.envIpcValue, thisenv.envIpcFrom, thisenv.envIpcPerm)

/-- The last that concerns the mailbox of `e` is that it called
`sys_ipc_recv(dstva)`. -/
def Requested (e : EnvIdx) (dstva : Word) (l : List (Event n)) : Prop :=
  ∃ l₁ l₂, l = l₁ ++ .ipcRecv e dstva :: l₂ ∧ ∀ a ∈ l₁, ¬ a.beginsRecv e ∧ ¬ a.endsRecv e

/-- Messages are delivered exactly once. A `sys_ipc_try_send` that returns 0 is
recorded with its arguments. It completes one `sys_ipc_recv`, the last of the
target, which has not run since and has not been sent anything else. Without it
the target does not run again, and when it calls `sys_ipc_recv` the next time,
it has run. Until then, if it is live, `sys_ipc_recv` returns 0 to it and
`ipc_recv` loads what was sent, and the page is mapped where it was requested. -/
structure DeliversOnce (M : Machine) (t : Kernel n) : Prop where
  recorded : ∀ {c cur tf envid value srcva perm u}, t.cpuEnv c = some cur →
    (srcva < utop → t.pteOf cur srcva ≠ none) →
    sysIpcTrySend M c cur envid value srcva perm (t.setTf cur tf) = .ret 0 u →
    ∃ target page, envid2env t cur envid false = some target ∧
      page = (if srcva < utop ∧ (t.envs target).envIpcDstva < utop then
        (t.pteOf cur srcva).map pteFrame else none) ∧
      u.log = .ipcSend target value (t.envs cur).envId (if page = none then 0 else perm) page ::
        t.log
  matched : ∀ {l₁ l₂ e value source perm page},
    t.log = l₁ ++ .ipcSend e value source perm page :: l₂ → ∃ dstva, Requested e dstva l₂
  resumed : ∀ {l₁ l₂ c e dstva}, t.log = l₁ ++ .envRun c e :: l₂ → ¬ Requested e dstva l₂
  taken : ∀ {l₁ l₂ l₃ e dstva value source perm page},
    t.log = l₁ ++ .ipcRecv e dstva :: (l₂ ++ .ipcSend e value source perm page :: l₃) →
    ∃ a ∈ l₂, a.runs e ∨ a.creates e
  returns : ∀ {l₁ l₂ e dstva value source perm page},
    t.log = l₁ ++ .ipcSend e value source perm page :: l₂ → Requested e dstva l₂ →
    (∀ a ∈ l₁, ¬ a.beginsRecv e ∧ ¬ a.creates e) → (t.envs e).envStatus ≠ .free →
    ((∀ a ∈ l₁, ¬ a.runs e) → (t.envs e).envTf.tfRegs.regEax = 0) ∧
      ipcRecv 0 (t.envs e) = (value, source, perm) ∧
      ∀ p, page = some p → ∃ w, t.pteOf e dstva = some w ∧ pteFrame w = p

/-! ### Mailboxes -/

structure Message where
  value : Word
  source : Word
  perm : Word
  page : Option ℕ

/-- What an event does to the mailbox of `e`. -/
def Event.mail (e : EnvIdx) : Event n → Option (MailOp Word Message)
  | .envAlloc e' => if e' = e then some .renew else none
  | .envRun _ e' => if e' = e then some .take else none
  | .ipcRecv e' dstva => if e' = e then some (.request dstva) else none
  | .ipcSend e' value source perm page =>
      if e' = e then some (.send ⟨value, source, perm, page⟩) else none
  | .envFree _ _ _ => none
  | .envDestroyed _ => none

/-- The fields of `e` hold message `m`, and its page is mapped at `dstva`. -/
structure FindsMessage (s : Kernel n) (e : EnvIdx) (dstva : Word) (m : Message) : Prop where
  value : (s.envs e).envIpcValue = m.value
  source : (s.envs e).envIpcFrom = m.source
  perm : (s.envs e).envIpcPerm = m.perm
  page : ∀ p, m.page = some p → ∃ w, s.pteOf e dstva = some w ∧ pteFrame w = p

/-- `e` is about to run again, and will see that `sys_ipc_recv` returns 0. -/
structure Woken (s : Kernel n) (e : EnvIdx) : Prop where
  status : (s.envs e).envStatus = .runnable
  idle : ∀ c, s.cpuEnv c ≠ some e
  eax : (s.envs e).envTf.tfRegs.regEax = 0

/-- How the fields of `e` agree with its mailbox. -/
def BoxAgrees (s : Kernel n) (e : EnvIdx) : Mailbox Word Message → Prop
  | .closed => (s.envs e).envIpcRecving = false
  | .waiting dstva => (s.envs e).envIpcRecving = true ∧ (s.envs e).envIpcDstva = dstva
  | .full dstva m => (s.envs e).envIpcRecving = false ∧ FindsMessage s e dstva m ∧ Woken s e
  | .taken dstva m => (s.envs e).envIpcRecving = false ∧ FindsMessage s e dstva m

/-- Every mailbox is in order, and the live environments agree with theirs; one
that has not run has done nothing with its mailbox. -/
structure MailInv (s : Kernel n) : Prop where
  box : ∀ e, ∃ b, Mailbox.after (Event.mail e) s.log = some b ∧
    ((s.envs e).envStatus ≠ .free → BoxAgrees s e b)
  fresh : ∀ {e}, NotRun e s.log → Mailbox.after (Event.mail e) s.log = some .closed
  ran : ∀ {c e}, s.cpuEnv c = some e → ¬ NotRun e s.log

/-! ### Environments that a step leaves alone -/

/-- Nothing that matters for the mailbox of `e` changes. -/
structure Untouched (s u : Kernel n) (e : EnvIdx) : Prop where
  live : (u.envs e).envStatus ≠ .free → (s.envs e).envStatus ≠ .free
  recving : (u.envs e).envIpcRecving = (s.envs e).envIpcRecving
  dstva : (u.envs e).envIpcDstva = (s.envs e).envIpcDstva
  value : (u.envs e).envIpcValue = (s.envs e).envIpcValue
  source : (u.envs e).envIpcFrom = (s.envs e).envIpcFrom
  perm : (s.envs e).envIpcRecving = false → (u.envs e).envIpcPerm = (s.envs e).envIpcPerm
  woken : Woken s e → Woken u e
  maps : ∀ va, u.pteOf e va = s.pteOf e va

theorem Woken.congr (h : Woken s e) (henv : u.envs e = s.envs e)
    (hcpu : ∀ c, u.cpuEnv c = some e → s.cpuEnv c = some e) : Woken u e where
  status := henv ▸ h.status
  idle c hc := h.idle c (hcpu c hc)
  eax := henv ▸ h.eax

namespace Untouched

theorem of_env (henv : u.envs e = s.envs e)
    (hcpu : ∀ c, u.cpuEnv c = some e → s.cpuEnv c = some e)
    (hmaps : ∀ va, u.pteOf e va = s.pteOf e va) : Untouched s u e where
  live := by rw [henv]; exact id
  recving := by rw [henv]
  dstva := by rw [henv]
  value := by rw [henv]
  source := by rw [henv]
  perm _ := by rw [henv]
  woken h := h.congr henv hcpu
  maps := hmaps

/-- An environment that executes is not about to run. -/
theorem of_exec {st : EnvStatus} (hexec : s.cpuEnv c = some e)
    (hlive : (s.envs e).envStatus ≠ .free)
    (henv : u.envs e = { s.envs e with envStatus := st, envTf := tf })
    (hmaps : ∀ va, u.pteOf e va = s.pteOf e va) : Untouched s u e where
  live _ := hlive
  recving := by rw [henv]
  dstva := by rw [henv]
  value := by rw [henv]
  source := by rw [henv]
  perm _ := by rw [henv]
  woken h := absurd hexec (h.idle c)
  maps := hmaps

theorem finds {m : Message} (h : Untouched s u e) (hrecv : (s.envs e).envIpcRecving = false)
    (hfinds : FindsMessage s e dstva m) : FindsMessage u e dstva m where
  value := h.value.trans hfinds.value
  source := h.source.trans hfinds.source
  perm := (h.perm hrecv).trans hfinds.perm
  page p hp := by
    rw [h.maps]
    exact hfinds.page p hp

theorem agrees {b : Mailbox Word Message} (h : Untouched s u e) (hagrees : BoxAgrees s e b) :
    BoxAgrees u e b := by
  cases b with
  | closed => exact h.recving.trans hagrees
  | waiting r => exact ⟨h.recving.trans hagrees.1, h.dstva.trans hagrees.2⟩
  | full r m =>
      obtain ⟨hrecv, hfinds, hwoken⟩ := hagrees
      exact ⟨h.recving.trans hrecv, h.finds hrecv hfinds, h.woken hwoken⟩
  | taken r m =>
      obtain ⟨hrecv, hfinds⟩ := hagrees
      exact ⟨h.recving.trans hrecv, h.finds hrecv hfinds⟩

end Untouched

/-! ### What one event does -/

theorem mail_of_creates (h : ev.creates e) : ev.mail e = some .renew := by
  cases ev with
  | envAlloc e' => exact if_pos h
  | _ => exact absurd h id

/-- A step that no mailbox notices, with what it does to the environments. -/
theorem MailInv.congr (h : MailInv s) (hlog : u.log = s.log)
    (hcpu : ∀ {c e}, u.cpuEnv c = some e → s.cpuEnv c = some e)
    (hagrees : ∀ {e b}, Mailbox.after (Event.mail e) s.log = some b →
      ((s.envs e).envStatus ≠ .free → BoxAgrees s e b) → (u.envs e).envStatus ≠ .free →
      BoxAgrees u e b) : MailInv u where
  box e := by
    obtain ⟨b, hb, hagrees'⟩ := h.box e
    rw [hlog]
    exact ⟨b, hb, hagrees hb hagrees'⟩
  fresh hnot := by
    rw [hlog] at hnot ⊢
    exact h.fresh hnot
  ran hc := by
    rw [hlog]
    exact h.ran (hcpu hc)

theorem MailInv.untouched (h : MailInv s) (hlog : u.log = s.log)
    (hcpu : ∀ {c e}, u.cpuEnv c = some e → s.cpuEnv c = some e)
    (hsame : ∀ {e}, (u.envs e).envStatus ≠ .free → Untouched s u e) : MailInv u :=
  h.congr hlog hcpu fun _ hagrees hlive => (hsame hlive).agrees (hagrees ((hsame hlive).live hlive))

/-- One event: it comes at its time for the mailboxes that it concerns, and the
other environments are left alone. -/
theorem MailInv.event (ev : Event n) (h : MailInv s) (hlog : u.log = ev :: s.log)
    (hran : ∀ {c e}, u.cpuEnv c = some e → ¬ NotRun e (ev :: s.log))
    (hother : ∀ {e}, ev.mail e = none → (u.envs e).envStatus ≠ .free → Untouched s u e)
    (hself : ∀ {e o b}, ev.mail e = some o → ((s.envs e).envStatus ≠ .free → BoxAgrees s e b) →
      ∃ b', b.next o = some b' ∧ ((u.envs e).envStatus ≠ .free → BoxAgrees u e b'))
    (hfresh : ∀ {e o}, ev.mail e = some o → NotRun e (ev :: s.log) → o = .renew) : MailInv u where
  box e := by
    obtain ⟨b, hb, hagrees⟩ := h.box e
    rw [hlog]
    cases hev : ev.mail e with
    | none =>
        rw [Mailbox.after_cons_none hev]
        refine ⟨b, hb, fun hlive => ?_⟩
        have hsame := hother hev hlive
        exact hsame.agrees (hagrees (hsame.live hlive))
    | some o =>
        obtain ⟨b', hnext, hagrees'⟩ := hself hev hagrees
        rw [Mailbox.after_cons_some hev, hb]
        exact ⟨b', hnext, hagrees'⟩
  fresh {e} hnot := by
    rw [hlog] at hnot ⊢
    cases hev : ev.mail e with
    | none =>
        rw [Mailbox.after_cons_none hev]
        refine h.fresh (hnot.resolve_left fun hcreates => ?_).2
        rw [mail_of_creates hcreates] at hev
        cases hev
    | some o =>
        obtain ⟨b, hb, -⟩ := h.box e
        rw [hfresh hev hnot] at hev
        rw [Mailbox.after_cons_some hev, hb]
        rfl
  ran hc := by
    rw [hlog]
    exact hran hc

/-! ### Requests -/

/-- The kernel has been entered on CPU `c` by `cur`, and no environment that
executes is receiving. -/
structure Entered (L : Layout M) (c : Fin n) (cur : EnvIdx) (s : Kernel n) : Prop where
  mail : MailInv s
  sys : SysInv L True (some c) s
  cur : s.cpuEnv c = some cur
  idle : ∀ {c e}, (s.envs e).envIpcRecving = true → s.cpuEnv c ≠ some e

theorem pteOf_congr (hword : u.mem.word = s.mem.word) (hdirs : u.dirs = s.dirs) (va : Word) :
    u.pteOf e va = s.pteOf e va := by
  unfold Kernel.pteOf
  rw [hword, hdirs]

theorem not_notRun_cons (h : ¬ NotRun e s.log) (hev : ¬ ev.creates e) :
    ¬ NotRun e (ev :: s.log) := fun hnot => h (hnot.resolve_left hev).2

/-- The mailbox of a slot that is freed does not matter. -/
theorem MailInv.freed {k : Option (Fin n)} {m : Mem n} {d : ℕ} (h : MailInv s)
    (hsys : SysInv L True k s) (hdir : (s.envs cur).envPgdir = some d)
    (hmem : envFreeMem M (s.ctx c) d (s.freeing M c cur) = .ok m) :
    MailInv ((s.freed c cur m).setCur c none) := by
  have hcpu {c' : Fin n} {e : EnvIdx}
      (hc : ((s.freed c cur m).setCur c none).cpuEnv c' = some e) : s.cpuEnv c' = some e := by
    have hupdate : Function.update s.cpuEnv c none c' = some e := hc
    by_cases heq : c' = c
    · rw [heq, Function.update_self] at hupdate
      cases hupdate
    · rwa [Function.update_of_ne heq] at hupdate
  have hdown := (hsys.cpuSys c).freed_down hdir hmem
  refine h.event (.envFree c cur s.cpuEnv) rfl
    (fun hc => not_notRun_cons (h.ran (hcpu hc)) id) (fun {e} _ hlive => ?_) nofun nofun
  have he : e ≠ cur := by
    rintro rfl
    exact hlive (by simp [Kernel.setCur, Kernel.freed_self])
  refine .of_env (Kernel.freed_of_ne he) (fun _ => hcpu) fun va => ?_
  have hword : (s.freeing M c cur).word = s.mem.word := freeing_word s c cur
  unfold Kernel.pteOf
  rw [dirs_setCur, dirs_freed]
  refine (hdown.maps e _ _).trans ?_
  rw [if_neg he, hword]

namespace Entered

theorem live (h : Entered L c cur s) : (s.envs cur).envStatus ≠ .free :=
  (h.sys.envs.cur rfl h.cur).1

/-- A receiver's mailbox waits. -/
theorem waits {b : Mailbox Word Message} (hrecv : (s.envs e).envIpcRecving = true)
    (hagrees : BoxAgrees s e b) : b = .waiting (s.envs e).envIpcDstva := by
  cases b with
  | closed => exact absurd (hrecv.symm.trans hagrees) (by decide)
  | waiting r => rw [hagrees.2]
  | full r m => exact absurd (hrecv.symm.trans hagrees.1) (by decide)
  | taken r m => exact absurd (hrecv.symm.trans hagrees.1) (by decide)

theorem forked {m : Mem n} {d : ℕ} (h : Entered L c cur s) (hhead : s.envFreeList = some e)
    (hmem : envSetupVm M (s.ctx c) s.mem = .ok (some d, m)) : MailInv (s.forked cur e d m) := by
  have hset := envSetupVm_spec h.sys.mem (h.sys.fresh hhead) hmem
  have henv {e' : EnvIdx} (he : e' ≠ e) : (s.forked cur e d m).envs e' = s.envs e' := by
    simp [Kernel.forked, Kernel.setTf, Kernel.setStatus, Kernel.setEnv, Kernel.allocated, he,
      Kernel.setMem]
  have hself : ((s.forked cur e d m).envs e).envIpcRecving = false := by
    simp [Kernel.forked, Kernel.setTf, Kernel.setStatus, Kernel.setEnv, Kernel.allocated]
  refine h.mail.event (.envAlloc e) rfl (fun {c' e'} hc => ?_) (fun {e'} hev _ => ?_)
    (fun {e' o b} hev _ => ?_) (fun {e' o} hev _ => ?_)
  · refine not_notRun_cons (h.mail.ran hc) fun hcreates => ?_
    obtain rfl : e = e' := hcreates
    exact h.sys.envs.live_of_exec (show s.cpuEnv c' = some e from hc) (h.sys.envs.head_free hhead)
  · have he : e' ≠ e := by
      rintro rfl
      simp [Event.mail] at hev
    refine .of_env (henv he) (fun _ => id) fun va => ?_
    unfold Kernel.pteOf
    rw [dirs_forked]
    refine (hset.maps e' _ _).trans ?_
    rw [if_neg he]
  · simp only [Event.mail, Option.ite_none_right_eq_some] at hev
    obtain ⟨rfl, hev⟩ := hev
    cases hev
    exact ⟨.closed, by cases b <;> rfl, fun _ => hself⟩
  · simp only [Event.mail, Option.ite_none_right_eq_some] at hev
    exact (Option.some.inj hev.2).symm

/-- A message goes into the mailbox of a receiver. -/
theorem delivered {target : EnvIdx} {value perm : Word} {page : Option ℕ} {m : Mem n}
    (h : Entered L c cur s) (hlive : (s.envs target).envStatus ≠ .free)
    (hrecv : (s.envs target).envIpcRecving = true)
    (hother : ∀ {e va}, e ≠ target → (s.setMem m).pteOf e va = s.pteOf e va)
    (hpage : ∀ p, page = some p →
      ∃ w, (s.setMem m).pteOf target (s.envs target).envIpcDstva = some w ∧ pteFrame w = p) :
    MailInv (((s.ipcPerm0 target).setMem m).delivered cur target value perm page) := by
  set u := ((s.ipcPerm0 target).setMem m).delivered cur target value perm page with hu
  have hmaps (e : EnvIdx) (va : Word) : u.pteOf e va = (s.setMem m).pteOf e va := by
    have hdirs : u.dirs = (s.setMem m).dirs := by
      rw [hu, dirs_delivered, dirs_setMem, dirs_ipcPerm0, dirs_setMem]
    have hword : u.mem.word = (s.setMem m).mem.word := rfl
    exact pteOf_congr hword hdirs va
  have hsource : (((s.ipcPerm0 target).setMem m).envs cur).envId = (s.envs cur).envId := by
    by_cases he : cur = target
    · subst he
      simp [Kernel.ipcPerm0, Kernel.setMem, Kernel.setEnv]
    · simp [Kernel.ipcPerm0, Kernel.setMem, Kernel.setEnv, he]
  have hlog : u.log = .ipcSend target value (s.envs cur).envId perm page :: s.log := by
    rw [← hsource]
    rfl
  refine h.mail.event _ hlog (fun hc => not_notRun_cons (h.mail.ran hc) id) (fun {e} hev _ => ?_)
    (fun {e o b} hev hagrees => ?_) (fun {e o} hev hnot => ?_)
  · have he : e ≠ target := by
      rintro rfl
      simp [Event.mail] at hev
    refine .of_env ?_ (fun _ => id) fun va => ?_
    · simp [hu, Kernel.delivered, Kernel.ipcPerm0, Kernel.setMem, Kernel.setEnv, Kernel.emit, he]
    · rw [hmaps, hother he]
  · simp only [Event.mail, Option.ite_none_right_eq_some] at hev
    obtain ⟨rfl, hev⟩ := hev
    cases hev
    obtain rfl := waits hrecv (hagrees hlive)
    refine ⟨_, rfl, fun _ => ⟨?_, ⟨?_, ?_, ?_, ?_⟩, ⟨?_, ?_, ?_⟩⟩⟩
    · simp [hu, Kernel.delivered, Kernel.setEnv, Kernel.emit]
    · simp [hu, Kernel.delivered, Kernel.setEnv, Kernel.emit]
    · simpa [hu, Kernel.delivered, Kernel.setEnv, Kernel.emit] using hsource
    · simp [hu, Kernel.delivered, Kernel.setEnv, Kernel.emit]
    · intro p hp
      rw [hmaps]
      exact hpage p hp
    · simp [hu, Kernel.delivered, Kernel.setEnv, Kernel.emit]
    · exact fun c' => h.idle hrecv
    · simp [hu, Kernel.delivered, Kernel.setEnv, Kernel.emit, Trapframe.setEax]
  · -- a receiver has run
    simp only [Event.mail, Option.ite_none_right_eq_some] at hev
    obtain ⟨rfl, -⟩ := hev
    have hclosed := h.mail.fresh (hnot.resolve_left id).2
    obtain ⟨b, hb, hagrees⟩ := h.mail.box target
    obtain rfl := Option.some.inj (hb.symm.trans hclosed)
    exact absurd (hrecv.symm.trans (hagrees hlive)) (by decide)

theorem received (h : Entered L c cur s) : MailInv (s.received cur dstva) := by
  refine h.mail.event (.ipcRecv cur dstva) rfl
    (fun hc => not_notRun_cons (h.mail.ran hc) id) (fun {e} hev _ => ?_)
    (fun {e o b} hev hagrees => ?_) (fun {e o} hev hnot => ?_)
  · have he : e ≠ cur := by
      rintro rfl
      simp [Event.mail] at hev
    have hword : (s.received cur dstva).mem.word = s.mem.word := rfl
    exact .of_env (Kernel.received_of_ne he) (fun _ => id) (pteOf_congr hword dirs_received)
  · simp only [Event.mail, Option.ite_none_right_eq_some] at hev
    obtain ⟨rfl, hev⟩ := hev
    cases hev
    refine ⟨.waiting dstva, ?_, fun _ => ?_⟩
    · -- the caller executes: it neither waits nor has a message to take
      cases b with
      | closed => rfl
      | taken r m => rfl
      | waiting r => exact absurd h.cur (h.idle (hagrees h.live).1)
      | full r m => exact absurd h.cur ((hagrees h.live).2.2.idle c)
    · simp [BoxAgrees, Kernel.received, Kernel.setEnv, Kernel.emit]
  · simp only [Event.mail, Option.ite_none_right_eq_some] at hev
    obtain ⟨rfl, -⟩ := hev
    exact absurd (hnot.resolve_left id).2 (h.mail.ran h.cur)

/-- The page that is sent, in the address space of the target. -/
theorem transferred {target : EnvIdx} {ds dd pt : ℕ} {i : PtIdx} {page : Option ℕ} {r : Word}
    {m : Mem n} (h : Entered L c cur s) (hroom : RoomOk M cur q s)
    (hno : q.no = some .ipcTrySend) (he : envid2env s cur q.a1 false = some target)
    (hrecv : (s.envs target).envIpcRecving = true) (hsrcva : userPage q.a3)
    (hdstva : userPage (s.envs target).envIpcDstva) (hup : Flag q.a4 (pteU ||| pteP))
    (hperm : ¬ Flag q.a4 (~~~pteSyscall)) (hds : (s.envs cur).envPgdir = some ds)
    (hdd : (s.envs target).envPgdir = some dd)
    (hlook : pageLookup M ds q.a3 s.mem = .ok (some (pt, i), page))
    (hw : Flag q.a4 pteW → Flag (s.mem.word pt i) pteW)
    (hinsert : pageInsert M (s.ctx c) dd page (s.envs target).envIpcDstva q.a4 s.mem = .ok (r, m))
    (hr : r ≠ -eNoMem) :
    (∀ {e va}, e ≠ target → (s.setMem m).pteOf e va = s.pteOf e va) ∧
      ∀ p, page = some p →
        ∃ w, (s.setMem m).pteOf target (s.envs target).envIpcDstva = some w ∧ pteFrame w = p := by
  have hins : Inserts M cur q s page dd (s.envs target).envIpcDstva :=
    .send (sends_page hno he hrecv hsrcva hup hperm hds hdd hlook hw hinsert hr) hsrcva.1
      hdstva.1 hds hdd hlook
  obtain rfl : r = 0 := (pageInsert_ret hinsert).resolve_right fun hfail => hr hfail.1
  obtain ⟨w, hinserted, -, -, hframe⟩ := h.sys.mem.inserted_looked h.sys.bounded hds
    (pdx_userPage hsrcva) hlook hw hdd (pdx_userPage hdstva) (perm_lt hperm) (fun _ => trivial)
    (fun p hp => hroom.insert (hp ▸ hins)) (h.sys.cpuSys c).loaded hinsert
  refine ⟨fun {e va} hne => ?_, fun p hp => ⟨w, ?_, hframe p hp⟩⟩
  · exact (hinserted.maps e _ _).trans (if_neg fun heq => hne heq.1)
  · exact (hinserted.maps target _ _).trans (if_pos ⟨rfl, rfl, rfl⟩)

/-- Every request keeps the mailboxes in order. -/
theorem call (h : Entered L c cur s) (hipc : IpcCall cur q s) (hroom : RoomOk M cur q s)
    (hcall : Call M c cur q s u) : MailInv u := by
  have hself {e : EnvIdx} (hno : q.no = some .envDestroy)
      (he : envid2env s cur q.a1 true = some e) (hne : s.cpuEnv c ≠ some e) : MailInv u := by
    obtain rfl := hipc.exit hno he
    exact absurd h.cur hne
  have hlive {target : EnvIdx} {checkperm : Bool}
      (he : envid2env s cur q.a1 checkperm = some target) :
      (s.envs target).envStatus ≠ .free := h.sys.envs.not_free h.cur he
  cases hcall with
  | skip => exact h.mail
  | @setStatus e st hno hst he =>
      refine h.mail.congr rfl id fun {e' b} hb hagrees hlive' => ?_
      by_cases heq : e' = e
      · subst heq
        obtain rfl := Option.some.inj (hb.symm.trans (h.mail.fresh (hipc.start hno he)))
        have hclosed : (s.envs e').envIpcRecving = false := hagrees (hlive he)
        simpa [BoxAgrees, Kernel.setStatus, Kernel.setEnv] using hclosed
      · have henv : (s.setStatus e st).envs e' = s.envs e' := by
          simp [Kernel.setStatus, Kernel.setEnv, heq]
        have hword : (s.setStatus e st).mem.word = s.mem.word := rfl
        have hsame : Untouched s (s.setStatus e st) e' :=
          .of_env henv (fun _ => id) (pteOf_congr hword dirs_setStatus)
        exact hsame.agrees (hagrees (hsame.live hlive'))
  | dying hno he _ hne => exact hself hno he hne
  | destroyOther hno he hne => exact hself hno he hne
  | destroySelf _ hfree =>
      cases hfree with
      | mk hdir hmem => exact h.mail.freed h.sys hdir hmem
  | exofork _ hhead hmem => exact h.forked hhead hmem
  | pageAlloc hno => exact absurd hno hipc.pages.1
  | pageAllocFail hno => exact absurd hno hipc.pages.1
  | pageMap hno => exact absurd hno hipc.pages.2.1
  | pageUnmap hno => exact absurd hno hipc.pages.2.2
  | @ipcFail target hno he hrecv =>
      refine h.mail.untouched rfl id fun {e} _ => ?_
      by_cases heq : e = target
      · subst heq
        have hword : (s.ipcPerm0 e).mem.word = s.mem.word := rfl
        have henv : (s.ipcPerm0 e).envs e = { s.envs e with envIpcPerm := 0 } :=
          Function.update_self _ _ _
        refine ⟨?_, ?_, ?_, ?_, ?_, fun hno => ?_, fun hwoken => ?_,
          pteOf_congr hword dirs_ipcPerm0⟩
        · rw [henv]
          exact id
        · rw [henv]
        · rw [henv]
        · rw [henv]
        · rw [henv]
        · exact absurd (hrecv.symm.trans hno) (by decide)
        · exact ⟨by rw [henv]; exact hwoken.status, hwoken.idle, by rw [henv]; exact hwoken.eax⟩
      · have henv : (s.ipcPerm0 target).envs e = s.envs e := by
          simp [Kernel.ipcPerm0, Kernel.setEnv, heq]
        have hword : (s.ipcPerm0 target).mem.word = s.mem.word := rfl
        exact .of_env henv (fun _ => id) (pteOf_congr hword dirs_ipcPerm0)
  | ipcValue _ he hrecv _ =>
      exact h.delivered (m := s.mem) (hlive he) hrecv (fun _ => rfl) fun _ hp => by cases hp
  | ipcPage hno he hrecv hsrcva hdstva hup hperm hds hdd hlook hw hinsert hr =>
      obtain ⟨hother, hpage⟩ := h.transferred hroom hno he hrecv hsrcva hdstva hup hperm hds hdd
        hlook hw hinsert hr
      exact h.delivered (hlive he) hrecv hother hpage
  | ipcRecv => exact h.received

end Entered

/-! ### Steps -/

namespace MailInv

theorem setTf (h : MailInv s) (hcur : s.cpuEnv c = some cur ∨ (s.envs cur).envStatus = .free) :
    MailInv (s.setTf cur tf) := by
  have hword : (s.setTf cur tf).mem.word = s.mem.word := rfl
  refine h.untouched rfl id fun {e} hlive => ?_
  by_cases he : e = cur
  · subst he
    have henv : (s.setTf e tf).envs e = { s.envs e with envTf := tf } :=
      Function.update_self _ _ _
    rw [henv] at hlive
    exact .of_exec (hcur.resolve_right hlive) hlive henv (pteOf_congr hword dirs_setTf)
  · have henv : (s.setTf cur tf).envs e = s.envs e := Function.update_of_ne he _ _
    exact .of_env henv (fun _ => id) (pteOf_congr hword dirs_setTf)

theorem demote (h : MailInv s) : MailInv (s.demote c) := by
  rcases demote_cases s c with heq | ⟨cur, hcur, hst, heq⟩ <;> rw [heq]
  · exact h
  · have hword : (s.setStatus cur .runnable).mem.word = s.mem.word := rfl
    refine h.untouched rfl id fun {e} hlive => ?_
    by_cases he : e = cur
    · subst he
      exact .of_exec hcur (by simp [hst]) (Function.update_self _ _ _)
        (pteOf_congr hword dirs_setStatus)
    · have henv : (s.setStatus cur .runnable).envs e = s.envs e := Function.update_of_ne he _ _
      exact .of_env henv (fun _ => id) (pteOf_congr hword dirs_setStatus)

/-- `env_run`: the environment takes its message. -/
theorem resume {d : ℕ} (h : MailInv s) (hrunnable : (s.envs e).envStatus = .runnable)
    (hrecv : (s.envs e).envIpcRecving = false) : MailInv (s.resume c e d) := by
  have hword : (s.resume c e d).mem.word = s.mem.word := rfl
  have hmaps (e' : EnvIdx) (va : Word) : (s.resume c e d).pteOf e' va = s.pteOf e' va :=
    pteOf_congr hword dirs_resume va
  have hcpu {c' : Fin n} {e' : EnvIdx} (hc : (s.resume c e d).cpuEnv c' = some e')
      (he : e' ≠ e) : s.cpuEnv c' = some e' := by
    have hupdate : Function.update s.cpuEnv c (some e) c' = some e' := hc
    by_cases heq : c' = c
    · rw [heq, Function.update_self] at hupdate
      exact absurd (Option.some.inj hupdate).symm he
    · rwa [Function.update_of_ne heq] at hupdate
  refine h.event (.envRun c e) rfl (fun {c' e'} hc => ?_) (fun {e'} hev _ => ?_)
    (fun {e' o b} hev hagrees => ?_) (fun {e' o} hev hnot => ?_)
  · by_cases he : e' = e
    · subst he
      exact fun hnot => (hnot.resolve_left id).1 rfl
    · exact not_notRun_cons (h.ran (hcpu hc he)) id
  · have he : e' ≠ e := by
      rintro rfl
      simp [Event.mail] at hev
    exact .of_env (Kernel.resume_of_ne he) (fun _ hc => hcpu hc he) (hmaps e')
  · simp only [Event.mail, Option.ite_none_right_eq_some] at hev
    obtain ⟨rfl, hev⟩ := hev
    cases hev
    have hself := @Kernel.resume_self n s c e d
    have hfinds {r : Word} {m : Message} (hfinds : FindsMessage s e r m) :
        FindsMessage (s.resume c e d) e r m :=
      ⟨by rw [hself]; exact hfinds.value, by rw [hself]; exact hfinds.source,
        by rw [hself]; exact hfinds.perm, fun p hp => by rw [hmaps]; exact hfinds.page p hp⟩
    have hrecv' : ((s.resume c e d).envs e).envIpcRecving = false := by
      rw [hself]
      exact hrecv
    have hbox : BoxAgrees s e b := hagrees (by simp [hrunnable])
    cases b with
    | closed => exact ⟨.closed, rfl, fun _ => hrecv'⟩
    | waiting r => exact absurd (hbox.1.symm.trans hrecv) (by decide)
    | full r m => exact ⟨.taken r m, rfl, fun _ => ⟨hrecv', hfinds hbox.2.1⟩⟩
    | taken r m => exact ⟨.taken r m, rfl, fun _ => ⟨hrecv', hfinds hbox.2⟩⟩
  · simp only [Event.mail, Option.ite_none_right_eq_some] at hev
    obtain ⟨rfl, -⟩ := hev
    exact absurd rfl (hnot.resolve_left id).1

theorem exit (h : MailInv s) (hrecv : RecvInv (some c) s) (hexit : Exit M c s t) : MailInv t := by
  cases hexit with
  | @run e d hrunnable hdir =>
      refine h.demote.resume hrunnable ?_
      rcases demote_cases s c with heq | ⟨cur, hcur, hst, heq⟩
      · rw [heq] at hrunnable ⊢
        exact hrecv.recving (by simp [hrunnable]) (by simp [hrunnable])
      · rw [heq] at hrunnable ⊢
        by_cases he : e = cur
        · subst he
          have hfalse := hrecv.recving (e := e) (by simp [hst]) (by simp [hst])
          simpa [Kernel.setStatus, Kernel.setEnv] using hfalse
        · have henv : (s.setStatus cur .runnable).envs e = s.envs e :=
            Function.update_of_ne he _ _
          rw [henv] at hrunnable ⊢
          exact hrecv.recving (by simp [hrunnable]) (by simp [hrunnable])
  | halt =>
      have hcpu {c' : Fin n} {e : EnvIdx} (hc : (s.halt M c).cpuEnv c' = some e) :
          s.cpuEnv c' = some e := by
        have hupdate : Function.update s.cpuEnv c none c' = some e := hc
        by_cases heq : c' = c
        · rw [heq, Function.update_self] at hupdate
          cases hupdate
        · rwa [Function.update_of_ne heq] at hupdate
      have hword : (s.halt M c).mem.word = s.mem.word := rfl
      exact h.untouched rfl hcpu fun _ => .of_env rfl (fun _ => hcpu) (pteOf_congr hword rfl)

end MailInv

/-- After a request its environment still executes, or is no more. -/
theorem Call.executing (hcur : s.cpuEnv c = some cur) (hcall : Call M c cur q s u) :
    u.cpuEnv c = some cur ∨ (u.envs cur).envStatus = .free := by
  cases hcall with
  | destroyOther _ _ _ _ hfree =>
      left
      rw [← hcur, ← hfree.cpuEnv]
      rfl
  | destroySelf _ hfree =>
      right
      cases hfree with
      | mk => simp [Kernel.setCur, Kernel.freed_self]
  | _ => exact Or.inl hcur

/-! ### Runs -/

/-- The mailboxes, the receivers and the memory are in order. -/
structure Delivering (L : Layout M) (s : Kernel n) : Prop where
  mail : MailInv s
  recv : RecvInv none s
  sys : SysInv L True none s

/-- The requests of the environments, as long as no count of references has
wrapped around. -/
def IpcOk (M : Machine) (cur : EnvIdx) (q : Request) (s : Kernel n) : Prop :=
  IpcCall cur q s ∧ RoomOk M cur q s

/-- A check of `IpcOk` that takes every send for one of a page. -/
def checkIpc (s : Kernel n) : Label n → Bool
  | .trap c tf _ =>
      (s.cpuEnv c).all fun cur =>
        let q := tf.request
        let s := s.setTf cur tf
        match q.no with
        | some .pageAlloc | some .pageMap | some .pageUnmap => false
        | some .envDestroy => decide (envid2env s cur q.a1 true = some cur)
        | some .envSetStatus =>
            (envid2env s cur q.a1 true).all fun e => decide (NotRun e s.log)
        | some .ipcTrySend =>
            (s.pteOf cur q.a3).any fun w => decide ((s.mem.pages (pteFrame w)).ppRef ≠ 0)
        | some .exofork => decide ((s.mem.pages vgaFrame).ppRef ≠ 0)
        | _ => true
  | _ => true

theorem ipcOk_of_check {l : Label n} (h : checkIpc s l = true) : OnCall (fun _ => IpcOk M) s l := by
  rintro c tf input cur rfl hcur -
  simp only [checkIpc, hcur, Option.all_some] at h
  refine ⟨⟨⟨?_, ?_, ?_⟩, fun hno he => ?_, fun hno he => ?_, fun hno _ hnone => ?_⟩,
    fun hinserts => ?_, fun hno _ _ => ?_⟩
  · intro hno
    simp [hno] at h
  · intro hno
    simp [hno] at h
  · intro hno
    simp [hno] at h
  · simp only [hno, he, decide_eq_true_eq] at h
    exact Option.some.inj h
  · simp only [hno, he, Option.all_some, decide_eq_true_eq] at h
    exact h
  · simp [hno, hnone] at h
  · cases hinserts with
    | map hno =>
        simp [hno] at h
    | send hsend hsrcva _ hds _ hlook =>
        simp only [hsend.1] at h
        obtain ⟨w, hw, href⟩ := (Option.any_eq_true _ _).mp h
        have hdir : (s.setTf cur tf).dirs cur = some _ := hds
        have hpage := (pageLookup_spec hdir (pdx_lt_of_lt_utop hsrcva) hlook).2.1
        have hfound : mapping (s.setTf cur tf).mem.word (s.setTf cur tf).dirs cur
            (pdx tf.request.a3) (ptx tf.request.a3) = some w := hw
        rw [hfound] at hpage
        obtain rfl := Option.some.inj hpage
        exact of_decide_eq_true href
  · simp only [hno, decide_eq_true_eq] at h
    exact h

theorem Entered.recvOk (h : Entered L c cur s) (hipc : IpcCall cur q s) : RecvOk c cur q s where
  status hno _ he := by
    rintro ⟨c', -, hexec⟩
    exact h.mail.ran hexec (hipc.start hno he)
  destroy hno he helse := by
    obtain ⟨c', hne, hexec⟩ := helse
    obtain rfl := hipc.exit hno he
    exact absurd (h.sys.envs.uniq hexec h.cur) hne
  wake {e} hno _ he := by
    obtain ⟨b, hb, hagrees⟩ := h.mail.box e
    obtain rfl := Option.some.inj (hb.symm.trans (h.mail.fresh (hipc.start hno he)))
    exact hagrees (h.sys.envs.not_free h.cur he)

namespace Delivering

theorem entered (h : Delivering L s) (hcur : s.cpuEnv c = some cur)
    (hst : (s.envs cur).envStatus ≠ .dying) : Entered L c cur (s.setTf cur tf) where
  mail := h.mail.setTf (Or.inl hcur)
  sys := (h.sys.enter fun cur' hcur' => by
    rwa [← Option.some.inj (hcur.symm.trans hcur')]).setTf
  cur := hcur
  idle {c' e} hrecv hc := by
    have hrecv' : (s.envs e).envIpcRecving = true := by
      by_cases he : e = cur
      · subst he
        simpa [Kernel.setTf, Kernel.setEnv] using hrecv
      · simpa [Kernel.setTf, Kernel.setEnv, he] using hrecv
    exact absurd (h.recv.idle (h.sys.envs.live_of_exec hc) hrecv' hc) (by simp)

/-- One step of the system. -/
theorem step {l : Label n} (h : Delivering L s) (hok : OnCall (fun _ => IpcOk M) s l)
    (hstep : Step M s l t) : Delivering L t := by
  have hrecv : OnCall (fun c => RecvOk c) s l := fun hl hcur hst =>
    (h.entered hcur hst).recvOk (hok hl hcur hst).1
  have hcallOk : OnCall (CallOk M) s l := fun hl hcur hst =>
    ⟨h.recv.enter.setTf.elsewhere (h.entered hcur hst).sys.envs hcur (hrecv hl hcur hst),
      (hok hl hcur hst).2⟩
  refine ⟨?_, (h.recv.step h.sys.envs hrecv hstep).1, h.sys.step hcallOk (Or.inl trivial) hstep⟩
  cases hstep.taken with
  | zombie hcur _ hfree hexit =>
      cases hfree with
      | mk hdir hmem => exact (h.mail.freed h.sys hdir hmem).exit h.recv.enter.freed.setCur hexit
  | @entry c tf _ cur u v _ hcur hst hcall hret hexit =>
      have hentered : Entered L c cur (s.setTf cur tf) := h.entered hcur hst
      have hmail : MailInv u := hentered.call (hok rfl hcur hst).1 (hok rfl hcur hst).2 hcall
      have hreceivers : RecvInv (some c) u :=
        h.recv.enter.setTf.call hentered.sys.envs hcur (hrecv rfl hcur hst) hcall
      refine MailInv.exit (s := v) ?_ (hreceivers.returned hret) hexit
      rcases hret with rfl | ⟨-, r, rfl⟩
      · exact hmail
      · exact hmail.setTf (hcall.executing hentered.cur)
  | tick _ hexit => exact h.mail.exit h.recv.enter hexit
  | fill =>
      refine h.mail.untouched rfl id fun _ => .of_env rfl (fun _ => id) ?_
      exact fun _ => rfl
  | @store c va w frame hexec hwrite =>
      obtain ⟨e, he⟩ := Option.ne_none_iff_exists'.mp hexec
      obtain ⟨-, -, -, hplain⟩ := SysInv.write_plain h.sys.mem (h.sys.cpu.exec he) hwrite
      have hword (q : ℕ) (hq : q ≠ frame) :
          (s.mem.store frame (wordIdx va) w).word q = s.mem.word q := Function.update_of_ne hq _ _
      exact h.mail.untouched rfl id fun _ => .of_env rfl (fun _ => id)
        fun _ => hplain.mapping hword

theorem booted (hboot : Booted L b s) : Delivering L s := by
  have hinv : BootInv L True s := hboot.inv
  have hclosed : ∀ e, Mailbox.after (Event.mail e) s.log = some .closed := by
    clear hinv
    induction hboot with
    | init => exact fun _ => rfl
    | create _ _ hrun ih =>
        cases envCreate_wp.ret hrun with
        | @mk e =>
            intro e'
            change Mailbox.after (Event.mail e') (.envAlloc e :: _) = _
            by_cases he : e = e'
            · have hev : Event.mail e' (.envAlloc e : Event n) = some .renew := if_pos he
              rw [Mailbox.after_cons_some hev, ih e']
              rfl
            · have hev : Event.mail e' (.envAlloc e : Event n) = none := if_neg he
              rw [Mailbox.after_cons_none hev, ih e']
  refine ⟨⟨fun e => ⟨.closed, hclosed e, fun _ => hinv.recving e⟩, fun _ => hclosed _,
    fun {c e} hc => ?_⟩, RecvInv.booted hboot, hboot.sys⟩
  rw [hinv.idle c] at hc
  cases hc

end Delivering

/-! ### Reading the log -/

theorem mail_eq_none : ev.mail e = none ↔ ¬ ev.beginsRecv e ∧ ¬ ev.endsRecv e := by
  cases ev <;> simp [Event.mail, Event.beginsRecv, Event.endsRecv]

theorem mail_request : ev.mail e = some (.request dstva) ↔ ev = .ipcRecv e dstva := by
  cases ev <;> simp [Event.mail]

theorem mail_take : ev.mail e = some .take ↔ ev.runs e := by
  cases ev <;> simp [Event.mail, Event.runs]

theorem mail_renew : ev.mail e = some .renew ↔ ev.creates e := by
  cases ev <;> simp [Event.mail, Event.creates]

theorem mail_send {value source perm : Word} {page : Option ℕ} :
    (Event.ipcSend e value source perm page : Event n).mail e =
      some (.send ⟨value, source, perm, page⟩) := if_pos rfl

/-- A mailbox in order waits for what has been requested. -/
theorem requested_iff {l : List (Event n)} {b : Mailbox Word Message}
    (h : Mailbox.after (Event.mail e) l = some b) : Requested e dstva l ↔ b = .waiting dstva := by
  rw [Mailbox.waiting_iff h]
  constructor
  · rintro ⟨l₁, l₂, hl, hl₁⟩
    exact ⟨l₁, _, l₂, hl, mail_request.mpr rfl, fun a ha => mail_eq_none.mpr (hl₁ a ha)⟩
  · rintro ⟨l₁, a, l₂, hl, ha, hl₁⟩
    obtain rfl := mail_request.mp ha
    exact ⟨l₁, l₂, hl, fun a ha => mail_eq_none.mp (hl₁ a ha)⟩

/-! ### Successful sends -/

/-- What a `sys_ipc_try_send` that returns 0 has done. -/
theorem sysIpcTrySend_zero {envid value srcva perm : Word} :
    Comp.wp (sysIpcTrySend M c cur envid value srcva perm)
      (fun r u => r = 0 → ∃ target page m perm',
        envid2env s cur envid false = some target ∧
        u = ((s.ipcPerm0 target).setMem m).delivered cur target value perm' page ∧
        (¬ (srcva < utop ∧ (s.envs target).envIpcDstva < utop) ∧ page = none ∧ perm' = 0 ∨
          (srcva < utop ∧ (s.envs target).envIpcDstva < utop) ∧ perm' = perm ∧
            ∃ ds pt i, s.dirs cur = some ds ∧
              pageLookup M ds srcva s.mem = .ok (some (pt, i), page)))
      (fun _ => False) (fun _ => True) s := by
  unfold sysIpcTrySend withPgdir ipcDeliver
  simp only [Comp.wp_bind, Comp.wp_get]
  cases he : envid2env s cur envid false with
  | none => exact (Comp.wp_pure _).mpr fun h => absurd h (by decide)
  | some target =>
      simp only [Comp.wp_bind, Comp.wp_get, Comp.wp_ite, Comp.wp_pure, Comp.wp_modify]
      refine ⟨fun _ h => absurd h (by decide), fun hrecv => ⟨fun hpage => ?_, fun hpage _ => ?_⟩⟩
      · split
        · exact (Comp.wp_stop _).mpr trivial
        · rename_i ds hds
          have hds : s.dirs cur = some ds := (ipcPerm0_pgdir target cur).symm.trans hds
          simp only [Comp.wp_bind, wp_readMem, Comp.wp_get]
          refine ⟨fun look hlook => ?_, fun _ _ => trivial⟩
          obtain ⟨pte, page⟩ := look
          cases pte with
          | none => exact (Comp.wp_pure _).mpr fun h => absurd h (by decide)
          | some a =>
              obtain ⟨pt, i⟩ := a
              simp only [Comp.wp_ite, Comp.wp_pure, Comp.wp_bind, Comp.wp_get, Comp.wp_stop]
              refine ⟨fun _ h => absurd h (by decide), fun _ => ⟨fun _ => trivial, fun _ => ?_⟩⟩
              split
              · exact (Comp.wp_stop _).mpr trivial
              · simp only [Comp.wp_bind, wp_runMem, Comp.wp_ite, Comp.wp_pure, Comp.wp_get,
                  Comp.wp_modify]
                refine ⟨fun r m _ => ⟨fun _ h => absurd h (by decide), fun _ _ => ?_⟩,
                  fun _ _ => trivial⟩
                exact ⟨target, page, m, perm, rfl, rfl,
                  Or.inr ⟨hpage, rfl, ds, pt, i, hds, hlook⟩⟩
      · exact ⟨target, none, s.mem, 0, rfl, rfl, Or.inl ⟨hpage, rfl, rfl⟩⟩

/-! ### Exactly once, along a run -/

theorem envid2env_setTf {id : Word} {checkperm : Bool} :
    envid2env (s.setTf e tf) cur id checkperm = envid2env s cur id checkperm := by
  have hfield {β : Type} (f : Env → β) (hf : ∀ v, f { v with envTf := tf } = f v) (x : EnvIdx) :
      f ((s.setTf e tf).envs x) = f (s.envs x) := by
    by_cases hx : x = e
    · subst hx
      simp [Kernel.setTf, Kernel.setEnv, hf]
    · simp [Kernel.setTf, Kernel.setEnv, hx]
  unfold envid2env
  simp only [hfield Env.envStatus fun _ => rfl, hfield Env.envId fun _ => rfl,
    hfield Env.envParentId fun _ => rfl]

theorem setTf_dstva (x : EnvIdx) :
    ((s.setTf e tf).envs x).envIpcDstva = (s.envs x).envIpcDstva := by
  by_cases hx : x = e
  · subst hx
    simp [Kernel.setTf, Kernel.setEnv]
  · simp [Kernel.setTf, Kernel.setEnv, hx]

theorem setTf_id (x : EnvIdx) : ((s.setTf e tf).envs x).envId = (s.envs x).envId := by
  by_cases hx : x = e
  · subst hx
    simp [Kernel.setTf, Kernel.setEnv]
  · simp [Kernel.setTf, Kernel.setEnv, hx]

namespace Delivering

theorem recorded {envid value srcva perm : Word}
    (hsource : srcva < utop → t.pteOf cur srcva ≠ none)
    (hrun : sysIpcTrySend M c cur envid value srcva perm (t.setTf cur tf) = .ret 0 u) :
    ∃ target page, envid2env t cur envid false = some target ∧
      page = (if srcva < utop ∧ (t.envs target).envIpcDstva < utop then
        (t.pteOf cur srcva).map pteFrame else none) ∧
      u.log = .ipcSend target value (t.envs cur).envId (if page = none then 0 else perm) page ::
        t.log := by
  obtain ⟨target, page, m, perm', he, rfl, hpage⟩ := sysIpcTrySend_zero.ret hrun rfl
  rw [envid2env_setTf] at he
  rw [setTf_dstva] at hpage
  refine ⟨target, page, he, ?_, ?_⟩
  · rcases hpage with ⟨hno, rfl, -⟩ | ⟨hboth, -, ds, pt, i, hds, hlook⟩
    · rw [if_neg hno]
    · rw [dirs_setTf] at hds
      rw [if_pos hboth]
      exact (pageLookup_spec hds (pdx_lt_of_lt_utop hboth.1) hlook).2.1
  · have hperm : perm' = if page = none then 0 else perm := by
      rcases hpage with ⟨-, rfl, rfl⟩ | ⟨hboth, rfl, ds, pt, i, hds, hlook⟩
      · rw [if_pos rfl]
      · rw [dirs_setTf] at hds
        have hfound := (pageLookup_spec hds (pdx_lt_of_lt_utop hboth.1) hlook).2.1
        refine (if_neg fun hnone => hsource hboth.1 ?_).symm
        exact Option.map_eq_none_iff.mp (hfound.symm.trans hnone)
    have hid : (((t.setTf cur tf).ipcPerm0 target).envs cur).envId = (t.envs cur).envId := by
      have hsame : ((t.setTf cur tf).envs cur).envId = (t.envs cur).envId := setTf_id cur
      rw [← hsame]
      by_cases hx : cur = target
      · subst hx
        simp [Kernel.ipcPerm0, Kernel.setEnv]
      · simp [Kernel.ipcPerm0, Kernel.setEnv, hx]
    rw [← hperm, ← hid]
    rfl

theorem deliversOnce (h : Delivering L t) : DeliversOnce M t where
  recorded _ := recorded
  matched {l₁ l₂ e value source perm page} hlog := by
    obtain ⟨b, hb, -⟩ := h.mail.box e
    rw [hlog] at hb
    obtain ⟨dstva, hwait⟩ := Mailbox.waiting_of_send hb mail_send
    exact ⟨dstva, (requested_iff hwait).mpr rfl⟩
  resumed {l₁ l₂ c e dstva} hlog hreq := by
    obtain ⟨b, hb, -⟩ := h.mail.box e
    rw [hlog] at hb
    obtain ⟨b', hb'⟩ := Mailbox.after_of_append hb
    obtain ⟨b'', hb'', -⟩ := Mailbox.next_of_after hb' (mail_take.mpr rfl)
    rw [(requested_iff hb'').mp hreq] at hb''
    exact Mailbox.not_waiting_of_take hb (mail_take.mpr rfl) hb''
  taken {l₁ l₂ l₃ e dstva value source perm page} hlog := by
    by_contra hno
    obtain ⟨b, hb, -⟩ := h.mail.box e
    rw [hlog] at hb
    obtain ⟨b', hb'⟩ := Mailbox.after_of_append hb
    rw [← List.cons_append] at hb'
    have hquiet : ∀ a ∈ Event.ipcRecv e dstva :: l₂,
        a.mail e ≠ some .take ∧ a.mail e ≠ some .renew := fun a ha => by
      rcases List.mem_cons.mp ha with rfl | ha
      · simp [Event.mail]
      · rw [Ne, mail_take, Ne, mail_renew]
        exact ⟨fun hruns => hno ⟨a, ha, Or.inl hruns⟩, fun hnew => hno ⟨a, ha, Or.inr hnew⟩⟩
    -- so the mailbox is full when the request comes
    have hnone := (Mailbox.none_after_send hb' mail_send hquiet).2 _ List.mem_cons_self
    rw [mail_request.mpr rfl] at hnone
    cases hnone
  returns {l₁ l₂ e dstva value source perm page} hlog hreq hl₁ hlive := by
    obtain ⟨b, hb, hagrees⟩ := h.mail.box e
    rw [hlog] at hb
    obtain ⟨b₂, hb₂⟩ := Mailbox.after_of_append hb
    obtain ⟨b₃, hb₃, -⟩ := Mailbox.next_of_after hb₂ mail_send
    rw [(requested_iff hb₃).mp hreq] at hb₃
    have hcases := Mailbox.after_send hb hb₃ mail_send fun a ha =>
       ⟨fun r hr => (hl₁ a ha).1 ?_, fun hr => (hl₁ a ha).2 (mail_renew.mp hr)⟩
    · have hfinds : FindsMessage t e dstva ⟨value, source, perm, page⟩ := by
        rcases hcases with rfl | ⟨rfl, -⟩
        · exact (hagrees hlive).2.1
        · exact (hagrees hlive).2
      refine ⟨fun hno => ?_, ?_, hfinds.page⟩
      · rcases hcases with rfl | ⟨-, a, ha, htake⟩
        · exact (hagrees hlive).2.2.eax
        · exact absurd (mail_take.mp htake) (hno a ha)
      · rw [ipcRecv, if_neg (not_not.mpr rfl), hfinds.value, hfinds.source, hfinds.perm]
    · rw [mail_request.mp hr]
      rfl

end Delivering

/-- As long as no count wraps around, every message is delivered once. -/
theorem ipc_delivers_once (hboot : Booted L b s)
    (hrun : Run (Step M) (OnCall fun _ => IpcOk M) s t) : DeliversOnce M t := by
  have hinv : Delivering L t :=
    hrun.invariant (fun h hok hstep => h.step hok hstep) (Delivering.booted hboot)
  exact hinv.deliversOnce

/-- A parent sends its stack page to its child, which goes on. -/
theorem ipc_delivers_once_stack : ∃ s t : Kernel 2, Booted sampleLayout 0 s ∧
    Run (Step sampleMachine) (OnCall fun _ => IpcOk sampleMachine) s t ∧
    (t.cpuEnv 1 = some 1 ∧ (t.envs 1).envIpcValue = 5 ∧ (t.envs 1).envIpcPerm = 7) ∧
    DeliversOnce sampleMachine t := by
  obtain ⟨s, t, hboot, hrun, htest⟩ := sample_run (0 : Fin 2) checkIpc
    (receiverRun ++ [.trap 0 (syscallTf 11 0x1001 5 stackPage 7 0) 0, .tick 1])
    (fun t => decide (t.cpuEnv 1 = some 1 ∧ (t.envs 1).envIpcValue = 5 ∧
      (t.envs 1).envIpcPerm = 7)) (ipcOk_of_check (M := sampleMachine)) (by decide +kernel)
  exact ⟨s, t, hboot, hrun, of_decide_eq_true htest, ipc_delivers_once hboot hrun⟩

end Jos
