import Jos.Kern.Effects
import Jos.Lib.Spaces
import Jos.Pmap.Spaces

/-!
What the kernel is for: processes with address spaces over shared pages, which
ask for changes to themselves and to their children, send messages and take
turns. There are no page directories and no page tables here, no reference
counts and no free lists, and `-E_NO_MEM` may come at any time. The kernel is
compared with this in `Jos.System.Refinement`.
-/

namespace Jos

open Jos.Lib

variable {n : ℕ}

/-- What an environment is, apart from its page directory and its place in the
free list. -/
structure Process where
  tf : Trapframe
  id : Word
  parentId : Word
  status : EnvStatus
  runs : Word
  cpunum : ℕ
  pgfaultUpcall : Word
  ipcRecving : Bool
  ipcDstva : Word
  ipcValue : Word
  ipcFrom : Word
  ipcPerm : Word

/-- The place of a page in an address space. -/
abbrev PageAddr := PtIdx × PtIdx

def pageAddr (va : Word) : PageAddr := (pdx va, ptx va)

/-- Address spaces over frames; a page is mapped with the low bits of its
entry. -/
abbrev UserSpaces := Spaces EnvIdx PageAddr ℕ Word (PtIdx → Word)

/-- The VGA buffer is a device: it shows what the console has printed. -/
def devices : Set ℕ := {vgaFrame}

@[ext] structure World (n : ℕ) where
  procs : EnvIdx → Process
  spaces : UserSpaces
  cpuEnv : Fin n → Option EnvIdx

/-- A process that takes turns on the CPUs. -/
def InTurn (st : EnvStatus) : Prop := st = .runnable ∨ st = .running

/-- The same process, but for its turns on the CPUs. -/
structure SameProc (v v' : Process) : Prop where
  tf : v'.tf = v.tf
  id : v'.id = v.id
  parentId : v'.parentId = v.parentId
  pgfaultUpcall : v'.pgfaultUpcall = v.pgfaultUpcall
  ipcRecving : v'.ipcRecving = v.ipcRecving
  ipcDstva : v'.ipcDstva = v.ipcDstva
  ipcValue : v'.ipcValue = v.ipcValue
  ipcFrom : v'.ipcFrom = v.ipcFrom
  ipcPerm : v'.ipcPerm = v.ipcPerm
  status : v'.status = v.status ∨ InTurn v.status ∧ InTurn v'.status

theorem SameProc.refl (v : Process) : SameProc v v :=
  ⟨rfl, rfl, rfl, rfl, rfl, rfl, rfl, rfl, rfl, .inl rfl⟩

theorem SameProc.trans {v v' v'' : Process} (h : SameProc v v') (h' : SameProc v' v'') :
    SameProc v v'' := by
  refine ⟨h'.tf.trans h.tf, h'.id.trans h.id, h'.parentId.trans h.parentId,
    h'.pgfaultUpcall.trans h.pgfaultUpcall, h'.ipcRecving.trans h.ipcRecving,
    h'.ipcDstva.trans h.ipcDstva, h'.ipcValue.trans h.ipcValue, h'.ipcFrom.trans h.ipcFrom,
    h'.ipcPerm.trans h.ipcPerm, ?_⟩
  rcases h.status with heq | ⟨hturn, hturn'⟩
  · rw [← heq]
    exact h'.status
  · rcases h'.status with heq' | hturn''
    · exact .inr ⟨hturn, heq' ▸ hturn'⟩
    · exact .inr ⟨hturn, hturn''.2⟩

theorem SameProc.live {v v' : Process} (h : SameProc v v') (hlive : v.status ≠ .free) :
    v'.status ≠ .free := by
  rcases h.status with heq | ⟨-, hturn | hturn⟩
  · rwa [heq]
  · simp [hturn]
  · simp [hturn]

namespace World

def setProc (σ : World n) (e : EnvIdx) (v : Process) : World n :=
  { σ with procs := Function.update σ.procs e v }

def setTf (σ : World n) (e : EnvIdx) (tf : Trapframe) : World n :=
  σ.setProc e { σ.procs e with tf := tf }

def setStatus (σ : World n) (e : EnvIdx) (st : EnvStatus) : World n :=
  σ.setProc e { σ.procs e with status := st }

def setCur (σ : World n) (c : Fin n) (e : Option EnvIdx) : World n :=
  { σ with cpuEnv := Function.update σ.cpuEnv c e }

/-- Change the address spaces; what is not in use any more is forgotten. -/
noncomputable def setSpaces (σ : World n) (S : UserSpaces) : World n :=
  { σ with spaces := S.forget devices }

/-- The process that an id names for `cur`: itself, or one that has the id, and
where `checkperm` asks for it is `cur` or a child of it. -/
def envid2env (σ : World n) (cur : EnvIdx) (envid : Word) (checkperm : Bool) : Option EnvIdx :=
  if envid = 0 then some cur
  else
    let e : EnvIdx := Fin.ofNat _ (envid &&& 0x3FF#32).toNat
    if (σ.procs e).status = .free ∨ (σ.procs e).id ≠ envid then none
    else if checkperm ∧ e ≠ cur ∧ (σ.procs e).parentId ≠ (σ.procs cur).id then none
    else some e

/-- The process is gone, and its address space with it. -/
noncomputable def freed (σ : World n) (e : EnvIdx) : World n :=
  (σ.setStatus e .free).setSpaces (σ.spaces.assign e fun _ => none)

/-- The address space of a new process: the VGA buffer. -/
def newSpace (a : PageAddr) : Option (ℕ × Word) :=
  if a = pageAddr vgaUser then some (vgaFrame, pteP ||| pteU ||| pteW ||| pteMapped) else none

/-- Slot `e` becomes a child of `cur` with the registers of `cur`. -/
noncomputable def forked (σ : World n) (cur e : EnvIdx) : World n :=
  (σ.setProc e
    { σ.procs e with
      id := nextEnvId (σ.procs e).id e
      parentId := (σ.procs cur).id
      status := .notRunnable
      runs := 0
      tf := (σ.procs cur).tf.setEax 0
      pgfaultUpcall := 0
      ipcRecving := false }).setSpaces (σ.spaces.assign e newSpace)

/-- A page that nobody uses, filled with zeros, is mapped. -/
noncomputable def pageAlloc (σ : World n) (e : EnvIdx) (va perm : Word) (p : ℕ) : World n :=
  σ.setSpaces ((σ.spaces.write p fun _ => 0#32).enter e (pageAddr va) p (perm ||| pteP))

noncomputable def pageMap (σ : World n) (e : EnvIdx) (va perm : Word) (p : ℕ) : World n :=
  σ.setSpaces (σ.spaces.enter e (pageAddr va) p (perm ||| pteP))

noncomputable def pageUnmap (σ : World n) (e : EnvIdx) (va : Word) : World n :=
  σ.setSpaces (σ.spaces.clear e (pageAddr va))

/-- The message arrives, and wakes up the target. -/
def delivered (σ : World n) (cur target : EnvIdx) (value perm : Word) : World n :=
  σ.setProc target
    { σ.procs target with
      ipcPerm := perm
      ipcRecving := false
      ipcFrom := (σ.procs cur).id
      ipcValue := value
      tf := (σ.procs target).tf.setEax 0
      status := .runnable }

def received (σ : World n) (cur : EnvIdx) (dstva : Word) : World n :=
  σ.setProc cur
    { σ.procs cur with ipcDstva := dstva, ipcRecving := true, status := .notRunnable }

/-- The change that a process makes with one request. Every request may also
fail, which changes nothing but `ipcPerm` of a receiver. -/
inductive Request (c : Fin n) (cur : EnvIdx) (q : Jos.Request) (σ : World n) : World n → Prop
  | skip : Request c cur q σ σ
  | setStatus {e st} (hno : q.no = some .envSetStatus) (hst : statusOfWord q.a2 = some st)
      (he : σ.envid2env cur q.a1 true = some e) : Request c cur q σ (σ.setStatus e st)
  | dying {e} (hno : q.no = some .envDestroy) (he : σ.envid2env cur q.a1 true = some e)
      (hst : (σ.procs e).status = .running) (hne : σ.cpuEnv c ≠ some e) :
      Request c cur q σ (σ.setStatus e .dying)
  | destroyOther {e} (hno : q.no = some .envDestroy)
      (he : σ.envid2env cur q.a1 true = some e) (hne : σ.cpuEnv c ≠ some e)
      (hst : (σ.procs e).status ≠ .running) : Request c cur q σ (σ.freed e)
  | destroySelf : Request c cur q σ ((σ.freed cur).setCur c none)
  | exofork {e} (hno : q.no = some .exofork) (hfree : (σ.procs e).status = .free) :
      Request c cur q σ (σ.forked cur e)
  | pageAlloc {e p} (hno : q.no = some .pageAlloc) (he : σ.envid2env cur q.a1 true = some e)
      (hva : userPage q.a2) (hperm : validPerm q.a3) (hp : p ∉ devices)
      (hunused : ∀ e', ¬ σ.spaces.Maps e' p) : Request c cur q σ (σ.pageAlloc e q.a2 q.a3 p)
  | pageMap {src dst p w} (hno : q.no = some .pageMap)
      (hsrc : σ.envid2env cur q.a1 true = some src)
      (hdst : σ.envid2env cur q.a3 true = some dst) (hsrcva : userPage q.a2)
      (hdstva : userPage q.a4) (hperm : validPerm q.a5)
      (hpage : σ.spaces.map src (pageAddr q.a2) = some (p, w))
      (hw : Flag q.a5 pteW → Flag w pteW) : Request c cur q σ (σ.pageMap dst q.a4 q.a5 p)
  | pageUnmap {e} (hno : q.no = some .pageUnmap) (he : σ.envid2env cur q.a1 true = some e)
      (hva : userPage q.a2) : Request c cur q σ (σ.pageUnmap e q.a2)
  | ipcFail {target} (hno : q.no = some .ipcTrySend)
      (he : σ.envid2env cur q.a1 false = some target)
      (hrecv : (σ.procs target).ipcRecving = true) :
      Request c cur q σ (σ.setProc target { σ.procs target with ipcPerm := 0 })
  | ipcValue {target} (hno : q.no = some .ipcTrySend)
      (he : σ.envid2env cur q.a1 false = some target)
      (hrecv : (σ.procs target).ipcRecving = true)
      (hpage : ¬ (q.a3 < utop ∧ (σ.procs target).ipcDstva < utop)) :
      Request c cur q σ (σ.delivered cur target q.a2 0)
  | ipcPage {target p w} (hno : q.no = some .ipcTrySend)
      (he : σ.envid2env cur q.a1 false = some target)
      (hrecv : (σ.procs target).ipcRecving = true) (hsrcva : userPage q.a3)
      (hdstva : userPage (σ.procs target).ipcDstva)
      (hpage : σ.spaces.map cur (pageAddr q.a3) = some (p, w))
      (hw : Flag q.a4 pteW → Flag w pteW) :
      Request c cur q σ ((σ.pageMap target (σ.procs target).ipcDstva q.a4 p).delivered cur
        target q.a2 q.a4)
  | ipcRecv (hno : q.no = some .ipcRecv) : Request c cur q σ (σ.received cur q.a1)

/-- The process that has been running on the CPU could go on. -/
def demote (σ : World n) (c : Fin n) : World n :=
  match σ.cpuEnv c with
  | some cur => if (σ.procs cur).status = .running then σ.setStatus cur .runnable else σ
  | none => σ

def resume (σ : World n) (c : Fin n) (e : EnvIdx) : World n :=
  (σ.setCur c (some e)).setProc e
    { σ.procs e with status := .running, runs := (σ.procs e).runs + 1, cpunum := c }

/-- The CPU goes on with a process that is runnable, or there is none and it
halts. -/
inductive Leaves (c : Fin n) (σ : World n) : World n → Prop
  | run {e} (hrunnable : ((σ.demote c).procs e).status = .runnable) :
      Leaves c σ ((σ.demote c).resume c e)
  | halt (hcur : ∀ cur, σ.cpuEnv c = some cur → (σ.procs cur).status ≠ .running)
      (hnone : ∀ e, (σ.procs e).status ≠ .runnable) : Leaves c σ (σ.setCur c none)

/-- What one label can do. -/
inductive Step (σ : World n) : Label n → World n → Prop
  | zombie {c tf input cur τ} (hcur : σ.cpuEnv c = some cur)
      (hst : (σ.procs cur).status = .dying) (hleaves : Leaves c ((σ.freed cur).setCur c none) τ) :
      Step σ (.trap c tf input) τ
  | entry {c tf input cur ρ τ} (hcur : σ.cpuEnv c = some cur)
      (hst : (σ.procs cur).status ≠ .dying)
      (hrequest : Request c cur tf.request (σ.setTf cur tf) ρ) (hleaves : Leaves c ρ τ) :
      Step σ (.trap c tf input) τ
  | answer {c tf input cur ρ τ} (r : Word) (hcur : σ.cpuEnv c = some cur)
      (hst : (σ.procs cur).status ≠ .dying) (hsys : tf.tfTrapno = tSyscall)
      (hrequest : Request c cur tf.request (σ.setTf cur tf) ρ)
      (hleaves : Leaves c (ρ.setTf cur ((ρ.procs cur).tf.setEax r)) τ) :
      Step σ (.trap c tf input) τ
  | tick {c τ} (hidle : σ.cpuEnv c = none) (hleaves : Leaves c σ τ) : Step σ (.tick c) τ
  | fill {c va} : Step σ (.fill c va) σ
  | store {c va w cur p perm} (hcur : σ.cpuEnv c = some cur)
      (hpage : σ.spaces.map cur (pageAddr va) = some (p, perm)) (hU : Flag perm pteU)
      (hW : Flag perm pteW) :
      Step σ (.store c va w) (σ.setSpaces (σ.spaces.write p
        (Function.update (σ.spaces.content p) (wordIdx va) w)))

/-! ### What others cannot do -/

variable {σ τ ρ : World n} {c : Fin n} {cur e e' : EnvIdx} {O : Set EnvIdx} {q : Jos.Request}
  {l : Label n}

/-- The process is at work itself, or one that may ask for changes to it: the
one it is a child of. -/
def Acts (σ : World n) (e : EnvIdx) : Label n → Prop
  | .trap c _ _ => ∃ cur, σ.cpuEnv c = some cur ∧
      (cur = e ∨ (σ.procs e).parentId = (σ.procs cur).id)
  | .store c _ _ => σ.cpuEnv c = some e
  | _ => False

/-- Nothing has happened to the processes in `O`. -/
structure Kept (O : Set EnvIdx) (σ τ : World n) : Prop where
  proc : ∀ e ∈ O, SameProc (σ.procs e) (τ.procs e)
  spaces : σ.spaces.Untouched devices O τ.spaces

theorem Kept.refl (O : Set EnvIdx) (σ : World n) : Kept O σ σ := ⟨fun _ _ => .refl _, .refl ..⟩

theorem Kept.trans (h : Kept O σ ρ) (h' : Kept O ρ τ) : Kept O σ τ :=
  ⟨fun e he => (h.proc e he).trans (h'.proc e he), h.spaces.trans h'.spaces⟩

/-- A change of one process that does not matter to those in `O`. -/
theorem kept_setProc_same {v : Process} (hsame : e' ∈ O → SameProc (σ.procs e') v) :
    Kept O σ (σ.setProc e' v) where
  proc e he := by
    by_cases heq : e = e'
    · subst heq
      have hself : (σ.setProc e v).procs e = v := Function.update_self ..
      rw [hself]
      exact hsame he
    · have hother : (σ.setProc e' v).procs e = σ.procs e := Function.update_of_ne heq ..
      rw [hother]
      exact .refl _
  spaces := .refl ..

/-- A change of another process. -/
theorem kept_setProc {v : Process} (hne : e' ∉ O) : Kept O σ (σ.setProc e' v) :=
  kept_setProc_same fun he => absurd he hne

theorem kept_setSpaces {S : UserSpaces} (h : σ.spaces.Untouched devices O S) :
    Kept O σ (σ.setSpaces S) :=
  ⟨fun _ _ => .refl _, h.trans .forget⟩

theorem kept_freed (hne : e' ∉ O) : Kept O σ (σ.freed e') :=
  (kept_setProc hne).trans (kept_setSpaces (.assign hne fun _ _ _ h _ => by cases h))

/-- With `checkperm`, an id names the caller or a child of it. -/
theorem envid2env_authority {id : Word} (h : σ.envid2env cur id true = some e') :
    e' = cur ∨ (σ.procs e').parentId = (σ.procs cur).id := by
  unfold envid2env at h
  split at h
  · exact .inl (Option.some.inj h).symm
  · dsimp only at h
    split at h
    · cases h
    · split at h
      · cases h
      · rename_i hperm
        cases h
        by_contra hnot
        rw [not_or] at hnot
        exact hperm ⟨rfl, hnot⟩

/-- A request of a process that may not ask for changes to those in `O`, which
are no receivers. -/
theorem request_keeps (hrequest : σ.Request c cur q τ) (hcur : cur ∉ O)
    (hparent : ∀ e ∈ O, (σ.procs e).parentId ≠ (σ.procs cur).id)
    (hlive : ∀ e ∈ O, (σ.procs e).status ≠ .free)
    (hrecv : ∀ e ∈ O, (σ.procs e).ipcRecving = false) : Kept O σ τ := by
  have hother {id : Word} {e' : EnvIdx} (h : σ.envid2env cur id true = some e') : e' ∉ O := by
    intro he
    rcases envid2env_authority h with rfl | hchild
    · exact hcur he
    · exact hparent e' he hchild
  have htarget {e' : EnvIdx} (h : (σ.procs e').ipcRecving = true) : e' ∉ O := by
    intro he
    rw [hrecv e' he] at h
    cases h
  have hforeign {e' : EnvIdx} {a : PageAddr} {p : ℕ} {w : Word} (hne : e' ∉ O)
      (h : σ.spaces.map e' a = some (p, w)) : ¬ σ.spaces.Owned O p := fun hown =>
    hne (hown.2 e' ⟨a, w, h⟩)
  cases hrequest with
  | skip => exact .refl O σ
  | setStatus _ _ he => exact kept_setProc (hother he)
  | dying _ he => exact kept_setProc (hother he)
  | destroyOther _ he => exact kept_freed (hother he)
  | destroySelf =>
      have hfreed : Kept O σ (σ.freed cur) := kept_freed hcur
      exact ⟨hfreed.proc, hfreed.spaces⟩
  | exofork _ hfree =>
      have hne : _ ∉ O := fun he => hlive _ he hfree
      refine (kept_setProc hne).trans (kept_setSpaces (.assign hne fun a p w ha hp _ => ?_))
      unfold newSpace at ha
      split at ha
      · cases ha
        exact hp rfl
      · cases ha
  | pageAlloc _ he _ _ _ hunused =>
      have hfresh : ¬ σ.spaces.Owned O _ := fun hown => by
        obtain ⟨e, -, hmaps⟩ := hown.1
        exact hunused e hmaps
      have hwrite := Spaces.Untouched.write (D := devices) (c := fun _ => 0#32) hfresh
      exact kept_setSpaces (hwrite.trans (.enter (hother he) hfresh))
  | pageMap _ hsrc hdst _ _ _ hpage =>
      exact kept_setSpaces (.enter (hother hdst) (hforeign (hother hsrc) hpage))
  | pageUnmap _ he => exact kept_setSpaces (.clear (hother he))
  | ipcFail _ _ hrecv' => exact kept_setProc (htarget hrecv')
  | ipcValue _ _ hrecv' => exact kept_setProc (htarget hrecv')
  | ipcPage _ _ hrecv' _ _ hpage =>
      have hne := htarget hrecv'
      exact (kept_setSpaces (.enter hne (hforeign hcur hpage))).trans (kept_setProc hne)
  | ipcRecv => exact kept_setProc hcur

theorem kept_demote (σ : World n) (c : Fin n) : Kept O σ (σ.demote c) := by
  unfold demote
  split
  · rename_i cur _
    split
    · rename_i hrunning
      exact kept_setProc_same fun _ => ⟨rfl, rfl, rfl, rfl, rfl, rfl, rfl, rfl, rfl,
        .inr ⟨.inr hrunning, .inl rfl⟩⟩
    · exact .refl O σ
  · exact .refl O σ

theorem kept_resume (hrunnable : (σ.procs e').status = .runnable) : Kept O σ (σ.resume c e') := by
  have hkept : Kept O σ (σ.setCur c (some e')) := ⟨fun _ _ => .refl _, .refl ..⟩
  exact hkept.trans (kept_setProc_same fun _ => ⟨rfl, rfl, rfl, rfl, rfl, rfl, rfl, rfl, rfl,
    .inr ⟨.inl hrunnable, .inr rfl⟩⟩)

theorem leaves_keeps (h : σ.Leaves c τ) : Kept O σ τ := by
  cases h with
  | run hrunnable => exact (kept_demote σ c).trans (kept_resume hrunnable)
  | halt => exact ⟨fun _ _ => .refl _, .refl ..⟩

/-- One step in which neither those in `O` nor their parents are at work. -/
theorem step_keeps (hstep : σ.Step l τ) (hacts : ∀ e ∈ O, ¬ σ.Acts e l)
    (hlive : ∀ e ∈ O, (σ.procs e).status ≠ .free)
    (hrecv : ∀ e ∈ O, (σ.procs e).ipcRecving = false) : Kept O σ τ := by
  -- the registers of the process that traps are saved first
  have hsave {c : Fin n} {cur : EnvIdx} {tf : Trapframe} {input : Word} {ρ : World n}
      (hcur : σ.cpuEnv c = some cur) (hacts : ∀ e ∈ O, ¬ σ.Acts e (.trap c tf input))
      (hrequest : (σ.setTf cur tf).Request c cur tf.request ρ) : cur ∉ O ∧ Kept O σ ρ := by
    have hne : cur ∉ O := fun he => hacts cur he ⟨cur, hcur, .inl rfl⟩
    have hset : Kept O σ (σ.setTf cur tf) := kept_setProc hne
    have hid : ((σ.setTf cur tf).procs cur).id = (σ.procs cur).id := by
      simp [setTf, setProc]
    refine ⟨hne, hset.trans (request_keeps hrequest hne (fun e he => ?_)
      (fun e he => (hset.proc e he).live (hlive e he))
      (fun e he => (hset.proc e he).ipcRecving.trans (hrecv e he)))⟩
    rw [(hset.proc e he).parentId, hid]
    exact fun hparent => hacts e he ⟨cur, hcur, .inr hparent⟩
  cases hstep with
  | @zombie c tf input cur τ hcur hst hleaves =>
      have hne : cur ∉ O := fun he => hacts cur he ⟨cur, hcur, .inl rfl⟩
      have hfreed : Kept O σ (σ.freed cur) := kept_freed hne
      have hgone : Kept O σ ((σ.freed cur).setCur c none) := ⟨hfreed.proc, hfreed.spaces⟩
      exact hgone.trans (leaves_keeps hleaves)
  | entry hcur hst hrequest hleaves =>
      exact (hsave hcur hacts hrequest).2.trans (leaves_keeps hleaves)
  | answer r hcur hst hsys hrequest hleaves =>
      obtain ⟨hne, hkept⟩ := hsave hcur hacts hrequest
      exact hkept.trans ((kept_setProc hne).trans (leaves_keeps hleaves))
  | tick hidle hleaves => exact leaves_keeps hleaves
  | fill => exact .refl O σ
  | @store c va w cur p perm hcur hpage hU hW =>
      have hne : cur ∉ O := fun he => hacts cur he hcur
      exact kept_setSpaces (.write fun hown => hne (hown.2 cur ⟨_, _, hpage⟩))

/-- The same for a run. -/
theorem run_keeps (hrun : Run (Step (n := n)) (fun σ l => ∀ e ∈ O, ¬ σ.Acts e l) σ τ)
    (hlive : ∀ e ∈ O, (σ.procs e).status ≠ .free)
    (hrecv : ∀ e ∈ O, (σ.procs e).ipcRecving = false) : Kept O σ τ := by
  refine Run.invariant (I := Kept O σ) ?_ hrun (.refl O σ)
  intro ρ l ρ' h hacts hstep
  exact h.trans (step_keeps hstep hacts (fun e he => (h.proc e he).live (hlive e he))
    fun e he => (h.proc e he).ipcRecving.trans (hrecv e he))

/-! ### What happens to the contents of pages -/

variable {p : ℕ}

theorem content_freed (hD : p ∉ devices) (hmaps : (σ.freed cur).spaces.Maps e p) :
    (σ.freed cur).spaces.content p = σ.spaces.content p := Spaces.content_forget hD hmaps

/-- A request changes no page that stays in use. -/
theorem request_content (hrequest : σ.Request c cur q τ) (hD : p ∉ devices)
    (hmaps : σ.spaces.Maps e p) (hmaps' : τ.spaces.Maps e p) :
    τ.spaces.content p = σ.spaces.content p := by
  cases hrequest with
  | skip => rfl
  | setStatus => rfl
  | dying => rfl
  | destroyOther => exact content_freed hD hmaps'
  | destroySelf => exact content_freed hD hmaps'
  | exofork => exact Spaces.content_forget hD hmaps'
  | @pageAlloc e' p' _ _ _ _ _ hunused =>
      have hne : p ≠ p' := by
        rintro rfl
        exact hunused e hmaps
      have hentered : (σ.pageAlloc e' q.a2 q.a3 p').spaces.content p =
          (σ.spaces.write p' fun _ => 0#32).content p := Spaces.content_forget hD hmaps'
      exact hentered.trans (Function.update_of_ne hne _ _)
  | pageMap => exact Spaces.content_forget hD hmaps'
  | pageUnmap => exact Spaces.content_forget hD hmaps'
  | ipcFail => rfl
  | ipcValue => rfl
  | ipcPage => exact Spaces.content_forget hD hmaps'
  | ipcRecv => rfl

theorem leaves_content (hleaves : σ.Leaves c τ) (hD : p ∉ devices) (hmaps : σ.spaces.Maps e p) :
    τ.spaces.content p = σ.spaces.content p :=
  (leaves_keeps (O := Set.univ) hleaves).spaces.content p hD
    ⟨⟨e, trivial, hmaps⟩, fun _ _ => trivial⟩

theorem leaves_map (hleaves : σ.Leaves c τ) : τ.spaces.map = σ.spaces.map :=
  funext fun o => (leaves_keeps (O := Set.univ) hleaves).spaces.map o trivial

/-- A step that is no store changes no page that stays in use. -/
theorem step_content (hstep : σ.Step l τ) (hstore : ∀ c va w, l ≠ .store c va w)
    (hD : p ∉ devices) (hmaps : σ.spaces.Maps e p) (hmaps' : τ.spaces.Maps e p) :
    τ.spaces.content p = σ.spaces.content p := by
  have hleave {c : Fin n} {ρ : World n} (hleaves : ρ.Leaves c τ) (hρ : ρ.spaces.Maps e p →
      ρ.spaces.content p = σ.spaces.content p) : τ.spaces.content p = σ.spaces.content p := by
    obtain ⟨a, k, ha⟩ := hmaps'
    rw [leaves_map hleaves] at ha
    exact (leaves_content hleaves hD ⟨a, k, ha⟩).trans (hρ ⟨a, k, ha⟩)
  cases hstep with
  | zombie _ _ hleaves => exact hleave hleaves fun hm => content_freed hD hm
  | @entry c tf input cur ρ _ _ _ hrequest hleaves =>
      have hsaved : (σ.setTf cur tf).spaces.Maps e p := hmaps
      refine hleave hleaves fun hm => ?_
      have hrequested := request_content hrequest hD hsaved hm
      exact hrequested
  | @answer c tf input cur ρ _ r _ _ _ hrequest hleaves =>
      have hsaved : (σ.setTf cur tf).spaces.Maps e p := hmaps
      refine hleave hleaves fun hm => ?_
      have hρ : ρ.spaces.Maps e p := hm
      have hrequested := request_content hrequest hD hsaved hρ
      exact hrequested
  | tick _ hleaves => exact hleave hleaves fun _ => rfl
  | fill => rfl
  | store => exact absurd rfl (hstore _ _ _)

end World

end Jos
