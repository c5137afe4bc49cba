import Jos.System.Conditions
import Jos.Lib.LinkedList

/-!
The environments and the CPUs that execute them. `EnvInv none` holds while no
CPU is in the kernel: who executes has status running or dying and the other
way round, no environment executes on two CPUs, and the free list and the
address spaces follow the statuses. `EnvInv (some c)` is what holds inside the
kernel on CPU `c`, where `curenv` may already have given up its status.
-/

namespace Jos

open Jos.Lib

variable {n : ℕ} {M : Machine} {c c' : Fin n} {cur e : EnvIdx} {s t u : Kernel n}
  {k : Option (Fin n)} {st : EnvStatus} {q : Request} {tf : Trapframe}

/-- An environment that a CPU is executing has one of these statuses. -/
def Active (st : EnvStatus) : Prop := st = .running ∨ st = .dying

structure EnvInv (k : Option (Fin n)) (s : Kernel n) : Prop where
  uniq : ∀ {c c' e}, s.cpuEnv c = some e → s.cpuEnv c' = some e → c = c'
  exec : ∀ {c e}, s.cpuEnv c = some e → k ≠ some c → Active (s.envs e).envStatus
  cur : ∀ {c e}, k = some c → s.cpuEnv c = some e →
    (s.envs e).envStatus ≠ .free ∧ (s.envs e).envStatus ≠ .dying
  active : ∀ {e}, Active (s.envs e).envStatus → ∃ c, s.cpuEnv c = some e
  pgdir : ∀ {e}, (s.envs e).envPgdir = none ↔ (s.envs e).envStatus = .free
  free : ∃ l, Linked (fun e => (s.envs e).envLink) s.envFreeList l ∧ l.Nodup ∧
    ∀ e, e ∈ l ↔ (s.envs e).envStatus = .free

/-! ### The free list -/

/-- The free list holds the free slots, each once. -/
def FreeSlots (s : Kernel n) : Prop :=
  ∃ l, Linked (fun e => (s.envs e).envLink) s.envFreeList l ∧ l.Nodup ∧
    ∀ e, e ∈ l ↔ (s.envs e).envStatus = .free

/-- A slot goes on the list. -/
theorem FreeSlots.push (h : FreeSlots s) (hlive : (s.envs e).envStatus ≠ .free)
    (hself : (t.envs e).envStatus = .free ∧ (t.envs e).envLink = s.envFreeList)
    (hother : ∀ e', e' ≠ e → t.envs e' = s.envs e') (hlist : t.envFreeList = some e) :
    FreeSlots t := by
  obtain ⟨l, hl, hnodup, hmem⟩ := h
  have he : e ∉ l := fun hin => hlive ((hmem e).mp hin)
  refine ⟨e :: l, ⟨hlist, ?_⟩, List.nodup_cons.mpr ⟨he, hnodup⟩, fun e' => ?_⟩
  · simp only [hself.2]
    refine (linked_congr fun e' he' => ?_).mpr hl
    rw [hother e' (fun heq => he (heq ▸ he'))]
  · by_cases heq : e' = e
    · subst heq
      simp [hself.1]
    · rw [hother e' heq, List.mem_cons, hmem]
      simp [heq]

/-- The first slot comes off the list. -/
theorem FreeSlots.pop (h : FreeSlots s) (hhead : s.envFreeList = some e)
    (hlist : t.envFreeList = (s.envs e).envLink) (hlive : (t.envs e).envStatus ≠ .free)
    (hother : ∀ e', e' ≠ e → t.envs e' = s.envs e') :
    (s.envs e).envStatus = .free ∧ FreeSlots t := by
  obtain ⟨l, hl, hnodup, hmem⟩ := h
  rw [hhead] at hl
  obtain ⟨rest, rfl, hrest⟩ := hl.pop
  obtain ⟨he, hnodup'⟩ := List.nodup_cons.mp hnodup
  refine ⟨(hmem e).mp (by simp), rest, ?_, hnodup', fun e' => ?_⟩
  · rw [hlist]
    refine (linked_congr fun e' he' => ?_).mpr hrest
    rw [hother e' (fun heq => he (heq ▸ he'))]
  · by_cases heq : e' = e
    · subst heq
      exact iff_of_false he hlive
    · rw [hother e' heq, ← hmem, List.mem_cons]
      simp [heq]

/-! ### Looking up environments -/

theorem envid2env_eq_some {id : Word} {checkperm : Bool}
    (h : envid2env s cur id checkperm = some e) :
    e = cur ∨ (s.envs e).envStatus ≠ .free ∧ (s.envs e).envId = id := by
  unfold envid2env at h
  split at h
  · exact Or.inl (Option.some.inj h).symm
  · simp only at h
    split at h
    · cases h
    · rename_i hlive
      rw [not_or, not_not] at hlive
      split at h
      · cases h
      · obtain rfl := Option.some.inj h
        exact Or.inr hlive

theorem statusOfWord_cases {w : Word} (h : statusOfWord w = some st) :
    st = .runnable ∨ st = .notRunnable := by
  unfold statusOfWord at h
  split at h <;> cases h <;> decide

theorem statusOfWord_ne {w : Word} (h : statusOfWord w = some st) :
    st ≠ .free ∧ st ≠ .dying ∧ st ≠ .running := by
  rcases statusOfWord_cases h with rfl | rfl <;> decide

namespace EnvInv

/-- What is at the head of the free list is free. -/
theorem head_free (h : EnvInv k s) (hhead : s.envFreeList = some e) :
    (s.envs e).envStatus = .free := by
  obtain ⟨l, hl, -, hmem⟩ := h.free
  rw [hhead] at hl
  obtain ⟨rest, rfl, -⟩ := hl.pop
  exact (hmem e).mp (by simp)

theorem not_free (h : EnvInv (some c) s) (hcur : s.cpuEnv c = some cur) {id : Word}
    {checkperm : Bool} (he : envid2env s cur id checkperm = some e) :
    (s.envs e).envStatus ≠ .free := by
  rcases envid2env_eq_some he with rfl | hlive
  · exact (h.cur rfl hcur).1
  · exact hlive.1

theorem live (h : EnvInv k s) (he : (s.envs e).envStatus ≠ .free) :
    ∃ d, (s.envs e).envPgdir = some d :=
  Option.ne_none_iff_exists'.mp fun hnone => he (h.pgdir.mp hnone)

theorem live_of_exec (h : EnvInv k s) (he : s.cpuEnv c = some e) :
    (s.envs e).envStatus ≠ .free := by
  by_cases hk : k = some c
  · exact (h.cur hk he).1
  · rcases h.exec he hk with hst | hst <;> simp [hst]

/-- A change to one environment that stays alive. Every system call that
changes a status goes through this. -/
theorem change (h : EnvInv k s) (hcpu : t.cpuEnv = s.cpuEnv)
    (hlist : t.envFreeList = s.envFreeList)
    (hlink : ∀ e', (t.envs e').envLink = (s.envs e').envLink)
    (hdir : ∀ e', (t.envs e').envPgdir = (s.envs e').envPgdir)
    (hother : ∀ e', e' ≠ e → (t.envs e').envStatus = (s.envs e').envStatus)
    (hold : (s.envs e).envStatus ≠ .free) (hnew : (t.envs e).envStatus ≠ .free)
    (hexec : ∀ c', s.cpuEnv c' = some e →
      if k = some c' then (t.envs e).envStatus ≠ .dying else Active (t.envs e).envStatus)
    (hactive : Active (t.envs e).envStatus → ∃ c', s.cpuEnv c' = some e) : EnvInv k t where
  uniq hc hc' := h.uniq (hcpu ▸ hc) (hcpu ▸ hc')
  exec {c' e'} hc' hk := by
    rw [hcpu] at hc'
    by_cases he' : e' = e
    · subst he'
      simpa [hk] using hexec c' hc'
    · rw [hother e' he']
      exact h.exec hc' hk
  cur {c' e'} hk hc' := by
    rw [hcpu] at hc'
    by_cases he' : e' = e
    · subst he'
      exact ⟨hnew, by simpa [hk] using hexec c' hc'⟩
    · rw [hother e' he']
      exact h.cur hk hc'
  active {e'} he' := by
    rw [hcpu]
    by_cases heq : e' = e
    · subst heq
      exact hactive he'
    · rw [hother e' heq] at he'
      exact h.active he'
  pgdir {e'} := by
    rw [hdir]
    by_cases he' : e' = e
    · subst he'
      exact iff_of_false (fun hnone => hold (h.pgdir.mp hnone)) hnew
    · rw [hother e' he']
      exact h.pgdir
  free := by
    obtain ⟨l, hl, hnodup, hmem⟩ := h.free
    refine ⟨l, ?_, hnodup, fun e' => ?_⟩
    · rw [hlist]
      exact (linked_congr fun e' _ => hlink e').mpr hl
    · by_cases he' : e' = e
      · subst he'
        rw [hmem]
        exact iff_of_false hold hnew
      · rw [hmem, hother e' he']

/-- Nothing changes that the invariant looks at. -/
theorem congr (h : EnvInv k s) (hcpu : t.cpuEnv = s.cpuEnv)
    (hlist : t.envFreeList = s.envFreeList)
    (henv : ∀ e, (t.envs e).envLink = (s.envs e).envLink ∧
      (t.envs e).envPgdir = (s.envs e).envPgdir ∧
      (t.envs e).envStatus = (s.envs e).envStatus) : EnvInv k t where
  uniq hc hc' := h.uniq (hcpu ▸ hc) (hcpu ▸ hc')
  exec hc hk := by
    rw [(henv _).2.2]
    exact h.exec (hcpu ▸ hc) hk
  cur hk hc := by
    rw [(henv _).2.2]
    exact h.cur hk (hcpu ▸ hc)
  active he := by
    rw [(henv _).2.2] at he
    rw [hcpu]
    exact h.active he
  pgdir {e} := by
    rw [(henv e).2.1, (henv e).2.2]
    exact h.pgdir
  free := by
    obtain ⟨l, hl, hnodup, hmem⟩ := h.free
    refine ⟨l, ?_, hnodup, fun e => ?_⟩
    · rw [hlist]
      exact (linked_congr fun e _ => (henv e).1).mpr hl
    · rw [hmem, (henv e).2.2]

/-- Setting what a change of one environment leaves alone. -/
theorem setEnv {v : Env} (h : EnvInv k s) (hlink : v.envLink = (s.envs e).envLink)
    (hdir : v.envPgdir = (s.envs e).envPgdir) (hst : v.envStatus = (s.envs e).envStatus) :
    EnvInv k (s.setEnv e v) := by
  refine h.congr rfl rfl fun e' => ?_
  by_cases he : e' = e
  · subst he
    simp [Kernel.setEnv, hlink, hdir, hst]
  · simp [Kernel.setEnv, he]

/-- A new status for a living environment. -/
theorem setStatus (h : EnvInv k s) (hold : (s.envs e).envStatus ≠ .free) (hnew : st ≠ .free)
    (hexec : ∀ c', s.cpuEnv c' = some e → if k = some c' then st ≠ .dying else Active st)
    (hactive : Active st → ∃ c', s.cpuEnv c' = some e) : EnvInv k (s.setStatus e st) := by
  have hself : ((s.setStatus e st).envs e).envStatus = st := by
    simp [Kernel.setStatus, Kernel.setEnv]
  refine h.change (e := e) rfl rfl (fun e' => ?_) (fun e' => ?_) (fun e' he => ?_) hold ?_ ?_ ?_
  · by_cases he : e' = e
    · subst he
      simp [Kernel.setStatus, Kernel.setEnv]
    · simp [Kernel.setStatus, Kernel.setEnv, he]
  · by_cases he : e' = e
    · subst he
      simp [Kernel.setStatus, Kernel.setEnv]
    · simp [Kernel.setStatus, Kernel.setEnv, he]
  · simp [Kernel.setStatus, Kernel.setEnv, he]
  · rwa [hself]
  · rwa [hself]
  · rwa [hself]

/-- Entering the kernel. -/
theorem enter (h : EnvInv none s)
    (hcur : ∀ cur, s.cpuEnv c = some cur → (s.envs cur).envStatus ≠ .dying) :
    EnvInv (some c) s where
  uniq := h.uniq
  exec hc _ := h.exec hc (by simp)
  cur hk hc := by
    obtain rfl := Option.some.inj hk
    exact ⟨h.live_of_exec hc, hcur _ hc⟩
  active := h.active
  pgdir := h.pgdir
  free := h.free

/-- `env_free(e)`, after which no CPU has `e` current. -/
theorem freed {m : Mem n} (h : EnvInv k s) (hk : k = none ∨ k = some c)
    (hlive : (s.envs e).envStatus ≠ .free) (henvs : t.envs = (s.freed c e m).envs)
    (hlist : t.envFreeList = some e)
    (hcpu : ∀ c' e', t.cpuEnv c' = some e' ↔ s.cpuEnv c' = some e' ∧ e' ≠ e)
    (hcur : ∀ e', t.cpuEnv c = some e' →
      (s.envs e').envStatus ≠ .free ∧ (s.envs e').envStatus ≠ .dying) :
    EnvInv (some c) t := by
  have hself : t.envs e = { s.envs e with
      envPgdir := none, envStatus := .free, envLink := s.envFreeList } := by
    rw [henvs, Kernel.freed_self]
  have hother (e' : EnvIdx) (he : e' ≠ e) : t.envs e' = s.envs e' := by
    rw [henvs, Kernel.freed_of_ne he]
  refine ⟨fun hc hc' => ?_, fun {c' e'} hc' hne => ?_, fun {c' e'} hc' he' => ?_,
    fun {e'} he' => ?_, fun {e'} => ?_, ?_⟩
  · exact h.uniq ((hcpu _ _).mp hc).1 ((hcpu _ _).mp hc').1
  · obtain ⟨hexec, he⟩ := (hcpu _ _).mp hc'
    rw [hother e' he]
    refine h.exec hexec ?_
    rcases hk with rfl | rfl
    · simp
    · exact hne
  · obtain rfl := Option.some.inj hc'
    rw [hother e' ((hcpu _ _).mp he').2]
    exact hcur e' he'
  · have he : e' ≠ e := by
      rintro rfl
      rw [hself] at he'
      rcases he' with hst | hst <;> cases hst
    rw [hother e' he] at he'
    obtain ⟨c', hexec⟩ := h.active he'
    exact ⟨c', (hcpu _ _).mpr ⟨hexec, he⟩⟩
  · by_cases he : e' = e
    · subst he
      simp [hself]
    · rw [hother e' he]
      exact h.pgdir
  · exact FreeSlots.push h.free hlive (by simp [hself]) hother hlist

/-- Taking the first environment off the free list, not to execute yet. -/
theorem allocated (h : EnvInv k s) (hhead : s.envFreeList = some e)
    (hlist : t.envFreeList = (s.envs e).envLink) (hcpu : t.cpuEnv = s.cpuEnv)
    (hother : ∀ e', e' ≠ e → t.envs e' = s.envs e') (hdir : (t.envs e).envPgdir ≠ none)
    (hfree : (t.envs e).envStatus ≠ .free) (hactive : ¬ Active (t.envs e).envStatus) :
    (s.envs e).envStatus = .free ∧ EnvInv k t := by
  obtain ⟨hst, hslots⟩ := FreeSlots.pop h.free hhead hlist hfree hother
  have hidle (c' : Fin n) : s.cpuEnv c' ≠ some e := fun hexec => h.live_of_exec hexec hst
  refine ⟨hst, ⟨fun hc hc' => h.uniq (hcpu ▸ hc) (hcpu ▸ hc'), fun {c' e'} hc' hk => ?_,
    fun {c' e'} hk hc' => ?_, fun {e'} he' => ?_, fun {e'} => ?_, hslots⟩⟩
  · rw [hcpu] at hc'
    rw [hother e' (fun heq => hidle c' (heq ▸ hc'))]
    exact h.exec hc' hk
  · rw [hcpu] at hc'
    rw [hother e' (fun heq => hidle c' (heq ▸ hc'))]
    exact h.cur hk hc'
  · have hne : e' ≠ e := by
      rintro rfl
      exact hactive he'
    rw [hother e' hne] at he'
    rw [hcpu]
    exact h.active he'
  · by_cases heq : e' = e
    · subst heq
      exact iff_of_false hdir hfree
    · rw [hother e' heq]
      exact h.pgdir

/-! ### The steps -/

/-- `env_free(curenv)` and `curenv = NULL`. -/
theorem freedSelf (h : EnvInv k s) (hk : k = none ∨ k = some c) (hcur : s.cpuEnv c = some cur)
    (hfree : Freed M c cur s u) : EnvInv (some c) (u.setCur c none) := by
  obtain ⟨hdir, -⟩ := hfree
  refine h.freed hk (h.live_of_exec hcur) rfl rfl (fun c' e' => ?_) fun e' he' => ?_
  · by_cases hc : c' = c
    · subst hc
      simpa [Kernel.setCur, hcur] using fun heq : cur = e' => heq.symm
    · simp only [Kernel.setCur, Function.update_of_ne hc]
      refine ⟨fun hexec => ⟨hexec, ?_⟩, fun hexec => hexec.1⟩
      rintro rfl
      exact hc (h.uniq hexec hcur)
  · simp [Kernel.setCur] at he'

/-- The send of a value wakes up the target. -/
theorem delivered {value perm : Word} {page : Option ℕ} {target : EnvIdx}
    (h : EnvInv k s) (hlive : (s.envs target).envStatus ≠ .free)
    (hidle : ∀ c', s.cpuEnv c' = some target → k = some c') :
    EnvInv k (s.delivered cur target value perm page) := by
  have hst : EnvInv k (s.setStatus target .runnable) := by
    refine h.setStatus hlive (by simp) (fun c' hexec => ?_) fun hactive => ?_
    · rw [if_pos (hidle c' hexec)]
      simp
    · rcases hactive with hst | hst <;> cases hst
  refine hst.congr rfl rfl fun e => ?_
  by_cases he : e = target
  · subst he
    simp [Kernel.delivered, Kernel.setStatus, Kernel.setEnv, Kernel.emit]
  · rw [Kernel.delivered_of_ne he]
    simp [Kernel.setStatus, Kernel.setEnv, he]

/-- `sys_ipc_recv` puts the caller to sleep. -/
theorem received {dstva : Word} (h : EnvInv (some c) s) (hcur : s.cpuEnv c = some cur) :
    EnvInv (some c) (s.received cur dstva) := by
  have hst : EnvInv (some c) (s.setStatus cur .notRunnable) := by
    refine h.setStatus (h.cur rfl hcur).1 (by simp) (fun c' hexec => ?_) fun hactive => ?_
    · rw [if_pos (by rw [h.uniq hcur hexec])]
      simp
    · rcases hactive with hst | hst <;> cases hst
  refine hst.congr rfl rfl fun e => ?_
  by_cases he : e = cur
  · subst he
    simp [Kernel.received, Kernel.setStatus, Kernel.setEnv, Kernel.emit]
  · rw [Kernel.received_of_ne he]
    simp [Kernel.setStatus, Kernel.setEnv, he]

/-- A request that meets the conditions. -/
theorem call (h : EnvInv (some c) s) (hcur : s.cpuEnv c = some cur)
    (hok : ElsewhereOk M c cur q s) (hcall : Call M c cur q s u) : EnvInv (some c) u := by
  have hidle (e : EnvIdx) (hne : ¬ Elsewhere s c e) (c' : Fin n) (hexec : s.cpuEnv c' = some e) :
      some c = some c' :=
    Classical.byContradiction fun hc => hne ⟨c', fun heq => hc (by rw [heq]), hexec⟩
  cases hcall with
  | skip => exact h
  | @setStatus e st hno hst he =>
      have hnew := statusOfWord_ne hst
      refine h.setStatus (h.not_free hcur he) hnew.1
        (fun c' hexec => ?_) fun hactive => ?_
      · rw [if_pos (hidle e (hok.status hno hst he) c' hexec)]
        exact hnew.2.1
      rcases hactive with rfl | rfl
      · exact absurd rfl hnew.2.2
      · exact absurd rfl hnew.2.1
  | @dying e hno he hst hne =>
      have hdying : EnvInv (some c) (s.setStatus e .dying) := by
        refine h.setStatus (by simp [hst]) (by simp) (fun c' hexec => ?_) fun _ =>
          h.active (Or.inl hst)
        rw [if_neg]
        · exact Or.inr rfl
        · intro hc
          obtain rfl := Option.some.inj hc
          exact hne hexec
      exact hdying.congr rfl rfl fun _ => ⟨rfl, rfl, rfl⟩
  | @destroyOther e u hno he hne hst hfree =>
      obtain ⟨hdir, -⟩ := hfree
      have hidle' (c' : Fin n) : s.cpuEnv c' ≠ some e := fun hexec => by
        by_cases hc : c' = c
        · subst hc
          exact hne hexec
        · exact hst (hok.destroy hno he ⟨c', hc, hexec⟩)
      refine h.freed (Or.inr rfl) (h.not_free hcur he) rfl rfl (fun c' e' => ?_) fun e' he' =>
        h.cur rfl he'
      refine ⟨fun hexec => ⟨hexec, ?_⟩, fun hexec => hexec.1⟩
      rintro rfl
      exact hidle' c' hexec
  | destroySelf _ hfree => exact h.freedSelf (Or.inr rfl) hcur hfree
  | @exofork e d m hno hhead hmem =>
      refine (h.allocated (e := e) (t := s.forked cur e d m) hhead rfl rfl
        (fun e' he => ?_) ?_ ?_ ?_).2
      · simp [Kernel.forked, Kernel.allocated, Kernel.setStatus, Kernel.setTf, Kernel.setEnv,
          Kernel.setMem, he]
      all_goals simp [Kernel.forked, Kernel.allocated, Kernel.setStatus, Kernel.setTf,
          Kernel.setEnv, Kernel.setMem, Active]
  | pageAlloc => exact h.congr rfl rfl fun _ => ⟨rfl, rfl, rfl⟩
  | pageAllocFail => exact h.congr rfl rfl fun _ => ⟨rfl, rfl, rfl⟩
  | pageMap => exact h.congr rfl rfl fun _ => ⟨rfl, rfl, rfl⟩
  | pageUnmap => exact h.congr rfl rfl fun _ => ⟨rfl, rfl, rfl⟩
  | ipcFail => exact h.setEnv rfl rfl rfl
  | @ipcValue target hno he hrecv hpage =>
      have hvalue : EnvInv (some c) (s.ipcPerm0 target) := h.setEnv rfl rfl rfl
      refine hvalue.delivered ?_ (hidle _ (hok.send (sends_value hno he hrecv hpage)))
      simpa [Kernel.ipcPerm0, Kernel.setEnv] using h.not_free hcur he
  | @ipcPage target _ _ _ _ page _ m hno he hrecv hsrcva _ hup hperm hds hdd hlook hw hinsert hr =>
      have hvalue : EnvInv (some c) (s.ipcPerm0 target) := h.setEnv rfl rfl rfl
      have hpage : EnvInv (some c) ((s.ipcPerm0 target).setMem m) :=
        hvalue.congr rfl rfl fun _ => ⟨rfl, rfl, rfl⟩
      refine hpage.delivered ?_ (hidle _ (hok.send
        (sends_page hno he hrecv hsrcva hup hperm hds hdd hlook hw hinsert hr)))
      simpa [Kernel.ipcPerm0, Kernel.setEnv, Kernel.setMem] using h.not_free hcur he
  | ipcRecv => exact h.received hcur

theorem returned {v : Kernel n} (h : EnvInv k u) (hret : Returned cur tf u v) : EnvInv k v := by
  rcases hret with rfl | ⟨-, r, rfl⟩
  · exact h
  · exact h.setEnv rfl rfl rfl

theorem demote (h : EnvInv (some c) s) : EnvInv (some c) (s.demote c) ∧
    ∀ e, s.cpuEnv c = some e → ¬ Active ((s.demote c).envs e).envStatus := by
  by_cases hrun : ∃ cur, s.cpuEnv c = some cur ∧ (s.envs cur).envStatus = .running
  · obtain ⟨cur, hcur, hst⟩ := hrun
    rw [demote_running hcur hst]
    refine ⟨h.setStatus (by simp [hst]) (by simp) (fun c' hexec => ?_) fun hactive => ?_,
      fun e he => ?_⟩
    · rw [if_pos (by rw [h.uniq hcur hexec])]
      simp
    · rcases hactive with hst | hst <;> cases hst
    · obtain rfl := Option.some.inj (hcur.symm.trans he)
      simp [Kernel.setStatus, Kernel.setEnv, Active]
  · -- a `curenv` that is not running is not dying either: that was seen to at the entry
    have hnot {e : EnvIdx} (he : s.cpuEnv c = some e) : (s.envs e).envStatus ≠ .running :=
      fun hst => hrun ⟨e, he, hst⟩
    rw [demote_eq_self hnot]
    exact ⟨h, fun e he hactive => hactive.elim (hnot he) (h.cur rfl he).2⟩

/-- Leaving the kernel. The environment that goes on is runnable, so no other
CPU executes it. -/
theorem exit (h : EnvInv (some c) s) (hexit : Exit M c s t) : EnvInv none t := by
  cases hexit with
  | @run e d hrunnable hdir =>
      obtain ⟨hd, hcur⟩ := h.demote
      set v := s.demote c with hv
      -- `e` was runnable, so no other CPU executes it
      have hidle (c' : Fin n) (hexec : v.cpuEnv c' = some e) : c' = c := by
        by_contra hc
        rcases hd.exec hexec (fun heq => hc (Option.some.inj heq).symm) with hst | hst <;>
          simp [hrunnable] at hst
      have hself : ((v.resume c e d).envs e).envStatus = .running := by
        rw [Kernel.resume_self]
      have hother (e' : EnvIdx) (he : e' ≠ e) : (v.resume c e d).envs e' = v.envs e' :=
        Kernel.resume_of_ne he
      have hlinks (e' : EnvIdx) : ((v.resume c e d).envs e').envLink = (v.envs e').envLink ∧
          ((v.resume c e d).envs e').envPgdir = (v.envs e').envPgdir := by
        by_cases he : e' = e
        · subst he
          rw [Kernel.resume_self]
          exact ⟨rfl, rfl⟩
        · rw [hother e' he]
          exact ⟨rfl, rfl⟩
      have hcpu (c' : Fin n) : (v.resume c e d).cpuEnv c' =
          if c' = c then some e else v.cpuEnv c' := by
        simp [Kernel.resume, Kernel.setCur, Kernel.setEnv, Kernel.setMem, Kernel.emit,
          Function.update_apply]
      have hfree (e' : EnvIdx) : ((v.resume c e d).envs e').envStatus = .free ↔
          (v.envs e').envStatus = .free := by
        by_cases he : e' = e
        · subst he
          simp [hself, hrunnable]
        · rw [hother e' he]
      refine ⟨fun {c₁ c₂ e'} h₁ h₂ => ?_, fun {c' e'} hc' _ => ?_,
        fun {_ _} h => absurd h (Option.some_ne_none _).symm, fun {e'} he' => ?_,
        fun {e'} => ?_, ?_⟩
      · rw [hcpu] at h₁ h₂
        split at h₁ <;> split at h₂
        · rename_i hc₁ hc₂
          rw [hc₁, hc₂]
        · rename_i hc₁ hc₂
          obtain rfl := Option.some.inj h₁
          rw [hc₁, hidle c₂ h₂]
        · rename_i hc₁ hc₂
          obtain rfl := Option.some.inj h₂
          rw [hc₂, hidle c₁ h₁]
        · exact hd.uniq h₁ h₂
      · rw [hcpu] at hc'
        by_cases he : e' = e
        · subst he
          exact Or.inl hself
        · rw [hother e' he]
          split at hc'
          · exact absurd (Option.some.inj hc').symm he
          · rename_i hc
            exact hd.exec hc' (by simpa using fun heq => hc heq.symm)
      · by_cases he : e' = e
        · exact ⟨c, by rw [hcpu, if_pos rfl, he]⟩
        · rw [hother e' he] at he'
          obtain ⟨c', hexec⟩ := hd.active he'
          refine ⟨c', ?_⟩
          rw [hcpu, if_neg]
          · exact hexec
          · rintro rfl
            exact hcur e' ((congrFun (demote_cpuEnv s c') c').symm.trans hexec) he'
      · rw [(hlinks e').2, hfree]
        exact hd.pgdir
      · obtain ⟨l, hl, hnodup, hmem⟩ := hd.free
        refine ⟨l, (linked_congr fun e' _ => (hlinks e').1).mpr hl, hnodup, fun e' => ?_⟩
        rw [hmem, hfree]
  | halt hcur hnone =>
      have hcpu (c' : Fin n) : (s.halt M c).cpuEnv c' =
          if c' = c then none else s.cpuEnv c' := by
        simp [Kernel.halt, Kernel.setCur, Kernel.setMem, Function.update_apply]
      refine ⟨fun {c₁ c₂ e} h₁ h₂ => ?_, fun {c' e} hc' _ => ?_,
        fun {_ _} h => absurd h (Option.some_ne_none _).symm, fun {e} he => ?_, h.pgdir, h.free⟩
      · rw [hcpu] at h₁ h₂
        split at h₁ <;> split at h₂ <;> first | cases h₁ | cases h₂ | exact h.uniq h₁ h₂
      · rw [hcpu] at hc'
        split at hc'
        · cases hc'
        · rename_i hc
          exact h.exec hc' (by simpa using fun heq => hc heq.symm)
      · obtain ⟨c', hexec⟩ := h.active he
        refine ⟨c', ?_⟩
        rw [hcpu, if_neg]
        · exact hexec
        · rintro rfl
          exact he.elim (hcur e hexec) (h.cur rfl hexec).2

/-- One step of the system. -/
theorem step {l : Label n} (h : EnvInv none s) (hok : OnCall (ElsewhereOk M) s l)
    (hstep : Step M s l t) : EnvInv none t := by
  cases hstep.taken with
  | zombie hcur _ hfree hexit => exact (h.freedSelf (Or.inl rfl) hcur hfree).exit hexit
  | @entry c tf _ cur _ _ _ hcur hst hcall hret hexit =>
      have henter : EnvInv (some c) s := h.enter fun cur' hcur' => by
        rwa [← Option.some.inj (hcur.symm.trans hcur')]
      have hsaved : EnvInv (some c) (s.setTf cur tf) := henter.setEnv rfl rfl rfl
      exact ((hsaved.call hcur (hok rfl hcur hst) hcall).returned hret).exit hexit
  | tick hidle hexit =>
      exact (h.enter fun cur hcur => by rw [hidle] at hcur; cases hcur).exit hexit
  | fill => exact h.congr rfl rfl fun _ => ⟨rfl, rfl, rfl⟩
  | store => exact h.congr rfl rfl fun _ => ⟨rfl, rfl, rfl⟩

end EnvInv

end Jos
