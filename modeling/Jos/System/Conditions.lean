import Jos.Kern.Effects
import Jos.Pmap.Invariant

/-!
Conditions on the requests of a run. The kernel does not check them, and the
properties of the system hold in the runs that meet them. Each is about the
state in which a request is served, when the registers of the caller have been
saved, and speaks of what the code itself computes from that state before it
changes anything.
-/

namespace Jos

open Jos.Lib

variable {n : ℕ}

/-- The environment executes on a CPU other than `c`. -/
def Elsewhere (s : Kernel n) (c : Fin n) (e : EnvIdx) : Prop :=
  ∃ c', c' ≠ c ∧ s.cpuEnv c' = some e

/-- A condition on the requests, as a condition on steps: every request that is
served meets it. The last trap of a zombie asks for nothing. -/
def OnCall (G : Fin n → EnvIdx → Request → Kernel n → Prop) (s : Kernel n) (l : Label n) : Prop :=
  ∀ {c tf input cur}, l = .trap c tf input → s.cpuEnv c = some cur →
    (s.envs cur).envStatus ≠ .dying → G c cur tf.request (s.setTf cur tf)

/-! ### Environments that execute on another CPU -/

section

variable (M : Machine) (c : Fin n) (cur : EnvIdx) (q : Request) (s : Kernel n)

/-- The target of `sys_env_set_status` does not execute on another CPU. -/
def StatusOk : Prop :=
  ∀ {st e}, q.no = some .envSetStatus → statusOfWord q.a2 = some st →
    envid2env s cur q.a1 true = some e → ¬ Elsewhere s c e

/-- The page transfer that `sys_ipc_try_send` has been asked for, if any,
passes its checks and finds the memory it needs. -/
def PagePasses (target : EnvIdx) : Prop :=
  q.a3 < utop ∧ (s.envs target).envIpcDstva < utop →
    ∃ ds dd pt i page, (s.envs cur).envPgdir = some ds ∧ (s.envs target).envPgdir = some dd ∧
      pageLookup M ds q.a3 s.mem = .ok (some (pt, i), page) ∧ q.a3 % 0x1000#32 = 0 ∧
      (Flag q.a4 pteW → Flag (s.mem.word pt i) pteW) ∧ Flag q.a4 (pteU ||| pteP) ∧
      ¬ Flag q.a4 (~~~pteSyscall) ∧
      (Flag (s.mem.word dd (pdx (s.envs target).envIpcDstva)) pteP ∨ s.mem.pageFreeList ≠ none)

/-- The request is a `sys_ipc_try_send` to `target` that passes all checks. -/
def Sends (target : EnvIdx) : Prop :=
  q.no = some .ipcTrySend ∧ envid2env s cur q.a1 false = some target ∧
    (s.envs target).envIpcRecving = true ∧ PagePasses M cur q s target

/-- No `sys_ipc_try_send` succeeds whose target executes on another CPU. -/
def SendOk : Prop := ∀ {e}, Sends M cur q s e → ¬ Elsewhere s c e

/-- The target of `sys_env_destroy`, if it executes on another CPU, is
running. -/
def DestroyOk : Prop :=
  ∀ {e}, q.no = some .envDestroy → envid2env s cur q.a1 true = some e → Elsewhere s c e →
    (s.envs e).envStatus = .running

/-- No request writes the status of an environment that executes on another
CPU, but for the `sys_env_destroy` of a running one. -/
structure ElsewhereOk : Prop where
  status : StatusOk c cur q s
  send : SendOk M c cur q s
  destroy : DestroyOk c cur q s

/-! ### Pages that are mapped once more -/

/-- The request passes all checks of `sys_page_map` or `sys_ipc_try_send` and
enters the page that was looked up, or the null page, into directory `d` at
`va`. -/
inductive Inserts : Option ℕ → ℕ → Word → Prop
  | map {src dst ds dd pt i page} (hno : q.no = some .pageMap)
      (hsrc : envid2env s cur q.a1 true = some src)
      (hdst : envid2env s cur q.a3 true = some dst) (hsrcva : userPage q.a2)
      (hdstva : userPage q.a4) (hperm : validPerm q.a5)
      (hds : (s.envs src).envPgdir = some ds) (hdd : (s.envs dst).envPgdir = some dd)
      (hlook : pageLookup M ds q.a2 s.mem = .ok (some (pt, i), page))
      (hw : Flag q.a5 pteW → Flag (s.mem.word pt i) pteW)
      (hroom : Flag (s.mem.word dd (pdx q.a4)) pteP ∨ s.mem.pageFreeList ≠ none) :
      Inserts page dd q.a4
  | send {target ds dd pt i page} (hsend : Sends M cur q s target) (hsrcva : q.a3 < utop)
      (hdstva : (s.envs target).envIpcDstva < utop) (hds : (s.envs cur).envPgdir = some ds)
      (hdd : (s.envs target).envPgdir = some dd)
      (hlook : pageLookup M ds q.a3 s.mem = .ok (some (pt, i), page)) :
      Inserts page dd (s.envs target).envIpcDstva

/-- No absent page is mapped. -/
def SourceOk : Prop := ∀ {d va}, ¬ Inserts M cur q s none d va

/-- No page is mapped whose count has wrapped around to zero; `sys_exofork`
maps the VGA buffer. -/
structure RoomOk : Prop where
  insert : ∀ {page d va}, Inserts M cur q s (some page) d va → (s.mem.pages page).ppRef ≠ 0
  fork : q.no = some .exofork → s.envFreeList ≠ none → s.mem.pageFreeList ≠ none →
    (s.mem.pages vgaFrame).ppRef ≠ 0

/-- The conditions under which the invariant of the system holds. -/
structure CallOk : Prop where
  elsewhere : ElsewhereOk M c cur q s
  room : RoomOk M cur q s

end

/-! ### Checking the conditions -/

/-- No CPU but `c` executes `e`. -/
def idleElsewhere (s : Kernel n) (c : Fin n) (e : EnvIdx) : Bool :=
  decide (∀ c', c' ≠ c → s.cpuEnv c' ≠ some e)

/-- A check of `ElsewhereOk` that takes every send for a successful one. -/
def checkElsewhere (s : Kernel n) : Label n → Bool
  | .trap c tf _ =>
      (s.cpuEnv c).all fun cur =>
        let q := tf.request
        match q.no with
        | some .envSetStatus =>
            (envid2env (s.setTf cur tf) cur q.a1 true).all (idleElsewhere s c)
        | some .ipcTrySend =>
            (envid2env (s.setTf cur tf) cur q.a1 false).all (idleElsewhere s c)
        | some .envDestroy =>
            (envid2env (s.setTf cur tf) cur q.a1 true).all fun e =>
              idleElsewhere s c e || decide (((s.setTf cur tf).envs e).envStatus = .running)
        | _ => true
  | _ => true

theorem elsewhereOk_of_check {M : Machine} {s : Kernel n} {l : Label n}
    (h : checkElsewhere s l = true) : OnCall (ElsewhereOk M) s l := by
  rintro c tf input cur rfl hcur -
  have hidle {e : EnvIdx} (hidle : idleElsewhere s c e = true) :
      ¬ Elsewhere (s.setTf cur tf) c e := by
    rintro ⟨c', hc, hexec⟩
    exact of_decide_eq_true hidle c' hc hexec
  simp only [checkElsewhere, hcur, Option.all_some] at h
  refine ⟨fun hno _ he => ?_, fun hsend => ?_, fun hno he helse => ?_⟩
  · simp only [hno, he, Option.all_some] at h
    exact hidle h
  · simp only [hsend.1, hsend.2.1, Option.all_some] at h
    exact hidle h
  · simp only [hno, he, Option.all_some, Bool.or_eq_true, decide_eq_true_eq] at h
    exact h.resolve_left fun h => hidle h helse

/-- The trap maps no page but the VGA buffer in a new environment. -/
def roomy (s : Kernel n) : Label n → Bool
  | .trap _ tf _ => decide (tf.request.no ≠ some .pageMap ∧ tf.request.no ≠ some .ipcTrySend ∧
      (s.mem.pages vgaFrame).ppRef ≠ 0)
  | _ => true

theorem not_inserts {M : Machine} {cur : EnvIdx} {q : Request} {s : Kernel n}
    (hmap : q.no ≠ some .pageMap) (hsend : q.no ≠ some .ipcTrySend) {page : Option ℕ} {d : ℕ}
    {va : Word} : ¬ Inserts M cur q s page d va := by
  intro h
  cases h with
  | map hno => exact hmap hno
  | send hs => exact hsend hs.1

theorem callOk_of_check {M : Machine} {s : Kernel n} {l : Label n}
    (h : (checkElsewhere s l && roomy s l) = true) : OnCall (CallOk M) s l := by
  obtain ⟨helse, hroomy⟩ := Bool.and_eq_true_iff.mp h
  intro c tf input cur hl hcur hst
  refine ⟨elsewhereOk_of_check helse hl hcur hst, ?_⟩
  subst hl
  obtain ⟨hmap, hsend, hvga⟩ : tf.request.no ≠ some .pageMap ∧
      tf.request.no ≠ some .ipcTrySend ∧ (s.mem.pages vgaFrame).ppRef ≠ 0 := by
    simpa [roomy] using hroomy
  exact ⟨fun hins => absurd hins (not_inserts hmap hsend), fun _ _ _ => hvga⟩

/-! ### What the calls that write a status were asked for -/

variable {M : Machine} {c : Fin n} {cur target : EnvIdx} {q : Request} {s : Kernel n}

theorem pageInsert_room {x : Ctx n} {pgdir : ℕ} {pp : Option ℕ} {va perm r : Word}
    {m m' : Mem n} (h : pageInsert M x pgdir pp va perm m = .ok (r, m')) (hr : r ≠ -eNoMem) :
    Flag (m.word pgdir (pdx va)) pteP ∨ m.pageFreeList ≠ none := by
  unfold pageInsert at h
  simp only [bind_eq_ok] at h
  obtain ⟨⟨pte, m₁⟩, hwalk, h⟩ := h
  rcases pgdirWalk_true hwalk with ⟨hP, -, -⟩ | ⟨-, -, rfl⟩ | ⟨-, page, hfree, -, -⟩
  · exact Or.inl hP
  · cases h
    exact absurd rfl hr
  · exact Or.inr (by simp [hfree])

theorem sends_value (hno : q.no = some .ipcTrySend)
    (he : envid2env s cur q.a1 false = some target)
    (hrecv : (s.envs target).envIpcRecving = true)
    (hpage : ¬ (q.a3 < utop ∧ (s.envs target).envIpcDstva < utop)) : Sends M cur q s target :=
  ⟨hno, he, hrecv, fun h => absurd h hpage⟩

theorem sends_page {ds dd pt r : _} {i : PtIdx} {page : Option ℕ} {m : Mem n}
    (hno : q.no = some .ipcTrySend) (he : envid2env s cur q.a1 false = some target)
    (hrecv : (s.envs target).envIpcRecving = true) (hsrcva : userPage q.a3)
    (hup : Flag q.a4 (pteU ||| pteP)) (hperm : ¬ Flag q.a4 (~~~pteSyscall))
    (hds : (s.envs cur).envPgdir = some ds) (hdd : (s.envs target).envPgdir = some dd)
    (hlook : pageLookup M ds q.a3 s.mem = .ok (some (pt, i), page))
    (hw : Flag q.a4 pteW → Flag (s.mem.word pt i) pteW)
    (hinsert : pageInsert M (s.ctx c) dd page (s.envs target).envIpcDstva q.a4 s.mem =
      .ok (r, m)) (hr : r ≠ -eNoMem) : Sends M cur q s target :=
  ⟨hno, he, hrecv, fun _ => ⟨ds, dd, pt, i, page, hds, hdd, hlook, hsrcva.2, hw, hup, hperm,
    pageInsert_room hinsert hr⟩⟩

end Jos
