import Jos.Kern.Mpentry
import Jos.System.BigLock
import Mathlib.Algebra.BigOperators.Fin
import Mathlib.Data.Fintype.Card

/-!
The startup of the CPUs. What the boot CPU has sent to a CPU can be read from
where it is in `boot_aps`, and what of it has arrived, from where that CPU is.
The boot CPU attends to one CPU at a time, and that is the only one that runs
without the lock.
-/

namespace Jos

open Jos.Lib

variable {n : ℕ}

namespace Smp

variable {s t : Smp n} {c d i : Fin n} {run : Bool}

/-- What a step of CPU `c` outside of the loop of `boot_aps` does to the places
of the CPUs: the others stay where they are, and the boot CPU in the loop. -/
structure Moves (s t : Smp n) (c : Fin n) : Prop where
  others : ∀ d, d ≠ c → t.pc d = s.pc d
  started : (t.pc c).started = (s.pc c).started ∨ t.pc c = .panic
  waitAp : ∀ i, t.pc c = .waitAp i → s.pc c = .waitAp i

theorem moves_goto {p : CpuPc n} {q : CpuPc n} (hpc : s.pc c = q)
    (ht : t.pc = Function.update s.pc c p) (hstarted : p.started = q.started ∨ p = .panic)
    (hwait : ∀ i, p = .waitAp i → q = .waitAp i) : Moves s t c := by
  subst hpc
  refine ⟨fun d hd => ?_, ?_, fun i hi => hwait i ?_⟩
  · rw [ht, Function.update_of_ne hd]
  · rw [ht, Function.update_self]
    exact hstarted
  · rw [ht, Function.update_self] at hi
    exact hi

theorem moves_spinLock {call : LockCall} {pc : SpinLock} (hpc : s.pc c = .lock call pc) :
    Moves s (spinLock s c call pc) c := by
  cases pc with
  | holdingLocked =>
      exact moves_goto hpc rfl (Or.inl (by split <;> exact started_lock ..))
        (fun i hi => by cases hi)
  | holdingCpu =>
      refine moves_goto hpc rfl ?_ (fun i hi => ?_)
      · split
        · exact Or.inr rfl
        · exact Or.inl (started_lock ..)
      · split at hi <;> cases hi
  | xchg =>
      exact moves_goto hpc rfl (Or.inl (by split <;> exact started_lock ..))
        (fun i hi => by cases hi)
  | record =>
      refine moves_goto hpc rfl (Or.inl ?_) (fun i hi => ?_)
      · cases call <;> rfl
      · cases call <;> cases hi

theorem moves_spinUnlock {call : UnlockCall} {pc : SpinUnlock} (hpc : s.pc c = .unlock call pc) :
    Moves s (spinUnlock s c call pc) c := by
  cases pc with
  | holdingLocked | holdingCpu =>
      refine moves_goto hpc rfl ?_ (fun i hi => ?_)
      · split
        · exact Or.inl rfl
        · exact Or.inr rfl
      · split at hi <;> cases hi
  | clear => exact moves_goto hpc rfl (Or.inl rfl) (fun i hi => by cases hi)
  | xchg =>
      refine moves_goto hpc rfl (Or.inl ?_) (fun i hi => ?_)
      · cases call <;> rfl
      · cases call <;> cases hi

theorem step_moves (hstep : s.step (c, run) = some t) (hloop : ∀ i, s.pc c ≠ .bootAps i) :
    Moves s t c := by
  simp only [Smp.step] at hstep
  cases hpc : s.pc c <;> simp only [hpc, Option.some.injEq, reduceCtorEq] at hstep <;> subst hstep
  case lock call pc => exact moves_spinLock hpc
  case unlock call pc => exact moves_spinUnlock hpc
  case bootAps i => exact absurd hpc (hloop i)
  case waitAp i =>
    refine moves_goto hpc rfl (Or.inl ?_) (fun j hj => ?_)
    · split <;> rfl
    · split at hj <;> cases hj
      rfl
  case trap user =>
    refine moves_goto hpc rfl (Or.inl ?_) (fun j hj => ?_)
    · split <;> rfl
    · split at hj <;> cases hj
  case dispatch | schedYield | trapMode =>
    refine moves_goto hpc rfl (Or.inl ?_) (fun j hj => ?_)
    · split <;> rfl
    · split at hj <;> cases hj
  all_goals exact moves_goto hpc rfl (Or.inl rfl) (fun j hj => by cases hj)

end Smp

namespace CpuPc

/-- In `lock_kernel` of `mp_main`, without the lock. -/
def Waits (p : CpuPc n) : Prop := ∃ pc, pc ≠ SpinLock.record ∧ p = .lock .mpMain pc

end CpuPc

namespace MpPc

/-- The interrupts of the startup algorithm that a boot CPU there has sent to
CPU `j`. -/
def sent (b : MpPc n) (j : Fin n) : List Ipi :=
  match b with
  | .startap i pc =>
    if j < i then [.init, .startup, .startup]
    else if j = i then
      match pc with
      | .init => []
      | .startup => [.init]
      | .startupAgain => [.init, .startup]
    else []
  | .smp p =>
    match p.started with
    | some i => if (j : ℕ) < i then [.init, .startup, .startup] else []
    | none => [.init, .startup, .startup]
  | _ => []

/-- A boot CPU there is starting CPU `j`. -/
def Attends (b : MpPc n) (j : Fin n) : Prop := (∃ pc, b = .startap j pc) ∨ b = .smp (.waitAp j)

/-- A boot CPU there has not left `boot_aps`. -/
def Booting : MpPc n → Prop
  | .startap _ _ => True
  | .smp p => p.started.isSome
  | _ => False

/-- A CPU there has taken `d` interrupts. -/
def Took : MpPc n → ℕ → Prop
  | .off, d => d = 0
  | .waitStartup, d => d = 1
  | _, d => 2 ≤ d

/-- A CPU there is yet to reach `lock_kernel`. -/
def Comes : MpPc n → Prop
  | .off | .waitStartup | .mpentry _ | .mpMain _ => True
  | _ => False

/-- It has loaded its stack pointer. -/
def OnStack : MpPc n → Prop
  | .off | .waitStartup | .mpentry _ => False
  | _ => True

/-- It has printed its line. -/
def Printed : MpPc n → Prop
  | .off | .waitStartup | .mpentry _ | .mpMain .cprintf => False
  | _ => True

/-- It has mapped the local APIC. -/
def Mapped : MpPc n → Prop
  | .mpMain (.setLapic _) | .mpMain .tss | .mpMain .started | .startap _ _ | .smp _ => True
  | _ => False

instance : DecidablePred (Mapped (n := n)) := fun p => by
  unfold Mapped
  split <;> infer_instance

/-- It has set its `ts_esp0`. -/
def Traps : MpPc n → Prop
  | .mpMain .started | .startap _ _ | .smp _ => True
  | _ => False

theorem Attends.unique {b : MpPc n} {i j : Fin n} (hi : b.Attends i) (hj : b.Attends j) :
    i = j := by
  rcases hi with ⟨pc, rfl⟩ | rfl <;> rcases hj with ⟨pc', hj⟩ | hj <;> cases hj <;> rfl

theorem Attends.booting {b : MpPc n} {i : Fin n} (hi : b.Attends i) : b.Booting := by
  rcases hi with ⟨pc, rfl⟩ | rfl
  · trivial
  · rfl

theorem sent_cases (b : MpPc n) (j : Fin n) : b.sent j = [] ∨ b.sent j = [.init] ∨
    b.sent j = [.init, .startup] ∨ b.sent j = [.init, .startup, .startup] := by
  unfold sent
  split
  · split_ifs
    · simp
    · split <;> simp
    · simp
  · split
    · split_ifs <;> simp
    · simp
  · simp

/-- The next interrupt that arrives at a CPU that has taken `d`. -/
theorem drop_sent {b : MpPc n} {j : Fin n} {d : ℕ} {ipi : Ipi} {l : List Ipi}
    (h : ipi :: l = (b.sent j).drop d) :
    l = (b.sent j).drop (d + 1) ∧ d + 1 ≤ (b.sent j).length ∧
      (ipi = .init ∧ d = 0 ∨ ipi = .startup ∧ 1 ≤ d) := by
  have hlt : d < (b.sent j).length := by
    by_contra hle
    rw [List.drop_eq_nil_of_le (by omega)] at h
    cases h
  rw [List.drop_eq_getElem_cons hlt] at h
  obtain ⟨hipi, hl⟩ := List.cons.inj h
  refine ⟨hl, hlt, ?_⟩
  rcases b.sent_cases j with hs | hs | hs | hs <;> simp only [hs] at hlt hipi hl
  · cases hlt
  · obtain rfl : d = 0 := by simpa using hlt
    simp [hipi]
  · obtain rfl | rfl : d = 0 ∨ d = 1 := by simp only [List.length] at hlt; omega
    · simp [hipi]
    · simp [hipi]
  · obtain rfl | rfl | rfl : d = 0 ∨ d = 1 ∨ d = 2 := by simp only [List.length] at hlt; omega
    · simp [hipi]
    · simp [hipi]
    · simp [hipi]

theorem Took.zero {p : MpPc n} (h : p.Took 0) : p = .off := by
  cases p with
  | off => rfl
  | waitStartup => exact absurd h Nat.zero_ne_one
  | _ => exact absurd h (Nat.not_succ_le_zero 1)

theorem Took.one {p : MpPc n} (h : p.Took 1) : p = .waitStartup := by
  cases p with
  | off => exact absurd h Nat.one_ne_zero
  | waitStartup => rfl
  | _ => exact absurd h (Nat.not_succ_le_self 1)

/-- A CPU that has taken the first STARTUP takes no notice of another. -/
theorem Took.more {p : MpPc n} {d : ℕ} (h : p.Took d) (hd : 2 ≤ d) :
    p.Took (d + 1) ∧ p ≠ .waitStartup ∧ p ≠ .off := by
  cases p with
  | off => exact absurd hd (by rw [show d = 0 from h]; decide)
  | waitStartup => exact absurd hd (by rw [show d = 1 from h]; decide)
  | _ => exact ⟨Nat.le_succ_of_le hd, by simp, by simp⟩

theorem Attends.sent_le {b : MpPc n} {i j : Fin n} (hi : b.Attends i) (hj : b.sent j ≠ []) :
    j ≤ i := by
  by_contra hlt
  rcases hi with ⟨pc, rfl⟩ | rfl
  · simp only [sent] at hj
    rw [if_neg (by omega), if_neg (by omega)] at hj
    exact hj rfl
  · simp only [sent, CpuPc.started] at hj
    rw [if_neg (by omega)] at hj
    exact hj rfl

/-- In kern/mpentry.S or `mp_main`. -/
def Starting : MpPc n → Prop
  | .mpentry _ | .mpMain _ => True
  | _ => False

theorem Starting.comes {p : MpPc n} (h : p.Starting) : p.Comes := by
  cases p with
  | mpentry | mpMain => trivial
  | _ => exact h.elim

theorem Took.mono {p q : MpPc n} {d : ℕ} (h : p.Took d) (hp : p.Starting)
    (hoff : q ≠ .off) (hwait : q ≠ .waitStartup) : q.Took d := by
  have hd : 2 ≤ d := by
    cases p with
    | mpentry | mpMain => exact h
    | _ => exact hp.elim
  cases q with
  | off => exact absurd rfl hoff
  | waitStartup => exact absurd rfl hwait
  | _ => exact hd

/-- A place of the boot CPU. -/
def Boots (bsp : Fin n) (b : MpPc n) : Prop :=
  (∃ i pc, i ≠ bsp ∧ b = .startap i pc) ∨ ∃ p, b = .smp p

theorem sent_startap (i j : Fin n) (pc : StartAp) : (startap i pc).sent j =
    if j < i then [.init, .startup, .startup]
    else if j = i then
      match pc with
      | .init => []
      | .startup => [.init]
      | .startupAgain => [.init, .startup]
    else [] := rfl

theorem sent_smp {p : CpuPc n} {k : ℕ} (hp : p.started = some k) (j : Fin n) :
    (smp p).sent j = if (j : ℕ) < k then [.init, .startup, .startup] else [] := by
  simp only [sent, hp]

theorem sent_smp_none {p : CpuPc n} (hp : p.started = none) (j : Fin n) :
    (smp p).sent j = [.init, .startup, .startup] := by
  simp only [sent, hp]

theorem sent_started {p q : CpuPc n} (h : p.started = q.started) (j : Fin n) :
    (smp p).sent j = (smp q).sent j := by
  simp only [sent, h]

theorem sent_startap_self (i : Fin n) (pc : StartAp) : (startap i pc).sent i =
    match pc with
    | .init => []
    | .startup => [.init]
    | .startupAgain => [.init, .startup] := by
  rw [sent_startap, if_neg (lt_irrefl i), if_pos rfl]

theorem sent_startap_other {i j : Fin n} (hj : j ≠ i) (pc : StartAp) : (startap i pc).sent j =
    if j < i then [.init, .startup, .startup] else [] := by
  rw [sent_startap, if_neg hj]

theorem sent_waitAp_self (i : Fin n) :
    (smp (.waitAp i) : MpPc n).sent i = [.init, .startup, .startup] := by
  rw [sent_smp rfl, if_pos (Nat.lt_succ_self _)]

theorem sent_waitAp_other {i j : Fin n} (hj : j ≠ i) : (smp (.waitAp i) : MpPc n).sent j =
    if j < i then [.init, .startup, .startup] else [] := by
  have hlt : (j : ℕ) < i + 1 ↔ j < i := by
    have hne : (j : ℕ) ≠ i := fun hji => hj (Fin.ext hji)
    rw [Fin.lt_def]
    omega
  rw [sent_smp rfl]
  simp only [hlt]

end MpPc

namespace Mp

variable {img : Image} {bsp c i j : Fin n} {s t : Mp n} {p q b : MpPc n}

/-- What holds of CPU `j` while the others start. -/
structure Ap (img : Image) (bsp : Fin n) (s : Mp n) (j : Fin n) : Prop where
  ipis : ∃ d ≤ ((s.pc bsp).sent j).length, (s.pc j).Took d ∧ s.ipis j = ((s.pc bsp).sent j).drop d
  place : (s.pc j).Comes ∧ ((s.pc bsp).sent j = [] ∨ (s.pc bsp).Attends j) ∨
    ∃ p, s.pc j = .smp p ∧ ((s.pc bsp).Booting → p.Waits)
  esp : (s.pc j).OnStack → s.esp j = kstackEnd img j
  esp0 : (s.pc j).Traps → s.esp0 j = some (kstackVa j + kstksize)

/-- How many CPUs have mapped the local APIC. -/
def mapped (s : Mp n) : ℕ := (Finset.univ.filter fun c => (s.pc c).Mapped).card

/-- What `mp_main` changes without the lock. -/
structure Shared (bsp : Fin n) (s : Mp n) : Prop where
  base : s.base = mmiobase + BitVec.ofNat 32 s.mapped * pgsize
  lapic : ∃ k < s.mapped, s.lapic = mmiobase + BitVec.ofNat 32 k * pgsize
  setBase : ∀ c va, s.pc c = .mpMain (.setBase va) → va = s.base
  setLapic : ∀ c va, s.pc c = .mpMain (.setLapic va) → s.base = va + pgsize
  sorted : s.console.Pairwise (· < ·)
  console : ∀ c, c ∈ s.console ↔ c ≠ bsp ∧ (s.pc c).Printed

structure Inv (img : Image) (bsp : Fin n) (s : Mp n) : Prop where
  reach : Smp.Reach bsp s.smp
  boot : (∃ i pc, i ≠ bsp ∧ s.pc bsp = .startap i pc) ∨ ∃ p, s.pc bsp = .smp p
  bootIpis : s.ipis bsp = []
  ap : ∀ j ≠ bsp, Ap img bsp s j
  kstack : ∀ j, (s.pc bsp).Attends j → s.mpentryKstack = kstackEnd img j
  shared : Shared bsp s

/-! ### The steps -/

/-- What the actors do, one constructor for each function. -/
inductive Does (img : Image) (s : Mp n) (run : Bool) : Actor n → Mp n → Prop where
  | receive {c : Fin n} {ipi : Ipi} {l : List Ipi} (hipis : s.ipis c = ipi :: l) :
      Does img s run (.ipi c) (Jos.receive { s with ipis := Function.update s.ipis c l } c ipi)
  | mpentry {c : Fin n} {pc : Mpentry} (hpc : s.pc c = .mpentry pc) :
      Does img s run (.cpu c) (Jos.mpentry s c pc)
  | mpMain {c : Fin n} {pc : MpMain} (hpc : s.pc c = .mpMain pc) :
      Does img s run (.cpu c) (Jos.mpMain s c pc)
  | startap {c i : Fin n} {pc : StartAp} (hpc : s.pc c = .startap i pc) :
      Does img s run (.cpu c) (lapicStartap s c i pc)
  | bootAps {c : Fin n} {k : ℕ} (hpc : s.pc c = .smp (.bootAps k)) :
      Does img s run (.cpu c) (bootApsMp img s c k)
  | kernel {c : Fin n} {p : CpuPc n} {t : Mp n} (hpc : s.pc c = .smp p)
      (hloop : ∀ k, p ≠ .bootAps k) (hstep : s.kernel c run = some t) :
      Does img s run (.cpu c) t

theorem step_does {a : Actor n} {run : Bool} (hstep : s.step img (a, run) = some t) :
    Does img s run a t := by
  cases a with
  | ipi c =>
      simp only [Mp.step] at hstep
      cases hipis : s.ipis c with
      | nil => simp [hipis] at hstep
      | cons ipi l =>
          simp only [hipis, Option.some.injEq] at hstep
          exact hstep ▸ .receive hipis
  | cpu c =>
      simp only [Mp.step] at hstep
      cases hpc : s.pc c with
      | off | waitStartup => simp [hpc] at hstep
      | mpentry pc =>
          simp only [hpc, Option.some.injEq] at hstep
          exact hstep ▸ .mpentry hpc
      | mpMain pc =>
          simp only [hpc, Option.some.injEq] at hstep
          exact hstep ▸ .mpMain hpc
      | startap i pc =>
          simp only [hpc, Option.some.injEq] at hstep
          exact hstep ▸ .startap hpc
      | smp p =>
          cases p with
          | bootAps k =>
              simp only [hpc, Option.some.injEq] at hstep
              exact hstep ▸ .bootAps hpc
          | _ =>
              simp only [hpc] at hstep
              exact .kernel hpc (by simp) hstep

/-! ### Steps that the lock does not see -/

/-- A CPU that has been sent nothing is off. -/
theorem Ap.off_of_sent (h : Ap img bsp s j) (hnil : (s.pc bsp).sent j = []) : s.pc j = .off := by
  obtain ⟨⟨d, hd, htook, -⟩, -, -, -⟩ := h
  rw [hnil] at hd
  obtain rfl : d = 0 := Nat.le_zero.mp hd
  exact htook.zero

theorem Inv.ne_of_ipis (h : Inv img bsp s) (hc : s.ipis c ≠ []) : c ≠ bsp := by
  rintro rfl
  exact hc h.bootIpis

theorem Ap.frame (h : Ap img bsp s j) (hbsp : t.pc bsp = s.pc bsp) (hpc : t.pc j = s.pc j)
    (hipis : t.ipis j = s.ipis j) (hesp : t.esp j = s.esp j) (hesp0 : t.esp0 j = s.esp0 j) :
    Ap img bsp t j := by
  obtain ⟨h₁, h₂, h₃, h₄⟩ := h
  rw [← hbsp, ← hpc, ← hipis] at h₁
  rw [← hbsp, ← hpc] at h₂
  rw [← hpc, ← hesp] at h₃
  rw [← hpc, ← hesp0] at h₄
  exact ⟨h₁, h₂, h₃, h₄⟩

theorem mapped_eq (h : ∀ c, (t.pc c).Mapped ↔ (s.pc c).Mapped) : t.mapped = s.mapped := by
  simp only [mapped, h]

theorem mapped_succ (h : ∀ d, d ≠ c → ((t.pc d).Mapped ↔ (s.pc d).Mapped))
    (hs : ¬ (s.pc c).Mapped) (ht : (t.pc c).Mapped) : t.mapped = s.mapped + 1 := by
  have hset : (Finset.univ.filter fun d => (t.pc d).Mapped) =
      insert c (Finset.univ.filter fun d => (s.pc d).Mapped) := by
    ext d
    by_cases hd : d = c
    · simp [hd, ht]
    · simp [hd, h d hd]
  rw [mapped, hset, Finset.card_insert_of_notMem (by simpa using hs)]
  rfl

/-- Two places between which a CPU changes nothing that `mp_main` shares. -/
structure Alike (p q : MpPc n) : Prop where
  mapped : p.Mapped ↔ q.Mapped
  printed : p.Printed ↔ q.Printed
  setBase : ∀ va, p ≠ .mpMain (.setBase va)
  setLapic : ∀ va, p ≠ .mpMain (.setLapic va)

theorem Shared.frame (h : Shared bsp s) (hbase : t.base = s.base) (hlapic : t.lapic = s.lapic)
    (hconsole : t.console = s.console) (hpc : ∀ c, t.pc c = s.pc c ∨ Alike (t.pc c) (s.pc c)) :
    Shared bsp t := by
  have hmapped : t.mapped = s.mapped := mapped_eq fun c => by
    rcases hpc c with hc | hc
    · rw [hc]
    · exact hc.mapped
  refine ⟨?_, ?_, fun c va hc => ?_, fun c va hc => ?_, hconsole ▸ h.sorted, fun c => ?_⟩
  · rw [hbase, hmapped]
    exact h.base
  · rw [hlapic, hmapped]
    exact h.lapic
  · rw [hbase]
    rcases hpc c with hs | hs
    · exact h.setBase c va (hs ▸ hc)
    · exact absurd hc (hs.setBase va)
  · rw [hbase]
    rcases hpc c with hs | hs
    · exact h.setLapic c va (hs ▸ hc)
    · exact absurd hc (hs.setLapic va)
  · rw [hconsole, h.console]
    rcases hpc c with hs | hs
    · rw [hs]
    · rw [hs.printed]

theorem smp_eq (hlocked : t.locked = s.locked) (hcpu : t.cpu = s.cpu)
    (hstatus : t.status = s.status) (hheld : t.held = s.held)
    (hpc : ∀ c, t.cpuPc c = s.cpuPc c) : t.smp = s.smp := by
  simp only [smp, hlocked, hcpu, hstatus, hheld, funext hpc]

theorem cpuPc_congr (hpc : t.pc c = s.pc c) (hipis : t.ipis c = s.ipis c) :
    t.cpuPc c = s.cpuPc c := by
  simp only [cpuPc, hpc, hipis]

/-- What an interrupt does to a CPU that has taken `d` of them. -/
theorem receive_cases {d : ℕ} {ipi : Ipi} (htook : (s.pc c).Took d)
    (hipi : ipi = .init ∧ d = 0 ∨ ipi = .startup ∧ 1 ≤ d) :
    ∃ q, receive s c ipi = s.goto c q ∧ q.Took (d + 1) ∧
      (q = s.pc c ∧ s.pc c ≠ .off ∧ s.pc c ≠ .waitStartup ∨
        s.pc c = .off ∧ q = .waitStartup ∧ ipi = .init ∨
        s.pc c = .waitStartup ∧ q = .mpentry .start ∧ ipi = .startup) := by
  rcases hipi with ⟨rfl, rfl⟩ | ⟨rfl, hd⟩
  · exact ⟨.waitStartup, rfl, rfl, Or.inr (Or.inl ⟨htook.zero, rfl, rfl⟩)⟩
  · rcases Nat.eq_or_lt_of_le hd with rfl | hd
    · exact ⟨.mpentry .start, if_pos htook.one, Nat.le_refl 2,
        Or.inr (Or.inr ⟨htook.one, rfl, rfl⟩)⟩
    · obtain ⟨hmore, hwait, hoff⟩ := htook.more hd
      refine ⟨s.pc c, ?_, hmore, Or.inl ⟨rfl, hoff, hwait⟩⟩
      rw [receive, if_neg hwait, goto, Function.update_eq_self]

/-- An interrupt arrives. -/
theorem Inv.receive (h : Inv img bsp s) {ipi : Ipi} {l : List Ipi} (hipis : s.ipis c = ipi :: l) :
    Inv img bsp (receive { s with ipis := Function.update s.ipis c l } c ipi) ∧
      (receive { s with ipis := Function.update s.ipis c l } c ipi).smp = s.smp := by
  have hc : c ≠ bsp := h.ne_of_ipis (by simp [hipis])
  obtain ⟨⟨d, hd, htook, hdrop⟩, hplace, hesp, hesp0⟩ := h.ap c hc
  obtain ⟨hl, hlen, hipi⟩ := MpPc.drop_sent (hipis ▸ hdrop)
  obtain ⟨q, hreceive, hq, hcases⟩ := receive_cases (s := { s with
    ipis := Function.update s.ipis c l }) (c := c) htook hipi
  rw [hreceive]
  have hne (j : Fin n) (hj : j ≠ c) : Function.update s.pc c q j = s.pc j ∧
      Function.update s.ipis c l j = s.ipis j :=
    ⟨Function.update_of_ne hj .., Function.update_of_ne hj ..⟩
  have hbsp : Function.update s.pc c q bsp = s.pc bsp := (hne bsp hc.symm).1
  have hsmp : (({ s with ipis := Function.update s.ipis c l } : Mp n).goto c q).smp = s.smp := by
    refine smp_eq rfl rfl rfl rfl fun j => ?_
    by_cases hj : j = c
    · subst hj
      simp only [cpuPc, goto, Function.update_self]
      rcases hcases with ⟨hq, hoff, hwait⟩ | ⟨hoff, hq, rfl⟩ | ⟨hwait, hq, rfl⟩
      · rw [hq]
        cases hpc : s.pc j with
        | off => exact absurd hpc hoff
        | waitStartup => exact absurd hpc hwait
        | startap i pc => cases pc <;> rfl
        | _ => rfl
      · simp [hq, show s.pc j = .off from hoff, hipis]
      · simp [hq, show s.pc j = .waitStartup from hwait, hipis]
    · exact cpuPc_congr (hne j hj).1 (hne j hj).2
  have hattends (hcomes : (s.pc c).Comes) : (s.pc bsp).Attends c := by
    rcases hplace with ⟨-, hnil | hattends⟩ | ⟨p, hp, -⟩
    · rw [hnil] at hlen
      exact absurd hlen (Nat.not_succ_le_zero d)
    · exact hattends
    · rw [hp] at hcomes
      exact hcomes.elim
  refine ⟨⟨hsmp ▸ h.reach, ?_, ?_, fun j hj => ?_, ?_, ?_⟩, hsmp⟩
  · simp only [goto, hbsp]
    exact h.boot
  · simp only [goto, (hne bsp hc.symm).2]
    exact h.bootIpis
  · by_cases hjc : j = c
    · subst hjc
      refine ⟨⟨d + 1, ?_, ?_, ?_⟩, ?_, ?_, ?_⟩ <;> simp only [goto, hbsp, Function.update_self]
      · exact hlen
      · exact hq
      · exact hl
      · rcases hcases with ⟨rfl, -⟩ | ⟨hoff, rfl, -⟩ | ⟨hwait, rfl, -⟩
        · exact hplace
        · exact Or.inl ⟨trivial, Or.inr (hattends (by rw [show s.pc j = .off from hoff]; trivial))⟩
        · exact Or.inl ⟨trivial,
            Or.inr (hattends (by rw [show s.pc j = .waitStartup from hwait]; trivial))⟩
      · rcases hcases with ⟨rfl, -⟩ | ⟨-, rfl, -⟩ | ⟨-, rfl, -⟩
        · exact hesp
        · exact False.elim
        · exact False.elim
      · rcases hcases with ⟨rfl, -⟩ | ⟨-, rfl, -⟩ | ⟨-, rfl, -⟩
        · exact hesp0
        · exact False.elim
        · exact False.elim
    · exact (h.ap j hj).frame hbsp (hne j hjc).1 (hne j hjc).2 rfl rfl
  · simp only [goto, hbsp]
    exact h.kstack
  · refine h.shared.frame rfl rfl rfl fun j => ?_
    by_cases hjc : j = c
    · subst hjc
      simp only [goto, Function.update_self]
      rcases hcases with ⟨rfl, -⟩ | ⟨hoff, rfl, -⟩ | ⟨hwait, rfl, -⟩
      · exact Or.inl rfl
      · refine Or.inr ?_
        rw [show s.pc j = .off from hoff]
        exact ⟨Iff.rfl, Iff.rfl, by simp, by simp⟩
      · refine Or.inr ?_
        rw [show s.pc j = .waitStartup from hwait]
        exact ⟨Iff.rfl, Iff.rfl, by simp, by simp⟩
    · exact Or.inl (hne j hjc).1

/-! ### `mp_main` -/

/-- A CPU that has taken an interrupt is the one that the boot CPU attends to,
or it is up. -/
theorem Inv.attends (h : Inv img bsp s) (hc : (s.pc c).Comes) (hoff : s.pc c ≠ .off) :
    c ≠ bsp ∧ (s.pc bsp).Attends c := by
  have hne : c ≠ bsp := by
    rintro rfl
    rcases h.boot with ⟨i, pc, -, hpc⟩ | ⟨p, hpc⟩ <;> rw [hpc] at hc <;> exact hc
  rcases (h.ap c hne).place with ⟨-, hnil | hattends⟩ | ⟨p, hp, -⟩
  · exact absurd ((h.ap c hne).off_of_sent hnil) hoff
  · exact ⟨hne, hattends⟩
  · rw [hp] at hc
    exact hc.elim

theorem Inv.starting (h : Inv img bsp s) (hc : (s.pc c).Starting) :
    c ≠ bsp ∧ (s.pc bsp).Attends c :=
  h.attends hc.comes fun hoff => by rw [hoff] at hc; exact hc

/-- At most one CPU runs `mp_main` without the lock. -/
theorem Inv.starting_unique (h : Inv img bsp s) (hi : (s.pc i).Starting)
    (hj : (s.pc j).Starting) : i = j :=
  (h.starting hi).2.unique (h.starting hj).2

/-- CPU `c` goes on in kern/mpentry.S or `mp_main`, or calls `lock_kernel`. -/
theorem Inv.move (h : Inv img bsp s) (hstarting : (s.pc c).Starting)
    (hq : q.Starting ∨ q = .smp (.lock .mpMain .holdingLocked))
    (hpc : t.pc = Function.update s.pc c q) (hipis : t.ipis = s.ipis)
    (hkstack : t.mpentryKstack = s.mpentryKstack)
    (hesp : ∃ v, t.esp = Function.update s.esp c v ∧ (q.OnStack → v = kstackEnd img c))
    (hesp0 : ∃ v, t.esp0 = Function.update s.esp0 c v ∧
      (q.Traps → v = some (kstackVa c + kstksize)))
    (hshared : Shared bsp t) (hreach : Smp.Reach bsp t.smp) : Inv img bsp t := by
  obtain ⟨hc, hattends⟩ := h.starting hstarting
  obtain ⟨v, hesp, hv⟩ := hesp
  obtain ⟨w, hesp0, hw⟩ := hesp0
  have hbsp : t.pc bsp = s.pc bsp := by rw [hpc, Function.update_of_ne hc.symm]
  refine ⟨hreach, hbsp ▸ h.boot, hipis ▸ h.bootIpis, fun j hj => ?_, ?_, hshared⟩
  · by_cases hjc : j = c
    · subst hjc
      obtain ⟨⟨d, hd, htook, hdrop⟩, -, -, -⟩ := h.ap j hj
      have hpcj : t.pc j = q := by rw [hpc, Function.update_self]
      refine ⟨⟨d, hbsp ▸ hd, ?_, hbsp ▸ hipis ▸ hdrop⟩, ?_, ?_, ?_⟩ <;> rw [hpcj]
      · refine htook.mono hstarting ?_ ?_ <;> rintro rfl <;> rcases hq with hq | hq <;> first
          | exact hq
          | cases hq
      · rw [hbsp]
        rcases hq with hq | rfl
        · exact Or.inl ⟨hq.comes, Or.inr hattends⟩
        · exact Or.inr ⟨_, rfl, fun _ => ⟨.holdingLocked, by simp, rfl⟩⟩
      · rw [hesp, Function.update_self]
        exact hv
      · rw [hesp0, Function.update_self]
        exact hw
    · refine (h.ap j hj).frame hbsp ?_ (by rw [hipis]) ?_ ?_
      · rw [hpc, Function.update_of_ne hjc]
      · rw [hesp, Function.update_of_ne hjc]
      · rw [hesp0, Function.update_of_ne hjc]
  · rw [hbsp, hkstack]
    exact h.kstack

theorem Shared.goto (h : Shared bsp s) (hbase : t.base = s.base) (hlapic : t.lapic = s.lapic)
    (hconsole : t.console = s.console) (hpc : t.pc = Function.update s.pc c q)
    (hq : Alike q (s.pc c)) : Shared bsp t := by
  refine h.frame hbase hlapic hconsole fun j => ?_
  rw [hpc]
  by_cases hj : j = c
  · subst hj
    rw [Function.update_self]
    exact Or.inr hq
  · exact Or.inl (Function.update_of_ne hj ..)

theorem Inv.smp_starting (h : Inv img bsp s) (hlocked : t.locked = s.locked)
    (hcpu : t.cpu = s.cpu) (hstatus : t.status = s.status) (hheld : t.held = s.held)
    (hpc : t.pc = Function.update s.pc c q) (hipis : t.ipis = s.ipis)
    (hc : (s.pc c).Starting) (hq : q.Starting) : Smp.Reach bsp t.smp := by
  have hmain {u : Mp n} (hu : (u.pc c).Starting) : u.cpuPc c = .mpMain := by
    rw [cpuPc]
    cases hpc : u.pc c with
    | mpentry | mpMain => rfl
    | _ =>
        rw [hpc] at hu
        exact hu.elim
  rw [smp_eq hlocked hcpu hstatus hheld fun j => ?_]
  · exact h.reach
  · by_cases hj : j = c
    · subst hj
      rw [hmain hc, hmain (by rw [hpc, Function.update_self]; exact hq)]
    · exact cpuPc_congr (by rw [hpc, Function.update_of_ne hj]) (by rw [hipis])

theorem Inv.mpentry (h : Inv img bsp s) {pc : Mpentry} (hpc : s.pc c = .mpentry pc) :
    Inv img bsp (mpentry s c pc) := by
  have hc : (s.pc c).Starting := by rw [hpc]; trivial
  cases pc with
  | start =>
      refine h.move hc (Or.inl (by trivial)) rfl rfl rfl
        ⟨s.esp c, (Function.update_eq_self ..).symm, fun hq => hq.elim⟩
        ⟨s.esp0 c, (Function.update_eq_self ..).symm, fun hq => hq.elim⟩
        (h.shared.goto rfl rfl rfl rfl ?_) (h.smp_starting rfl rfl rfl rfl rfl rfl hc (by trivial))
      rw [hpc]
      exact ⟨Iff.rfl, Iff.rfl, by simp, by simp⟩
  | kstack =>
      refine h.move hc (Or.inl (by trivial)) rfl rfl rfl
        ⟨s.mpentryKstack, rfl, fun _ => h.kstack c (h.starting hc).2⟩
        ⟨s.esp0 c, (Function.update_eq_self ..).symm, fun hq => hq.elim⟩
        (h.shared.goto rfl rfl rfl rfl ?_) (h.smp_starting rfl rfl rfl rfl rfl rfl hc (by trivial))
      rw [hpc]
      exact ⟨Iff.rfl, Iff.rfl, by simp, by simp⟩

theorem mapped_le (s : Mp n) : s.mapped ≤ n := by
  have hle := Finset.card_filter_le Finset.univ fun c => (s.pc c).Mapped
  rwa [Finset.card_univ, Fintype.card_fin] at hle

theorem mapped_pos (hc : (s.pc c).Mapped) : 0 < s.mapped :=
  Finset.card_pos.mpr ⟨c, by simpa using hc⟩

/-- The MMIO region is large enough for a page for each CPU. -/
theorem mmio_room {k : ℕ} (hk : k ≤ ncpu) :
    ¬ mmiobase + BitVec.ofNat 32 k * pgsize + pgsize > mmiolim := by
  have hall : ∀ k ≤ ncpu, ¬ mmiobase + BitVec.ofNat 32 k * pgsize + pgsize > mmiolim := by
    decide
  exact hall k hk

theorem mmio_succ (k : ℕ) : mmiobase + BitVec.ofNat 32 k * pgsize + pgsize =
    mmiobase + BitVec.ofNat 32 (k + 1) * pgsize := by
  rw [BitVec.ofNat_add, BitVec.add_mul, BitVec.one_mul, BitVec.add_assoc]

/-- The line that CPU `c` prints comes after those of the CPUs before it. -/
theorem Inv.printed_lt (h : Inv img bsp s) (hattends : (s.pc bsp).Attends c)
    (hpc : ¬ (s.pc c).Printed) (hj : j ∈ s.console) : j < c := by
  obtain ⟨hne, hprinted⟩ := (h.shared.console j).mp hj
  have hsent : (s.pc bsp).sent j ≠ [] := by
    intro hnil
    rw [(h.ap j hne).off_of_sent hnil] at hprinted
    exact hprinted
  refine lt_of_le_of_ne (hattends.sent_le hsent) ?_
  rintro rfl
  exact hpc hprinted

theorem mapped_goto (hpc : t.pc = Function.update s.pc c q)
    (hq : q.Mapped ↔ (s.pc c).Mapped) : t.mapped = s.mapped := by
  refine mapped_eq fun j => ?_
  rw [hpc]
  by_cases hj : j = c
  · subst hj
    rw [Function.update_self, hq]
  · rw [Function.update_of_ne hj]

theorem mapped_goto_succ (hpc : t.pc = Function.update s.pc c q) (hs : ¬ (s.pc c).Mapped)
    (hq : q.Mapped) : t.mapped = s.mapped + 1 := by
  refine mapped_succ (c := c) (fun j hj => ?_) hs ?_
  · rw [hpc, Function.update_of_ne hj]
  · rw [hpc, Function.update_self]
    exact hq

/-- What CPU `c` does in `mp_main` to what is shared. The others are not there. -/
theorem Inv.shared_move (h : Inv img bsp s) (hc : (s.pc c).Starting)
    (hpc : t.pc = Function.update s.pc c q)
    (hbase : t.base = mmiobase + BitVec.ofNat 32 t.mapped * pgsize)
    (hlapic : ∃ k < t.mapped, t.lapic = mmiobase + BitVec.ofNat 32 k * pgsize)
    (hsetBase : ∀ va, q = .mpMain (.setBase va) → va = t.base)
    (hsetLapic : ∀ va, q = .mpMain (.setLapic va) → t.base = va + pgsize)
    (hsorted : t.console.Pairwise (· < ·))
    (hconsole : ∀ j, j ∈ t.console ↔ j ∈ s.console ∨ j = c ∧ q.Printed)
    (hprinted : (s.pc c).Printed → q.Printed) : Shared bsp t := by
  have hself : t.pc c = q := by rw [hpc, Function.update_self]
  have hothers (j : Fin n) (hj : j ≠ c) : t.pc j = s.pc j := by
    rw [hpc, Function.update_of_ne hj]
  have honly {j : Fin n} {pc : MpMain} (hj : t.pc j = .mpMain pc) : j = c := by
    by_contra hjc
    rw [hothers j hjc] at hj
    exact hjc (h.starting_unique (by rw [hj]; trivial) hc)
  refine ⟨hbase, hlapic, fun j va hj => ?_, fun j va hj => ?_, hsorted, fun j => ?_⟩
  · obtain rfl := honly hj
    exact hsetBase va (hself ▸ hj)
  · obtain rfl := honly hj
    exact hsetLapic va (hself ▸ hj)
  · rw [hconsole, h.shared.console]
    by_cases hj : j = c
    · subst hj
      rw [hself]
      have hne := (h.starting hc).1
      tauto
    · rw [hothers j hj]
      tauto

theorem cpuPc_goto (hpc : t.pc = Function.update s.pc c q)
    (hipis : ∀ j, j ≠ c → t.ipis j = s.ipis j) :
    t.cpuPc = Function.update s.cpuPc c (t.cpuPc c) := by
  funext j
  by_cases hj : j = c
  · subst hj
    rw [Function.update_self]
  · rw [Function.update_of_ne hj]
    exact cpuPc_congr (by rw [hpc, Function.update_of_ne hj]) (hipis j hj)

theorem Inv.console_same (h : Inv img bsp s) (hc : c ≠ bsp) (hpc : (s.pc c).Printed) (j : Fin n) :
    j ∈ s.console ↔ j ∈ s.console ∨ j = c ∧ q.Printed := by
  refine ⟨Or.inl, ?_⟩
  rintro (hj | ⟨rfl, -⟩)
  · exact hj
  · exact (h.shared.console j).mpr ⟨hc, hpc⟩

theorem Inv.mpMain (hn : n ≤ ncpu) (h : Inv img bsp s) {pc : MpMain} (hpc : s.pc c = .mpMain pc) :
    Inv img bsp (mpMain s c pc) := by
  have hc : (s.pc c).Starting := by rw [hpc]; trivial
  obtain ⟨hne, hattends⟩ := h.starting hc
  have hesp : s.esp c = kstackEnd img c := (h.ap c hne).esp (by rw [hpc]; trivial)
  have hmove {t : Mp n} {q : MpPc n} (hq : q.Starting) (hpc' : t.pc = Function.update s.pc c q)
      (hipis : t.ipis = s.ipis) (hkstack : t.mpentryKstack = s.mpentryKstack)
      (hesp' : t.esp = s.esp) (hesp0 : ∃ v, t.esp0 = Function.update s.esp0 c v ∧
        (q.Traps → v = some (kstackVa c + kstksize)))
      (hlocked : t.locked = s.locked) (hcpu : t.cpu = s.cpu) (hstatus : t.status = s.status)
      (hheld : t.held = s.held) (hshared : Shared bsp t) : Inv img bsp t :=
    h.move hc (Or.inl hq) hpc' hipis hkstack
      ⟨s.esp c, by rw [hesp', Function.update_eq_self], fun _ => hesp⟩ hesp0 hshared
      (h.smp_starting hlocked hcpu hstatus hheld hpc' hipis hc hq)
  cases pc with
  | cprintf =>
      have hprinted : ¬ (s.pc c).Printed := by rw [hpc]; exact id
      have hmapped : (Jos.mpMain s c .cprintf).mapped = s.mapped :=
        mapped_goto rfl (by rw [hpc]; exact Iff.rfl)
      refine hmove (q := .mpMain .mapRegion) trivial rfl rfl rfl rfl
        ⟨s.esp0 c, (Function.update_eq_self ..).symm, fun hq => hq.elim⟩ rfl rfl rfl rfl
        (h.shared_move hc rfl ?_ ?_ (by simp) (by simp) ?_ (fun j => ?_) fun _ => trivial)
      · rw [hmapped]
        exact h.shared.base
      · rw [hmapped]
        exact h.shared.lapic
      · refine List.pairwise_append.mpr ⟨h.shared.sorted, List.pairwise_singleton .., ?_⟩
        intro j hj k hk
        obtain rfl := List.mem_singleton.mp hk
        exact h.printed_lt hattends hprinted hj
      · have hp : (MpPc.mpMain MpMain.mapRegion : MpPc n).Printed := trivial
        simp [Jos.mpMain, hp]
  | mapRegion =>
      have hroom : ¬ s.base + pgsize > mmiolim := by
        rw [h.shared.base]
        exact mmio_room (Nat.le_trans s.mapped_le hn)
      rw [Jos.mpMain, if_neg hroom]
      have hmapped : (s.goto c (.mpMain (.setBase s.base))).mapped = s.mapped :=
        mapped_goto rfl (by rw [hpc]; exact Iff.rfl)
      refine hmove (q := .mpMain (.setBase s.base)) trivial rfl rfl rfl rfl
        ⟨s.esp0 c, (Function.update_eq_self ..).symm, fun hq => hq.elim⟩ rfl rfl rfl rfl
        (h.shared_move hc rfl ?_ ?_ ?_ (by simp) h.shared.sorted
          (h.console_same hne (by rw [hpc]; trivial)) fun _ => trivial)
      · rw [hmapped]
        exact h.shared.base
      · rw [hmapped]
        exact h.shared.lapic
      · intro va hva
        cases hva
        rfl
  | setBase va =>
      obtain rfl := h.shared.setBase c va hpc
      have hmapped : (Jos.mpMain s c (.setBase s.base)).mapped = s.mapped + 1 := by
        refine mapped_goto_succ (q := .mpMain (.setLapic s.base)) rfl ?_ trivial
        rw [hpc]
        exact id
      refine hmove (q := .mpMain (.setLapic s.base)) trivial rfl rfl rfl rfl
        ⟨s.esp0 c, (Function.update_eq_self ..).symm, fun hq => hq.elim⟩ rfl rfl rfl rfl
        (h.shared_move hc rfl ?_ ?_ (by simp) ?_ h.shared.sorted
          (h.console_same hne (by rw [hpc]; trivial)) fun _ => trivial)
      · rw [hmapped, ← mmio_succ, ← h.shared.base]
        rfl
      · rw [hmapped]
        obtain ⟨k, hk, hlapic⟩ := h.shared.lapic
        exact ⟨k, Nat.lt_succ_of_lt hk, hlapic⟩
      · intro va hva
        cases hva
        rfl
  | setLapic va =>
      have hmapped : (Jos.mpMain s c (.setLapic va)).mapped = s.mapped :=
        mapped_goto rfl (by rw [hpc]; exact Iff.rfl)
      refine hmove (q := .mpMain .tss) trivial rfl rfl rfl rfl
        ⟨s.esp0 c, (Function.update_eq_self ..).symm, fun hq => hq.elim⟩ rfl rfl rfl rfl
        (h.shared_move hc rfl ?_ ?_ (by simp) (by simp) h.shared.sorted
          (h.console_same hne (by rw [hpc]; trivial)) fun _ => trivial)
      · rw [hmapped]
        exact h.shared.base
      · -- the page of this CPU is the last one
        obtain ⟨k, hk⟩ : ∃ k, s.mapped = k + 1 :=
          ⟨s.mapped - 1, by have := mapped_pos (s := s) (c := c) (by rw [hpc]; trivial); omega⟩
        refine ⟨k, by omega, ?_⟩
        have hbase := h.shared.setLapic c va hpc
        rw [h.shared.base, hk, ← mmio_succ] at hbase
        exact (BitVec.add_left_inj _).mp hbase.symm
  | tss =>
      refine hmove (q := .mpMain .started) trivial rfl rfl rfl rfl ⟨_, rfl, fun _ => rfl⟩ rfl rfl
        rfl rfl (h.shared.goto rfl rfl rfl rfl ?_)
      rw [hpc]
      exact ⟨Iff.rfl, Iff.rfl, by simp, by simp⟩
  | started =>
      refine h.move hc (Or.inr rfl) rfl rfl rfl
        ⟨s.esp c, (Function.update_eq_self ..).symm, fun _ => hesp⟩
        ⟨s.esp0 c, (Function.update_eq_self ..).symm, fun _ =>
          (h.ap c hne).esp0 (by rw [hpc]; trivial)⟩
        (h.shared.goto rfl rfl rfl rfl ?_) ?_
      · rw [hpc]
        exact ⟨Iff.rfl, Iff.rfl, by simp, by simp⟩
      · have hcpu : s.cpuPc c = .mpMain := by rw [cpuPc, hpc]
        refine h.reach.tail ⟨(c, true), trivial, ?_⟩
        have hgoto : (Jos.mpMain s c .started).cpuPc =
            Function.update s.cpuPc c (.lock .mpMain .holdingLocked) := by
          rw [cpuPc_goto (t := Jos.mpMain s c .started) rfl fun _ _ => rfl]
          simp [cpuPc, Jos.mpMain, goto]
        simp only [Smp.step, smp, hcpu, hgoto]
        rfl

/-! ### The boot CPU -/

theorem alike_boot (hb : b.Boots bsp) (hq : q.Boots bsp) : Alike q b := by
  rcases hb with ⟨i, pc, -, rfl⟩ | ⟨p, rfl⟩ <;> rcases hq with ⟨i', pc', -, rfl⟩ | ⟨p', rfl⟩ <;>
    exact ⟨Iff.rfl, Iff.rfl, by simp, by simp⟩

/-- The boot CPU goes on, and may send interrupts on the way. -/
theorem Inv.bootMove (h : Inv img bsp s) (hq : q.Boots bsp)
    (hpc : t.pc = Function.update s.pc bsp q) (hesp : t.esp = s.esp) (hesp0 : t.esp0 = s.esp0)
    (hbase : t.base = s.base) (hlapic : t.lapic = s.lapic) (hconsole : t.console = s.console)
    (hbootIpis : t.ipis bsp = s.ipis bsp)
    (hsent : ∀ j, j ≠ bsp → ∃ l, q.sent j = (s.pc bsp).sent j ++ l ∧ t.ipis j = s.ipis j ++ l)
    (hattends : ∀ j, j ≠ bsp → (s.pc j).Comes → (s.pc bsp).sent j = [] ∨ (s.pc bsp).Attends j →
      q.sent j = [] ∨ q.Attends j)
    (hbooting : q.Booting → (s.pc bsp).Booting)
    (hkstack : ∀ j, q.Attends j → t.mpentryKstack = kstackEnd img j)
    (hreach : Smp.Reach bsp t.smp) : Inv img bsp t := by
  have hself : t.pc bsp = q := by rw [hpc, Function.update_self]
  refine ⟨hreach, hself ▸ hq, hbootIpis.trans h.bootIpis, fun j hj => ?_, ?_,
    h.shared.goto hbase hlapic hconsole hpc (alike_boot h.boot hq)⟩
  · have hpcj : t.pc j = s.pc j := by rw [hpc, Function.update_of_ne hj]
    obtain ⟨⟨d, hd, htook, hdrop⟩, hplace, hespj, hesp0j⟩ := h.ap j hj
    obtain ⟨l, hl, hipis⟩ := hsent j hj
    refine ⟨⟨d, ?_, hpcj ▸ htook, ?_⟩, ?_, ?_, ?_⟩
    · rw [hself, hl, List.length_append]
      exact Nat.le_add_right_of_le hd
    · rw [hself, hl, hipis, hdrop, List.drop_append_of_le_length hd]
    · rw [hself, hpcj]
      rcases hplace with ⟨hcomes, hplace⟩ | ⟨p, hp, hwaits⟩
      · exact Or.inl ⟨hcomes, hattends j hj hcomes hplace⟩
      · exact Or.inr ⟨p, hp, fun hb => hwaits (hbooting hb)⟩
    · rw [hpcj, hesp]
      exact hespj
    · rw [hpcj, hesp0]
      exact hesp0j
  · rw [hself]
    exact hkstack

theorem not_attends_bootAps {k : ℕ} (hj : (MpPc.smp (.bootAps k) : MpPc n).Attends j) : False := by
  rcases hj with ⟨pc, hpc⟩ | hpc <;> cases hpc

theorem Inv.reach_same (h : Inv img bsp s) (hlocked : t.locked = s.locked) (hcpu : t.cpu = s.cpu)
    (hstatus : t.status = s.status) (hheld : t.held = s.held)
    (hpc : ∀ j, t.cpuPc j = s.cpuPc j) : Smp.Reach bsp t.smp := by
  rw [smp_eq hlocked hcpu hstatus hheld hpc]
  exact h.reach

/-- The CPU in the loop of `boot_aps` is the boot CPU. -/
theorem Inv.eq_bsp (h : Inv img bsp s) {k : ℕ} (hc : (s.cpuPc c).started = some k) : c = bsp :=
  (h.reach.inv.boot c k hc).1

theorem smp_goto (hlocked : t.locked = s.locked) (hcpu : t.cpu = s.cpu)
    (hstatus : t.status = s.status) (hheld : t.held = s.held)
    (hpc : t.pc = Function.update s.pc c q) (hipis : ∀ j, j ≠ c → t.ipis j = s.ipis j) :
    t.smp = s.smp.goto c (t.cpuPc c) := by
  rw [smp, cpuPc_goto hpc hipis, Function.update_self, hlocked, hcpu, hstatus, hheld]
  rfl

theorem goto_self (s : Mp n) (c : Fin n) (p : MpPc n) : (s.goto c p).pc c = p :=
  Function.update_self ..

theorem cpuPc_smp {p : CpuPc n} (h : s.pc c = .smp p) : s.cpuPc c = p := by
  rw [cpuPc, h]

theorem smp_goto_smp (s : Mp n) (c : Fin n) (p : CpuPc n) :
    (s.goto c (.smp p)).smp = s.smp.goto c p := by
  have hgoto : (s.goto c (.smp p)).smp = s.smp.goto c ((s.goto c (.smp p)).cpuPc c) :=
    smp_goto (q := .smp p) rfl rfl rfl rfl rfl fun _ _ => rfl
  rw [hgoto, cpuPc_smp (goto_self s c _)]

theorem Inv.bootAps (h : Inv img bsp s) {k : ℕ} (hpc : s.pc c = .smp (.bootAps k)) :
    Inv img bsp (bootApsMp img s c k) := by
  have hcpu : s.cpuPc c = .bootAps k := by rw [cpuPc, hpc]
  obtain rfl := h.eq_bsp (c := c) (k := k) (by rw [hcpu]; rfl)
  have hstarted : (CpuPc.bootAps k : CpuPc n).started = some k := rfl
  rw [bootApsMp]
  split
  · rename_i hlt
    split
    · rename_i hk
      -- the boot CPU itself
      have hself (j : Fin n) (hj : j ≠ c) : (j : ℕ) < k + 1 ↔ (j : ℕ) < k := by
        have hne : (j : ℕ) ≠ k := fun hjk => hj (Fin.ext (hjk.trans (congrArg Fin.val hk)))
        omega
      have hsame (j : Fin n) (hj : j ≠ c) : (MpPc.smp (.bootAps (k + 1))).sent j =
          (s.pc c).sent j := by
        rw [hpc, MpPc.sent_smp rfl, MpPc.sent_smp hstarted]
        simp only [hself j hj]
      refine h.bootMove (Or.inr ⟨_, rfl⟩) rfl rfl rfl rfl rfl rfl rfl
        (fun j hj => ⟨[], by rw [hsame j hj, List.append_nil], (List.append_nil _).symm⟩)
        (fun j hj _ hplace => ?_) (fun _ => by rw [hpc]; rfl)
        (fun j hj => (not_attends_bootAps hj).elim) ?_
      · rw [hpc] at hplace
        exact Or.inl ((hsame j hj).trans
          (hpc ▸ hplace.resolve_right fun hj => not_attends_bootAps hj))
      · refine h.reach.tail ⟨(c, true), trivial, ?_⟩
        have hsmp : s.smp.pc c = .bootAps k := hcpu
        simp only [Smp.step, hsmp, Jos.bootAps, dif_pos hlt, if_pos hk, smp_goto_smp]
    · rename_i hk
      -- the stack of the next CPU
      have hsame (j : Fin n) : (MpPc.startap ⟨k, hlt⟩ .init).sent j = (s.pc c).sent j := by
        rw [hpc, MpPc.sent_startap, MpPc.sent_smp hstarted]
        by_cases hj : (j : ℕ) < k
        · rw [if_pos hj, if_pos (show j < ⟨k, hlt⟩ from hj)]
        · rw [if_neg hj, if_neg (show ¬ j < ⟨k, hlt⟩ from hj)]
          exact ite_self []
      refine h.bootMove (Or.inl ⟨_, _, hk, rfl⟩) rfl rfl rfl rfl rfl rfl rfl
        (fun j hj => ⟨[], by rw [hsame j, List.append_nil], (List.append_nil _).symm⟩)
        (fun j hj _ hplace => ?_) (fun _ => by rw [hpc]; rfl) (fun j hj => ?_) ?_
      · rw [hpc] at hplace
        exact Or.inl ((hsame j).trans
          (hpc ▸ hplace.resolve_right fun hj => not_attends_bootAps hj))
      · rcases hj with ⟨pc, hj⟩ | hj <;> cases hj
        rfl
      · refine h.reach_same rfl rfl rfl rfl fun j => ?_
        by_cases hj : j = c
        · subst hj
          rw [hcpu, cpuPc, goto_self]
        · exact cpuPc_congr (Function.update_of_ne hj ..) rfl
  · rename_i hge
    have hall (j : Fin n) : (MpPc.smp (.schedYield)).sent j = (s.pc c).sent j := by
      rw [hpc, MpPc.sent_smp hstarted, if_pos (by omega)]
      rfl
    refine h.bootMove (Or.inr ⟨_, rfl⟩) rfl rfl rfl rfl rfl rfl rfl
      (fun j hj => ⟨[], by rw [hall j, List.append_nil], (List.append_nil _).symm⟩)
      (fun j hj _ hplace => ?_) (fun hb => by cases hb) (fun j hj => ?_) ?_
    · rw [hpc] at hplace
      exact Or.inl ((hall j).trans
        (hpc ▸ hplace.resolve_right fun hj => not_attends_bootAps hj))
    · rcases hj with ⟨pc, hj⟩ | hj <;> cases hj
    · refine h.reach.tail ⟨(c, true), trivial, ?_⟩
      have hsmp : s.smp.pc c = .bootAps k := hcpu
      simp only [Smp.step, hsmp, Jos.bootAps, dif_neg hge, smp_goto_smp]

/-- A CPU that has not taken the first STARTUP. -/
theorem Inv.before_startup (h : Inv img bsp s) (hi : i ≠ bsp) {l : List Ipi}
    (hsent : (s.pc bsp).sent i = .init :: l) (hpc : s.pc i = .off ∨ s.pc i = .waitStartup) :
    l <:+ s.ipis i := by
  obtain ⟨⟨d, -, htook, hdrop⟩, -, -, -⟩ := h.ap i hi
  rw [hsent] at hdrop
  rcases hpc with hpc | hpc <;> rw [hpc] at htook
  · obtain rfl : d = 0 := htook
    exact ⟨[.init], hdrop.symm⟩
  · obtain rfl : d = 1 := htook
    exact ⟨[], hdrop.symm⟩

theorem Inv.before_took (h : Inv img bsp s) (hi : i ≠ bsp)
    (hsent : (s.pc bsp).sent i = [.init]) : s.pc i = .off ∨ s.pc i = .waitStartup := by
  obtain ⟨⟨d, hd, htook, -⟩, -, -, -⟩ := h.ap i hi
  rw [hsent] at hd
  rcases Nat.eq_zero_or_pos d with rfl | hpos
  · exact Or.inl htook.zero
  · obtain rfl : d = 1 := Nat.le_antisymm hd hpos
    exact Or.inr htook.one

theorem cpuPc_other (hpc : t.pc j = s.pc j)
    (hipis : s.pc j = .off ∨ s.pc j = .waitStartup →
      (.startup ∈ t.ipis j ↔ .startup ∈ s.ipis j)) : t.cpuPc j = s.cpuPc j := by
  simp only [cpuPc, hpc]
  cases hs : s.pc j with
  | off => simp only [hipis (Or.inl hs)]
  | waitStartup => simp only [hipis (Or.inr hs)]
  | startap i pc => cases pc <;> rfl
  | _ => rfl

/-- `lapic_startap` sends an interrupt. -/
theorem Inv.send (h : Inv img bsp s) {pc : StartAp} {ipi : Ipi}
    (hpc : s.pc bsp = .startap i pc) (hi : i ≠ bsp) (hq : q.Boots bsp) (hqi : q.Attends i)
    (hself : q.sent i = (s.pc bsp).sent i ++ [ipi])
    (hother : ∀ j, j ≠ i → q.sent j = (s.pc bsp).sent j)
    (hreach : Smp.Reach bsp ((s.send i ipi).goto bsp q).smp) :
    Inv img bsp ((s.send i ipi).goto bsp q) := by
  have hattends : (s.pc bsp).Attends i := Or.inl ⟨pc, hpc⟩
  refine h.bootMove hq rfl rfl rfl rfl rfl rfl (Function.update_of_ne hi.symm ..)
    (fun j hj => ?_) (fun j hj _ hplace => ?_) (fun _ => hattends.booting) (fun j hj => ?_) hreach
  · by_cases hji : j = i
    · subst hji
      exact ⟨[ipi], hself, Function.update_self ..⟩
    · refine ⟨[], by rw [hother j hji, List.append_nil], ?_⟩
      rw [List.append_nil]
      exact Function.update_of_ne hji ..
  · by_cases hji : j = i
    · exact Or.inr (hji ▸ hqi)
    · rw [hother j hji]
      exact Or.inl (hplace.resolve_right fun hj => hji (hj.unique hattends))
  · obtain rfl := hj.unique hqi
    exact h.kstack j hattends

theorem Inv.startap_bsp (h : Inv img bsp s) {pc : StartAp} (hpc : s.pc c = .startap i pc) :
    c = bsp ∧ i ≠ bsp := by
  have hc : c = bsp := by
    by_contra hc
    rcases (h.ap c hc).place with ⟨hcomes, -⟩ | ⟨p, hp, -⟩
    · rw [hpc] at hcomes
      exact hcomes
    · rw [hpc] at hp
      cases hp
  refine ⟨hc, ?_⟩
  subst hc
  rcases h.boot with ⟨i', pc', hi, hb⟩ | ⟨p, hb⟩ <;> rw [hpc] at hb <;> cases hb
  exact hi

theorem Inv.startap (h : Inv img bsp s) {pc : StartAp} (hpc : s.pc c = .startap i pc) :
    Inv img bsp (lapicStartap s c i pc) := by
  obtain ⟨rfl, hi⟩ := h.startap_bsp hpc
  have hother (q : MpPc n) (ipi : Ipi) (j : Fin n) (hj : j ≠ c) :
      ((s.send i ipi).goto c q).pc j = s.pc j := Function.update_of_ne hj ..
  have hipis (q : MpPc n) (ipi : Ipi) (j : Fin n) (hj : j ≠ i) :
      ((s.send i ipi).goto c q).ipis j = s.ipis j := Function.update_of_ne hj ..
  have hsent (q : MpPc n) (ipi : Ipi) :
      ((s.send i ipi).goto c q).ipis i = s.ipis i ++ [ipi] := Function.update_self ..
  cases pc with
  | init =>
      refine h.send hpc hi (Or.inl ⟨i, _, hi, rfl⟩) (Or.inl ⟨_, rfl⟩) ?_ (fun j hj => ?_) ?_
      · rw [hpc, MpPc.sent_startap_self, MpPc.sent_startap_self]
        rfl
      · rw [hpc, MpPc.sent_startap_other hj, MpPc.sent_startap_other hj]
      · refine h.reach_same rfl rfl rfl rfl fun j => ?_
        by_cases hj : j = c
        · subst hj
          rw [cpuPc, goto_self, cpuPc, hpc]
        · refine cpuPc_other (hother _ _ j hj) fun _ => ?_
          by_cases hji : j = i
          · subst hji
            rw [hsent]
            simp
          · rw [hipis _ _ j hji]
  | startup =>
      have hcpu : s.cpuPc c = .bootAps i := by rw [cpuPc, hpc]
      refine h.send hpc hi (Or.inl ⟨i, _, hi, rfl⟩) (Or.inl ⟨_, rfl⟩) ?_ (fun j hj => ?_) ?_
      · rw [hpc, MpPc.sent_startap_self, MpPc.sent_startap_self]
        rfl
      · rw [hpc, MpPc.sent_startap_other hj, MpPc.sent_startap_other hj]
      · refine h.reach.tail ⟨(c, true), trivial, ?_⟩
        have hsmp : s.smp.pc c = .bootAps i := hcpu
        have hi' : ¬ (⟨i, i.isLt⟩ : Fin n) = c := hi
        have hpcs : ((s.send i .startup).goto c (.startap i .startupAgain)).cpuPc =
            Function.update (Function.update s.cpuPc i .mpMain) c (.waitAp i) := by
          funext j
          by_cases hj : j = c
          · subst hj
            rw [Function.update_self, cpuPc, goto_self]
          rw [Function.update_of_ne hj]
          by_cases hji : j = i
          · subst hji
            rw [Function.update_self, cpuPc, hother _ _ j hj, hsent]
            rcases h.before_took hj (by rw [hpc, MpPc.sent_startap_self]) with hoff | hwait
            · simp [hoff]
            · simp [hwait]
          · rw [Function.update_of_ne hji]
            exact cpuPc_congr (hother _ _ j hj) (hipis _ _ j hji)
        have hgoto : ((s.send i .startup).goto c (.startap i .startupAgain)).smp =
            (s.smp.goto i .mpMain).goto c (.waitAp i) := by
          rw [smp, hpcs]
          rfl
        simp only [Smp.step, hsmp, Jos.bootAps, dif_pos i.isLt, if_neg hi', hgoto]
  | startupAgain =>
      refine h.send hpc hi (Or.inr ⟨_, rfl⟩) (Or.inr rfl) ?_ (fun j hj => ?_) ?_
      · rw [hpc, MpPc.sent_waitAp_self, MpPc.sent_startap_self]
        rfl
      · rw [hpc, MpPc.sent_startap_other hj, MpPc.sent_waitAp_other hj]
      · refine h.reach_same rfl rfl rfl rfl fun j => ?_
        by_cases hj : j = c
        · subst hj
          rw [cpuPc, goto_self, cpuPc, hpc]
        · refine cpuPc_other (hother _ _ j hj) fun hcomes => ?_
          by_cases hji : j = i
          · subst hji
            -- the first STARTUP is still on its way
            have hsuffix := h.before_startup hj (by rw [hpc, MpPc.sent_startap_self]) hcomes
            have hmem : Ipi.startup ∈ s.ipis j := hsuffix.subset (by simp)
            rw [hsent]
            simp [hmem]
          · rw [hipis _ _ j hji]

/-! ### CPUs that are up -/

/-- While the boot CPU starts the others, it has the lock. -/
theorem Inv.boot_holds (h : Inv img bsp s) (hj : j ≠ bsp) {p : CpuPc n} (hpc : s.pc j = .smp p)
    (hbooting : (s.pc bsp).Booting) : s.locked = true := by
  refine h.reach.inv.locked_of_holds (c := bsp) ?_
  have hsent : (s.pc bsp).sent j ≠ [] := by
    intro hnil
    have hoff := (h.ap j hj).off_of_sent hnil
    rw [hpc] at hoff
    cases hoff
  have hholds : (s.cpuPc bsp).Holds := by
    rcases h.boot with ⟨i, pc, -, hb⟩ | ⟨q, hb⟩
    · rw [cpuPc, hb]
      cases pc <;> trivial
    · rw [hb] at hsent hbooting
      rw [cpuPc_smp hb]
      cases q with
      | bootAps | waitAp => trivial
      | i386Init => exact absurd rfl hsent
      | lock call pc =>
          cases call with
          | i386Init => exact absurd rfl hsent
          | _ => cases hbooting
      | _ => cases hbooting
  exact hholds

/-- A CPU that waits for the boot CPU to give the lock back goes on waiting. -/
theorem waits_step {s t : Smp n} {run : Bool} {p : CpuPc n} (hpc : s.pc c = p) (hp : p.Waits)
    (hlocked : s.locked = true) (hstep : s.step (c, run) = some t) (hpanic : t.pc c ≠ .panic) :
    (t.pc c).Waits := by
  obtain ⟨pc, hne, rfl⟩ := hp
  simp only [Smp.step, hpc, Option.some.injEq] at hstep
  subst hstep
  cases pc with
  | holdingLocked => exact ⟨.holdingCpu, by simp, by simp [Jos.spinLock, Smp.goto, hlocked]⟩
  | holdingCpu =>
      simp only [Jos.spinLock, Smp.goto, Function.update_self] at hpanic ⊢
      split
      · rename_i hcpu
        exact absurd (if_pos hcpu) hpanic
      · exact ⟨.xchg, by simp, rfl⟩
  | xchg => exact ⟨.xchg, by simp, by simp [Jos.spinLock, Smp.goto, hlocked]⟩
  | record => exact absurd rfl hne

/-- The status of a CPU that is yet to reach `lock_kernel`. -/
theorem Inv.comes_status (h : Inv img bsp s) (hj : (s.pc j).Comes) : s.status j ≠ .started := by
  have hcpu : s.cpuPc j = .off ∨ s.cpuPc j = .mpMain := by
    rw [cpuPc]
    cases hpc : s.pc j with
    | off | waitStartup =>
        by_cases hmem : Ipi.startup ∈ s.ipis j
        · exact Or.inr (by simp [hmem])
        · exact Or.inl (by simp [hmem])
    | mpentry | mpMain => exact Or.inr rfl
    | _ =>
        rw [hpc] at hj
        exact hj.elim
  have hstatus : s.status j = (s.cpuPc j).status := h.reach.inv.status j
  rw [hstatus]
  rcases hcpu with hcpu | hcpu <;> rw [hcpu] <;> simp [CpuPc.status]

theorem kernel_eq {run : Bool} (hstep : s.kernel c run = some t) :
    ∃ u, s.smp.step (c, run) = some u ∧ t = { s.goto c (.smp (u.pc c)) with
      locked := u.locked, cpu := u.cpu, status := u.status, held := u.held } := by
  simp only [kernel, Option.bind_eq_bind, Option.bind_eq_some_iff, Option.some.injEq] at hstep
  obtain ⟨u, hu, rfl⟩ := hstep
  exact ⟨u, hu, rfl⟩

/-- A step of kern/spinlock.c and what is around it. -/
theorem Inv.kernel (h : Inv img bsp s) {run : Bool} {p : CpuPc n} (hpc : s.pc c = .smp p)
    (hloop : ∀ k, p ≠ .bootAps k) (hstep : s.kernel c run = some t) : Inv img bsp t := by
  obtain ⟨u, hu, rfl⟩ := kernel_eq hstep
  have hcpu : s.smp.pc c = p := cpuPc_smp hpc
  have hmoves := Smp.step_moves hu fun k hk => hloop k (hcpu ▸ hk)
  have hreach : Smp.Reach bsp u := h.reach.tail ⟨(c, run), trivial, hu⟩
  have hpanic : u.pc c ≠ .panic := by
    intro hp
    have hright := hreach.inv.right c
    rw [hp] at hright
    exact hright trivial
  have hstarted : (u.pc c).started = p.started := by
    rw [hmoves.started.resolve_right hpanic, hcpu]
  have hsmp : ({ s.goto c (.smp (u.pc c)) with
      locked := u.locked, cpu := u.cpu, status := u.status, held := u.held } : Mp n).smp = u := by
    have hpcs : ({ s.goto c (.smp (u.pc c)) with
        locked := u.locked, cpu := u.cpu, status := u.status, held := u.held } : Mp n).cpuPc =
        u.pc := by
      funext j
      by_cases hj : j = c
      · subst hj
        exact cpuPc_smp (goto_self s j _)
      · rw [hmoves.others j hj]
        exact cpuPc_congr (Function.update_of_ne hj ..) rfl
    rw [smp, hpcs]
  by_cases hc : c = bsp
  · subst hc
    have hsent (j : Fin n) : (MpPc.smp (u.pc c)).sent j = (s.pc c).sent j := by
      rw [hpc]
      exact MpPc.sent_started hstarted j
    have hwait {j : Fin n} (hj : (MpPc.smp (u.pc c)).Attends j) : (s.pc c).Attends j := by
      rcases hj with ⟨pc, hj⟩ | hj
      · cases hj
      · refine Or.inr ?_
        rw [hpc, ← hcpu, hmoves.waitAp j (MpPc.smp.inj hj)]
    refine h.bootMove (Or.inr ⟨_, rfl⟩) rfl rfl rfl rfl rfl rfl rfl
      (fun j hj => ⟨[], by rw [hsent j, List.append_nil], (List.append_nil _).symm⟩)
      (fun j hj hcomes hplace => ?_) (fun hb => ?_) (fun j hj => h.kstack j (hwait hj))
      (hsmp.symm ▸ hreach)
    · rw [hsent]
      refine hplace.imp_right fun hattends => Or.inr (congrArg MpPc.smp ?_)
      obtain rfl : p = .waitAp j := by
        rcases hattends with ⟨pc, hb⟩ | hb <;> rw [hpc] at hb <;> cases hb
        rfl
      have hstatus : s.smp.status j ≠ .started := h.comes_status hcomes
      simp only [Smp.step, hcpu, if_neg hstatus, Option.some.injEq] at hu
      rw [← hu]
      exact Function.update_self ..
    · have hb' : (u.pc c).started.isSome := hb
      rw [hstarted] at hb'
      rw [hpc]
      exact hb'
  · have hother (j : Fin n) (hj : j ≠ c) : (s.goto c (.smp (u.pc c))).pc j = s.pc j :=
      Function.update_of_ne hj ..
    have hbsp := hother bsp (Ne.symm hc)
    have hself := goto_self s c (.smp (u.pc c))
    refine ⟨hsmp.symm ▸ hreach, hbsp.symm ▸ h.boot, h.bootIpis, fun j hj => ?_, ?_,
      h.shared.goto rfl rfl rfl rfl ?_⟩
    · by_cases hjc : j = c
      · subst hjc
        obtain ⟨⟨d, hd, htook, hdrop⟩, hplace, hesp, hesp0⟩ := h.ap j hj
        rw [hpc] at htook hplace hesp hesp0
        refine ⟨⟨d, hbsp.symm ▸ hd, hself.symm ▸ htook, hbsp.symm ▸ hdrop⟩,
          Or.inr ⟨_, hself, fun hb => ?_⟩, fun _ => hesp trivial, fun _ => hesp0 trivial⟩
        rcases hplace with ⟨hcomes, -⟩ | ⟨p', hp, hwaits⟩
        · exact hcomes.elim
        · cases hp
          have hbooting : (s.pc bsp).Booting := hbsp ▸ hb
          exact waits_step hcpu (hwaits hbooting) (h.boot_holds hj hpc hbooting) hu hpanic
      · exact (h.ap j hj).frame hbsp (hother j hjc) rfl rfl rfl
    · rw [show ({ s.goto c (.smp (u.pc c)) with
        locked := u.locked, cpu := u.cpu, status := u.status, held := u.held } : Mp n).pc bsp =
        s.pc bsp from hbsp]
      exact h.kstack
    · rw [hpc]
      have hp : (MpPc.smp p).Boots bsp := Or.inr ⟨p, rfl⟩
      exact alike_boot hp (Or.inr ⟨_, rfl⟩)

theorem Inv.step (hn : n ≤ ncpu) (h : Inv img bsp s) {a : Actor n × Bool}
    (hstep : s.step img a = some t) : Inv img bsp t := by
  obtain ⟨actor, run⟩ := a
  cases step_does hstep with
  | receive hipis => exact (h.receive hipis).1
  | mpentry hpc => exact h.mpentry hpc
  | mpMain hpc => exact h.mpMain hn hpc
  | startap hpc => exact h.startap hpc
  | bootAps hpc => exact h.bootAps hpc
  | kernel hpc hloop hkernel => exact h.kernel hpc hloop hkernel

theorem inv_init (img : Image) (bsp : Fin n) : Inv img bsp (init bsp) := by
  have hboot : (init bsp).pc bsp = .smp .i386Init := if_pos rfl
  have hother {j : Fin n} (hj : j ≠ bsp) : (init bsp).pc j = .off := if_neg hj
  have hsmp : (init bsp).smp = Smp.init bsp := by
    have hpcs : (init bsp).cpuPc = (Smp.init bsp).pc := by
      funext j
      by_cases hj : j = bsp
      · subst hj
        rw [cpuPc_smp hboot]
        exact (if_pos rfl).symm
      · rw [cpuPc, hother hj]
        exact (if_neg hj).symm
    rw [smp, hpcs]
    rfl
  refine ⟨?_, Or.inr ⟨_, hboot⟩, rfl, fun j hj => ⟨⟨0, Nat.zero_le _, ?_, ?_⟩, ?_, ?_, ?_⟩,
    fun j hj => ?_, ?_⟩
  · rw [hsmp]
    exact .refl
  · rw [hother hj]
    rfl
  · rw [hboot, MpPc.sent_smp rfl]
    rfl
  · rw [hother hj, hboot]
    exact Or.inl ⟨trivial, Or.inl rfl⟩
  · rw [hother hj]
    exact False.elim
  · rw [hother hj]
    exact False.elim
  · rw [hboot] at hj
    rcases hj with ⟨pc, hj⟩ | hj <;> cases hj
  · have hmapped : (init bsp).mapped = 1 := by
      have hset : (Finset.univ.filter fun c => ((init bsp).pc c).Mapped) = {bsp} := by
        ext j
        rw [Finset.mem_filter, Finset.mem_singleton]
        by_cases hj : j = bsp
        · exact iff_of_true ⟨Finset.mem_univ j, by rw [hj, hboot]; trivial⟩ hj
        · refine iff_of_false (fun hmem => ?_) hj
          rw [hother hj] at hmem
          exact hmem.2
      rw [mapped, hset, Finset.card_singleton]
    have hplace (j : Fin n) (pc : MpMain) : (init bsp).pc j ≠ .mpMain pc := by
      by_cases hj : j = bsp
      · rw [hj, hboot]
        simp
      · rw [hother hj]
        simp
    refine ⟨?_, ⟨0, by omega, ?_⟩, fun j va hj => absurd hj (hplace j _),
      fun j va hj => absurd hj (hplace j _), List.Pairwise.nil, fun j => ?_⟩
    · rw [hmapped]
      rfl
    · rfl
    · by_cases hj : j = bsp
      · simp [init, hj]
      · rw [hother hj]
        simp [init, MpPc.Printed]

theorem Reach.inv (hn : n ≤ ncpu) (h : Reach img bsp s) : Inv img bsp s :=
  Run.invariant (fun hinv _ hstep => hinv.step hn hstep) h (inv_init img bsp)

end Mp

end Jos
