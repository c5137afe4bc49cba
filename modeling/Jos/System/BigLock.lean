import Jos.Kern.Spinlock

/-!
The discipline of the big kernel lock. The lock and its owner field are two
tokens: who has them can be read from where the CPUs are, and the owner field
is set after the one has been taken and cleared before it is given back. The
`cpu_status` tells a CPU that was halted from one that ran user code.
-/

namespace Jos

open Jos.Lib

namespace CpuPc

variable {n : ℕ}

/-- Between the `xchg` that takes the lock and the one that gives it back. -/
def Holds : CpuPc n → Prop
  | .lock _ .record | .bootAps _ | .waitAp _ | .trapMode false | .dispatch | .schedYield
  | .schedHalt | .unlock _ _ => True
  | _ => False

/-- The part of it in which `kernel_lock.cpu` names the CPU. -/
def Owns : CpuPc n → Prop
  | .lock _ _ | .unlock _ .xchg => False
  | p => p.Holds

/-- After `lock_kernel` has returned and until the lock is given back. -/
def Held : CpuPc n → Bool
  | .bootAps _ | .waitAp _ | .trapMode false | .dispatch | .schedYield | .schedHalt
  | .unlock _ _ => true
  | _ => false

/-- The `cpu_status` of a CPU there. -/
def status : CpuPc n → CpuStatus
  | .off | .mpMain => .unused
  | .unlock .schedHalt _ | .halted | .trap false => .halted
  | _ => .started

/-- What no run reaches: a panic of the lock, and a user program that was
interrupted on a halted CPU. -/
def Wrong : CpuPc n → Prop
  | .panic => True
  | .lock call _ => call = .trapHalted true
  | _ => False

/-- How many CPUs the boot CPU has started. -/
def started : CpuPc n → Option ℕ
  | .i386Init | .lock .i386Init _ => some 0
  | .bootAps i => some i
  | .waitAp i => some (i + 1)
  | _ => none

/-- Two points between which the lock does not matter. -/
structure Same (p q : CpuPc n) : Prop where
  holds : p.Holds ↔ q.Holds
  owns : p.Owns ↔ q.Owns
  held : p.Held = q.Held

theorem Owns.holds {p : CpuPc n} (h : p.Owns) : p.Holds := by
  cases p with
  | lock | off | i386Init | mpMain | user | halted | trap | panic => exact h.elim
  | unlock call pc => trivial
  | trapMode user =>
      cases user with
      | false => trivial
      | true => exact h.elim
  | _ => trivial

end CpuPc

namespace Smp

variable {n : ℕ} {bsp c d : Fin n} {s t : Smp n} {p q : CpuPc n}

/-- What holds in every state. -/
structure Inv (bsp : Fin n) (s : Smp n) : Prop where
  locked : ∃ who, Token CpuPc.Holds s.pc who ∧ s.locked = who.isSome
  cpu : Token CpuPc.Owns s.pc s.cpu
  held : ∀ c, s.held c = (s.pc c).Held
  status : ∀ c, s.status c = (s.pc c).status
  right : ∀ c, ¬ (s.pc c).Wrong
  boot : ∀ c i, (s.pc c).started = some i → c = bsp ∧ ∀ j : Fin n, i ≤ j → j ≠ bsp → s.pc j = .off

/-- A CPU that the boot CPU has yet to start does not move. -/
def Started (s : Smp n) (c : Fin n) : Prop := ∀ d k, (s.pc d).started = some k →
  k ≤ (c : ℕ) → s.pc c ≠ .off

theorem started_of_ne (h : s.pc c ≠ .off) : s.Started c := fun _ _ _ _ => h

theorem Inv.boot_goto (h : Inv bsp s) (hoff : s.Started c)
    (hp : ∀ i, p.started = some i → ∃ j ≤ i, (s.pc c).started = some j) (d : Fin n) (i : ℕ)
    (hd : (Function.update s.pc c p d).started = some i) :
    d = bsp ∧ ∀ j : Fin n, i ≤ j → j ≠ bsp → Function.update s.pc c p j = .off := by
  have hold (k : ℕ) (hk : k ≤ i) (hdk : (s.pc d).started = some k) :
      d = bsp ∧ ∀ j : Fin n, i ≤ j → j ≠ bsp → Function.update s.pc c p j = .off := by
    obtain ⟨hbsp, hrest⟩ := h.boot d k hdk
    refine ⟨hbsp, fun j hij hj => ?_⟩
    have hjoff := hrest j (Nat.le_trans hk hij) hj
    have hjc : j ≠ c := by
      rintro rfl
      exact hoff d k hdk (Nat.le_trans hk hij) hjoff
    rw [Function.update_of_ne hjc, hjoff]
  by_cases hdc : d = c
  · subst hdc
    rw [Function.update_self] at hd
    obtain ⟨k, hk, hdk⟩ := hp i hd
    exact hold k hk hdk
  · rw [Function.update_of_ne hdc] at hd
    exact hold i (Nat.le_refl i) hd

/-- CPU `c` goes on at `p`, where the lock and its owner are as `p` says. -/
theorem Inv.move (h : Inv bsp s) (hoff : s.Started c) (hright : ¬ p.Wrong)
    (hboot : ∀ i, p.started = some i → ∃ j ≤ i, (s.pc c).started = some j)
    (hpc : t.pc = Function.update s.pc c p)
    (hlocked : ∃ who, Token CpuPc.Holds (Function.update s.pc c p) who ∧ t.locked = who.isSome)
    (hcpu : Token CpuPc.Owns (Function.update s.pc c p) t.cpu)
    (hheld : t.held = Function.update s.held c p.Held)
    (hstatus : t.status = Function.update s.status c p.status) : Inv bsp t := by
  have hpc' (d : Fin n) : t.pc d = if d = c then p else s.pc d := by
    rw [hpc, Function.update_apply]
  refine ⟨hpc ▸ hlocked, hpc ▸ hcpu, fun d => ?_, fun d => ?_, fun d => ?_,
    hpc ▸ h.boot_goto hoff hboot⟩
  · rw [hheld, hpc', Function.update_apply]
    split
    · rfl
    · exact h.held d
  · rw [hstatus, hpc', Function.update_apply]
    split
    · rfl
    · exact h.status d
  · rw [hpc']
    split
    · exact hright
    · exact h.right d

theorem Inv.held_same (h : Inv bsp s) (hp : p.Held = (s.pc c).Held) :
    s.held = Function.update s.held c p.Held := by
  rw [hp, ← h.held c, Function.update_eq_self]

theorem Inv.status_same (h : Inv bsp s) (hp : p.status = (s.pc c).status) :
    s.status = Function.update s.status c p.status := by
  rw [hp, ← h.status c, Function.update_eq_self]

/-- A step that has nothing to do with the lock. -/
theorem Inv.goto (h : Inv bsp s) (hpc : s.pc c = q) (hoff : s.Started c) (hright : ¬ p.Wrong)
    (hboot : ∀ i, p.started = some i → ∃ j ≤ i, q.started = some j) (hsame : p.Same q)
    (hstatus : p.status = q.status) : Inv bsp (s.goto c p) := by
  subst hpc
  obtain ⟨who, hwho, hlocked⟩ := h.locked
  exact h.move hoff hright hboot rfl ⟨who, hwho.keep hsame.holds, hlocked⟩ (h.cpu.keep hsame.owns)
    (h.held_same hsame.held) (h.status_same hstatus)

/-- One that sets the `cpu_status`. -/
theorem Inv.setStatus {st : CpuStatus} (h : Inv bsp s) (hpc : s.pc c = q) (hoff : s.Started c)
    (hright : ¬ p.Wrong) (hboot : ∀ i, p.started = some i → ∃ j ≤ i, q.started = some j)
    (hsame : p.Same q) (hstatus : p.status = st) : Inv bsp ((s.setStatus c st).goto c p) := by
  subst hpc
  obtain ⟨who, hwho, hlocked⟩ := h.locked
  exact h.move hoff hright hboot rfl ⟨who, hwho.keep hsame.holds, hlocked⟩ (h.cpu.keep hsame.owns)
    (h.held_same hsame.held) (by rw [hstatus]; rfl)

theorem Inv.locked_of_holds (h : Inv bsp s) (hc : (s.pc c).Holds) : s.locked = true := by
  obtain ⟨who, hwho, hlocked⟩ := h.locked
  rw [hlocked, (hwho c).mp hc]
  rfl

theorem Inv.unique (h : Inv bsp s) (hc : (s.pc c).Holds) (hd : (s.pc d).Holds) : c = d := by
  obtain ⟨who, hwho, -⟩ := h.locked
  exact hwho.unique hc hd

/-! ### The lock -/

theorem started_lock (call : LockCall) (pc pc' : SpinLock) :
    (CpuPc.lock call pc : CpuPc n).started = (CpuPc.lock call pc' : CpuPc n).started := by
  cases call <;> rfl

/-- A CPU that waits for the lock does not have it, in whatever part of
`spin_lock` it is before the `xchg` succeeds. -/
theorem Inv.waiting (h : Inv bsp s) {call : LockCall} {pc pc' : SpinLock}
    (hpc : s.pc c = .lock call pc) (hne : pc ≠ .record) (hne' : pc' ≠ .record) :
    Inv bsp (s.goto c (.lock call pc')) := by
  have hright := h.right c
  rw [hpc] at hright
  have hholds {pc : SpinLock} (hpc : pc ≠ .record) : ¬ (CpuPc.lock call pc : CpuPc n).Holds := by
    cases pc with
    | record => contradiction
    | _ => exact id
  exact h.goto hpc (started_of_ne (by simp [hpc])) hright
    (fun i hi => ⟨i, Nat.le_refl i, (started_lock call pc pc').trans hi⟩)
    ⟨iff_of_false (hholds hne') (hholds hne), Iff.rfl, rfl⟩ rfl

theorem Inv.spinLock (h : Inv bsp s) {call : LockCall} {pc : SpinLock}
    (hpc : s.pc c = .lock call pc) : Inv bsp (spinLock s c call pc) := by
  have hoff : s.Started c := started_of_ne (by simp [hpc])
  have hright := h.right c
  have hstarted (pc' : SpinLock) (i : ℕ)
      (hi : (CpuPc.lock call pc' : CpuPc n).started = some i) :
      ∃ j ≤ i, (s.pc c).started = some j := by
    rw [hpc]
    exact ⟨i, Nat.le_refl i, (started_lock call pc pc').trans hi⟩
  cases pc with
  | holdingLocked =>
      simp only [Jos.spinLock]
      split
      · exact h.waiting hpc (by simp) (by simp)
      · exact h.waiting hpc (by simp) (by simp)
  | holdingCpu =>
      have howner : s.cpu ≠ some c := by
        intro hc
        have howns := (h.cpu c).mpr hc
        rw [hpc] at howns
        exact howns
      simp only [Jos.spinLock, if_neg howner]
      exact h.waiting hpc (by simp) (by simp)
  | xchg =>
      obtain ⟨who, hwho, hlocked⟩ := h.locked
      cases hfree : s.locked with
      | true =>
          have hspin : Jos.spinLock s c call .xchg = s.goto c (.lock call .xchg) := by
            simp [Jos.spinLock, Smp.goto, hfree]
          rw [hspin]
          exact h.waiting hpc (by simp) (by simp)
      | false =>
          obtain rfl : who = none := by
            rw [hfree] at hlocked
            exact Option.not_isSome_iff_eq_none.mp (by simp [← hlocked])
          have htake : Jos.spinLock s c call .xchg =
              { s.goto c (.lock call .record) with locked := true } := by
            simp [Jos.spinLock, hfree]
          rw [htake]
          refine h.move hoff ?_ (hstarted .record) rfl ⟨some c, hwho.take trivial, rfl⟩
            (h.cpu.keep ?_) (h.held_same ?_) (h.status_same ?_)
          · rw [hpc] at hright
            exact hright
          · rw [hpc]
            exact Iff.rfl
          · rw [hpc]
            rfl
          · rw [hpc]
            rfl
  | record =>
      -- nobody is recorded: only the holder of the lock could be
      have hnone : s.cpu = none := by
        refine h.cpu.none_of_forall fun d howns => ?_
        have hholds : (s.pc c).Holds := by
          rw [hpc]
          trivial
        rw [h.unique howns.holds hholds, hpc] at howns
        exact howns
      obtain ⟨who, hwho, hlocked⟩ := h.locked
      have hcpu := h.cpu
      rw [hnone] at hcpu
      rw [hpc] at hright
      have hnext : ¬ (call.next : CpuPc n).Wrong ∧ (call.next : CpuPc n).Holds ∧
          (call.next : CpuPc n).Owns ∧ (call.next : CpuPc n).Held = true ∧
          (call.next : CpuPc n).status = .started := by
        cases call with
        | trapHalted user =>
            cases user with
            | false => exact ⟨id, trivial, trivial, rfl, rfl⟩
            | true => exact absurd rfl hright
        | _ => exact ⟨id, trivial, trivial, rfl, rfl⟩
      obtain ⟨hnwrong, hnholds, hnowns, hnheld, hnstatus⟩ := hnext
      refine h.move hoff hnwrong (fun i hi => hstarted .record i ?_) rfl
        ⟨who, hwho.keep ?_, hlocked⟩ (hcpu.take hnowns) (by rw [hnheld]; rfl) (h.status_same ?_)
      · rw [← hi]
        cases call <;> rfl
      · rw [hpc]
        exact iff_of_true hnholds trivial
      · rw [hpc, hnstatus]
        rfl

theorem Inv.spinUnlock (h : Inv bsp s) {call : UnlockCall} {pc : SpinUnlock}
    (hpc : s.pc c = .unlock call pc) : Inv bsp (spinUnlock s c call pc) := by
  have hoff : s.Started c := started_of_ne (by simp [hpc])
  have hholds : (s.pc c).Holds := by
    rw [hpc]
    trivial
  obtain ⟨who, hwho, hlocked⟩ := h.locked
  cases pc with
  | holdingLocked =>
      simp only [Jos.spinUnlock, h.locked_of_holds hholds, if_true]
      exact h.goto hpc hoff id (fun i hi => by cases hi) ⟨Iff.rfl, Iff.rfl, rfl⟩
        (by cases call <;> rfl)
  | holdingCpu =>
      have howner : s.cpu = some c := by
        refine (h.cpu c).mp ?_
        rw [hpc]
        trivial
      simp only [Jos.spinUnlock, if_pos howner]
      exact h.goto hpc hoff id (fun i hi => by cases hi) ⟨Iff.rfl, Iff.rfl, rfl⟩
        (by cases call <;> rfl)
  | clear =>
      have howns : (s.pc c).Owns := by
        rw [hpc]
        trivial
      refine h.move hoff id (fun i hi => by cases hi) rfl ⟨who, hwho.keep ?_, hlocked⟩
        (h.cpu.drop howns id) (h.held_same ?_) (h.status_same ?_) <;> rw [hpc] <;> first
        | exact Iff.rfl
        | (cases call <;> rfl)
  | xchg =>
      have hnext : ¬ (call.next : CpuPc n).Wrong ∧ ¬ (call.next : CpuPc n).Holds ∧
          ¬ (call.next : CpuPc n).Owns ∧ (call.next : CpuPc n).Held = false := by
        cases call <;> exact ⟨id, id, id, rfl⟩
      obtain ⟨hnwrong, hnholds, hnowns, hnheld⟩ := hnext
      refine h.move hoff hnwrong (fun i hi => ?_) rfl ⟨none, hwho.drop hholds hnholds, rfl⟩
        (h.cpu.keep ?_) (by rw [hnheld]; rfl) (h.status_same ?_)
      · cases call <;> cases hi
      · rw [hpc]
        exact iff_of_false hnowns id
      · rw [hpc]
        cases call <;> rfl

theorem Inv.bootAps (h : Inv bsp s) {i : ℕ} (hpc : s.pc c = .bootAps i) :
    Inv bsp (bootAps s c i) := by
  have hoff : s.Started c := started_of_ne (by simp [hpc])
  have hi : (s.pc c).started = some i := by rw [hpc]; rfl
  simp only [Jos.bootAps]
  split
  · rename_i hlt
    have hnext (p : CpuPc n) (hp : p.started = some (i + 1)) (k : ℕ) (hk : p.started = some k) :
        ∃ j ≤ k, (CpuPc.bootAps i : CpuPc n).started = some j := by
      rw [hp] at hk
      cases hk
      exact ⟨i, Nat.le_succ i, rfl⟩
    split
    · exact h.goto hpc hoff id (hnext _ rfl) ⟨Iff.rfl, Iff.rfl, rfl⟩ rfl
    · rename_i hne
      have hwait : Inv bsp (s.goto c (.waitAp ⟨i, hlt⟩)) :=
        h.goto hpc hoff id (hnext _ rfl) ⟨Iff.rfl, Iff.rfl, rfl⟩ rfl
      obtain ⟨hbsp, hrest⟩ := h.boot c i hi
      have hap : s.pc ⟨i, hlt⟩ = .off := hrest ⟨i, hlt⟩ (Nat.le_refl i) (hbsp ▸ hne)
      have hap' : (s.goto c (.waitAp ⟨i, hlt⟩)).pc ⟨i, hlt⟩ = .off := by
        simp only [Smp.goto, Function.update_of_ne hne, hap]
      have hswap : (s.goto ⟨i, hlt⟩ .mpMain).goto c (.waitAp ⟨i, hlt⟩) =
          (s.goto c (.waitAp ⟨i, hlt⟩)).goto ⟨i, hlt⟩ .mpMain := by
        simp only [Smp.goto, Function.update_comm hne]
      rw [hswap]
      have hlate : (s.goto c (.waitAp ⟨i, hlt⟩)).Started ⟨i, hlt⟩ := by
        intro d k hd hk
        obtain rfl := ((hwait.boot d k hd).1).trans hbsp.symm
        simp only [Smp.goto, Function.update_self] at hd
        cases hd
        exact absurd hk (Nat.not_succ_le_self i)
      exact hwait.goto hap' hlate id (fun k hk => by cases hk) ⟨Iff.rfl, Iff.rfl, rfl⟩ rfl
  · exact h.goto hpc hoff id (fun k hk => by cases hk) ⟨Iff.rfl, Iff.rfl, rfl⟩ rfl

/-- The entry of `trap`: a CPU was halted if and only if it was not in user
mode. -/
theorem Inv.trap (h : Inv bsp s) {user : Bool} (hpc : s.pc c = .trap user) :
    Inv bsp ((s.setStatus c .started).goto c
      (if s.status c = .halted then .lock (.trapHalted user) .holdingLocked
        else .trapMode user)) := by
  have hoff : s.Started c := started_of_ne (by simp [hpc])
  have hstatus := h.status c
  rw [hpc] at hstatus
  cases user with
  | false =>
      have hhalted : s.status c = .halted := hstatus
      rw [if_pos hhalted]
      exact h.setStatus hpc hoff (by simp [CpuPc.Wrong]) (fun k hk => by cases hk)
        ⟨Iff.rfl, Iff.rfl, rfl⟩ rfl
  | true =>
      have hnot : s.status c ≠ .halted := by
        rw [hstatus]
        simp [CpuPc.status]
      rw [if_neg hnot]
      exact h.setStatus hpc hoff id (fun k hk => by cases hk) ⟨Iff.rfl, Iff.rfl, rfl⟩ rfl

theorem Inv.step (h : Inv bsp s) {run : Bool} (hstep : s.step (c, run) = some t) : Inv bsp t := by
  have hoff : s.Started c := by
    apply started_of_ne
    intro hoff
    simp [Smp.step, hoff] at hstep
  have hnone {p : CpuPc n} (hp : p.started = none) {q : CpuPc n} (i : ℕ)
      (hi : p.started = some i) : ∃ j ≤ i, q.started = some j := by
    rw [hp] at hi
    cases hi
  simp only [Smp.step] at hstep
  cases hpc : s.pc c <;> simp only [hpc, Option.some.injEq, reduceCtorEq] at hstep <;> subst hstep
  case lock call pc => exact h.spinLock hpc
  case unlock call pc => exact h.spinUnlock hpc
  case bootAps i => exact h.bootAps hpc
  case trap user => exact h.trap hpc
  case waitAp i =>
    split
    · exact h.goto hpc hoff id (fun k hk => ⟨k, Nat.le_refl k, hk⟩) ⟨Iff.rfl, Iff.rfl, rfl⟩ rfl
    · exact h.goto hpc hoff id (fun k hk => ⟨k, Nat.le_refl k, hk⟩) ⟨Iff.rfl, Iff.rfl, rfl⟩ rfl
  case i386Init =>
    exact h.goto hpc hoff (by simp [CpuPc.Wrong]) (fun k hk => ⟨k, Nat.le_refl k, hk⟩)
      ⟨Iff.rfl, Iff.rfl, rfl⟩ rfl
  case mpMain =>
    exact h.setStatus hpc hoff (by simp [CpuPc.Wrong]) (hnone rfl) ⟨Iff.rfl, Iff.rfl, rfl⟩ rfl
  case schedHalt => exact h.setStatus hpc hoff id (hnone rfl) ⟨Iff.rfl, Iff.rfl, rfl⟩ rfl
  case dispatch =>
    cases run <;> exact h.goto hpc hoff id (hnone rfl) ⟨Iff.rfl, Iff.rfl, rfl⟩ rfl
  case schedYield =>
    cases run <;> exact h.goto hpc hoff id (hnone rfl) ⟨Iff.rfl, Iff.rfl, rfl⟩ rfl
  case user => exact h.goto hpc hoff id (hnone rfl) ⟨Iff.rfl, Iff.rfl, rfl⟩ rfl
  case halted => exact h.goto hpc hoff id (hnone rfl) ⟨Iff.rfl, Iff.rfl, rfl⟩ rfl
  case trapMode user =>
    cases user with
    | false => exact h.goto hpc hoff id (hnone rfl) ⟨Iff.rfl, Iff.rfl, rfl⟩ rfl
    | true => exact h.goto hpc hoff (by simp [CpuPc.Wrong]) (hnone rfl) ⟨Iff.rfl, Iff.rfl, rfl⟩ rfl

theorem inv_init (bsp : Fin n) : Inv bsp (init bsp) := by
  have hpc (c : Fin n) : ((init bsp).pc c = .i386Init ∧ c = bsp) ∨
      ((init bsp).pc c = .off ∧ c ≠ bsp) := by
    simp only [init]
    split
    · exact Or.inl ⟨rfl, ‹_›⟩
    · exact Or.inr ⟨rfl, ‹_›⟩
  refine ⟨⟨none, fun c => ?_, rfl⟩, fun c => ?_, fun c => ?_, fun c => ?_, fun c => ?_,
    fun c i hi => ?_⟩
  · rcases hpc c with ⟨hc, -⟩ | ⟨hc, -⟩ <;> rw [hc] <;> exact iff_of_false id (by simp)
  · rcases hpc c with ⟨hc, -⟩ | ⟨hc, -⟩ <;> rw [hc] <;> exact iff_of_false id (by simp [init])
  · rcases hpc c with ⟨hc, -⟩ | ⟨hc, -⟩ <;> rw [hc] <;> rfl
  · rcases hpc c with ⟨hc, hbsp⟩ | ⟨hc, hbsp⟩ <;> rw [hc]
    · exact if_pos hbsp
    · exact if_neg hbsp
  · rcases hpc c with ⟨hc, -⟩ | ⟨hc, -⟩ <;> rw [hc] <;> exact id
  · rcases hpc c with ⟨hc, hbsp⟩ | ⟨hc, -⟩
    · refine ⟨hbsp, fun j _ hj => ?_⟩
      rcases hpc j with ⟨-, hj'⟩ | ⟨hoff, -⟩
      · exact absurd hj' hj
      · exact hoff
    · rw [hc] at hi
      cases hi

theorem Reach.inv (h : Reach bsp s) : Inv bsp s :=
  Run.invariant (fun hinv _ hstep => hinv.step hstep) h (inv_init bsp)

/-- Who has completed `lock_kernel` holds the lock. -/
theorem Inv.holds (h : Inv bsp s) (hc : s.held c = true) : (s.pc c).Holds := by
  rw [h.held c] at hc
  cases hpc : s.pc c <;> simp only [hpc, CpuPc.Held, Bool.false_eq_true] at hc
  case trapMode user =>
    cases user with
    | false => trivial
    | true => cases hc
  all_goals trivial

/-- In every order of steps: at most one CPU is between `lock_kernel` and
`unlock_kernel`, a CPU that calls `lock_kernel` does not hold the lock and one
that calls `unlock_kernel` does, the panics of `spin_lock` and `spin_unlock`
are not reached, and a CPU in user mode or halted does not hold the lock. -/
theorem lock_discipline (h : Reach bsp s) :
    (∀ c d, s.held c = true → s.held d = true → c = d) ∧
      (∀ c call, s.pc c = .lock call .holdingLocked → s.held c = false) ∧
      (∀ c call, s.pc c = .unlock call .holdingLocked → s.held c = true) ∧
      (∀ c, s.pc c ≠ .panic) ∧
      ∀ c, s.pc c = .user ∨ s.pc c = .halted → s.held c = false := by
  have hinv := h.inv
  refine ⟨fun c d hc hd => hinv.unique (hinv.holds hc) (hinv.holds hd), fun c call hpc => ?_,
    fun c call hpc => ?_, fun c hpc => ?_, fun c hpc => ?_⟩
  · rw [hinv.held, hpc]
    rfl
  · rw [hinv.held, hpc]
    rfl
  · have hright := hinv.right c
    rw [hpc] at hright
    exact hright trivial
  · rw [hinv.held]
    rcases hpc with hpc | hpc <;> rw [hpc] <;> rfl

/-- CPU 1 waits for the lock until CPU 0 enters user mode. -/
def twoCpus : List (Fin 2 × Bool) :=
  [(0, true), (0, true), (0, true), (0, true), (0, true), (0, true), (1, true), (0, true),
    (0, true), (1, true), (1, true), (1, true), (0, true), (0, true), (0, true), (0, true),
    (0, true), (1, true), (1, true)]

theorem lock_discipline_twoCpus : ∃ s : Smp 2, s.pc 0 = .user ∧ s.held 1 = true ∧
    s.held 0 = false := by
  have hrun : (twoCpus.foldlM step (init 0)).any
      (fun s => s.pc 0 = .user ∧ s.held 1 = true) = true := by decide
  obtain ⟨s, hs, htest⟩ := (Option.any_eq_true _ _).mp hrun
  obtain ⟨huser, hheld⟩ := of_decide_eq_true htest
  have hreach : Reach 0 s := Run.of_foldlM (fun h => ⟨trivial, h⟩) hs
  exact ⟨s, huser, hheld, (lock_discipline hreach).2.2.2.2 0 (Or.inl huser)⟩

end Smp

end Jos
