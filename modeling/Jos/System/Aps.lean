import Jos.Lib.Fair
import Jos.System.Startup
import Mathlib.Algebra.Order.BigOperators.Group.Finset

/-!
`boot_aps` in every order of steps: what each CPU finds when it comes up, and
that all of them come up if no CPU and no interrupt is delayed for ever.
-/

namespace Jos

open Jos.Lib

variable {n : ℕ}

namespace Mp

variable {img : Image} {bsp c d i j : Fin n} {s t : Mp n}

/-! ### Safety -/

/-- What holds at any time of the startup. `s.smp` is the state of the lock in
it. -/
structure StartsWell (img : Image) (bsp : Fin n) (s : Mp n) : Prop where
  refines : Smp.Reach bsp s.smp
  /-- A CPU gets the stack that is meant for it. -/
  stack : ∀ c, c ≠ bsp → (s.pc c).OnStack → s.esp c = kstackEnd img c
  apart : ∀ c d, c ≠ d → c ≠ bsp → d ≠ bsp → (s.pc c).OnStack → (s.pc d).OnStack →
    (s.esp c).toNat + kstksize.toNat ≤ (s.esp d).toNat ∨
      (s.esp d).toNat + kstksize.toNat ≤ (s.esp c).toNat
  /-- While a CPU runs `mp_main`, the boot CPU waits for it or still sends it
  interrupts, and the others are off or wait for the lock. -/
  alone : ∀ c, (s.pc c).Starting → (s.pc bsp).Attends c ∧
    ∀ d, d ≠ c → d ≠ bsp → s.pc d = .off ∨ ∃ p, s.pc d = .smp p ∧ p.Waits
  /-- No INIT is on its way to a CPU that runs. -/
  noReset : ∀ c, .init ∈ s.ipis c → s.pc c = .off
  noPanic : ∀ c, s.pc c ≠ .smp .panic
  /-- The CPUs report in order, each once. -/
  sorted : s.console.Pairwise (· < ·)
  console : ∀ c, c ∈ s.console ↔ c ≠ bsp ∧ (s.pc c).Printed
  /-- Each call of `mmio_map_region` gets a page of its own. -/
  base : s.base = mmiobase + BitVec.ofNat 32 s.mapped * pgsize
  lapic : ∃ k < s.mapped, s.lapic = mmiobase + BitVec.ofNat 32 k * pgsize
  /-- When the boot CPU has left `boot_aps`, all are up and can trap. -/
  ready : ¬ (s.pc bsp).Booting → ∀ c, c ≠ bsp →
    (∃ p, s.pc c = .smp p) ∧ s.esp0 c = some (kstackVa c + kstksize)

theorem kstackEnd_toNat {k : ℕ} (hk : k < ncpu) :
    (kstackEnd img k).toNat = img.percpuKstacks.toNat + 32768 * k + 32768 := by
  have hend := img.kstacks_le
  have hlt := img.endAddr.isLt
  have hsize : kstksize.toNat = 32768 := rfl
  unfold ncpu at hk hend
  rw [kstackEnd, BitVec.toNat_add, kstackKva_toNat hk, hsize]
  omega

theorem kstacks_apart (hn : n ≤ ncpu) (hcd : c ≠ d) :
    (kstackEnd img c).toNat + kstksize.toNat ≤ (kstackEnd img d).toNat ∨
      (kstackEnd img d).toNat + kstksize.toNat ≤ (kstackEnd img c).toNat := by
  have hsize : kstksize.toNat = 32768 := rfl
  have hne : (c : ℕ) ≠ d := fun h => hcd (Fin.ext h)
  rw [kstackEnd_toNat (Nat.lt_of_lt_of_le c.isLt hn),
    kstackEnd_toNat (Nat.lt_of_lt_of_le d.isLt hn), hsize]
  omega

theorem Inv.alone (h : Inv img bsp s) (hc : (s.pc c).Starting) (hdc : d ≠ c) (hd : d ≠ bsp) :
    s.pc d = .off ∨ ∃ p, s.pc d = .smp p ∧ p.Waits := by
  have hattends := (h.starting hc).2
  rcases (h.ap d hd).place with ⟨-, hnil | hd'⟩ | ⟨p, hp, hwaits⟩
  · exact Or.inl ((h.ap d hd).off_of_sent hnil)
  · exact absurd (hd'.unique hattends) hdc
  · exact Or.inr ⟨p, hp, hwaits hattends.booting⟩

theorem Inv.noReset (h : Inv img bsp s) (hc : .init ∈ s.ipis c) : s.pc c = .off := by
  have hne : c ≠ bsp := h.ne_of_ipis (List.ne_nil_of_mem hc)
  obtain ⟨⟨k, -, htook, hdrop⟩, -, -, -⟩ := h.ap c hne
  cases k with
  | zero => exact htook.zero
  | succ k =>
      rw [hdrop, ← List.drop_tail] at hc
      have htail := List.mem_of_mem_drop hc
      rcases (s.pc bsp).sent_cases c with hs | hs | hs | hs <;> rw [hs] at htail <;>
        exact absurd htail (by simp)

theorem Inv.ready (h : Inv img bsp s) (hboot : ¬ (s.pc bsp).Booting) (hc : c ≠ bsp) :
    (∃ p, s.pc c = .smp p) ∧ s.esp0 c = some (kstackVa c + kstksize) := by
  obtain ⟨-, hplace, -, hesp0⟩ := h.ap c hc
  rcases hplace with ⟨-, hnil | hattends⟩ | ⟨p, hp, -⟩
  · rcases h.boot with ⟨i, pc, -, hb⟩ | ⟨p, hb⟩ <;> rw [hb] at hboot hnil
    · exact absurd trivial hboot
    · have hnone : p.started = none := Option.not_isSome_iff_eq_none.mp hboot
      rw [MpPc.sent_smp_none hnone] at hnil
      cases hnil
  · exact absurd hattends.booting hboot
  · exact ⟨⟨p, hp⟩, hesp0 (by rw [hp]; trivial)⟩

/-- However the CPUs take their steps and whenever the interrupts arrive. -/
theorem boot_aps_starts (hn : n ≤ ncpu) (h : Reach img bsp s) : StartsWell img bsp s := by
  have hinv := h.inv hn
  refine ⟨hinv.reach, fun c hc => (hinv.ap c hc).esp, fun c d hcd hc hd hcs hds => ?_,
    fun c hc => ⟨(hinv.starting hc).2, fun d hdc hd => hinv.alone hc hdc hd⟩,
    fun c => hinv.noReset, fun c hc => ?_, hinv.shared.sorted, hinv.shared.console,
    hinv.shared.base, hinv.shared.lapic, fun hboot c hc => hinv.ready hboot hc⟩
  · rw [(hinv.ap c hc).esp hcs, (hinv.ap d hd).esp hds]
    exact kstacks_apart hn hcd
  · have hpanic : s.smp.pc c = .panic := cpuPc_smp hc
    have hright := hinv.reach.inv.right c
    rw [hpanic] at hright
    exact hright trivial

/-- CPU 0 starts CPU 1, which loads its stack pointer. -/
def oneAp : List (Actor 2 × Bool) :=
  List.replicate 9 (.cpu 0, true) ++
    [(.ipi 1, true), (.ipi 1, true), (.cpu 1, true), (.cpu 1, true)]

theorem boot_aps_starts_one : ∃ s : Mp 2, s.pc 0 = .smp (.waitAp 1) ∧
    s.pc 1 = .mpMain .cprintf ∧ s.esp 1 = kstackEnd sampleImage 1 := by
  have hrun : (oneAp.foldlM (step sampleImage) (init 0)).any
      (fun s => s.pc 0 = .smp (.waitAp 1) ∧ s.pc 1 = .mpMain .cprintf) = true := by decide
  obtain ⟨s, hs, htest⟩ := (Option.any_eq_true _ _).mp hrun
  obtain ⟨hboot, hap⟩ := of_decide_eq_true htest
  have hreach : Reach sampleImage 0 s := Run.of_foldlM (fun h => ⟨trivial, h⟩) hs
  refine ⟨s, hboot, hap, (boot_aps_starts (by decide) hreach).stack 1 (by decide) ?_⟩
  rw [hap]
  trivial

end Mp

namespace MpPc

/-! ### Progress -/

/-- How many steps the boot CPU is from the end of `boot_aps`, the waiting not
counted. -/
def bootRank : MpPc n → ℕ
  | .smp .i386Init => 6 * n + 6
  | .smp (.lock _ .holdingLocked) => 6 * n + 5
  | .smp (.lock _ .holdingCpu) => 6 * n + 4
  | .smp (.lock _ .xchg) => 6 * n + 3
  | .smp (.lock _ .record) => 6 * n + 2
  | .smp (.bootAps i) => 6 * (n - i) + 1
  | .startap i .init => 6 * (n - i)
  | .startap i .startup => 6 * (n - i) - 1
  | .startap i .startupAgain => 6 * (n - i) - 2
  | .smp (.waitAp i) => 6 * (n - i) - 3
  | _ => 0

/-- How many steps another CPU is from its call of `lock_kernel`. -/
def apRank : MpPc n → ℕ
  | .off => 10
  | .waitStartup => 9
  | .mpentry .start => 8
  | .mpentry .kstack => 7
  | .mpMain .cprintf => 6
  | .mpMain .mapRegion => 5
  | .mpMain (.setBase _) => 4
  | .mpMain (.setLapic _) => 3
  | .mpMain .tss => 2
  | .mpMain .started => 1
  | _ => 0

end MpPc

namespace Mp

variable {img : Image} {bsp c d i j : Fin n} {s t : Mp n} {q : MpPc n}

/-- The steps of CPU `c` on its way, and the interrupts on their way to it. -/
def load (s : Mp n) (c : Fin n) : ℕ := (s.pc c).apRank + (s.ipis c).length

/-- An interrupt that the boot CPU sends takes one step of it and has one of
its own to take. -/
def rank (bsp : Fin n) (s : Mp n) : ℕ := 2 * (s.pc bsp).bootRank + ∑ c, s.load c

/-- Whose step the startup waits for. -/
def helper (bsp : Fin n) (s : Mp n) : Actor n :=
  match s.pc bsp with
  | .smp (.waitAp i) =>
    if s.status i = .started then .cpu bsp
    else
      match s.pc i with
      | .off | .waitStartup => .ipi i
      | _ => .cpu i
  | _ => .cpu bsp

theorem sum_load (h : ∀ d, d ≠ c → t.load d = s.load d) :
    ∑ d, t.load d + s.load c = ∑ d, s.load d + t.load c := by
  have ht := Finset.add_sum_erase Finset.univ t.load (Finset.mem_univ c)
  have hs := Finset.add_sum_erase Finset.univ s.load (Finset.mem_univ c)
  have hrest : ∑ d ∈ Finset.univ.erase c, t.load d = ∑ d ∈ Finset.univ.erase c, s.load d :=
    Finset.sum_congr rfl fun d hd => h d (Finset.ne_of_mem_erase hd)
  omega

/-- A CPU or an interrupt gets on. -/
theorem rank_lt_of_load (hboot : (t.pc bsp).bootRank = (s.pc bsp).bootRank)
    (h : ∀ d, d ≠ c → t.load d = s.load d) (hc : t.load c < s.load c) :
    t.rank bsp < s.rank bsp := by
  have hsum := sum_load h
  rw [rank, rank, hboot]
  omega

/-- The boot CPU gets on. -/
theorem rank_lt_of_boot (hboot : (t.pc bsp).bootRank < (s.pc bsp).bootRank)
    (h : ∀ d, d ≠ c → t.load d = s.load d) (hc : t.load c ≤ s.load c + 1) :
    t.rank bsp < s.rank bsp := by
  have hsum := sum_load h
  rw [rank, rank]
  omega

/-- The steps of the actors, in which one that cannot take a step does
nothing. -/
def next (img : Image) (s : Mp n) (a : Actor n × Bool) : Mp n := (s.step img a).getD s

theorem rank_ap (hc : c ≠ bsp) (hpc : t.pc = Function.update s.pc c q) (hipis : t.ipis = s.ipis)
    (hq : q.apRank < (s.pc c).apRank) : t.rank bsp < s.rank bsp := by
  refine rank_lt_of_load (c := c) ?_ (fun d hd => ?_) ?_
  · rw [hpc, Function.update_of_ne hc.symm]
  · rw [load, load, hpc, hipis, Function.update_of_ne hd]
  · rw [load, load, hpc, hipis, Function.update_self]
    omega

theorem apRank_boots {b : MpPc n} (hb : b.Boots bsp) : b.apRank = 0 := by
  rcases hb with ⟨i, pc, -, rfl⟩ | ⟨p, rfl⟩ <;> rfl

theorem rank_boot (hs : (s.pc bsp).Boots bsp) (hq : q.Boots bsp)
    (hpc : t.pc = Function.update s.pc bsp q) (hi : i ≠ bsp)
    (hipis : ∀ d, d ≠ i → t.ipis d = s.ipis d) (hlen : (t.ipis i).length ≤ (s.ipis i).length + 1)
    (hrank : q.bootRank < (s.pc bsp).bootRank) : t.rank bsp < s.rank bsp := by
  have hother {d : Fin n} (hd : d ≠ bsp) : t.pc d = s.pc d := by
    rw [hpc, Function.update_of_ne hd]
  have hself : t.pc bsp = q := by rw [hpc, Function.update_self]
  refine rank_lt_of_boot (c := i) (hself.symm ▸ hrank) (fun d hd => ?_) ?_
  · rw [load, load, hipis d hd]
    by_cases hdb : d = bsp
    · rw [hdb, hself, apRank_boots hs, apRank_boots hq]
    · rw [hother hdb]
  · rw [load, load, hother hi]
    omega

theorem rank_eq (hpc : ∀ d, t.pc d = s.pc d ∨ d ≠ bsp ∧ (t.pc d).apRank = (s.pc d).apRank)
    (hipis : t.ipis = s.ipis) : t.rank bsp = s.rank bsp := by
  have hload (d : Fin n) : t.load d = s.load d := by
    rw [load, load, hipis]
    rcases hpc d with hd | ⟨-, hd⟩ <;> rw [hd]
  have hbsp : t.pc bsp = s.pc bsp := (hpc bsp).resolve_right fun h => h.1 rfl
  rw [rank, rank, hbsp, Finset.sum_congr rfl fun d _ => hload d]

theorem helper_congr (hbsp : t.pc bsp = s.pc bsp) (hstatus : t.status = s.status)
    (hpc : ∀ i, s.status i ≠ .started → t.pc i = s.pc i) : t.helper bsp = s.helper bsp := by
  rw [helper, helper, hbsp, hstatus]
  cases s.pc bsp with
  | smp p =>
      cases p with
      | waitAp i =>
          by_cases hi : s.status i = .started
          · simp only [if_pos hi]
          · simp only [if_neg hi, hpc i hi]
      | _ => rfl
  | _ => rfl

theorem helper_cases (bsp : Fin n) (s : Mp n) :
    s.helper bsp = .cpu bsp ∧ (∀ i, s.pc bsp = .smp (.waitAp i) → s.status i = .started) ∨
    ∃ i, s.pc bsp = .smp (.waitAp i) ∧ s.status i ≠ .started ∧
      (s.helper bsp = .ipi i ∧ (s.pc i = .off ∨ s.pc i = .waitStartup) ∨
        s.helper bsp = .cpu i ∧ s.pc i ≠ .off ∧ s.pc i ≠ .waitStartup) := by
  cases hpc : s.pc bsp with
  | smp p =>
      cases p with
      | waitAp i =>
          by_cases hi : s.status i = .started
          · refine Or.inl ⟨by simp only [helper, hpc, if_pos hi], fun j hj => ?_⟩
            cases hj
            exact hi
          · refine Or.inr ⟨i, rfl, hi, ?_⟩
            simp only [helper, hpc, if_neg hi]
            cases s.pc i <;> simp
      | _ => exact Or.inl ⟨by simp only [helper, hpc], by simp⟩
  | _ => exact Or.inl ⟨by simp only [helper, hpc], by simp⟩

/-! ### Every step -/

theorem Inv.rank_receive (h : Inv img bsp s) {ipi : Ipi} {l : List Ipi}
    (hipis : s.ipis c = ipi :: l) :
    (Jos.receive { s with ipis := Function.update s.ipis c l } c ipi).rank bsp < s.rank bsp := by
  have hc : c ≠ bsp := h.ne_of_ipis (by simp [hipis])
  obtain ⟨⟨d, hd, htook, hdrop⟩, -, -, -⟩ := h.ap c hc
  obtain ⟨-, -, hipi⟩ := MpPc.drop_sent (hipis ▸ hdrop)
  obtain ⟨q, hreceive, -, hcases⟩ := receive_cases (s := { s with
    ipis := Function.update s.ipis c l }) (c := c) htook hipi
  have hle : q.apRank ≤ (s.pc c).apRank := by
    rcases hcases with ⟨hq, -⟩ | ⟨hoff, rfl, -⟩ | ⟨hwait, rfl, -⟩
    · exact Nat.le_of_eq (congrArg _ hq)
    · rw [show s.pc c = .off from hoff]
      exact Nat.le_succ 9
    · rw [show s.pc c = .waitStartup from hwait]
      exact Nat.le_succ 8
  rw [hreceive]
  refine rank_lt_of_load (c := c) ?_ (fun j hj => ?_) ?_
  · simp only [goto, Function.update_of_ne hc.symm]
  · simp only [load, goto, Function.update_of_ne hj]
  · simp only [load, goto, Function.update_self, hipis, List.length_cons]
    omega

theorem Inv.rank_mpentry (h : Inv img bsp s) {pc : Mpentry} (hpc : s.pc c = .mpentry pc) :
    (Jos.mpentry s c pc).rank bsp < s.rank bsp := by
  have hc := (h.starting (c := c) (by rw [hpc]; trivial)).1
  cases pc with
  | start =>
      exact rank_ap hc (q := .mpentry .kstack) rfl rfl (by rw [hpc]; exact Nat.lt_succ_self 7)
  | kstack =>
      exact rank_ap hc (q := .mpMain .cprintf) rfl rfl (by rw [hpc]; exact Nat.lt_succ_self 6)

theorem Inv.rank_mpMain (h : Inv img bsp s) {pc : MpMain} (hpc : s.pc c = .mpMain pc) :
    (Jos.mpMain s c pc).rank bsp < s.rank bsp := by
  have hc := (h.starting (c := c) (by rw [hpc]; trivial)).1
  have hlt {t : Mp n} {q : MpPc n} (hq : q.apRank < (MpPc.mpMain pc : MpPc n).apRank)
      (hpc' : t.pc = Function.update s.pc c q) (hipis : t.ipis = s.ipis) :
      t.rank bsp < s.rank bsp := rank_ap hc hpc' hipis (hpc.symm ▸ hq)
  cases pc with
  | cprintf => exact hlt (q := .mpMain .mapRegion) (Nat.lt_succ_self 5) rfl rfl
  | mapRegion =>
      rw [Jos.mpMain]
      split
      · exact hlt (q := .smp .panic) (Nat.succ_pos 4) rfl rfl
      · exact hlt (q := .mpMain (.setBase s.base)) (Nat.lt_succ_self 4) rfl rfl
  | setBase va => exact hlt (q := .mpMain (.setLapic va)) (Nat.lt_succ_self 3) rfl rfl
  | setLapic va => exact hlt (q := .mpMain .tss) (Nat.lt_succ_self 2) rfl rfl
  | tss => exact hlt (q := .mpMain .started) (Nat.lt_succ_self 1) rfl rfl
  | started => exact hlt (q := .smp (.lock .mpMain .holdingLocked)) Nat.one_pos rfl rfl

theorem Inv.rank_bootAps (h : Inv img bsp s) {k : ℕ} (hpc : s.pc c = .smp (.bootAps k)) :
    (bootApsMp img s c k).rank bsp < s.rank bsp := by
  obtain rfl := h.eq_bsp (c := c) (k := k) (by rw [cpuPc_smp hpc]; rfl)
  have hlt {t : Mp n} {q : MpPc n} (hq : q.Boots c) (hrank : q.bootRank < 6 * (n - k) + 1)
      (hpc' : t.pc = Function.update s.pc c q) (hipis : t.ipis = s.ipis) :
      t.rank c < s.rank c := by
    have hself : t.pc c = q := by rw [hpc', Function.update_self]
    refine rank_lt_of_boot (c := c) (by rw [hself, hpc]; exact hrank) (fun d hd => ?_) ?_
    · rw [load, load, hipis, hpc', Function.update_of_ne hd]
    · rw [load, load, hipis, hself, apRank_boots hq, apRank_boots h.boot]
      omega
  rw [bootApsMp]
  split
  · split
    · refine hlt (q := .smp (.bootAps (k + 1))) (Or.inr ⟨_, rfl⟩) ?_ rfl rfl
      change 6 * (n - (k + 1)) + 1 < 6 * (n - k) + 1
      omega
    · rename_i hk
      exact hlt (q := .startap _ .init) (Or.inl ⟨_, _, hk, rfl⟩) (Nat.lt_succ_self _) rfl rfl
  · exact hlt (q := .smp .schedYield) (Or.inr ⟨_, rfl⟩) (Nat.succ_pos _) rfl rfl

theorem Inv.rank_startap (h : Inv img bsp s) {pc : StartAp} (hpc : s.pc c = .startap i pc) :
    (lapicStartap s c i pc).rank bsp < s.rank bsp := by
  obtain ⟨rfl, hi⟩ := h.startap_bsp hpc
  have hlt {q : MpPc n} {ipi : Ipi} (hq : q.Boots c)
      (hrank : q.bootRank < (MpPc.startap i pc : MpPc n).bootRank) :
      ((s.send i ipi).goto c q).rank c < s.rank c := by
    refine rank_boot h.boot hq (i := i) rfl hi (fun d hd => Function.update_of_ne hd ..) ?_
      (hpc.symm ▸ hrank)
    have hsent : ((s.send i ipi).goto c q).ipis i = s.ipis i ++ [ipi] := Function.update_self ..
    rw [hsent, List.length_append, List.length_singleton]
  have hn := i.isLt
  cases pc with
  | init =>
      refine hlt (Or.inl ⟨_, _, hi, rfl⟩) ?_
      change 6 * (n - i) - 1 < 6 * (n - i)
      omega
  | startup =>
      refine hlt (Or.inl ⟨_, _, hi, rfl⟩) ?_
      change 6 * (n - i) - 2 < 6 * (n - i) - 1
      omega
  | startupAgain =>
      refine hlt (Or.inr ⟨_, rfl⟩) ?_
      change 6 * (n - i) - 3 < 6 * (n - i) - 2
      omega

/-- While the boot CPU calls `lock_kernel`, the lock is free. -/
theorem Inv.lock_free (h : Inv img bsp s) {pc : SpinLock} (hne : pc ≠ .record)
    (hpc : s.pc bsp = .smp (.lock .i386Init pc)) : s.locked = false := by
  obtain ⟨who, hwho, hlocked⟩ := h.reach.inv.locked
  have hnone : who = none := by
    refine hwho.none_of_forall fun d hd => ?_
    have hholds : (s.cpuPc d).Holds := hd
    by_cases hdb : d = bsp
    · rw [hdb, cpuPc_smp hpc] at hholds
      cases pc with
      | record => exact hne rfl
      | _ => exact hholds
    · have hoff := (h.ap d hdb).off_of_sent (by rw [hpc, MpPc.sent_smp rfl]; rfl)
      rw [cpuPc, hoff] at hholds
      by_cases hmem : Ipi.startup ∈ s.ipis d
      · simp only [hmem, if_true] at hholds
        exact hholds
      · simp only [hmem, if_false] at hholds
        exact hholds
  rw [hnone] at hlocked
  exact hlocked

theorem status_waits {p : CpuPc n} (h : p.Waits) : p.status = .started := by
  obtain ⟨pc, -, rfl⟩ := h
  rfl

theorem Inv.status_smp (h : Inv img bsp s) {p : CpuPc n} (hpc : s.pc c = .smp p) :
    s.status c = p.status := by
  have hstatus : s.status c = (s.cpuPc c).status := h.reach.inv.status c
  rw [hstatus, cpuPc_smp hpc]

/-- A CPU that waits for the lock does not change anything. -/
theorem spinLock_status {s t : Smp n} {run : Bool} {p : CpuPc n} (hpc : s.pc c = p) (hp : p.Waits)
    (hstep : s.step (c, run) = some t) : t.status = s.status := by
  obtain ⟨pc, hne, rfl⟩ := hp
  simp only [Smp.step, hpc, Option.some.injEq] at hstep
  subst hstep
  cases pc <;> rfl

theorem kernel_fields {run : Bool} (hstep : s.kernel c run = some t) :
    ∃ u, s.smp.step (c, run) = some u ∧ t.pc = Function.update s.pc c (.smp (u.pc c)) ∧
      t.ipis = s.ipis ∧ t.status = u.status := by
  obtain ⟨u, hu, rfl⟩ := kernel_eq hstep
  exact ⟨u, hu, rfl, rfl, rfl⟩

/-- While the boot CPU starts the others, a CPU that is up waits for the
lock. -/
theorem Inv.nears_waits (h : Inv img bsp s) {run : Bool} {p : CpuPc n}
    (hbooting : (s.pc bsp).Booting) (hc : c ≠ bsp) (hpc : s.pc c = .smp p)
    (hstep : s.kernel c run = some t) : Nears (rank bsp) (helper bsp) (.cpu c) s t := by
  have hp : p.Waits := by
    rcases (h.ap c hc).place with ⟨hcomes, -⟩ | ⟨p', hp', hwaits⟩
    · rw [hpc] at hcomes
      exact hcomes.elim
    · rw [hpc] at hp'
      cases hp'
      exact hwaits hbooting
  have hstarted : s.status c = .started := (h.status_smp hpc).trans (status_waits hp)
  obtain ⟨u, hu, hpcs, hipis, hus⟩ := kernel_fields hstep
  have hstatus : t.status = s.status := hus.trans (spinLock_status (cpuPc_smp hpc) hp hu)
  have hother (d : Fin n) (hd : d ≠ c) : t.pc d = s.pc d := by
    rw [hpcs, Function.update_of_ne hd]
  refine Or.inr ⟨rank_eq (fun d => ?_) hipis, helper_congr (hother bsp hc.symm) hstatus
    fun i hi => hother i ?_, fun hhelper => ?_⟩
  · by_cases hd : d = c
    · subst hd
      rw [hpcs, Function.update_self, hpc]
      exact Or.inr ⟨hc, rfl⟩
    · exact Or.inl (hother d hd)
  · rintro rfl
    exact hi hstarted
  · rcases helper_cases bsp s with ⟨hcpu, -⟩ | ⟨i, -, hi, ⟨hipi, -⟩ | ⟨hcpu, -⟩⟩
    · rw [hcpu] at hhelper
      exact hc (Actor.cpu.inj hhelper)
    · rw [hipi] at hhelper
      cases hhelper
    · rw [hcpu] at hhelper
      obtain rfl := Actor.cpu.inj hhelper
      exact hi hstarted

/-- The boot CPU calls `lock_kernel`, or looks at the status of the CPU that it
waits for. -/
theorem Inv.nears_boot (h : Inv img bsp s) {run : Bool} {p : CpuPc n}
    (hbooting : (s.pc bsp).Booting) (hpc : s.pc bsp = .smp p) (hloop : ∀ k, p ≠ .bootAps k)
    (hstep : s.kernel bsp run = some t) : Nears (rank bsp) (helper bsp) (.cpu bsp) s t := by
  obtain ⟨u, hu, hpcs, hipis, hus⟩ := kernel_fields hstep
  have hcpu : s.smp.pc bsp = p := cpuPc_smp hpc
  have hself : t.pc bsp = .smp (u.pc bsp) := by rw [hpcs, Function.update_self]
  have hother (d : Fin n) (hd : d ≠ bsp) : t.pc d = s.pc d := by
    rw [hpcs, Function.update_of_ne hd]
  have hlt {q : CpuPc n} (hq : u.pc bsp = q)
      (hrank : (MpPc.smp q : MpPc n).bootRank < (MpPc.smp p : MpPc n).bootRank) :
      Nears (rank bsp) (helper bsp) (.cpu bsp) s t := by
    refine Or.inl (rank_lt_of_boot (c := bsp) ?_ (fun d hd => ?_) ?_)
    · rw [hself, hq, hpc]
      exact hrank
    · rw [load, load, hother d hd, hipis]
    · rw [load, load, hself, hpc, hipis]
      exact Nat.le_succ _
  cases p with
  | bootAps k => exact absurd rfl (hloop k)
  | i386Init =>
      simp only [Smp.step, hcpu, Option.some.injEq] at hu
      refine hlt (q := .lock .i386Init .holdingLocked) ?_ (Nat.lt_succ_self _)
      rw [← hu]
      exact Function.update_self ..
  | lock call pc =>
      cases call with
      | i386Init =>
          simp only [Smp.step, hcpu, Option.some.injEq] at hu
          cases pc with
          | holdingLocked =>
              have hfree : s.smp.locked = false := h.lock_free (by simp) hpc
              refine hlt (q := .lock .i386Init .xchg) ?_ (by simp [MpPc.bootRank])
              rw [← hu]
              simp [Jos.spinLock, Smp.goto, hfree]
          | holdingCpu =>
              refine hlt rfl ?_
              rw [← hu]
              simp only [Jos.spinLock, Smp.goto, Function.update_self]
              split <;> simp [MpPc.bootRank]
          | xchg =>
              have hfree : s.smp.locked = false := h.lock_free (by simp) hpc
              refine hlt (q := .lock .i386Init .record) ?_ (by simp [MpPc.bootRank])
              rw [← hu]
              simp [Jos.spinLock, Smp.goto, hfree]
          | record =>
              refine hlt (q := .bootAps 0) ?_ (by simp [MpPc.bootRank])
              rw [← hu]
              exact Function.update_self ..
      | _ =>
          rw [hpc] at hbooting
          cases hbooting
  | waitAp i =>
      have hbsp : s.status bsp = .started := h.status_smp hpc
      simp only [Smp.step, hcpu, Option.some.injEq] at hu
      by_cases hi : s.status i = .started
      · refine hlt (q := .bootAps (i + 1)) ?_ ?_
        · rw [← hu]
          simp [Smp.goto, smp, hi]
        · have hn := i.isLt
          change 6 * (n - (i + 1)) + 1 < 6 * (n - i) - 3
          omega
      · -- it looks again
        have hsame : u.pc bsp = .waitAp i := by
          rw [← hu]
          simp [Smp.goto, smp, hi]
        have hpc' (d : Fin n) : t.pc d = s.pc d := by
          by_cases hd : d = bsp
          · rw [hd, hself, hsame, hpc]
          · exact hother d hd
        have hstatus : t.status = s.status := by
          rw [hus, ← hu]
          rfl
        refine Or.inr ⟨rank_eq (fun d => Or.inl (hpc' d)) hipis,
          helper_congr (hpc' bsp) hstatus fun d _ => hpc' d, fun hhelper => ?_⟩
        rcases helper_cases bsp s with ⟨-, hwaits⟩ | ⟨j, -, hj, ⟨hipi, -⟩ | ⟨hcpu, -⟩⟩
        · exact hi (hwaits i hpc)
        · rw [hipi] at hhelper
          cases hhelper
        · rw [hcpu] at hhelper
          obtain rfl := Actor.cpu.inj hhelper
          exact hj hbsp
  | _ =>
      rw [hpc] at hbooting
      cases hbooting

/-- The helper can take a step. -/
theorem Inv.helper_moves (h : Inv img bsp s) (hbooting : (s.pc bsp).Booting) (run : Bool) :
    s.step img (s.helper bsp, run) ≠ none := by
  rcases helper_cases bsp s with ⟨hcpu, -⟩ | ⟨i, hpc, hi, hcases⟩
  · rw [hcpu]
    cases hpc : s.pc bsp with
    | startap i pc => simp [Mp.step, hpc]
    | smp p =>
        have hcpu : s.smp.pc bsp = p := cpuPc_smp hpc
        rw [hpc] at hbooting
        cases p with
        | bootAps k => simp [Mp.step, hpc]
        | i386Init => simp [Mp.step, hpc, Mp.kernel, Smp.step, hcpu]
        | waitAp i => simp [Mp.step, hpc, Mp.kernel, Smp.step, hcpu]
        | lock call pc => simp [Mp.step, hpc, Mp.kernel, Smp.step, hcpu]
        | _ => cases hbooting
    | _ =>
        rw [hpc] at hbooting
        exact hbooting.elim
  · have hne : i ≠ bsp := by
      rintro rfl
      exact hi (h.status_smp hpc)
    obtain ⟨⟨d, hd, htook, hdrop⟩, hplace, -, -⟩ := h.ap i hne
    rcases hcases with ⟨hipi, hwait⟩ | ⟨hcpu, hoff, hwait⟩
    · rw [hpc, MpPc.sent_waitAp_self] at hdrop
      have hlt : d < 2 := by
        rcases hwait with hwait | hwait <;> rw [hwait] at htook
        · exact Nat.lt_of_le_of_lt (Nat.le_of_eq htook) Nat.zero_lt_two
        · exact Nat.lt_of_le_of_lt (Nat.le_of_eq htook) Nat.one_lt_two
      have hcons : ∃ ipi l, s.ipis i = ipi :: l := by
        rw [hdrop]
        obtain rfl | rfl : d = 0 ∨ d = 1 := by omega
        · exact ⟨_, _, rfl⟩
        · exact ⟨_, _, rfl⟩
      obtain ⟨ipi, l, hipis⟩ := hcons
      simp [hipi, Mp.step, hipis]
    · rw [hcpu]
      cases hpci : s.pc i with
      | off => exact absurd hpci hoff
      | waitStartup => exact absurd hpci hwait
      | mpentry pc => simp [Mp.step, hpci]
      | mpMain pc => simp [Mp.step, hpci]
      | startap j pc => simp [Mp.step, hpci]
      | smp p =>
          rcases hplace with ⟨hcomes, -⟩ | ⟨p', hp', hwaits⟩
          · rw [hpci] at hcomes
            exact hcomes.elim
          · exact absurd ((h.status_smp hp').trans (status_waits (hwaits hbooting))) hi

theorem Inv.nears (h : Inv img bsp s) (hbooting : (s.pc bsp).Booting) (a : Actor n × Bool) :
    Nears (rank bsp) (helper bsp) a.1 s (s.next img a) := by
  obtain ⟨actor, run⟩ := a
  rw [next]
  cases hstep : s.step img (actor, run) with
  | none =>
      refine Or.inr ⟨rfl, rfl, ?_⟩
      rintro rfl
      exact h.helper_moves hbooting run hstep
  | some t =>
      rw [Option.getD_some]
      cases step_does hstep with
      | receive hipis => exact Or.inl (h.rank_receive hipis)
      | mpentry hpc => exact Or.inl (h.rank_mpentry hpc)
      | mpMain hpc => exact Or.inl (h.rank_mpMain hpc)
      | startap hpc => exact Or.inl (h.rank_startap hpc)
      | bootAps hpc => exact Or.inl (h.rank_bootAps hpc)
      | @kernel c p t hpc hloop hkernel =>
          by_cases hc : c = bsp
          · subst hc
            exact h.nears_boot hbooting hpc hloop hkernel
          · exact h.nears_waits hbooting hc hpc hkernel

theorem receive_other (hd : d ≠ c) (ipi : Ipi) : (Jos.receive s c ipi).pc d = s.pc d := by
  cases ipi with
  | init => exact Function.update_of_ne hd ..
  | startup =>
      rw [Jos.receive]
      split
      · exact Function.update_of_ne hd ..
      · rfl

theorem mpentry_other (hd : d ≠ c) (pc : Mpentry) : (Jos.mpentry s c pc).pc d = s.pc d := by
  cases pc <;> exact Function.update_of_ne hd ..

theorem mpMain_other (hd : d ≠ c) (pc : MpMain) : (Jos.mpMain s c pc).pc d = s.pc d := by
  cases pc with
  | mapRegion =>
      rw [Jos.mpMain]
      split <;> exact Function.update_of_ne hd ..
  | _ => exact Function.update_of_ne hd ..

/-- The boot CPU leaves `boot_aps` at the end of the loop. -/
theorem Inv.leaves (h : Inv img bsp s) (ht : Inv img bsp t) {a : Actor n × Bool}
    (hstep : s.step img a = some t) (hs : (s.pc bsp).Booting) (hnot : ¬ (t.pc bsp).Booting) :
    ∃ k, n ≤ k ∧ s.pc bsp = .smp (.bootAps k) ∧ t = s.goto bsp (.smp .schedYield) := by
  have hsame (hpc : t.pc bsp = s.pc bsp) : False := hnot (hpc ▸ hs)
  obtain ⟨actor, run⟩ := a
  cases step_does hstep with
  | @receive c ipi l hipis =>
      have hc : c ≠ bsp := h.ne_of_ipis (by simp [hipis])
      exact (hsame (receive_other hc.symm ipi)).elim
  | @mpentry c pc hpc =>
      have hc := (h.starting (c := c) (by rw [hpc]; trivial)).1
      exact (hsame (mpentry_other hc.symm pc)).elim
  | @mpMain c pc hpc =>
      have hc := (h.starting (c := c) (by rw [hpc]; trivial)).1
      exact (hsame (mpMain_other hc.symm pc)).elim
  | @startap c i pc hpc =>
      obtain ⟨rfl, -⟩ := h.startap_bsp hpc
      refine (hnot ?_).elim
      cases pc with
      | startupAgain =>
          rw [lapicStartap, goto_self]
          rfl
      | _ =>
          rw [lapicStartap, goto_self]
          trivial
  | @bootAps c k hpc =>
      obtain rfl := h.eq_bsp (c := c) (k := k) (by rw [cpuPc_smp hpc]; rfl)
      rw [bootApsMp] at hnot ⊢
      by_cases hk : k < n
      · rw [dif_pos hk] at hnot
        refine (hnot ?_).elim
        split
        · rw [goto_self]
          rfl
        · show ((s.goto c (.startap ⟨k, hk⟩ .init)).pc c).Booting
          rw [goto_self]
          trivial
      · exact ⟨k, Nat.le_of_not_lt hk, hpc, dif_neg hk⟩
  | @kernel c p _ hpc hloop hkernel =>
      obtain ⟨u, hu, hpcs, -, -⟩ := kernel_fields hkernel
      by_cases hc : c = bsp
      · subst hc
        have hcpu : s.smp.pc c = p := cpuPc_smp hpc
        have hself : t.pc c = .smp (u.pc c) := by rw [hpcs, Function.update_self]
        rw [hself] at hnot
        rcases (Smp.step_moves hu fun k hk => hloop k (hcpu ▸ hk)).started with hstarted | hpanic
        · rw [hcpu] at hstarted
          rw [hpc] at hs
          exact (hnot (by rw [MpPc.Booting, hstarted]; exact hs)).elim
        · have hright := ht.reach.inv.right c
          have hcpu' : t.smp.pc c = .panic := by
            rw [← hpanic]
            exact cpuPc_smp hself
          rw [hcpu'] at hright
          exact (hright trivial).elim
      · exact (hsame (by rw [hpcs, Function.update_of_ne (Ne.symm hc)])).elim

theorem reach_next (h : Reach img bsp s) (a : Actor n × Bool) : Reach img bsp (s.next img a) := by
  rw [next]
  cases hstep : s.step img a with
  | none => exact h
  | some t => exact h.tail ⟨a, trivial, hstep⟩

/-- When the boot CPU is at the end of its loop, the others wait for the
lock. -/
theorem Inv.loop_end (h : Inv img bsp s) {k : ℕ} (hk : n ≤ k) (hpc : s.pc bsp = .smp (.bootAps k))
    (hc : c ≠ bsp) : ∃ p, s.pc c = .smp p ∧ p.Waits := by
  obtain ⟨-, hplace, -, -⟩ := h.ap c hc
  rw [hpc] at hplace
  rcases hplace with ⟨-, hnil | hattends⟩ | ⟨p, hp, hwaits⟩
  · rw [MpPc.sent_smp rfl, if_pos (Nat.lt_of_lt_of_le c.isLt hk)] at hnil
    cases hnil
  · exact (not_attends_bootAps hattends).elim
  · exact ⟨p, hp, hwaits rfl⟩

/-- If every CPU takes steps again and again and no interrupt is lost, the boot
CPU comes to the end of `boot_aps`. Then all the others are up, on their own
stacks, and wait for the lock. -/
theorem boot_aps_ends (hn : n ≤ ncpu) {x : ℕ → Mp n} {sched : ℕ → Actor n × Bool}
    (hinit : x 0 = init bsp) (hnext : ∀ t, x (t + 1) = (x t).next img (sched t))
    (hfair : Fair fun t => (sched t).1) :
    ∃ t, (x t).pc bsp = .smp .schedYield ∧ ∀ c, c ≠ bsp →
      (∃ pc, (x t).pc c = .smp (.lock .mpMain pc)) ∧ (x t).status c = .started ∧
        (x t).esp c = kstackEnd img c ∧ (x t).esp0 c = some (kstackVa c + kstksize) := by
  have hinv (t : ℕ) : Inv img bsp (x t) := by
    have hreach : Reach img bsp (x t) := by
      induction t with
      | zero => exact hinit ▸ .refl
      | succ t ih => exact hnext t ▸ reach_next ih (sched t)
    exact hreach.inv hn
  have hstart : (x 0).pc bsp = .smp .i386Init := by
    rw [hinit]
    exact if_pos rfl
  obtain ⟨t, -, hbooting, hleft⟩ := hfair.leaves (P := fun s => (s.pc bsp).Booting)
    (fun v hv _ => hnext v ▸ (hinv v).nears hv (sched v)) (t := 0) (by rw [hstart]; rfl)
  obtain ⟨k, hk, hpc, hyield⟩ : ∃ k, n ≤ k ∧ (x t).pc bsp = .smp (.bootAps k) ∧
      x (t + 1) = (x t).goto bsp (.smp .schedYield) := by
    rw [hnext t, next] at hleft ⊢
    cases hstep : (x t).step img (sched t) with
    | none =>
        rw [hstep] at hleft
        exact absurd hbooting hleft
    | some u =>
        rw [hstep] at hleft
        refine (hinv t).leaves ?_ hstep hbooting hleft
        have hu := hinv (t + 1)
        rwa [hnext t, next, hstep] at hu
  refine ⟨t + 1, by rw [hyield, goto_self], fun c hc => ?_⟩
  obtain ⟨p, hp, hwaits⟩ := (hinv t).loop_end hk hpc hc
  have hpc' : (x (t + 1)).pc c = .smp p := by
    rw [hyield]
    exact (Function.update_of_ne hc ..).trans hp
  have hap := (hinv (t + 1)).ap c hc
  obtain ⟨pc, -, hlock⟩ := id hwaits
  refine ⟨⟨pc, by rw [hpc', hlock]⟩, ((hinv (t + 1)).status_smp hpc').trans (status_waits hwaits),
    hap.esp ?_, hap.esp0 ?_⟩ <;> rw [hpc'] <;> trivial

/-- The CPUs and the interrupts take turns. -/
def turns (t : ℕ) : Actor 2 × Bool :=
  (if t % 4 = 0 then .cpu 0 else if t % 4 = 1 then .cpu 1 else if t % 4 = 2 then .ipi 0 else .ipi 1,
    true)

def inTurn : ℕ → Mp 2
  | 0 => init 0
  | t + 1 => (inTurn t).next sampleImage (turns t)

theorem boot_aps_ends_turns : ∃ t, (inTurn t).pc 0 = .smp .schedYield ∧
    (inTurn t).esp 1 = kstackEnd sampleImage 1 := by
  have hfair : Fair fun t => (turns t).1 := by
    intro p t
    have hturn (k : ℕ) (hk : (turns (4 * t + k)).1 = p) : ∃ u, t ≤ u ∧ (turns u).1 = p :=
      ⟨4 * t + k, by omega, hk⟩
    cases p with
    | cpu c =>
        obtain rfl | rfl : c = 0 ∨ c = 1 := by omega
        · exact hturn 0 (by simp [turns])
        · exact hturn 1 (by simp [turns, Nat.add_mod])
    | ipi c =>
        obtain rfl | rfl : c = 0 ∨ c = 1 := by omega
        · exact hturn 2 (by simp [turns, Nat.add_mod])
        · exact hturn 3 (by simp [turns, Nat.add_mod])
  have hinit : inTurn 0 = init 0 := rfl
  obtain ⟨t, hyield, hothers⟩ := boot_aps_ends (x := inTurn) (by decide) hinit (fun _ => rfl) hfair
  exact ⟨t, hyield, (hothers 1 (by decide)).2.2.1⟩

end Mp

end Jos
