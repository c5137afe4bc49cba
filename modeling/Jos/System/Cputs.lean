import Jos.System.Boot

/-!
What `sys_cputs` reads. `user_mem_check` has looked at the bytes `[s, s + len)`
of the caller, and the formatter stops at a NUL or when the precision has run
out, but it tests the precision after it has read the next byte. So without a
NUL among the `len` bytes it reads one that nobody has checked.
-/

namespace Jos

open Jos.Lib

variable {n : ℕ} {M : Machine} {m : Mem n} {c : Fin n} {d : ℕ} {perm : Word}
  {load : Word → Option (BitVec 8)}

/-! ### What is checked -/

/-- Every byte of the range is mapped. -/
theorem userMemLoop_none {k : ℕ} {va : Word} (h : userMemLoop M d perm m k va = .ok none)
    {i : ℕ} (hi : i < k) : ∃ pt j pp,
      pageLookup M d (va + BitVec.ofNat 32 i) m = .ok (some (pt, j), some pp) := by
  induction k generalizing va i with
  | zero => omega
  | succ k ih =>
      simp only [userMemLoop, bind_eq_ok] at h
      obtain ⟨r, hlook, h⟩ := h
      split at h
      · rename_i pt j pp
        split at h
        · cases h
        · cases i with
          | zero => exact ⟨pt, j, pp, by simpa using hlook⟩
          | succ i =>
              rw [ofNat_succ]
              exact ih h (by omega)
      · cases h

/-- Where a page is found, the kernel can load through the same directory. -/
theorem loadByte_of_lookup {va : Word} {pt pp : ℕ} {j : PtIdx} (hcr3 : m.cr3 c = d)
    (h : pageLookup M d va m = .ok (some (pt, j), some pp)) : ∃ b, loadByte c m va = some b := by
  rcases pageLookup_ok h with ⟨-, hr, -⟩ | ⟨hpde, -, ⟨-, hpage⟩ | ⟨hpte, -⟩⟩
  · cases hr
  · cases hpage
  · subst hcr3
    exact ⟨_, if_pos ⟨hpde, hpte⟩⟩

/-- What `user_mem_assert` has established when it lets the call continue. -/
theorem userMemCheck_none {va len : Word} (hcr3 : m.cr3 c = d)
    (h : userMemCheck M d va len perm m = .ok none) :
    va.toNat + len.toNat < ulim.toNat ∧
      ∀ i < len.toNat, ∃ b, loadByte c m (va + BitVec.ofNat 32 i) = some b := by
  unfold userMemCheck at h
  simp only at h
  split at h
  · cases h
  · split at h
    · cases h
    · rename_i hva hlim
      rw [not_or] at hlim
      have hsum : (va + len).toNat = va.toNat + len.toNat := by
        have hle : ¬ (va + len).toNat < va.toNat := hlim.2
        have hva' := va.isLt
        have hlen := len.isLt
        rw [BitVec.toNat_add] at hle ⊢
        omega
      have hlt : ¬ ulim.toNat ≤ (va + len).toNat := hlim.1
      have hk : (va + len - va).toNat = len.toNat := by
        rw [BitVec.add_comm, BitVec.add_sub_cancel]
      rw [hk] at h
      refine ⟨by omega, fun i hi => ?_⟩
      obtain ⟨pt, j, pp, hlook⟩ := userMemLoop_none h hi
      exact loadByte_of_lookup hcr3 hlook

/-! ### What is read -/

/-- The loop reads the characters before a NUL as long as there are not more
of them than the precision, a negative one being no limit. -/
theorem printLoop_pass {j k : ℕ} {p precision : Word} (hprec : j ≤ precision.toNat)
    (hbytes : ∀ i < j, ∃ b, load (p + BitVec.ofNat 32 i) = some b ∧ b ≠ 0) :
    ∃ precision', (printLoop load (k + j) p precision).ending =
        (printLoop load k (p + BitVec.ofNat 32 j) precision').ending ∧
      (printLoop load (k + j) p precision).reads =
        (List.range j).map (fun i => p + BitVec.ofNat 32 i) ++
          (printLoop load k (p + BitVec.ofNat 32 j) precision').reads := by
  induction j generalizing p precision with
  | zero => exact ⟨precision, by simp, by simp⟩
  | succ j ih =>
      obtain ⟨b, hload, hb⟩ := hbytes 0 (Nat.succ_pos j)
      have hload' : load p = some b := by simpa using hload
      have hrest (i : ℕ) (hi : i < j) : ∃ b, load (p + 1 + BitVec.ofNat 32 i) = some b ∧ b ≠ 0 := by
        rw [← ofNat_succ]
        exact hbytes (i + 1) (by omega)
      have hreads : p :: (List.range j).map (fun i => p + 1 + BitVec.ofNat 32 i) =
          (List.range (j + 1)).map fun i => p + BitVec.ofNat 32 i := by
        rw [List.range_succ_eq_map, List.map_cons, List.map_map]
        simp only [Function.comp_def, ofNat_succ]
        simp
      have hcont (precision₁ : Word) (hprec₁ : j ≤ precision₁.toNat)
          (hrun : printLoop load (k + j + 1) p precision =
            (printLoop load (k + j) (p + 1) precision₁).char p b) :
          ∃ precision', (printLoop load (k + j + 1) p precision).ending =
              (printLoop load k (p + BitVec.ofNat 32 (j + 1)) precision').ending ∧
            (printLoop load (k + j + 1) p precision).reads =
              (List.range (j + 1)).map (fun i => p + BitVec.ofNat 32 i) ++
                (printLoop load k (p + BitVec.ofNat 32 (j + 1)) precision').reads := by
        obtain ⟨precision', hend, hread⟩ := ih hprec₁ hrest
        refine ⟨precision', ?_, ?_⟩
        · rw [hrun, ofNat_succ]
          exact hend
        · rw [hrun, ofNat_succ, ← hreads]
          exact congrArg (p :: ·) hread
      by_cases hneg : precision.slt 0 = true
      · refine hcont precision (by omega) ?_
        simp only [printLoop, hload', if_neg hb, if_pos hneg]
      · have hneg' := hneg
        rw [slt_zero_iff] at hneg'
        have hsub := toNat_pred (x := precision) (by omega)
        have hgo : ¬ (precision - 1).slt 0 = true := by
          rw [slt_zero_iff, hsub]
          omega
        refine hcont (precision - 1) (by omega) ?_
        simp only [printLoop, hload', if_neg hb, if_neg hneg, if_neg hgo]

/-- The byte the loop has come to is read. -/
theorem mem_reads_printLoop {k : ℕ} (p precision : Word) :
    p ∈ (printLoop load (k + 1) p precision).reads := by
  unfold printLoop
  split
  · simp
  · split
    · simp
    · split
      · simp [Printed.char]
      · split
        · simp
        · simp [Printed.char]

/-! ### The call -/

/-- `sys_cputs` reads what was checked, and does not fault. -/
def ReadsChecked (load : Word → Option (BitVec 8)) (s len : Word) : Prop :=
  (∀ va ∈ (printString load s len).reads, s ≤ va ∧ va.toNat < s.toNat + len.toNat) ∧
    (printString load s len).ending ≠ .fault

/-- There is a NUL among the characters to be printed. -/
def HasNul (load : Word → Option (BitVec 8)) (s len : Word) : Prop :=
  ∃ i < len.toNat, load (s + BitVec.ofNat 32 i) = some 0

theorem add_ofNat_toNat {s len : Word} {i : ℕ} (hlim : s.toNat + len.toNat < ulim.toNat)
    (hi : i ≤ len.toNat) : (s + BitVec.ofNat 32 i).toNat = s.toNat + i := by
  have hulim : ulim.toNat = 0xEF800000 := rfl
  rw [BitVec.toNat_add, BitVec.toNat_ofNat]
  omega

theorem readsChecked_of_nul {s len : Word} (hlim : s.toNat + len.toNat < ulim.toNat)
    (hloads : ∀ i < len.toNat, ∃ b, load (s + BitVec.ofNat 32 i) = some b) (hs : s ≠ 0)
    (hnul : HasNul load s len) : ReadsChecked load s len := by
  classical
  obtain ⟨hlt, hzero⟩ := Nat.find_spec hnul
  have hmin (i : ℕ) (hi : i < Nat.find hnul) :
      ∃ b, load (s + BitVec.ofNat 32 i) = some b ∧ b ≠ 0 := by
    obtain ⟨b, hb⟩ := hloads i (hi.trans hlt)
    refine ⟨b, hb, ?_⟩
    rintro rfl
    exact Nat.find_min hnul hi ⟨hi.trans hlt, hb⟩
  have hlen : len.toNat < 4294967296 := len.isLt
  obtain ⟨k, hk⟩ : ∃ k, 4294967296 = k + 1 + Nat.find hnul :=
    ⟨4294967296 - 1 - Nat.find hnul, by omega⟩
  obtain ⟨precision', hend, hreads⟩ :=
    @printLoop_pass load _ (k + 1) s len hlt.le hmin
  have hlast : printLoop load (k + 1) (s + BitVec.ofNat 32 (Nat.find hnul)) precision' =
      ⟨[s + BitVec.ofNat 32 (Nat.find hnul)], [], .done⟩ := by
    simp [printLoop, hzero]
  unfold ReadsChecked printString
  rw [if_neg hs, hk, hend, hreads, hlast]
  refine ⟨fun va hva => ?_, by simp⟩
  obtain ⟨i, hi, rfl⟩ : ∃ i < len.toNat, va = s + BitVec.ofNat 32 i := by
    rcases List.mem_append.mp hva with hva | hva
    · obtain ⟨i, hi, rfl⟩ := List.mem_map.mp hva
      exact ⟨i, (List.mem_range.mp hi).trans hlt, rfl⟩
    · exact ⟨_, hlt, by simpa using hva⟩
  have hnat := add_ofNat_toNat hlim hi.le
  rw [BitVec.le_def, hnat]
  omega

theorem not_readsChecked {s len : Word} (hlim : s.toNat + len.toNat < ulim.toNat)
    (hloads : ∀ i < len.toNat, ∃ b, load (s + BitVec.ofNat 32 i) = some b) (hs : s ≠ 0)
    (hnul : ¬ HasNul load s len) : ¬ ReadsChecked load s len := by
  intro hchecked
  have hbytes (i : ℕ) (hi : i < len.toNat) :
      ∃ b, load (s + BitVec.ofNat 32 i) = some b ∧ b ≠ 0 := by
    obtain ⟨b, hb⟩ := hloads i hi
    refine ⟨b, hb, ?_⟩
    rintro rfl
    exact hnul ⟨i, hi, hb⟩
  have hlen : len.toNat < 4294967296 := len.isLt
  obtain ⟨k, hk⟩ : ∃ k, 4294967296 = k + 1 + len.toNat := ⟨4294967296 - 1 - len.toNat, by omega⟩
  obtain ⟨precision', -, hreads⟩ := @printLoop_pass load _ (k + 1) s len le_rfl hbytes
  have hread : s + BitVec.ofNat 32 len.toNat ∈ (printString load s len).reads := by
    unfold printString
    rw [if_neg hs, hk, hreads]
    exact List.mem_append_right _ (mem_reads_printLoop _ _)
  have hbound := (hchecked.1 _ hread).2
  rw [add_ofNat_toNat hlim le_rfl] at hbound
  omega

/-- When `user_mem_assert` lets the call continue, what the formatter reads is
what was checked exactly if the string is the null pointer, which is not read
through, or has a NUL among its `len` characters. -/
theorem cputs_reads_checked {s len : Word} (hcr3 : m.cr3 c = d)
    (hcheck : userMemCheck M d s len pteU m = .ok none) :
    ReadsChecked (loadByte c m) s len ↔ s = 0 ∨ HasNul (loadByte c m) s len := by
  obtain ⟨hlim, hloads⟩ := userMemCheck_none hcr3 hcheck
  by_cases hs : s = 0
  · exact iff_of_true (by simp [ReadsChecked, printString, printNull, hs]) (Or.inl hs)
  · refine ⟨fun hchecked => Or.inr ?_, fun h => ?_⟩
    · by_contra hnul
      exact not_readsChecked hlim hloads hs hnul hchecked
    · exact readsChecked_of_nul hlim hloads hs (h.resolve_left hs)

/-- An environment executes with its own directory, and a call of `sys_cputs`
passes the check. -/
def passesCheck (str len : Word) (t : Kernel 1) : Bool :=
  match (t.envs 0).envPgdir with
  | none => false
  | some d => t.cpuEnv 0 = some 0 ∧ t.mem.cr3 0 = d ∧
      userMemCheck sampleMachine d str len pteU t.mem = .ok none

theorem passesCheck_eq_true {str len : Word} {t : Kernel 1} (h : passesCheck str len t = true) :
    ∃ d, t.mem.cr3 0 = d ∧ userMemCheck sampleMachine d str len pteU t.mem = .ok none := by
  unfold passesCheck at h
  split at h
  · cases h
  · rename_i d _
    simp only [decide_eq_true_eq] at h
    exact ⟨d, h.2.1, h.2.2⟩

/-- The new stack of the first environment holds a string, an empty one. -/
theorem cputs_reads_checked_stack : ∃ t : Kernel 1,
    ReadsChecked (loadByte 0 t.mem) (ustacktop - 0x1000#32) 5 := by
  obtain ⟨-, t, -, -, htest⟩ := sample_run 0 (fun _ _ => true) [.tick 0]
    (fun t : Kernel 1 => passesCheck (ustacktop - 0x1000#32) 5 t ∧
      loadByte 0 t.mem (ustacktop - 0x1000#32) = some 0) (fun _ => trivial) (by decide +kernel)
  simp only [Bool.decide_and, Bool.decide_eq_true, Bool.and_eq_true, decide_eq_true_eq] at htest
  obtain ⟨d, hcr3, hcheck⟩ := passesCheck_eq_true htest.1
  exact ⟨t, (cputs_reads_checked hcr3 hcheck).mpr (Or.inr ⟨0, by decide, by simpa using htest.2⟩)⟩

/-- A call for no characters at an address that is not mapped passes the check
and reads there. -/
theorem not_cputs_reads_checked : ¬ ∀ (s t : Kernel 1) (str len : Word),
    Booted sampleLayout 0 s → Run (Step sampleMachine) (fun _ _ => True) s t →
    passesCheck str len t → ReadsChecked (loadByte 0 t.mem) str len := by
  intro hall
  obtain ⟨s, t, hboot, hrun, htest⟩ := sample_run 0 (fun _ _ => true) [.tick 0]
    (fun t : Kernel 1 => passesCheck 0x1000 0 t ∧
      (printString (loadByte 0 t.mem) 0x1000 0).ending = .fault) (fun _ => trivial)
    (by decide +kernel)
  simp only [Bool.decide_and, Bool.decide_eq_true, Bool.and_eq_true, decide_eq_true_eq] at htest
  exact (hall s t 0x1000 0 hboot hrun htest.1).2 htest.2

end Jos
