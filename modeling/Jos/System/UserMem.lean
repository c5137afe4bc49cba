import Jos.Pmap.BootMap
import Jos.Pmap.Lookup
import Jos.System.Boot
import Mathlib.Order.Bounds.Basic

/-!
`user_mem_check`. The addresses of a range are counted without wrapping
around, so a range may go on past the end of the address space, and what the
environment may access is said byte by byte. The function agrees with that on
every range that ends below `ULIM`; the tests it makes before the loop are where
the two part.
-/

namespace Jos

open Jos.Lib

variable {n : ℕ} {M : Machine} {m : Mem n} {d : ℕ} {va len perm xva : Word}

/-- The walk finds a present entry with all of the permissions. -/
def Grants (m : Mem n) (d : ℕ) (perm va : Word) : Prop :=
  ∃ w, foundPte m d va = some w ∧ w &&& perm = perm

/-- The environment may access the byte at address `a`. -/
def Permitted (m : Mem n) (d : ℕ) (perm : Word) (a : ℕ) : Prop :=
  a < ulim.toNat ∧ Grants m d perm (BitVec.ofNat 32 a)

/-- The addresses of the range `[va, va+len)`. -/
def userRange (va len : Word) : Set ℕ := Set.Ico va.toNat (va.toNat + len.toNat)

/-! ### The loop -/

/-- How the loop ends over the addresses from `lo` to `hi`. -/
inductive Scanned (M : Machine) (m : Mem n) (d : ℕ) (perm : Word) (lo hi : ℕ) :
    Except String (Option Word) → Prop
  | all (h : ∀ a, lo ≤ a → a < hi →
      InMemory M m d (BitVec.ofNat 32 a) ∧ Grants m d perm (BitVec.ofNat 32 a)) :
      Scanned M m d perm lo hi (.ok none)
  | refused {r : Word} (hge : lo ≤ r.toNat) (hlt : r.toNat < hi) (hmem : InMemory M m d r)
      (hnot : ¬ Grants m d perm r)
      (h : ∀ a, lo ≤ a → a < r.toNat →
        InMemory M m d (BitVec.ofNat 32 a) ∧ Grants m d perm (BitVec.ofNat 32 a)) :
      Scanned M m d perm lo hi (.ok (some r))
  | outside {r : Word} {msg : String} (hge : lo ≤ r.toNat) (hlt : r.toNat < hi)
      (hmem : ¬ InMemory M m d r)
      (h : ∀ a, lo ≤ a → a < r.toNat →
        InMemory M m d (BitVec.ofNat 32 a) ∧ Grants m d perm (BitVec.ofNat 32 a)) :
      Scanned M m d perm lo hi (.error msg)

theorem userMemLoop_succ (k : ℕ) (hmem : InMemory M m d xva) :
    userMemLoop M d perm m (k + 1) xva =
      match foundPte m d xva with
      | some w => if w &&& perm ≠ perm then .ok (some xva) else
          userMemLoop M d perm m k (xva + 1)
      | none => .ok (some xva) := by
  rw [userMemLoop, pageLookup_found hmem]
  by_cases hP : Flag (m.word d (pdx xva)) pteP
  · have hfound := foundPte_of_flag hP
    by_cases hpte : Flag (m.word (pteFrame (m.word d (pdx xva))) (ptx xva)) pteP
    · rw [present_of_flag hpte] at hfound
      rw [hfound, present_of_flag hP]
      rfl
    · rw [present_of_not_flag hpte] at hfound
      rw [hfound, present_of_flag hP]
      rfl
  · rw [foundPte_of_not_flag hP, present_of_not_flag hP]
    rfl

/-- One more granted address before the others. -/
theorem Scanned.step {lo hi : ℕ} {r : Except String (Option Word)}
    (hfirst : InMemory M m d (BitVec.ofNat 32 lo) ∧ Grants m d perm (BitVec.ofNat 32 lo))
    (h : Scanned M m d perm (lo + 1) hi r) : Scanned M m d perm lo hi r := by
  have hall {u : ℕ} (hu : ∀ a, lo + 1 ≤ a → a < u →
      InMemory M m d (BitVec.ofNat 32 a) ∧ Grants m d perm (BitVec.ofNat 32 a))
      (a : ℕ) (hge : lo ≤ a) (hlt : a < u) :
      InMemory M m d (BitVec.ofNat 32 a) ∧ Grants m d perm (BitVec.ofNat 32 a) := by
    rcases hge.eq_or_lt with rfl | hgt
    · exact hfirst
    · exact hu a hgt hlt
  cases h with
  | all h => exact .all (hall h)
  | refused hge hlt hmem hnot h => exact .refused (by omega) hlt hmem hnot (hall h)
  | outside hge hlt hmem h => exact .outside (by omega) hlt hmem (hall h)

theorem userMemLoop_scanned (k : ℕ) (hk : xva.toNat + k < 4294967296) :
    Scanned M m d perm xva.toNat (xva.toNat + k) (userMemLoop M d perm m k xva) := by
  induction k generalizing xva with
  | zero => exact .all fun a hge hlt => by omega
  | succ k ih =>
      by_cases hmem : InMemory M m d xva
      · rw [userMemLoop_succ k hmem]
        cases hfound : foundPte m d xva with
        | none =>
            refine .refused le_rfl (by omega) hmem ?_ fun a hge hlt => by omega
            rintro ⟨w, hw, -⟩
            rw [hfound] at hw
            cases hw
        | some w =>
            dsimp only
            split
            · rename_i hperm
              refine .refused le_rfl (by omega) hmem ?_ fun a hge hlt => by omega
              rintro ⟨w', hw', hsub⟩
              rw [hfound] at hw'
              obtain rfl := Option.some.inj hw'
              exact hperm hsub
            · rename_i hperm
              have hnext : (xva + 1).toNat = xva.toNat + 1 := by
                rw [BitVec.toNat_add]
                exact Nat.mod_eq_of_lt (by simp; omega)
              have hrest : Scanned M m d perm (xva + 1).toNat ((xva + 1).toNat + k)
                  (userMemLoop M d perm m k (xva + 1)) := ih (by omega)
              rw [hnext, show xva.toNat + 1 + k = xva.toNat + (k + 1) by omega] at hrest
              refine hrest.step ?_
              rw [BitVec.ofNat_toNat, BitVec.setWidth_eq]
              exact ⟨hmem, w, hfound, not_not.mp hperm⟩
      · obtain ⟨msg, hlook⟩ := pageLookup_outside hmem
        rw [userMemLoop, hlook]
        exact .outside le_rfl (by omega) hmem fun a hge hlt => by omega

/-! ### The tests before the loop -/

theorem ulim_toNat : ulim.toNat = 4018143232 := rfl

theorem userMemCheck_above (h : ulim.toNat ≤ va.toNat) :
    userMemCheck M d va len perm m = .ok (some va) := by
  unfold userMemCheck
  exact if_pos (BitVec.le_def.mpr h)

/-- The range reaches `ULIM` or goes on past the end of the address space. -/
theorem userMemCheck_across (h : va.toNat < ulim.toNat)
    (hend : ulim.toNat ≤ va.toNat + len.toNat) :
    userMemCheck M d va len perm m = .ok (some ulim) := by
  have hlen := len.isLt
  unfold userMemCheck
  rw [if_neg (by rw [BitVec.le_def]; omega)]
  refine if_pos ?_
  rw [BitVec.le_def, BitVec.lt_def, BitVec.toNat_add]
  rw [ulim_toNat] at h hend ⊢
  omega

theorem userMemCheck_below (h : va.toNat + len.toNat < ulim.toNat) :
    Scanned M m d perm va.toNat (va.toNat + len.toNat) (userMemCheck M d va len perm m) := by
  have hsum : (va + len).toNat = va.toNat + len.toNat := by
    rw [BitVec.toNat_add]
    rw [ulim_toNat] at h
    exact Nat.mod_eq_of_lt (by omega)
  have hdiff : (va + len - va).toNat = len.toNat := by
    rw [add_sub_cancel_left]
  unfold userMemCheck
  rw [if_neg (by rw [BitVec.le_def]; omega), if_neg]
  · rw [hdiff]
    rw [ulim_toNat] at h
    exact userMemLoop_scanned len.toNat (by omega)
  · rw [BitVec.le_def, BitVec.lt_def, hsum]
    omega

/-! ### Deciding a range -/

theorem ofNat_toNat (r : Word) : BitVec.ofNat 32 r.toNat = r := by
  rw [BitVec.ofNat_toNat, BitVec.setWidth_eq]

namespace Scanned

variable {lo hi : ℕ} {r : Except String (Option Word)} {v : Option Word}

theorem none_iff (h : Scanned M m d perm lo hi (.ok v)) :
    v = none ↔ ∀ a, lo ≤ a → a < hi → Grants m d perm (BitVec.ofNat 32 a) := by
  cases h with
  | all h => exact iff_of_true rfl fun a hge hlt => (h a hge hlt).2
  | @refused r hge hlt hmem hnot h =>
      refine iff_of_false nofun fun hall => hnot ?_
      have hr := hall r.toNat hge hlt
      rwa [ofNat_toNat] at hr

/-- The loop stops at the first address that is not granted. -/
theorem inMemory (h : Scanned M m d perm lo hi (.ok v)) {a : ℕ} (hge : lo ≤ a) (hlt : a < hi)
    (hbefore : ∀ b, lo ≤ b → b < a → Grants m d perm (BitVec.ofNat 32 b)) :
    InMemory M m d (BitVec.ofNat 32 a) := by
  cases h with
  | all h => exact (h a hge hlt).1
  | @refused r hger hltr hmem hnot h =>
      rcases lt_trichotomy a r.toNat with har | rfl | har
      · exact (h a hge har).1
      · rwa [ofNat_toNat]
      · have hr := hbefore r.toNat hger har
        rw [ofNat_toNat] at hr
        exact absurd hr hnot

theorem returns (h : Scanned M m d perm lo hi r)
    (hmem : ∀ a, lo ≤ a → a < hi → (∀ b, lo ≤ b → b < a → Grants m d perm (BitVec.ofNat 32 b)) →
      InMemory M m d (BitVec.ofNat 32 a)) : ∃ v, r = .ok v := by
  cases h with
  | all => exact ⟨_, rfl⟩
  | refused => exact ⟨_, rfl⟩
  | @outside r msg hge hlt hnot h =>
      have hr := hmem r.toNat hge hlt fun b hb hbr => (h b hb hbr).2
      rw [ofNat_toNat] at hr
      exact absurd hr hnot

end Scanned

/-- `user_mem_check` returns, and it returns 0 if and only if the range does
not wrap around and the environment may access all of it. -/
def Decides (M : Machine) (m : Mem n) (d : ℕ) (va len perm : Word) : Prop :=
  ∃ r, userMemCheck M d va len perm m = .ok r ∧
    (r = none ↔ va.toNat + len.toNat ≤ 4294967296 ∧
      ∀ a ∈ userRange va len, Permitted m d perm a)

theorem permitted_of_below (hend : va.toNat + len.toNat < ulim.toNat) {a : ℕ}
    (ha : a ∈ userRange va len) :
    Permitted m d perm a ↔ Grants m d perm (BitVec.ofNat 32 a) :=
  and_iff_right (ha.2.trans hend)

/-- The check is exact unless the range ends at `ULIM` and all of it may be
accessed, or a walk leaves physical memory. -/
theorem user_mem_exact (hlen : 0 < len) :
    Decides M m d va len perm ↔
      ¬ (va.toNat + len.toNat = ulim.toNat ∧ ∀ a ∈ userRange va len, Permitted m d perm a) ∧
      (va.toNat + len.toNat < ulim.toNat → ∀ a ∈ userRange va len,
        (∀ b ∈ userRange va len, b < a → Permitted m d perm b) →
          InMemory M m d (BitVec.ofNat 32 a)) := by
  have hpos : 0 < len.toNat := hlen
  rcases Nat.lt_or_ge (va.toNat + len.toNat) ulim.toNat with hend | hend
  · -- the loop decides
    have hscan : Scanned M m d perm va.toNat (va.toNat + len.toNat)
        (userMemCheck M d va len perm m) := userMemCheck_below hend
    have hgrants : (∀ a ∈ userRange va len, Permitted m d perm a) ↔
        ∀ a, va.toNat ≤ a → a < va.toNat + len.toNat →
          Grants m d perm (BitVec.ofNat 32 a) :=
      ⟨fun h a hge hlt => (h a ⟨hge, hlt⟩).2,
        fun h a ha => (permitted_of_below hend ha).mpr (h a ha.1 ha.2)⟩
    have hle : va.toNat + len.toNat ≤ 4294967296 := by
      rw [ulim_toNat] at hend
      omega
    constructor
    · rintro ⟨r, hr, -⟩
      refine ⟨fun h => by omega, fun _ a ha hbefore => ?_⟩
      rw [hr] at hscan
      exact hscan.inMemory ha.1 ha.2 fun b hge hlt =>
        (hbefore b ⟨hge, hlt.trans ha.2⟩ hlt).2
    · rintro ⟨-, hmem⟩
      obtain ⟨r, hr⟩ := hscan.returns fun a hge hlt hbefore =>
        hmem hend a ⟨hge, hlt⟩ fun b hb hba =>
          (permitted_of_below hend hb).mpr (hbefore b hb.1 hba)
      rw [hr] at hscan
      exact ⟨r, hr, by rw [hscan.none_iff, hgrants, and_iff_right hle]⟩
  · -- the tests before the loop refuse
    obtain ⟨r, hr⟩ : ∃ r, userMemCheck M d va len perm m = .ok (some r) := by
      rcases Nat.lt_or_ge va.toNat ulim.toNat with hva | hva
      · exact ⟨_, userMemCheck_across hva hend⟩
      · exact ⟨_, userMemCheck_above hva⟩
    have hiff : Decides M m d va len perm ↔ ¬ (va.toNat + len.toNat ≤ 4294967296 ∧
        ∀ a ∈ userRange va len, Permitted m d perm a) := by
      constructor
      · rintro ⟨r', hr', hnone⟩ hall
        rw [hnone.mpr hall, hr] at hr'
        cases hr'
      · exact fun hnot => ⟨some r, hr, iff_of_false nofun hnot⟩
    rw [hiff]
    constructor
    · intro hnot
      refine ⟨fun hall => hnot ⟨?_, hall.2⟩, fun hlt => by omega⟩
      rw [hall.1]
      decide
    · rintro ⟨hnot, -⟩ ⟨-, hall⟩
      -- the last byte is below `ULIM`, so that is where the range ends
      have hlast := (hall (va.toNat + len.toNat - 1) ⟨by omega, by omega⟩).1
      exact hnot ⟨by omega, hall⟩

theorem user_mem_exact_null : Decides sampleMachine (sampleMem 1) 280 0 4 (pteU ||| pteP) := by
  refine (user_mem_exact (by decide)).mpr ⟨fun h => absurd h.1 (by decide), fun _ a ha _ => ?_⟩
  have hunmapped : ∀ a < 4, (sampleMem 1).word 280 (pdx (BitVec.ofNat 32 a)) = 0#32 := by
    decide
  have hzero := hunmapped a ha.2
  have hP : ¬ Flag ((sampleMem 1).word 280 (pdx (BitVec.ofNat 32 a))) pteP := by
    rw [hzero]
    exact not_flag_zero _
  refine ⟨by rw [hzero]; decide, fun w hw => ?_⟩
  rw [foundPte_of_not_flag hP] at hw
  cases hw

/-- What a walk through the directory of the first environment finds. -/
def firstPte (s : Kernel n) (va : Word) : Option Word :=
  (s.dirs 0).bind fun d => foundPte s.mem d va

/-- The last byte below `ULIM` shows the last entry of the directory, which is
open to users. -/
theorem last_byte : ∃ s : Kernel 1, Booted sampleLayout 0 s ∧
    firstPte s (ulim - 1) = some (tablePde 575) := by
  have hrun : (bootWith sampleMachine (sampleMem 1) 0 [sampleElf]).map
      (fun s => decide (firstPte s (ulim - 1) = some (tablePde 575))) = some true := by
    decide +kernel
  obtain ⟨s, hs, htest⟩ := sample_booted 0 _ hrun
  exact ⟨s, hs, of_decide_eq_true htest⟩

theorem not_user_mem_exact : ¬ ∀ (s : Kernel 1) (e : EnvIdx) (d : ℕ),
    Booted sampleLayout 0 s → s.dirs e = some d → ∀ va len perm : Word, 0 < len →
      Decides sampleMachine s.mem d va len perm := by
  intro hall
  obtain ⟨s, hboot, hpte⟩ := last_byte
  obtain ⟨d, hd, hfound⟩ := Option.bind_eq_some_iff.mp hpte
  have hdec := hall s 0 d hboot hd (ulim - 1) 1 (pteU ||| pteP) (by decide)
  have hend : (ulim - 1).toNat + (1 : Word).toNat = ulim.toNat := by decide
  obtain ⟨r, hr, hiff⟩ := hdec
  rw [userMemCheck_across (by decide) hend.ge] at hr
  cases hr
  refine absurd (hiff.mpr ⟨by decide, fun a ha => ?_⟩) nofun
  have hlast : a = (ulim - 1).toNat := by
    have hge := ha.1
    have hlt := ha.2
    rw [hend] at hlt
    have hval : (ulim - 1).toNat + 1 = ulim.toNat := by decide
    omega
  subst hlast
  exact ⟨by decide, _, by rwa [ofNat_toNat], by decide⟩

/-! ### The address that is reported -/

/-- When `user_mem_check` returns `-E_FAULT`, `user_mem_check_addr` is the first
address of the range that the environment may not access. -/
def ReportsFirst (M : Machine) (m : Mem n) (d : ℕ) (va len perm : Word) : Prop :=
  ∀ a, userMemCheck M d va len perm m = .ok (some a) →
    IsLeast {b ∈ userRange va len | ¬ Permitted m d perm b} a.toNat

theorem not_permitted_above {a : ℕ} (h : ulim.toNat ≤ a) : ¬ Permitted m d perm a :=
  fun hper => absurd hper.1 (by omega)

theorem Scanned.first (hend : va.toNat + len.toNat < ulim.toNat)
    (h : Scanned M m d perm va.toNat (va.toNat + len.toNat) (.ok (some xva))) :
    IsLeast {b ∈ userRange va len | ¬ Permitted m d perm b} xva.toNat := by
  cases h with
  | refused hge hlt hmem hnot h =>
      refine ⟨⟨⟨hge, hlt⟩, fun hper => hnot ?_⟩, fun b hb => ?_⟩
      · have hgrants := hper.2
        rwa [ofNat_toNat] at hgrants
      · by_contra hbr
        have hlow : b < xva.toNat := Nat.lt_of_not_ge hbr
        exact hb.2 ((permitted_of_below hend hb.1).mpr (h b hb.1.1 hlow).2)

/-- The address is the first offending one unless the range starts below `ULIM`
and does not end there. -/
theorem user_mem_first (hlen : 0 < len) :
    ReportsFirst M m d va len perm ↔
      (va.toNat < ulim.toNat → ulim.toNat ≤ va.toNat + len.toNat →
        ulim.toNat < va.toNat + len.toNat ∧
          ∀ a, va.toNat ≤ a → a < ulim.toNat → Permitted m d perm a) := by
  have hpos : 0 < len.toNat := hlen
  rcases Nat.lt_or_ge va.toNat ulim.toNat with hva | hva
  · rcases Nat.lt_or_ge (va.toNat + len.toNat) ulim.toNat with hend | hend
    · refine iff_of_true (fun a ha => ?_) fun _ h => by omega
      have hscan : Scanned M m d perm va.toNat (va.toNat + len.toNat)
          (userMemCheck M d va len perm m) := userMemCheck_below hend
      rw [ha] at hscan
      exact hscan.first hend
    · have hrun : userMemCheck M d va len perm m = .ok (some ulim) :=
        userMemCheck_across hva hend
      have hleast : ReportsFirst M m d va len perm ↔
          IsLeast {b ∈ userRange va len | ¬ Permitted m d perm b} ulim.toNat :=
        ⟨fun h => h ulim hrun, fun h a ha => by
          rw [hrun] at ha
          cases ha
          exact h⟩
      rw [hleast]
      constructor
      · rintro ⟨⟨hmem, -⟩, hlow⟩ - -
        refine ⟨hmem.2, fun a hge hlt => ?_⟩
        by_contra hnot
        exact absurd (hlow ⟨⟨hge, by omega⟩, hnot⟩) (by omega)
      · intro hcond
        obtain ⟨hlt, hall⟩ := hcond hva hend
        refine ⟨⟨⟨hva.le, hlt⟩, not_permitted_above le_rfl⟩, fun b hb => ?_⟩
        by_contra hbu
        exact hb.2 (hall b hb.1.1 (Nat.lt_of_not_ge hbu))
  · refine iff_of_true (fun a ha => ?_) fun h => by omega
    rw [userMemCheck_above hva] at ha
    cases ha
    exact ⟨⟨⟨le_rfl, by omega⟩, not_permitted_above hva⟩, fun b hb => hb.1.1⟩

theorem user_mem_first_null : ReportsFirst sampleMachine (sampleMem 1) 280 0 4 (pteU ||| pteP) :=
  (user_mem_first (by decide)).mpr fun _ hend => absurd hend (by decide)

/-- A range from the null page to the kernel. -/
theorem not_user_mem_first : ¬ ∀ (s : Kernel 1) (e : EnvIdx) (d : ℕ),
    Booted sampleLayout 0 s → s.dirs e = some d → ∀ va len perm : Word, 0 < len →
      ReportsFirst sampleMachine s.mem d va len perm := by
  intro hall
  have hrun : (bootWith sampleMachine (sampleMem 1) 0 [sampleElf]).map
      (fun s => decide (s.dirs 0 ≠ none ∧ firstPte s 0 = none)) = some true := by
    decide +kernel
  obtain ⟨s, hboot, htest⟩ := sample_booted 0 _ hrun
  obtain ⟨hdir, hpte⟩ := of_decide_eq_true htest
  obtain ⟨d, hd⟩ := Option.ne_none_iff_exists'.mp hdir
  rw [firstPte, hd, Option.bind_some] at hpte
  have hleast := hall s 0 d hboot hd 0 0xF0000000 (pteU ||| pteP) (by decide) ulim
    (userMemCheck_across (by decide) (by decide))
  have hnull : ¬ Permitted s.mem d (pteU ||| pteP) 0 := by
    rintro ⟨-, w, hw, -⟩
    exact absurd (hpte.symm.trans hw) nofun
  exact absurd (hleast.2 ⟨⟨le_rfl, by decide⟩, hnull⟩) (by decide)

/-! ### The memory-management unit -/

/-- The page tables that `mem_init` makes above `UTOP` leave the decision to
their entries, except for the window that shows the directory. -/
def Layout.Permissive (L : Layout M) : Prop :=
  ∀ i : PtIdx, 955 ≤ (i : ℕ) → i ≠ pdx uvpt → Flag (L.kern M.kernPgdir i) pteP →
    Flag (L.kern M.kernPgdir i) pteU ∧ Flag (L.kern M.kernPgdir i) pteW

/-- What `user_mem_check` accepts user code can access. -/
def SoundForMmu (M : Machine) (m : Mem n) (d : ℕ) (va len perm : Word) : Prop :=
  userMemCheck M d va len perm m = .ok none → ∀ a ∈ userRange va len,
    userRead m d (BitVec.ofNat 32 a) ≠ none ∧
      (Flag perm pteW → userWrite m d (BitVec.ofNat 32 a) ≠ none)

theorem userRead_ne_none : userRead m d va ≠ none ↔
    ∃ w, foundPte m d va = some w ∧ Flag (m.word d (pdx va)) pteU ∧ Flag w pteU := by
  unfold userRead
  dsimp only
  by_cases hP : Flag (m.word d (pdx va)) pteP
  · rw [foundPte_of_flag hP]
    simp only [present_eq_some, ne_eq, ite_eq_right_iff, reduceCtorEq, imp_false, not_not]
    constructor
    · rintro ⟨-, hU, hpte, hU'⟩
      exact ⟨_, ⟨hpte, rfl⟩, hU, hU'⟩
    · rintro ⟨w, ⟨hpte, rfl⟩, hU, hU'⟩
      exact ⟨hP, hU, hpte, hU'⟩
  · rw [foundPte_of_not_flag hP]
    simp [hP]

theorem userWrite_ne_none (hread : userRead m d va ≠ none) {w : Word}
    (hw : foundPte m d va = some w) :
    userWrite m d va ≠ none ↔ Flag (m.word d (pdx va)) pteW ∧ Flag w pteW := by
  have hP : Flag (m.word d (pdx va)) pteP := by
    by_contra hP
    rw [foundPte_of_not_flag hP] at hw
    cases hw
  rw [foundPte_of_flag hP, present_eq_some] at hw
  obtain ⟨-, rfl⟩ := hw
  unfold userWrite
  dsimp only
  split
  · exact iff_of_true hread (by assumption)
  · exact iff_of_false (fun h => h rfl) (by assumption)

variable {L : Layout M} {nullOk : Prop} {held : Option ℕ} {dirs : Dirs} {e : EnvIdx}

/-- Below `ULIM` every page table is open to the user, and all but the window
to writing. -/
theorem MemInv.pde_flags (h : MemInv L nullOk held dirs m) (hL : L.Permissive)
    (hd : dirs e = some d) (hva : (pdx va : ℕ) < 958) (hP : Flag (m.word d (pdx va)) pteP) :
    Flag (m.word d (pdx va)) pteU ∧
      (Flag (m.word d (pdx va)) pteW ↔ pdx va ≠ pdx uvpt) := by
  by_cases hi : (pdx va : ℕ) < 955
  · have ht : tableAt m.word dirs e (pdx va) = some (pteFrame (m.word d (pdx va))) := by
      rw [tableAt_of_dir hi hd, present_of_flag hP]
      rfl
    have hne : pdx va ≠ pdx uvpt := by
      intro heq
      rw [heq, pdx_uvpt] at hi
      omega
    rw [h.tables.pde hd ht]
    exact ⟨flag_tablePde_U _, iff_of_true (flag_tablePde_W _) hne⟩
  · rw [h.tables.dirKern hd (by omega)] at hP ⊢
    split
    · rename_i heq
      have hlow (mask : Word) (hmask : mask.toNat < 4096) : ¬ Flag (frame2pa d) mask :=
        not_flag_frame2pa (low_bits_of_lt hmask) d
      rw [flag_or, flag_or, flag_or, flag_or]
      refine ⟨Or.inr (by decide), iff_of_false ?_ (fun h => h heq)⟩
      rintro ((hW | hW) | hW)
      · exact hlow pteW (by decide) hW
      · exact absurd hW (by decide)
      · exact absurd hW (by decide)
    · rename_i hne
      rw [if_neg hne] at hP
      have hflags := hL (pdx va) (by omega) hne hP
      exact ⟨hflags.1, iff_of_true hflags.2 hne⟩

theorem window_iff {a : ℕ} (ha : a < ulim.toNat) :
    (pdx (BitVec.ofNat 32 a) : ℕ) < 958 ∧
      (pdx (BitVec.ofNat 32 a) = pdx uvpt ↔ uvpt.toNat ≤ a) := by
  have hu : uvpt.toNat = 4013948928 := rfl
  rw [ulim_toNat] at ha
  have hval : (pdx (BitVec.ofNat 32 a) : ℕ) = a / 4194304 := by
    rw [pdx_val, BitVec.toNat_ofNat, Nat.mod_eq_of_lt (by omega)]
  refine ⟨by omega, ?_⟩
  rw [Fin.ext_iff, hval, pdx_uvpt, hu]
  omega

/-- What is accepted, in terms of the walks. -/
theorem userMemCheck_none_iff (hlen : 0 < len) :
    userMemCheck M d va len perm m = .ok none ↔ va.toNat + len.toNat < ulim.toNat ∧
      ∀ a ∈ userRange va len, InMemory M m d (BitVec.ofNat 32 a) ∧
        Permitted m d perm a := by
  have hpos : 0 < len.toNat := hlen
  rcases Nat.lt_or_ge (va.toNat + len.toNat) ulim.toNat with hend | hend
  · have hscan : Scanned M m d perm va.toNat (va.toNat + len.toNat)
        (userMemCheck M d va len perm m) := userMemCheck_below hend
    rw [and_iff_right hend]
    constructor
    · intro hrun a ha
      rw [hrun] at hscan
      cases hscan with
      | all h =>
          obtain ⟨hmem, hgrants⟩ := h a ha.1 ha.2
          exact ⟨hmem, (permitted_of_below hend ha).mpr hgrants⟩
    · intro hall
      obtain ⟨v, hv⟩ := hscan.returns fun a hge hlt _ => (hall a ⟨hge, hlt⟩).1
      rw [hv] at hscan ⊢
      rw [hscan.none_iff.mpr fun a hge hlt => (hall a ⟨hge, hlt⟩).2.2]
  · refine iff_of_false (fun hrun => ?_) fun h => by omega
    rcases Nat.lt_or_ge va.toNat ulim.toNat with hva | hva
    · rw [userMemCheck_across hva hend] at hrun
      cases hrun
    · rw [userMemCheck_above hva] at hrun
      cases hrun

/-- The check is sound for the hardware unless write access to the window at
`UVPT` is asked for: the entry that the walk finds there is an entry of the
directory and writable, but the entry of the window itself is not. -/
theorem user_mem_sound (h : MemInv L nullOk held dirs m) (hL : L.Permissive)
    (hd : dirs e = some d) (hlen : 0 < len) (hU : Flag perm pteU) :
    SoundForMmu M m d va len perm ↔
      ¬ (Flag perm pteW ∧ va.toNat + len.toNat < ulim.toNat ∧
        (∀ a ∈ userRange va len, InMemory M m d (BitVec.ofNat 32 a) ∧ Permitted m d perm a) ∧
        ∃ a ∈ userRange va len, uvpt.toNat ≤ a) := by
  have hflags {a : ℕ} (ha : Permitted m d perm a) : ∃ w,
      foundPte m d (BitVec.ofNat 32 a) = some w ∧ w &&& perm = perm ∧
      Flag (m.word d (pdx (BitVec.ofNat 32 a))) pteU ∧
      (Flag (m.word d (pdx (BitVec.ofNat 32 a))) pteW ↔ ¬ uvpt.toNat ≤ a) := by
    obtain ⟨hlt, w, hw, hsub⟩ := ha
    obtain ⟨hidx, hwin⟩ := window_iff hlt
    have hP : Flag (m.word d (pdx (BitVec.ofNat 32 a))) pteP := by
      by_contra hP
      rw [foundPte_of_not_flag hP] at hw
      cases hw
    obtain ⟨hpde, hpdeW⟩ := h.pde_flags hL hd hidx hP
    exact ⟨w, hw, hsub, hpde, hpdeW.trans (not_congr hwin)⟩
  constructor
  · rintro hsound ⟨hW, hend, hall, a, ha, hwin⟩
    obtain ⟨w, hw, hsub, -, hpdeW⟩ := hflags (hall a ha).2
    obtain ⟨hread, hwrite⟩ := hsound ((userMemCheck_none_iff hlen).mpr ⟨hend, hall⟩) a ha
    have hdenied := (userWrite_ne_none hread hw).mp (hwrite hW)
    exact hpdeW.mp hdenied.1 hwin
  · intro hnot hrun a ha
    obtain ⟨hend, hall⟩ := (userMemCheck_none_iff hlen).mp hrun
    obtain ⟨w, hw, hsub, hpde, hpdeW⟩ := hflags (hall a ha).2
    have hread := userRead_ne_none.mpr ⟨w, hw, hpde, flag_of_and_eq hsub hU⟩
    refine ⟨hread, fun hW => (userWrite_ne_none hread hw).mpr ⟨hpdeW.mpr fun hwin => ?_, ?_⟩⟩
    · exact hnot ⟨hW, hend, hall, a, ha, hwin⟩
    · exact flag_of_and_eq hsub hW

theorem sample_permissive : sampleLayout.Permissive := by
  intro i hi hne hP
  obtain ⟨t, ht⟩ : ∃ t, sampleKern 280 i = tablePde t := by
    change Flag (sampleKern 280 i) pteP at hP
    unfold sampleKern at hP ⊢
    rw [if_pos rfl, if_neg hne] at hP ⊢
    split
    · exact ⟨_, rfl⟩
    · split
      · exact ⟨_, rfl⟩
      · split
        · exact ⟨_, rfl⟩
        · rename_i h960 h956 h955
          rw [if_neg h960, if_neg h956, if_neg h955] at hP
          exact absurd hP (not_flag_zero _)
  change Flag (sampleKern 280 i) pteU ∧ Flag (sampleKern 280 i) pteW
  rw [ht]
  exact ⟨flag_tablePde_U t, flag_tablePde_W t⟩

/-- What `user_mem_check` and the hardware say about four bytes in the first
environment. -/
def firstCheck (s : Kernel n) (va perm : Word) : Bool × Bool :=
  match s.dirs 0 with
  | none => (false, false)
  | some d =>
      (match userMemCheck sampleMachine d va 4 perm s.mem with
        | .ok none => true
        | _ => false, userWrite s.mem d va ≠ none)

theorem firstCheck_eq {s : Kernel n} {write : Bool}
    (hcheck : firstCheck s va perm = (true, write)) :
    ∃ d, s.dirs 0 = some d ∧ userMemCheck sampleMachine d va 4 perm s.mem = .ok none ∧
      (userWrite s.mem d va ≠ none ↔ write = true) := by
  unfold firstCheck at hcheck
  cases hd : s.dirs 0 with
  | none => simp [hd] at hcheck
  | some d =>
      rw [hd] at hcheck
      simp only [Prod.mk.injEq] at hcheck
      obtain ⟨hrun, hwrite⟩ := hcheck
      refine ⟨d, rfl, ?_, by simp [← hwrite]⟩
      split at hrun
      · assumption
      · cases hrun

/-- The stack of the first environment is accepted, and writable. -/
theorem user_mem_sound_stack : ∃ (s : Kernel 1) (d : ℕ), Booted sampleLayout 0 s ∧
    userMemCheck sampleMachine d (ustacktop - 4) 4 (pteU ||| pteW) s.mem = .ok none ∧
    SoundForMmu sampleMachine s.mem d (ustacktop - 4) 4 (pteU ||| pteW) := by
  have hrun : (bootWith sampleMachine (sampleMem 1) 0 [sampleElf]).map
      (fun s => decide (firstCheck s (ustacktop - 4) (pteU ||| pteW) = (true, true))) =
        some true := by
    decide +kernel
  obtain ⟨s, hboot, htest⟩ := sample_booted 0 _ hrun
  obtain ⟨d, hd, hcheck, -⟩ := firstCheck_eq (of_decide_eq_true htest)
  have hsys : SysInv sampleLayout True none s := hboot.sys
  refine ⟨s, d, hboot, hcheck, (user_mem_sound hsys.mem sample_permissive hd (by decide)
    (by decide)).mpr ?_⟩
  rintro ⟨-, -, -, a, ha, hwin⟩
  have hlt := ha.2
  have hend : (ustacktop - 4).toNat + (4 : Word).toNat < uvpt.toNat := by decide
  omega

/-- The directory's entry for the kernel's memory, seen through the window. -/
theorem not_user_mem_sound : ¬ ∀ (s : Kernel 1) (e : EnvIdx) (d : ℕ),
    Booted sampleLayout 0 s → s.dirs e = some d → ∀ va len perm : Word, 0 < len →
      Flag perm pteU → SoundForMmu sampleMachine s.mem d va len perm := by
  intro hall
  have hrun : (bootWith sampleMachine (sampleMem 1) 0 [sampleElf]).map
      (fun s => decide (firstCheck s 0xEF7C0000 (pteU ||| pteW) = (true, false))) =
        some true := by
    decide +kernel
  obtain ⟨s, hboot, htest⟩ := sample_booted 0 _ hrun
  obtain ⟨d, hd, hcheck, hwrite⟩ := firstCheck_eq (of_decide_eq_true htest)
  have hsound := hall s 0 d hboot hd 0xEF7C0000 4 (pteU ||| pteW) (by decide) (by decide) hcheck
    0xEF7C0000 ⟨by decide, by decide⟩
  exact absurd (hwrite.mp (hsound.2 (by decide))) (by decide)

end Jos
