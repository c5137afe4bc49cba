import Jos.Inc.Mmu
import Jos.Lib.Search

/-!
kern/kdebug.c: `stab_binsearch`. The stab table is read at any index, as the
code reads it through a pointer, and the accesses are kept. On an exact match
the search goes on with the address increased by one, so that it finds the end
of the region too. An entry for this next address then looks like an exact
match as well. And if only greater entries are met, the scan at the end runs as
if the left end were one of them.
-/

namespace Jos

open Jos.Lib

/-! ### Stabs -/

structure Stab where
  nStrx : Word
  nType : BitVec 8
  nDesc : BitVec 16
  nValue : Word

inductive StabField where
  | strx | type | desc | value
  deriving DecidableEq

/-- An access to a field of an entry. -/
abbrev Access := ℤ × StabField

variable (stabs : ℤ → Stab) (type : ℤ)

def HasType (i : ℤ) : Prop := ((stabs i).nType.toNat : ℤ) = type

instance : DecidablePred (HasType stabs type) := fun _ => Int.instDecidableEq _ _

def valueAt (i : ℤ) : ℕ := (stabs i).nValue.toNat

/-- The tests of `n_type` in a scan of `k` entries down from `i`. -/
def typeReads (k : ℕ) (i : ℤ) : List Access :=
  (scanned (HasType stabs type) k i).map fun j => (j, .type)

/-! ### The search -/

structure Search where
  l : ℤ
  r : ℤ
  regionLeft : ℤ
  regionRight : ℤ
  anyMatches : Bool
  addr : Word
  reads : List Access

/-- The body of the loop of `stab_binsearch`. -/
def searchStep (s : Search) : Search :=
  let trueM := mid s.l s.r
  let k := (trueM - s.l + 1).toNat
  let m := scanDown (HasType stabs type) k trueM
  let s := { s with reads := s.reads ++ typeReads stabs type k trueM }
  if m < s.l then { s with l := trueM + 1 }
  else
    let s := { s with anyMatches := true, reads := s.reads ++ [(m, StabField.value)] }
    if (stabs m).nValue < s.addr then { s with regionLeft := m, l := trueM + 1 }
    else if s.addr < (stabs m).nValue then { s with regionRight := m - 1, r := m - 1 }
    else { s with regionLeft := m, l := m, addr := s.addr + 1 }

/-- The loop, for `k` rounds at most. -/
def searchLoop : ℕ → Search → Search
  | 0, s => s
  | k + 1, s => if s.l ≤ s.r then searchLoop k (searchStep stabs type s) else s

def searchStart (left right : ℤ) (addr : Word) : Search :=
  ⟨left, right, left, right, false, addr, []⟩

/-- More rounds than the loop takes. -/
def searchRounds (left right : ℤ) : ℕ := (2 * (right - left + 1) + 1).toNat

/-- What `stab_binsearch` leaves in `*region_left` and `*region_right`. -/
structure StabRegion where
  left : ℤ
  right : ℤ
  reads : List Access

/-- The end of `stab_binsearch`, after the loop. -/
def searchEnd (s : Search) : StabRegion :=
  if s.anyMatches then
    let k := (s.regionRight - s.regionLeft).toNat
    ⟨scanDown (HasType stabs type) k s.regionRight, s.regionRight,
      s.reads ++ typeReads stabs type k s.regionRight⟩
  else ⟨s.regionLeft, s.regionLeft - 1, s.reads⟩

def stabBinsearch (left right : ℤ) (addr : Word) : StabRegion :=
  searchEnd stabs type
    (searchLoop stabs type (searchRounds left right) (searchStart left right addr))

variable {stabs} {type}

/-! ### One round -/

/-- The lower half has no entry of the type. -/
def Gap (stabs : ℤ → Stab) (type : ℤ) (s : Search) : Prop :=
  ∀ i, s.l ≤ i → i ≤ mid s.l s.r → ¬ HasType stabs type i

/-- Entry `m` is the last of the type in the lower half. -/
structure Probed (stabs : ℤ → Stab) (type : ℤ) (s : Search) (m : ℤ) : Prop where
  lo : s.l ≤ m
  hi : m ≤ mid s.l s.r
  holds : HasType stabs type m
  skip : ∀ i, m < i → i ≤ mid s.l s.r → ¬ HasType stabs type i
  probe : probe (HasType stabs type) s.l s.r = m

/-- All that a round can do. -/
theorem searchStep_cases {s : Search} (h : s.l ≤ s.r) :
    (Gap stabs type s ∧ probe (HasType stabs type) s.l s.r < s.l ∧
      ∃ reads, searchStep stabs type s = { s with l := mid s.l s.r + 1, reads := reads }) ∨
    ∃ m reads, Probed stabs type s m ∧
      ((stabs m).nValue < s.addr ∧ searchStep stabs type s =
          { s with regionLeft := m, l := mid s.l s.r + 1, anyMatches := true, reads := reads } ∨
        s.addr < (stabs m).nValue ∧ searchStep stabs type s =
          { s with regionRight := m - 1, r := m - 1, anyMatches := true, reads := reads } ∨
        (stabs m).nValue = s.addr ∧ searchStep stabs type s =
          { s with regionLeft := m, l := m, addr := s.addr + 1, anyMatches := true,
                   reads := reads }) := by
  have hprobe : scanDown (HasType stabs type) (mid s.l s.r - s.l + 1).toNat (mid s.l s.r) =
      probe (HasType stabs type) s.l s.r := rfl
  set reads := s.reads ++
    typeReads stabs type (mid s.l s.r - s.l + 1).toNat (mid s.l s.r) with hreads
  set m := probe (HasType stabs type) s.l s.r with hm
  rcases probe_cases (p := HasType stabs type) h with ⟨hlt, hgap⟩ | ⟨hlo, hhi, htype, hskip⟩
  · refine Or.inl ⟨hgap, hlt, reads, ?_⟩
    rw [← hm] at hlt
    simp only [searchStep, hprobe, if_pos hlt, hreads]
  · refine Or.inr ⟨m, reads ++ [(m, .value)], ⟨hlo, hhi, htype, hskip, hm.symm⟩, ?_⟩
    rw [← hm] at hlo
    simp only [searchStep, hprobe, if_neg (not_lt.mpr hlo), ← hreads]
    by_cases hbelow : (stabs m).nValue < s.addr
    · exact Or.inl ⟨hbelow, if_pos hbelow⟩
    · by_cases habove : s.addr < (stabs m).nValue
      · exact Or.inr (Or.inl ⟨habove, (if_neg hbelow).trans (if_pos habove)⟩)
      · refine Or.inr (Or.inr ⟨?_, (if_neg hbelow).trans (if_neg habove)⟩)
        rw [BitVec.lt_def] at hbelow habove
        exact BitVec.eq_of_toNat_eq (by omega)

/-! ### The loop ends -/

/-- Every round makes the region smaller, but for an exact match at its left
end. The entry there is not an exact match again. -/
def potential (stabs : ℤ → Stab) (s : Search) : ℕ :=
  2 * (s.r - s.l + 1).toNat + if (stabs s.l).nValue + 1 = s.addr then 0 else 1

theorem searchStep_potential {s : Search} (h : s.l ≤ s.r) :
    potential stabs (searchStep stabs type s) < potential stabs s := by
  obtain ⟨hlo, hhi⟩ := mid_bounds h
  have hle (b : Prop) [Decidable b] : (if b then 0 else 1) ≤ 1 := by split <;> omega
  have hsmaller {s' : Search} (hsize : s'.r - s'.l < s.r - s.l) :
      potential stabs s' < potential stabs s := by
    have hone := hle ((stabs s'.l).nValue + 1 = s'.addr)
    unfold potential
    omega
  rcases @searchStep_cases stabs type s h with
    ⟨-, -, reads, hstep⟩ | ⟨m, reads, hm, ⟨-, hstep⟩ | ⟨-, hstep⟩ | ⟨heq, hstep⟩⟩
  · rw [hstep]
    exact hsmaller (by simp only; omega)
  · rw [hstep]
    exact hsmaller (by simp only; omega)
  · rw [hstep]
    have hml := hm.lo
    have hmh := hm.hi
    exact hsmaller (by simp only; omega)
  · rw [hstep]
    rcases eq_or_lt_of_le hm.lo with hml | hml
    · -- the exact match is at the left end
      have hbefore : ¬ (stabs s.l).nValue + 1 = s.addr := by
        rw [hml, heq]
        exact fun h => by simp at h
      subst hml
      unfold potential
      rw [if_neg hbefore]
      simp only [heq, if_true]
      omega
    · exact hsmaller (by simp only; omega)

theorem searchLoop_over {k : ℕ} {s : Search} (h : potential stabs s ≤ k) :
    (searchLoop stabs type k s).r < (searchLoop stabs type k s).l := by
  induction k generalizing s with
  | zero =>
      unfold potential at h
      change s.r < s.l
      omega
  | succ k ih =>
      unfold searchLoop
      split
      · rename_i hle
        have hlt := @searchStep_potential stabs type s hle
        exact ih (by omega)
      · rename_i hgt
        exact not_le.mp hgt

theorem searchLoop_done {k : ℕ} {s : Search} (h : s.r < s.l) : searchLoop stabs type k s = s := by
  cases k with
  | zero => rfl
  | succ k => exact if_neg (not_le.mpr h)

/-- The loop of `stab_binsearch` has come to its end, whatever the table. -/
theorem stabBinsearch_over (left right : ℤ) (addr : Word) :
    let s := searchLoop stabs type (searchRounds left right) (searchStart left right addr)
    s.r < s.l := by
  rcases lt_or_ge right left with hlt | hge
  · have hstart : (searchStart left right addr).r < (searchStart left right addr).l := hlt
    rwa [searchLoop_done hstart]
  · refine searchLoop_over ?_
    unfold potential searchRounds searchStart
    simp only
    split <;> omega

/-! ### Searching for one address -/

/-- Of `[L, R]` the search for address `a` has not yet seen an exact match. -/
structure Phase (stabs : ℤ → Stab) (type : ℤ) (a : ℕ) (found : Prop) (L R : ℤ) (s : Search) :
    Prop where
  addr : s.addr.toNat = a
  right : s.regionRight = s.r
  bracket : Bracket (HasType stabs type) (valueAt stabs) a L R s.l s.r
  left : (s.regionLeft = L ∧ ∀ i, L ≤ i → i < s.l → ¬ HasType stabs type i) ∨
    (L ≤ s.regionLeft ∧ s.regionLeft < s.l ∧ HasType stabs type s.regionLeft ∧
      ∀ i, s.regionLeft < i → i < s.l → ¬ HasType stabs type i)
  any : s.anyMatches = true ↔
    found ∨ ∃ i, L ≤ i ∧ i ≤ R ∧ HasType stabs type i ∧ (i < s.l ∨ s.r < i)

/-- The state after an exact match at `m`, with `[m, r]` left of the region. -/
structure Met (stabs : ℤ → Stab) (type : ℤ) (a : ℕ) (L R m r : ℤ) (s : Search) : Prop where
  addr : s.addr = BitVec.ofNat 32 (a + 1)
  start : s.l = m
  stop : s.r = r
  left : s.regionLeft = m
  right : s.regionRight = r
  any : s.anyMatches = true
  holds : HasType stabs type m
  value : valueAt stabs m = a
  le : m ≤ r
  bracket : ∃ l ≤ m, Bracket (HasType stabs type) (valueAt stabs) a L R l r

variable {a : ℕ} {found : Prop} {L R : ℤ} {s : Search}

theorem Phase.gap (h : Phase stabs type a found L R s) (hle : s.l ≤ s.r)
    (hgap : Gap stabs type s) {reads : List Access} :
    Phase stabs type a found L R { s with l := mid s.l s.r + 1, reads := reads } := by
  obtain ⟨hlo, hhi⟩ := mid_bounds hle
  have hskip (i : ℤ) (hi : s.l ≤ i) (hi' : i < mid s.l s.r + 1) : ¬ HasType stabs type i :=
    hgap i hi (by omega)
  refine ⟨h.addr, h.right, h.bracket.gap hle hgap, ?_, h.any.trans (or_congr_right ?_)⟩
  · refine h.left.imp (fun hleft => ⟨hleft.1, fun i hi hlt => ?_⟩)
      fun hleft => ⟨hleft.1, ?_, hleft.2.2.1, fun i hi hlt => ?_⟩
    · rcases lt_or_ge i s.l with hil | hil
      · exact hleft.2 i hi hil
      · exact hskip i hil hlt
    · have hlt := hleft.2.1
      change s.regionLeft < mid s.l s.r + 1
      omega
    · rcases lt_or_ge i s.l with hil | hil
      · exact hleft.2.2.2 i hi hil
      · exact hskip i hil hlt
  · refine exists_congr fun i => and_congr_right fun _ => and_congr_right fun _ =>
      and_congr_right fun htype => or_congr_left ?_
    constructor
    · intro hlt
      change i < mid s.l s.r + 1
      omega
    · intro hlt
      by_contra hge
      exact hskip i (not_lt.mp hge) hlt htype

theorem Phase.up (h : Phase stabs type a found L R s)
    (hs : SortedOn (HasType stabs type) (valueAt stabs) L R) (hle : s.l ≤ s.r) {m : ℤ}
    (hm : Probed stabs type s m) (hbelow : (stabs m).nValue < s.addr) {reads : List Access} :
    Phase stabs type a found L R { s with
      regionLeft := m, l := mid s.l s.r + 1, anyMatches := true, reads := reads } := by
  obtain ⟨hlo, hhi⟩ := mid_bounds hle
  have hmlo := hm.lo
  have hmhi := hm.hi
  have hL := h.bracket.lo
  have hR := h.bracket.hi
  have hkey : valueAt stabs m < a := h.addr ▸ hbelow
  refine ⟨h.addr, h.right, h.bracket.up hs hle hm.hi hm.holds hm.skip hkey,
    Or.inr ⟨(by omega : L ≤ m), (by omega : m < mid s.l s.r + 1), hm.holds,
      fun i hi hlt => hm.skip i hi (Int.lt_add_one_iff.mp hlt)⟩,
    iff_of_true rfl (Or.inr ⟨m, by omega, by omega, hm.holds,
      Or.inl (by omega : m < mid s.l s.r + 1)⟩)⟩

theorem Phase.down (h : Phase stabs type a found L R s)
    (hs : SortedOn (HasType stabs type) (valueAt stabs) L R) (hle : s.l ≤ s.r) {m : ℤ}
    (hm : Probed stabs type s m) (habove : s.addr < (stabs m).nValue) {reads : List Access} :
    Phase stabs type a found L R { s with
      regionRight := m - 1, r := m - 1, anyMatches := true, reads := reads } := by
  obtain ⟨hlo, hhi⟩ := mid_bounds hle
  have hmlo := hm.lo
  have hmhi := hm.hi
  have hL := h.bracket.lo
  have hR := h.bracket.hi
  have hkey : a < valueAt stabs m := h.addr ▸ habove
  refine ⟨h.addr, rfl, h.bracket.down hs hle hm.lo hm.hi hm.holds hkey, h.left,
    iff_of_true rfl (Or.inr ⟨m, by omega, by omega, hm.holds, Or.inr (by omega : m - 1 < m)⟩)⟩

theorem Phase.meet (h : Phase stabs type a found L R s) (hle : s.l ≤ s.r) {m : ℤ}
    (hm : Probed stabs type s m) (heq : (stabs m).nValue = s.addr) {reads : List Access} :
    Met stabs type a L R m s.r { s with
      regionLeft := m, l := m, addr := s.addr + 1, anyMatches := true, reads := reads } := by
  obtain ⟨hlo, hhi⟩ := mid_bounds hle
  have haddr : s.addr = BitVec.ofNat 32 a := by
    rw [← h.addr, BitVec.ofNat_toNat, BitVec.setWidth_eq]
  refine ⟨?_, rfl, rfl, rfl, h.right, rfl, hm.holds, ?_, hm.hi.trans hhi, s.l, hm.lo, h.bracket⟩
  · simp only [haddr, BitVec.ofNat_add]
    rfl
  · rw [valueAt, heq, h.addr]

/-- The loop searches for `a` until it meets an entry with this value, if there
is one. -/
theorem phase_loop (hs : SortedOn (HasType stabs type) (valueAt stabs) L R) {k K : ℕ}
    (h : Phase stabs type a found L R s) (hK : (s.r - s.l + 1).toNat ≤ K)
    (hover : (searchLoop stabs type k s).r < (searchLoop stabs type k s).l) :
    (meets (HasType stabs type) (valueAt stabs) a K s.l s.r = none →
      Phase stabs type a found L R (searchLoop stabs type k s)) ∧
    ∀ m r, meets (HasType stabs type) (valueAt stabs) a K s.l s.r = some (m, r) →
      ∃ k' u, searchLoop stabs type k s = searchLoop stabs type k' u ∧
        Met stabs type a L R m r u := by
  induction k generalizing s K with
  | zero =>
      have hdone : s.r < s.l := hover
      refine ⟨fun _ => h, fun m r hmeets => ?_⟩
      cases K with
      | zero => cases hmeets
      | succ K =>
          unfold meets at hmeets
          rw [if_pos hdone] at hmeets
          cases hmeets
  | succ k ih =>
      rcases lt_or_ge s.r s.l with hdone | hle
      · rw [searchLoop_done hdone]
        refine ⟨fun _ => h, fun m r hmeets => ?_⟩
        cases K with
        | zero => cases hmeets
        | succ K =>
            unfold meets at hmeets
            rw [if_pos hdone] at hmeets
            cases hmeets
      · obtain ⟨hlo, hhi⟩ := mid_bounds hle
        have hloop : searchLoop stabs type (k + 1) s =
            searchLoop stabs type k (searchStep stabs type s) := if_pos hle
        rw [hloop] at hover ⊢
        cases K with
        | zero => omega
        | succ K =>
            unfold meets
            rw [if_neg (not_lt.mpr hle)]
            rcases @searchStep_cases stabs type s hle with
              ⟨hgap, hlt, reads, hstep⟩ | ⟨m, reads, hm, hcases⟩
            · rw [if_pos hlt]
              rw [hstep] at hover ⊢
              exact ih (h.gap hle hgap) (by simp only; omega) hover
            · have hmlo := hm.lo
              have hmhi := hm.hi
              rw [hm.probe, if_neg (not_lt.mpr hm.lo)]
              rcases hcases with ⟨hbelow, hstep⟩ | ⟨habove, hstep⟩ | ⟨heq, hstep⟩
              · have hkey : valueAt stabs m < a := h.addr ▸ hbelow
                rw [if_pos hkey]
                rw [hstep] at hover ⊢
                exact ih (h.up hs hle hm hbelow) (by simp only; omega) hover
              · have hkey : a < valueAt stabs m := h.addr ▸ habove
                rw [if_neg (not_lt.mpr hkey.le), if_pos hkey]
                rw [hstep] at hover ⊢
                exact ih (h.down hs hle hm habove) (by simp only; omega) hover
              · have hkey : valueAt stabs m = a := by rw [valueAt, heq, h.addr]
                rw [if_neg (not_lt.mpr hkey.ge), if_neg (not_lt.mpr hkey.le)]
                refine ⟨fun hnone => (by cases hnone), fun m' r' hmeets => ?_⟩
                obtain ⟨rfl, rfl⟩ := Prod.mk.inj (Option.some.inj hmeets)
                exact ⟨k, _, rfl, hstep ▸ h.meet hle hm heq⟩

theorem phase_start (h : L ≤ R + 1) {addr : Word} :
    Phase stabs type addr.toNat False L R (searchStart L R addr) where
  addr := rfl
  right := rfl
  bracket := Bracket.start h
  left := Or.inl ⟨rfl, fun i hi hlt => absurd hlt (not_lt.mpr hi)⟩
  any := by
    refine iff_of_false (by simp [searchStart]) ?_
    rintro (hf | ⟨i, hlo, hhi, -, hlt | hlt⟩)
    · exact hf
    · exact absurd hlt (not_lt.mpr hlo)
    · exact absurd hlt (not_lt.mpr hhi)

/-- After an exact match the search goes on for the next address, in what is
left of the region. -/
theorem Met.phase {m r : ℤ} (h : Met stabs type a L R m r s) (ha : a < 4294967295) :
    Phase stabs type (a + 1) True m r s where
  addr := by
    rw [h.addr, BitVec.toNat_ofNat]
    omega
  right := h.right.trans h.stop.symm
  bracket := by
    have hle := h.le
    rw [h.start, h.stop]
    exact Bracket.start (by omega)
  left := Or.inl ⟨h.left, fun i hi hlt => absurd hlt (not_lt.mpr (h.start ▸ hi))⟩
  any := iff_of_true h.any (Or.inl trivial)

/-! ### What the search finds -/

/-- Entry `i` of the type does not lie above the address. -/
def Below (stabs : ℤ → Stab) (type L R : ℤ) (addr : Word) (i : ℤ) : Prop :=
  L ≤ i ∧ i ≤ R ∧ HasType stabs type i ∧ valueAt stabs i ≤ addr.toNat

/-- `right` lies just before the next entry of the type after `left`, or is the
end of the region. -/
structure UpToNext (stabs : ℤ → Stab) (type R left right : ℤ) : Prop where
  le : left ≤ right
  hi : right ≤ R
  skip : ∀ i, left < i → i ≤ right → ¬ HasType stabs type i
  next : right = R ∨ HasType stabs type (right + 1)

/-- The stab that contains the address has been found, or there is none. -/
structure Finds (stabs : ℤ → Stab) (type L R : ℤ) (addr : Word) (left right : ℤ) : Prop where
  found : (∃ i, Below stabs type L R addr i) →
    IsGreatest {i | Below stabs type L R addr i} left ∧ UpToNext stabs type R left right
  absent : (¬ ∃ i, Below stabs type L R addr i) → right < left

/-- The search ends and finds the stab. -/
structure BinsearchOk (stabs : ℤ → Stab) (type L R : ℤ) (addr : Word) : Prop where
  ended : let s := searchLoop stabs type (searchRounds L R) (searchStart L R addr)
    s.r < s.l
  finds : let region := stabBinsearch stabs type L R addr
    Finds stabs type L R addr region.left region.right

/-- A binary search for an entry of the type with value `a`, and the right end
of the region when it meets one. -/
def equalEntry (stabs : ℤ → Stab) (type : ℤ) (a : ℕ) (L R : ℤ) : Option (ℤ × ℤ) :=
  meets (HasType stabs type) (valueAt stabs) a (R - L + 1).toNat L R

/-- The search meets an entry for the address and, in what is then left of the
region, one for the next address. At the last address but one the increment
wraps around, and if the entry just before is the right one the scan at the end
comes back to it. -/
def Misled (stabs : ℤ → Stab) (type L R : ℤ) (addr : Word) : Prop :=
  ∃ m r m' r', equalEntry stabs type addr.toNat L R = some (m, r) ∧
    equalEntry stabs type (addr.toNat + 1) m r = some (m', r') ∧
    ¬ (addr.toNat + 1 = 4294967295 ∧ HasType stabs type (m' - 1) ∧
      valueAt stabs (m' - 1) ≤ addr.toNat)

/-! ### After the loop -/

/-- The scan at the end stays where the loop found an entry. -/
theorem Phase.searchEnd_left (h : Phase stabs type a found L R s) (hover : s.r < s.l)
    (hany : s.anyMatches = true) (hlo : s.regionLeft < s.l)
    (hskip : ∀ i, s.regionLeft < i → i < s.l → ¬ HasType stabs type i) :
    (searchEnd stabs type s).left = s.regionLeft ∧ (searchEnd stabs type s).right = s.r := by
  have hle := h.bracket.le
  have hright := h.right
  have hk : ((s.regionRight - s.regionLeft).toNat : ℤ) = s.regionRight - s.regionLeft :=
    Int.toNat_of_nonneg (by omega)
  unfold searchEnd
  rw [if_pos hany]
  refine ⟨?_, hright⟩
  change scanDown _ _ _ = _
  rw [scanDown_eq, hk]
  · omega
  · intro j hj hj'
    exact hskip j (by omega) (by omega)

/-- The end of a search without another exact match. -/
theorem Phase.finds (h : Phase stabs type a found L R s) (hover : s.r < s.l) {i : ℤ}
    (hi : L ≤ i) (hi' : i ≤ R) (htype : HasType stabs type i) (hbelow : valueAt stabs i < a) :
    let region := searchEnd stabs type s
    L ≤ region.left ∧ HasType stabs type region.left ∧ valueAt stabs region.left < a ∧
      region.left ≤ region.right ∧ region.right ≤ R ∧
      (∀ j, region.left < j → j ≤ R → HasType stabs type j → a < valueAt stabs j) ∧
      (∀ j, region.left < j → j ≤ region.right → ¬ HasType stabs type j) ∧
      (region.right = R ∨ HasType stabs type (region.right + 1)) := by
  have hle := h.bracket.le
  have hil : i < s.l := by
    by_contra hge
    exact absurd (h.bracket.above (by omega) hi' htype) (not_lt.mpr hbelow.le)
  rcases h.left with ⟨-, hnone⟩ | ⟨hL, hlt, hleft, hskip⟩
  · exact absurd htype (hnone i hi hil)
  · have hany : s.anyMatches = true := h.any.mpr (Or.inr ⟨i, hi, hi', htype, Or.inl hil⟩)
    obtain ⟨hl, hr⟩ := h.searchEnd_left hover hany hlt hskip
    intro region
    have hl' : region.left = s.regionLeft := hl
    have hr' : region.right = s.r := hr
    rw [hl', hr']
    refine ⟨hL, hleft, h.bracket.below hL hlt hleft, by omega, h.bracket.hi,
      fun j hj hjR hjt => ?_, fun j hj hjr => hskip j hj (by omega), h.bracket.next⟩
    by_contra hge
    refine hskip j hj ?_ hjt
    by_contra hjl
    exact hge (h.bracket.above (by omega) hjR hjt)

/-- The search has passed entry `m`. -/
structure Past (stabs : ℤ → Stab) (m : ℤ) (s : Search) : Prop where
  left : m ≤ s.regionLeft
  right : m ≤ s.regionRight
  same : s.regionRight = s.r
  lo : m ≤ s.l
  low : s.l = m → valueAt stabs m < s.addr.toNat

theorem Past.step {m : ℤ} (h : Past stabs m s) (hle : s.l ≤ s.r) :
    Past stabs m (searchStep stabs type s) := by
  obtain ⟨hlo, hhi⟩ := mid_bounds hle
  have hm := h.lo
  have habsurd (heq : mid s.l s.r + 1 = m) : False := by omega
  rcases @searchStep_cases stabs type s hle with
    ⟨-, -, reads, hstep⟩ | ⟨q, reads, hq, ⟨-, hstep⟩ | ⟨habove, hstep⟩ | ⟨heq, hstep⟩⟩
  · rw [hstep]
    exact ⟨h.left, h.right, h.same, (by omega : m ≤ mid s.l s.r + 1),
      fun heq => (habsurd heq).elim⟩
  · rw [hstep]
    exact ⟨hm.trans hq.lo, h.right, h.same, (by omega : m ≤ mid s.l s.r + 1),
      fun heq => (habsurd heq).elim⟩
  · rw [hstep]
    have hne : m ≠ q := by
      rintro rfl
      have hlow := h.low (le_antisymm hq.lo hm)
      rw [BitVec.lt_def] at habove
      exact absurd hlow (not_lt.mpr habove.le)
    have hqlo := hq.lo
    exact ⟨h.left, (by omega : m ≤ q - 1), rfl, hm, h.low⟩
  · rw [hstep]
    refine ⟨hm.trans hq.lo, h.right, h.same, hm.trans hq.lo, fun hqm => ?_⟩
    have hqm' : q = m := hqm
    have hlow := h.low (le_antisymm (hqm' ▸ hq.lo) hm)
    rw [← hqm', valueAt, heq] at hlow
    exact absurd hlow (lt_irrefl _)

theorem Past.loop {m : ℤ} {k : ℕ} (h : Past stabs m s) :
    Past stabs m (searchLoop stabs type k s) := by
  induction k generalizing s with
  | zero => exact h
  | succ k ih =>
      unfold searchLoop
      split
      · exact ih (h.step (by assumption))
      · exact h

theorem Past.searchEnd_left {m : ℤ} (h : Past stabs m s) : m ≤ (searchEnd stabs type s).left := by
  have hleft := h.left
  have hright := h.right
  unfold searchEnd
  split
  · have hle := le_scanDown (p := HasType stabs type) (k := (s.regionRight - s.regionLeft).toNat)
      (i := s.regionRight)
    change m ≤ scanDown _ _ _
    omega
  · exact hleft

/-- The address has wrapped around to 0 at entry `m`, which has the greatest
value. -/
structure Wrapped (stabs : ℤ → Stab) (type R m : ℤ) (s : Search) : Prop where
  addr : s.addr = 0
  start : s.l = m
  left : s.regionLeft = m
  right : s.regionRight = s.r
  any : s.anyMatches = true
  lo : m - 1 ≤ s.r
  hi : s.r ≤ R
  holds : HasType stabs type m
  above : ∀ i, m ≤ i → i ≤ R → HasType stabs type i → valueAt stabs i = 4294967295

theorem Wrapped.step {m : ℤ} (h : Wrapped stabs type R m s) (hle : s.l ≤ s.r) :
    Wrapped stabs type R m (searchStep stabs type s) := by
  obtain ⟨hlo, hhi⟩ := mid_bounds hle
  have hstart := h.start
  have hR := h.hi
  have hzero : s.addr.toNat = 0 := by
    rw [h.addr]
    rfl
  rcases @searchStep_cases stabs type s hle with
    ⟨hgap, -⟩ | ⟨q, reads, hq, hcases⟩
  · exact absurd h.holds (hgap m hstart.le (by omega))
  · have hqlo := hq.lo
    have hqhi := hq.hi
    have hmax : (stabs q).nValue.toNat = 4294967295 :=
      h.above q (by omega) (by omega) hq.holds
    rcases hcases with ⟨hbelow, -⟩ | ⟨-, hstep⟩ | ⟨heq, -⟩
    · rw [BitVec.lt_def, hzero] at hbelow
      omega
    · rw [hstep]
      exact ⟨h.addr, h.start, h.left, rfl, rfl, (by omega : m - 1 ≤ q - 1),
        (by omega : q - 1 ≤ R), h.holds, h.above⟩
    · rw [heq, hzero] at hmax
      cases hmax

theorem Wrapped.loop {m : ℤ} {k : ℕ} (h : Wrapped stabs type R m s) :
    Wrapped stabs type R m (searchLoop stabs type k s) := by
  induction k generalizing s with
  | zero => exact h
  | succ k ih =>
      unfold searchLoop
      split
      · exact ih (h.step (by assumption))
      · exact h

theorem Wrapped.searchEnd_eq {m : ℤ} (h : Wrapped stabs type R m s) (hover : s.r < s.l) :
    (searchEnd stabs type s).left = m - 1 ∧ (searchEnd stabs type s).right = m - 1 := by
  have hr : s.regionRight = m - 1 := by
    have hlo := h.lo
    have hstart := h.start
    have hright := h.right
    omega
  have hk : (s.regionRight - s.regionLeft).toNat = 0 := by
    rw [hr, h.left]
    omega
  unfold searchEnd
  rw [if_pos h.any, hk]
  exact ⟨hr, hr⟩

/-! ### When the stab is found -/

/-- No exact match at the address. -/
theorem finds_without (hover : s.r < s.l) {addr : Word}
    (h : Phase stabs type addr.toNat False L R s) :
    Finds stabs type L R addr (searchEnd stabs type s).left (searchEnd stabs type s).right ↔
      (∀ i, L ≤ i → i ≤ R → ¬ HasType stabs type i) ∨ ∃ i, Below stabs type L R addr i := by
  by_cases hbelow : ∃ i, Below stabs type L R addr i
  · refine iff_of_true ⟨fun _ => ?_, fun hnot => absurd hbelow hnot⟩ (Or.inr hbelow)
    have hlow {i : ℤ} (hi : Below stabs type L R addr i) : i < s.l := by
      by_contra hge
      exact absurd (h.bracket.above (by omega) hi.2.1 hi.2.2.1) (not_lt.mpr hi.2.2.2)
    obtain ⟨i, hi⟩ := hbelow
    obtain ⟨hL, htype, hval, hle, hR, hgreater, hskip, hnext⟩ := h.finds hover hi.1 hi.2.1
      hi.2.2.1 (h.bracket.below hi.1 (hlow hi) hi.2.2.1)
    refine ⟨⟨⟨hL, hle.trans hR, htype, hval.le⟩, fun j hj => ?_⟩, hle, hR, hskip, hnext⟩
    by_contra hgt
    exact absurd (hgreater j (not_le.mp hgt) hj.2.1 hj.2.2.1) (not_lt.mpr hj.2.2.2)
  · have hle := h.bracket.le
    by_cases hnone : ∀ i, L ≤ i → i ≤ R → ¬ HasType stabs type i
    · refine iff_of_true ⟨fun hfound => absurd hfound hbelow, fun _ => ?_⟩ (Or.inl hnone)
      have hany : ¬ s.anyMatches = true := by
        rw [h.any]
        rintro (hf | ⟨i, hlo, hhi, htype, -⟩)
        · exact hf
        · exact hnone i hlo hhi htype
      unfold searchEnd
      rw [if_neg hany]
      exact sub_one_lt _
    · -- the scan at the end does not leave the region
      refine iff_of_false (fun hfinds => ?_) (not_or.mpr ⟨hnone, hbelow⟩)
      obtain ⟨i, hnone⟩ := not_forall.mp hnone
      simp only [not_forall, not_not] at hnone
      obtain ⟨hlo, hhi, htype⟩ := hnone
      have hany : s.anyMatches = true :=
        h.any.mpr (Or.inr ⟨i, hlo, hhi, htype, by omega⟩)
      have hlt := hfinds.absent hbelow
      unfold searchEnd at hlt
      rw [if_pos hany] at hlt
      exact absurd hlt (not_lt.mpr scanDown_le)

/-- One exact match, at entry `m`. -/
theorem finds_once {m r : ℤ} {u : Search} {addr : Word}
    (hmet : Met stabs type addr.toNat L R m r u) (hover : s.r < s.l)
    (h : Phase stabs type (addr.toNat + 1) True m r s) :
    Finds stabs type L R addr (searchEnd stabs type s).left (searchEnd stabs type s).right := by
  obtain ⟨l, hlm, hbracket⟩ := hmet.bracket
  have hLl := hbracket.lo
  have hrR := hbracket.hi
  have hmBelow : Below stabs type L R addr m :=
    ⟨by omega, hmet.le.trans hrR, hmet.holds, hmet.value.le⟩
  obtain ⟨hm, htype, hval, hle, hr, hgreater, hskip, hnext⟩ := h.finds hover le_rfl hmet.le
    hmet.holds (by rw [hmet.value]; omega)
  refine ⟨fun _ => ⟨⟨⟨by omega, by omega, htype, by omega⟩, fun j hj => ?_⟩, hle, by omega, hskip,
    ?_⟩, fun hnot => absurd ⟨m, hmBelow⟩ hnot⟩
  · obtain ⟨-, hjR, hjt, hjv⟩ := hj
    by_contra hgt
    rcases le_or_gt j r with hjr | hjr
    · have hlt := hgreater j (not_le.mp hgt) hjr hjt
      omega
    · exact absurd (hbracket.above hjr hjR hjt) (not_lt.mpr hjv)
  · rcases hnext with hnext | hnext
    · rw [hnext]
      exact hbracket.next
    · exact Or.inr hnext

/-- A second exact match, at entry `m'` for the next address. -/
theorem finds_twice (hs : SortedOn (HasType stabs type) (valueAt stabs) L R) {m r m' r' : ℤ}
    {u u' : Search} {addr : Word} (haddr : addr.toNat < 4294967295)
    (hmet : Met stabs type addr.toNat L R m r u)
    (hmet' : Met stabs type (addr.toNat + 1) m r m' r' u') {k : ℕ}
    (hloop : s = searchLoop stabs type k u') (hover : s.r < s.l) :
    Finds stabs type L R addr (searchEnd stabs type s).left (searchEnd stabs type s).right ↔
      addr.toNat + 1 = 4294967295 ∧ HasType stabs type (m' - 1) ∧
        valueAt stabs (m' - 1) ≤ addr.toNat := by
  obtain ⟨l, hlm, hbracket⟩ := hmet.bracket
  obtain ⟨l', hlm', hbracket'⟩ := hmet'.bracket
  have hLl := hbracket.lo
  have hrR := hbracket.hi
  have hml' := hbracket'.lo
  have hr'r := hbracket'.hi
  have hm'r' := hmet'.le
  have hval := hmet.value
  have hval' := hmet'.value
  have hmBelow : Below stabs type L R addr m :=
    ⟨by omega, hmet.le.trans hrR, hmet.holds, hmet.value.le⟩
  have habove (i : ℤ) (hi : m' ≤ i) (hiR : i ≤ R) (htype : HasType stabs type i) :
      addr.toNat + 1 ≤ valueAt stabs i := by
    rw [← hval']
    exact hs (by omega) hi hiR hmet'.holds htype
  rcases Nat.lt_or_ge (addr.toNat + 1) 4294967295 with hlt | hge
  · -- the search does not come back before `m'`
    refine iff_of_false (fun hfinds => ?_) fun h => by omega
    have hpast : Past stabs m' u' := by
      refine ⟨hmet'.left.ge, ?_, hmet'.right.trans hmet'.stop.symm, hmet'.start.ge, fun _ => ?_⟩
      · rw [hmet'.right]
        exact hmet'.le
      · rw [hmet'.addr, BitVec.toNat_ofNat, hval']
        omega
    have hm' : m' ≤ (searchEnd stabs type s).left := by
      rw [hloop]
      exact hpast.loop.searchEnd_left
    obtain ⟨-, hR, htype, hlow⟩ := (hfinds.found ⟨m, hmBelow⟩).1.1
    have hhigh := habove _ hm' hR htype
    omega
  · have hmax : addr.toNat + 1 = 4294967295 := by omega
    have hwrapped : Wrapped stabs type R m' u' := by
      refine ⟨?_, hmet'.start, hmet'.left, hmet'.right.trans hmet'.stop.symm, hmet'.any, ?_, ?_,
        hmet'.holds, fun i hi hiR htype => ?_⟩
      · rw [hmet'.addr, hmax]
        rfl
      · rw [hmet'.stop]
        omega
      · rw [hmet'.stop]
        omega
      · have hle := habove i hi hiR htype
        have hlt : valueAt stabs i < 4294967296 := (stabs i).nValue.isLt
        omega
    obtain ⟨hl, hr⟩ := (hloop ▸ hwrapped.loop (k := k)).searchEnd_eq hover
    rw [hl, hr]
    constructor
    · intro hfinds
      obtain ⟨-, -, htype, hlow⟩ := (hfinds.found ⟨m, hmBelow⟩).1.1
      exact ⟨hmax, htype, hlow⟩
    · rintro ⟨-, htype, hlow⟩
      have hne : m ≠ m' := by
        rintro rfl
        omega
      refine ⟨fun _ => ⟨⟨⟨by omega, by omega, htype, hlow⟩, fun j hj => ?_⟩, le_rfl, by omega,
        fun i hi hi' => absurd hi (not_lt.mpr hi'), Or.inr ?_⟩,
        fun hnot => absurd ⟨m, hmBelow⟩ hnot⟩
      · obtain ⟨-, hjR, hjt, hjv⟩ := hj
        by_contra hgt
        have hhigh := habove j (by omega) hjR hjt
        omega
      · rw [sub_add_cancel]
        exact hmet'.holds

/-- `stab_binsearch` ends. It finds the stab if the region has an entry of the
type, one of them does not lie above the address, and the increment of the
address does not mislead the search, or if it has no entry of the type. -/
theorem stab_binsearch_finds_iff {n : ℤ} {addr : Word}
    (hsorted : SortedOn (HasType stabs type) (valueAt stabs) 0 (n - 1)) (hL : 0 ≤ L)
    (hLR : L ≤ R) (hR : R < n) (haddr : addr.toNat < 4294967295) :
    BinsearchOk stabs type L R addr ↔
      (∀ i, L ≤ i → i ≤ R → ¬ HasType stabs type i) ∨
        (∃ i, Below stabs type L R addr i) ∧ ¬ Misled stabs type L R addr := by
  have hs : SortedOn (HasType stabs type) (valueAt stabs) L R := fun i j hi hij hj =>
    hsorted (hL.trans hi) hij (by omega)
  have hover := @stabBinsearch_over stabs type L R addr
  have hstart : Phase stabs type addr.toNat False L R (searchStart L R addr) :=
    phase_start (by omega)
  obtain ⟨hnone, hsome⟩ := phase_loop hs (k := searchRounds L R)
    (K := (R - L + 1).toNat) hstart le_rfl hover
  have hiff : BinsearchOk stabs type L R addr ↔
      Finds stabs type L R addr (stabBinsearch stabs type L R addr).left
        (stabBinsearch stabs type L R addr).right := ⟨fun h => h.finds, fun h => ⟨hover, h⟩⟩
  rw [hiff]
  unfold stabBinsearch
  cases hmeets : equalEntry stabs type addr.toNat L R with
  | none =>
      have hmisled : ¬ Misled stabs type L R addr := by
        rintro ⟨m, r, m', r', hmr, -⟩
        rw [hmeets] at hmr
        cases hmr
      rw [finds_without hover (hnone hmeets)]
      simp [hmisled]
  | some mr =>
      obtain ⟨m, r⟩ := mr
      obtain ⟨k, u, hloop, hmet⟩ := hsome m r hmeets
      obtain ⟨l, hlm, hbracket⟩ := hmet.bracket
      have hLl := hbracket.lo
      have hrR := hbracket.hi
      have hmBelow : Below stabs type L R addr m :=
        ⟨by omega, hmet.le.trans hrR, hmet.holds, hmet.value.le⟩
      have hsome : ¬ ∀ i, L ≤ i → i ≤ R → ¬ HasType stabs type i := fun hall =>
        hall m hmBelow.1 hmBelow.2.1 hmBelow.2.2.1
      have hs' : SortedOn (HasType stabs type) (valueAt stabs) m r := fun i j hi hij hj =>
        hs (by omega) hij (by omega)
      have hphase := hmet.phase haddr
      rw [hloop] at hover ⊢
      obtain ⟨hnone', hsome'⟩ := phase_loop hs' (K := (r - m + 1).toNat) hphase
        (by rw [hmet.start, hmet.stop]) hover
      rw [hmet.start, hmet.stop] at hnone' hsome'
      cases hmeets' : equalEntry stabs type (addr.toNat + 1) m r with
      | none =>
          refine iff_of_true (finds_once hmet hover (hnone' hmeets'))
            (Or.inr ⟨⟨m, hmBelow⟩, ?_⟩)
          rintro ⟨m₁, r₁, m', r', hmr, hmr', -⟩
          rw [hmeets] at hmr
          obtain ⟨rfl, rfl⟩ := Prod.mk.inj (Option.some.inj hmr)
          rw [hmeets'] at hmr'
          cases hmr'
      | some mr' =>
          obtain ⟨m', r'⟩ := mr'
          obtain ⟨k', u', hloop', hmet'⟩ := hsome' m' r' hmeets'
          rw [finds_twice hs haddr hmet hmet' hloop' hover]
          constructor
          · intro hright
            refine Or.inr ⟨⟨m, hmBelow⟩, ?_⟩
            rintro ⟨m₁, r₁, m₂, r₂, hmr, hmr', hwrong⟩
            rw [hmeets] at hmr
            obtain ⟨rfl, rfl⟩ := Prod.mk.inj (Option.some.inj hmr)
            rw [hmeets'] at hmr'
            obtain ⟨rfl, rfl⟩ := Prod.mk.inj (Option.some.inj hmr')
            exact hwrong hright
          · rintro (hall | ⟨-, hright⟩)
            · exact absurd hall hsome
            · by_contra hwrong
              exact hright ⟨m, r, m', r', hmeets, hmeets', hwrong⟩

/-- The stabs of the source's example. The other entries are line numbers. -/
def soStabs : List (ℤ × Word) :=
  [(0, 0xf0100000#32), (13, 0xf0100040#32), (117, 0xf0100176#32), (118, 0xf0100178#32),
    (555, 0xf0100652#32), (556, 0xf0100654#32), (657, 0xf0100849#32)]

def soTable (i : ℤ) : Stab :=
  match soStabs.lookup i with
  | some value => ⟨0, 0x64, 0, value⟩
  | none => ⟨0, 0x44, 0, 0⟩

theorem mem_soStabs {i : ℤ} (h : HasType soTable 0x64 i) :
    ∃ value, (i, value) ∈ soStabs ∧ valueAt soTable i = value.toNat := by
  unfold HasType soTable at h
  unfold valueAt soTable
  cases hlook : soStabs.lookup i with
  | none =>
      rw [hlook] at h
      exact absurd h (by decide)
  | some value =>
      obtain ⟨before, after, hlist, -⟩ := List.lookup_eq_some_iff.mp hlook
      exact ⟨value, hlist ▸ by simp, rfl⟩

theorem soTable_sorted : SortedOn (HasType soTable 0x64) (valueAt soTable) 0 657 := by
  intro i j _ hij _ hi hj
  have hlist : ∀ p ∈ soStabs, ∀ q ∈ soStabs, p.1 ≤ q.1 → p.2.toNat ≤ q.2.toNat := by decide
  obtain ⟨v, hv, hiv⟩ := mem_soStabs hi
  obtain ⟨w, hw, hjw⟩ := mem_soStabs hj
  rw [hiv, hjw]
  exact hlist _ hv _ hw hij

/-- The example in the comment on `stab_binsearch`. -/
theorem stab_binsearch_finds_so : BinsearchOk soTable 0x64 0 657 0xf0100184#32 := by
  refine (stab_binsearch_finds_iff (n := 658) soTable_sorted (by decide) (by decide) (by decide)
    (by decide)).mpr (Or.inr ⟨⟨118, ?_⟩, ?_⟩)
  · exact ⟨by decide, by decide, by decide +kernel, by decide +kernel⟩
  · rintro ⟨m, r, m', r', hmeets, -⟩
    have hnone : equalEntry soTable 0x64 (0xf0100184#32).toNat 0 657 = none := by decide +kernel
    rw [hnone] at hmeets
    cases hmeets

example : (stabBinsearch soTable 0x64 0 657 0xf0100184#32).left = 118 ∧
    (stabBinsearch soTable 0x64 0 657 0xf0100184#32).right = 554 := by
  decide +kernel

/-- When there are entries of the type but all lie above the address, the left
end does not get past the right end. -/
theorem not_stab_binsearch_finds : ¬ ∀ (stabs : ℤ → Stab) (type n L R : ℤ) (addr : Word),
    SortedOn (HasType stabs type) (valueAt stabs) 0 (n - 1) → 0 ≤ L → L ≤ R → R < n →
      addr.toNat < 4294967295 → BinsearchOk stabs type L R addr := by
  intro h
  have hfinds := (h soTable 0x64 658 0 657 0xf00fffff#32 soTable_sorted (by decide) (by decide)
    (by decide) (by decide)).finds
  have habove : ∀ p ∈ soStabs, (0xf00fffff#32).toNat < p.2.toNat := by decide
  have hnone : ¬ ∃ i, Below soTable 0x64 0 657 0xf00fffff#32 i := by
    rintro ⟨i, -, -, htype, hle⟩
    obtain ⟨v, hv, hiv⟩ := mem_soStabs htype
    rw [hiv] at hle
    exact absurd (habove _ hv) (not_lt.mpr hle)
  exact absurd (hfinds.absent hnone) (by decide +kernel)

/-- Of entries at consecutive addresses it finds the one after the address. -/
example : (stabBinsearch (fun i => ⟨0, 0x64, 0, BitVec.ofInt 32 i⟩) 0x64 0 2 1).left = 2 := by
  decide +kernel

end Jos
