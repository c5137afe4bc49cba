import Mathlib.Algebra.Order.Ring.Int
import Mathlib.Tactic.Common

/-!
Binary search in a table of which only some entries count. The midpoint need
not be one of them, so the search goes down from it to the last entry that
counts, and a region without any is given up as a whole. `meets` is the search
for an entry with a given key, and `Bracket` says what is known of the region
that a search for this key has narrowed the table down to.
-/

namespace Jos.Lib

variable {p : ℤ → Prop} {i j l r m L R : ℤ} {k : ℕ}

/-! ### Going down -/

/-- Go down from `i` to an entry that satisfies `p`, past `k` entries at most. -/
def scanDown (p : ℤ → Prop) [DecidablePred p] : ℕ → ℤ → ℤ
  | 0, i => i
  | k + 1, i => if p i then i else scanDown p k (i - 1)

/-- The entries looked at on the way. -/
def scanned (p : ℤ → Prop) [DecidablePred p] : ℕ → ℤ → List ℤ
  | 0, _ => []
  | k + 1, i => i :: if p i then [] else scanned p k (i - 1)

section

variable [DecidablePred p]

theorem scanDown_le : scanDown p k i ≤ i := by
  induction k generalizing i with
  | zero => exact le_rfl
  | succ k ih =>
      unfold scanDown
      split
      · exact le_rfl
      · have hle := ih (i := i - 1)
        omega

theorem le_scanDown : i - k ≤ scanDown p k i := by
  induction k generalizing i with
  | zero => simp [scanDown]
  | succ k ih =>
      unfold scanDown
      split
      · omega
      · have hle := ih (i := i - 1)
        push_cast
        omega

theorem not_of_scanDown_lt (hlt : scanDown p k i < j) (hj : j ≤ i) : ¬ p j := by
  induction k generalizing i with
  | zero =>
      have hi : i < j := hlt
      omega
  | succ k ih =>
      unfold scanDown at hlt
      split at hlt
      · omega
      · rename_i hi
        rcases eq_or_lt_of_le hj with rfl | hj
        · exact hi
        · exact ih hlt (by omega)

/-- The scan stops early only where `p` holds. -/
theorem scanDown_of_lt (hlt : i - k < scanDown p k i) : p (scanDown p k i) := by
  induction k generalizing i with
  | zero =>
      have hi : i - (0 : ℕ) < i := hlt
      simp at hi
  | succ k ih =>
      unfold scanDown at hlt ⊢
      split
      · assumption
      · rename_i hi
        rw [if_neg hi] at hlt
        exact ih (by push_cast at hlt; omega)

theorem scanDown_eq (hnone : ∀ j, i - k < j → j ≤ i → ¬ p j) : scanDown p k i = i - k := by
  by_contra hne
  have hlt : i - k < scanDown p k i := lt_of_le_of_ne le_scanDown (Ne.symm hne)
  exact hnone _ hlt scanDown_le (scanDown_of_lt hlt)

theorem mem_scanned (hj : j ∈ scanned p k i) : i - k < j ∧ scanDown p k i ≤ j ∧ j ≤ i := by
  induction k generalizing i with
  | zero => cases hj
  | succ k ih =>
      unfold scanned at hj
      unfold scanDown
      split at hj
      · rename_i hi
        rw [if_pos hi]
        obtain rfl := List.mem_singleton.mp hj
        push_cast
        omega
      · rename_i hi
        rw [if_neg hi]
        rcases List.mem_cons.mp hj with rfl | hj
        · have hle := scanDown_le (p := p) (k := k) (i := j - 1)
          push_cast
          omega
        · have hmem := ih hj
          push_cast
          omega

end

/-! ### Midpoints -/

/-- The midpoint, rounded towards zero. -/
def mid (l r : ℤ) : ℤ := (l + r).tdiv 2

theorem mid_bounds (h : l ≤ r) : l ≤ mid l r ∧ mid l r ≤ r := by
  unfold mid
  rcases le_total 0 (l + r) with hsum | hsum
  · rw [Int.tdiv_eq_ediv_of_nonneg hsum]
    omega
  · have hneg : (l + r).tdiv 2 = -((-(l + r)) / 2) := by
      rw [← Int.tdiv_eq_ediv_of_nonneg (by omega), Int.neg_tdiv, neg_neg]
    rw [hneg]
    omega

/-- The last entry that counts from the midpoint down, or `l - 1`. -/
def probe (p : ℤ → Prop) [DecidablePred p] (l r : ℤ) : ℤ :=
  scanDown p (mid l r - l + 1).toNat (mid l r)

/-- A region whose lower half has no entry, or the last entry of that half. -/
theorem probe_cases [DecidablePred p] (h : l ≤ r) :
    (probe p l r < l ∧ ∀ i, l ≤ i → i ≤ mid l r → ¬ p i) ∨
    (l ≤ probe p l r ∧ probe p l r ≤ mid l r ∧ p (probe p l r) ∧
      ∀ i, probe p l r < i → i ≤ mid l r → ¬ p i) := by
  obtain ⟨hlo, -⟩ := mid_bounds h
  have hk : ((mid l r - l + 1).toNat : ℤ) = mid l r - l + 1 := Int.toNat_of_nonneg (by omega)
  have hskip (i : ℤ) : probe p l r < i → i ≤ mid l r → ¬ p i := not_of_scanDown_lt
  rcases lt_or_ge (probe p l r) l with hlt | hge
  · exact Or.inl ⟨hlt, fun i hi => hskip i (by omega)⟩
  · refine Or.inr ⟨hge, scanDown_le, scanDown_of_lt ?_, hskip⟩
    rw [hk]
    have hle : l ≤ scanDown p (mid l r - l + 1).toNat (mid l r) := hge
    omega

/-! ### Searching -/

variable {α : Type*} [LinearOrder α] {key : ℤ → α} {a : α}

/-- The binary search of `[l, r]` for an entry with key `a`, in `k` rounds at
most: the entry and the end of what is left of the region. -/
def meets (p : ℤ → Prop) [DecidablePred p] (key : ℤ → α) (a : α) : ℕ → ℤ → ℤ → Option (ℤ × ℤ)
  | 0, _, _ => none
  | k + 1, l, r =>
      if r < l then none
      else if probe p l r < l then meets p key a k (mid l r + 1) r
      else if key (probe p l r) < a then meets p key a k (mid l r + 1) r
      else if a < key (probe p l r) then meets p key a k l (probe p l r - 1)
      else some (probe p l r, r)

/-- The search of `[l, r]` goes down every time and comes to entry `l`, in `k`
rounds at most. -/
def descends (p : ℤ → Prop) [DecidablePred p] (key : ℤ → α) (a : α) (l : ℤ) : ℕ → ℤ → Prop
  | 0, _ => False
  | k + 1, r => l ≤ r ∧ l ≤ probe p l r ∧ a < key (probe p l r) ∧
      (probe p l r = l ∨ descends p key a l k (probe p l r - 1))

instance instDecidableDescends [DecidablePred p] : ∀ k r, Decidable (descends p key a l k r)
  | 0, _ => instDecidableFalse
  | k + 1, r =>
      have := instDecidableDescends k (probe p l r - 1)
      inferInstanceAs (Decidable (_ ∧ _))

/-- The entries that count have keys in order. -/
def SortedOn (p : ℤ → Prop) (key : ℤ → α) (L R : ℤ) : Prop :=
  ∀ ⦃i j⦄, L ≤ i → i ≤ j → j ≤ R → p i → p j → key i ≤ key j

/-- Of `[L, R]` the search for key `a` has left `[l, r]`. -/
structure Bracket (p : ℤ → Prop) (key : ℤ → α) (a : α) (L R l r : ℤ) : Prop where
  lo : L ≤ l
  hi : r ≤ R
  le : l ≤ r + 1
  below : ∀ {i}, L ≤ i → i < l → p i → key i < a
  above : ∀ {i}, r < i → i ≤ R → p i → a < key i
  next : r = R ∨ p (r + 1)

namespace Bracket

theorem start (h : L ≤ R + 1) : Bracket p key a L R L R :=
  ⟨le_rfl, le_rfl, h, fun _ _ => by omega, fun _ _ => by omega, Or.inl rfl⟩

/-- The lower half has no entry. -/
theorem gap (h : Bracket p key a L R l r) (hlr : l ≤ r)
    (hgap : ∀ i, l ≤ i → i ≤ mid l r → ¬ p i) : Bracket p key a L R (mid l r + 1) r := by
  obtain ⟨hlo, hhi⟩ := mid_bounds hlr
  have hL := h.lo
  refine ⟨by omega, h.hi, by omega, fun {i} hi hlt hp => ?_, h.above, h.next⟩
  rcases lt_or_ge i l with hil | hil
  · exact h.below hi hil hp
  · exact absurd hp (hgap i hil (by omega))

/-- The last entry of the lower half is too low. -/
theorem up (h : Bracket p key a L R l r) (hs : SortedOn p key L R) (hlr : l ≤ r)
    (hmid : m ≤ mid l r) (hp : p m) (hskip : ∀ i, m < i → i ≤ mid l r → ¬ p i)
    (hkey : key m < a) : Bracket p key a L R (mid l r + 1) r := by
  obtain ⟨hlo, hhi⟩ := mid_bounds hlr
  have hL := h.lo
  have hR := h.hi
  refine ⟨by omega, hR, by omega, fun {i} hi hlt hpi => ?_, h.above, h.next⟩
  rcases lt_or_ge m i with him | him
  · exact absurd hpi (hskip i him (by omega))
  · exact (hs hi him (by omega) hpi hp).trans_lt hkey

/-- It is too high. -/
theorem down (h : Bracket p key a L R l r) (hs : SortedOn p key L R) (hlr : l ≤ r) (hm : l ≤ m)
    (hmid : m ≤ mid l r) (hp : p m) (hkey : a < key m) : Bracket p key a L R l (m - 1) := by
  obtain ⟨hlo, hhi⟩ := mid_bounds hlr
  have hL := h.lo
  have hR := h.hi
  refine ⟨hL, by omega, by omega, h.below, fun {i} hi hle hpi => ?_, Or.inr ?_⟩
  · exact hkey.trans_le (hs (by omega) (by omega) hle hp hpi)
  · rwa [sub_add_cancel]

end Bracket

end Jos.Lib
