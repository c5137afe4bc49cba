import Mathlib.Data.List.Basic
import Mathlib.Data.Fin.Basic
import Mathlib.Algebra.GroupWithZero.Nat

/-!
Circular scans of a table. A scan from `a` looks at the entries `a`, `a + 1`
and so on, modulo the size of the table, and takes the first that satisfies a
predicate. If every scan starts just after the entry that was taken last, an
entry that satisfies the predicate all along is passed over fewer times than
the table has entries: what is ahead of it becomes less each time.
-/

namespace Jos.Lib

variable {k : ℕ} {a i : ℕ} {e x : Fin k} {p : Fin k → Bool}

/-- The entries in the order of a scan from `a`. -/
def scanFrom (k a : ℕ) [NeZero k] : List (Fin k) :=
  (List.range k).map fun i => Fin.ofNat k (a + i)

/-- How many entries a scan from `a` looks at before `e`. -/
def ahead (a : ℕ) (e : Fin k) : ℕ := if a ≤ e then e - a else e + k - a

theorem ahead_lt (ha : a ≤ k) : ahead a e < k := by
  have he := e.isLt
  unfold ahead
  split <;> omega

/-- After another entry has been taken, less is ahead. -/
theorem ahead_succ (ha : a ≤ k) (hle : ahead a x ≤ ahead a e) (hne : x ≠ e) :
    ahead ((x : ℕ) + 1) e < ahead a e := by
  have he := e.isLt
  have hx := x.isLt
  have hval : (x : ℕ) ≠ e := fun h => hne (Fin.ext h)
  unfold ahead at hle ⊢
  split at hle <;> split at hle <;> split <;> omega

variable [NeZero k]

theorem scan_index (ha : a ≤ k) (hi : i < k) (h : Fin.ofNat k (a + i) = e) : ahead a e = i := by
  have hval : (a + i) % k = e := congrArg Fin.val h
  have he := e.isLt
  unfold ahead
  by_cases hlt : a + i < k
  · rw [Nat.mod_eq_of_lt hlt] at hval
    split <;> omega
  · rw [Nat.mod_eq_sub_mod (by omega), Nat.mod_eq_of_lt (by omega)] at hval
    split <;> omega

theorem scan_ahead (ha : a ≤ k) : Fin.ofNat k (a + ahead a e) = e := by
  have he := e.isLt
  ext
  rw [Fin.val_ofNat]
  unfold ahead
  split
  · rw [Nat.add_sub_cancel' (by assumption), Nat.mod_eq_of_lt he]
  · rw [Nat.add_sub_cancel' (by omega), Nat.add_mod_right, Nat.mod_eq_of_lt he]

/-- What a scan takes is not farther ahead than anything it might have taken. -/
theorem scan_find (ha : a ≤ k) (h : (scanFrom k a).find? p = some x) (he : p e = true) :
    p x = true ∧ ahead a x ≤ ahead a e := by
  rw [scanFrom, List.find?_map, Option.map_eq_some_iff] at h
  obtain ⟨i, hi, hx⟩ := h
  obtain ⟨hp, hmem, hfirst⟩ := List.find?_range_eq_some.mp hi
  rw [Function.comp_apply, hx] at hp
  refine ⟨hp, ?_⟩
  rw [scan_index ha (List.mem_range.mp hmem) hx]
  by_contra hlt
  have hbefore := hfirst (ahead a e) (by omega)
  rw [Function.comp_apply, scan_ahead ha, he] at hbefore
  cases hbefore

end Jos.Lib
