import Mathlib.Data.Nat.ModEq
import Mathlib.Data.List.Basic
import Mathlib.Logic.Function.Basic

/-!
A circular buffer of `n` cells, with the index to read from and the index to
write to and no count. It holds a queue of fewer than `n` elements: if it could
be full, equal indexes would mean two things.
-/

namespace Jos.Lib

variable {α : Type*} {n r w : ℕ} {buf : ℕ → α} {q : List α} {a : α}

/-- The elements of `q` are in the cells from `r` on, and `w` comes after them. -/
structure RingHolds (n : ℕ) (buf : ℕ → α) (r w : ℕ) (q : List α) : Prop where
  read_lt : r < n
  room : q.length < n
  write_eq : w = (r + q.length) % n
  cells : ∀ i (h : i < q.length), buf ((r + i) % n) = q.get ⟨i, h⟩

/-- The index after `i`, reset at the end of the buffer. -/
def ringNext (n i : ℕ) : ℕ := if i + 1 = n then 0 else i + 1

theorem ringNext_eq (h : r < n) : ringNext n r = (r + 1) % n := by
  unfold ringNext
  split
  · rename_i hend
    rw [hend, Nat.mod_self]
  · exact (Nat.mod_eq_of_lt (by omega)).symm

/-- The index `k` cells after `ringNext n r`. -/
theorem ringNext_add (h : r < n) (k : ℕ) : (ringNext n r + k) % n = (r + (k + 1)) % n := by
  rw [ringNext_eq h, Nat.mod_add_mod, Nat.add_assoc, Nat.add_comm 1 k]

namespace RingHolds

theorem empty (h : r < n) : RingHolds n buf r r [] where
  read_lt := h
  room := Nat.lt_of_le_of_lt (Nat.zero_le r) h
  write_eq := (Nat.mod_eq_of_lt h).symm
  cells i hi := absurd hi (Nat.not_lt_zero i)

theorem write_lt (h : RingHolds n buf r w q) : w < n := by
  rw [h.write_eq]
  exact Nat.mod_lt _ (Nat.zero_lt_of_lt h.read_lt)

/-- Two cells fewer than `n` apart differ. -/
theorem apart {i j : ℕ} (hij : i < j) (hj : j < n) : (r + i) % n ≠ (r + j) % n := by
  intro heq
  have hmod : i % n = j % n := Nat.ModEq.add_left_cancel' r heq
  rw [Nat.mod_eq_of_lt (hij.trans hj), Nat.mod_eq_of_lt hj] at hmod
  exact hij.ne hmod

theorem eq_iff (h : RingHolds n buf r w q) : r = w ↔ q = [] := by
  constructor
  · intro hrw
    by_contra hq
    have hpos : 0 < q.length := List.length_pos_iff.mpr hq
    apply apart hpos h.room (r := r)
    rw [← h.write_eq, Nat.add_zero, Nat.mod_eq_of_lt h.read_lt]
    exact hrw
  · intro hq
    rw [h.write_eq, hq]
    exact (Nat.mod_eq_of_lt h.read_lt).symm

theorem store (h : RingHolds n buf r w q) (hroom : q.length + 1 < n) :
    RingHolds n (Function.update buf w a) r (ringNext n w) (q ++ [a]) where
  read_lt := h.read_lt
  room := by
    rw [List.length_append]
    exact hroom
  write_eq := by
    rw [ringNext_eq h.write_lt, h.write_eq, Nat.mod_add_mod, List.length_append]
    rfl
  cells i hi := by
    rw [List.length_append] at hi
    rcases Nat.lt_or_ge i q.length with hold | hnew
    · have hother : (r + i) % n ≠ w := by
        rw [h.write_eq]
        exact apart hold h.room
      rw [Function.update_of_ne hother, h.cells i hold]
      simp only [List.get_eq_getElem, List.getElem_append_left hold]
    · obtain rfl : i = q.length := Nat.le_antisymm (Nat.lt_succ_iff.mp hi) hnew
      rw [← h.write_eq, Function.update_self]
      simp

theorem fetch (h : RingHolds n buf r w (a :: q)) :
    buf r = a ∧ RingHolds n buf (ringNext n r) w q := by
  constructor
  · have hcell := h.cells 0 (Nat.zero_lt_succ _)
    rwa [Nat.add_zero, Nat.mod_eq_of_lt h.read_lt] at hcell
  · exact
      { read_lt := by
          rw [ringNext_eq h.read_lt]
          exact Nat.mod_lt _ (Nat.zero_lt_of_lt h.read_lt)
        room := (Nat.lt_succ_self _).trans h.room
        write_eq := by
          rw [ringNext_add h.read_lt]
          exact h.write_eq
        cells := fun i hi => by
          rw [ringNext_add h.read_lt]
          exact h.cells (i + 1) (Nat.succ_lt_succ hi) }

end RingHolds

end Jos.Lib
