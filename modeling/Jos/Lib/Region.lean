import Mathlib.Logic.Function.Basic
import Mathlib.Data.List.Basic

/-!
Regions of a table: a region is a run of consecutive cells together with what
goes into each of them. Regions are written one after the other, so a cell has
what the last region that contains it says.
-/

namespace Jos.Lib

/-- The cells from `base` on, and the values for them. -/
structure Region (β : Type*) where
  base : ℕ
  size : ℕ
  value : ℕ → β

variable {β : Type*} {f : ℕ → β} {r : Region β} {rs : List (Region β)} {v : ℕ}

namespace Region

def Contains (r : Region β) (v : ℕ) : Prop := r.base ≤ v ∧ v < r.base + r.size

instance (r : Region β) (v : ℕ) : Decidable (r.Contains v) :=
  inferInstanceAs (Decidable (_ ∧ _))

/-- One of them ends before the other begins. -/
def Apart (r s : Region β) : Prop := r.base + r.size ≤ s.base ∨ s.base + s.size ≤ r.base

def write (f : ℕ → β) (r : Region β) : ℕ → β := fun v =>
  if r.Contains v then r.value (v - r.base) else f v

def writeAll (f : ℕ → β) (rs : List (Region β)) : ℕ → β := rs.foldl write f

theorem write_of_contains (h : r.Contains v) : write f r v = r.value (v - r.base) := if_pos h

theorem write_of_not_contains (h : ¬ r.Contains v) : write f r v = f v := if_neg h

theorem Apart.not_contains {s : Region β} (h : r.Apart s) (hv : r.Contains v) :
    ¬ s.Contains v := by
  unfold Apart at h
  unfold Contains at hv ⊢
  omega

theorem contains_mk {b k : ℕ} {g : ℕ → β} : Contains ⟨b, k, g⟩ v ↔ b ≤ v ∧ v < b + k := Iff.rfl

@[simp] theorem write_empty (f : ℕ → β) (b : ℕ) (g : ℕ → β) : write f ⟨b, 0, g⟩ = f := by
  funext v
  refine write_of_not_contains ?_
  rw [contains_mk]
  omega

/-- A region is written cell by cell from its base. -/
theorem write_succ (f : ℕ → β) (b k : ℕ) (g : ℕ → β) :
    write f ⟨b, k + 1, g⟩ =
      write (Function.update f b (g 0)) ⟨b + 1, k, fun i => g (i + 1)⟩ := by
  funext v
  simp only [write, contains_mk]
  by_cases hv : v = b
  · subst hv
    rw [if_pos (by omega), if_neg (by omega), Function.update_self, Nat.sub_self]
  · rw [Function.update_of_ne hv]
    by_cases hin : b + 1 ≤ v ∧ v < b + 1 + k
    · rw [if_pos (by omega), if_pos hin]
      congr 1
      omega
    · rw [if_neg (by omega), if_neg hin]

theorem writeAll_append (f : ℕ → β) (rs rs' : List (Region β)) :
    writeAll f (rs ++ rs') = writeAll (writeAll f rs) rs' := List.foldl_append

/-- A cell of no region is as it was. -/
theorem writeAll_of_not_contains (h : ∀ r ∈ rs, ¬ r.Contains v) : writeAll f rs v = f v := by
  induction rs generalizing f with
  | nil => rfl
  | cons r rs ih =>
      have hrest : writeAll (write f r) rs v = write f r v := ih fun s hs => h s (by simp [hs])
      exact hrest.trans (write_of_not_contains (h r (by simp)))

/-- A cell has what the last region that contains it says. -/
theorem writeAll_of_last {rs' : List (Region β)} (hin : r.Contains v)
    (hlast : ∀ s ∈ rs', ¬ s.Contains v) :
    writeAll f (rs ++ r :: rs') v = r.value (v - r.base) := by
  rw [writeAll_append]
  exact (writeAll_of_not_contains hlast).trans (write_of_contains hin)

/-- Where the regions do not overlap, each has its own values. -/
theorem writeAll_of_mem (h : rs.Pairwise Apart) (hr : r ∈ rs) (hv : r.Contains v) :
    writeAll f rs v = r.value (v - r.base) := by
  obtain ⟨rs₁, rs₂, rfl⟩ := List.append_of_mem hr
  have hrest := (List.pairwise_cons.mp (List.pairwise_append.mp h).2.1).1
  exact writeAll_of_last hv fun s hs => (hrest s hs).not_contains hv

/-- Regions that do not overlap can be written in either order. -/
theorem write_comm {s : Region β} (h : r.Apart s) :
    write (write f r) s = write (write f s) r := by
  funext v
  by_cases hr : r.Contains v
  · have hs : ¬ s.Contains v := h.not_contains hr
    rw [write_of_not_contains hs, write_of_contains hr, write_of_contains hr]
  · by_cases hs : s.Contains v
    · rw [write_of_contains hs, write_of_not_contains hr, write_of_contains hs]
    · rw [write_of_not_contains hs, write_of_not_contains hr, write_of_not_contains hr,
        write_of_not_contains hs]

end Region

end Jos.Lib
