import Mathlib.Data.Fintype.Card
import Mathlib.Data.Finset.Card
import Mathlib.Tactic.Linarith

/-!
Counting references. A finite set of slots holds pointers, `r i` is what slot
`i` points at, and `refs r a` is the number of slots that point at `a`. A
program keeps such a number beside each object and updates it whenever it
writes a slot; the lemmas here say what one write does to the number, and what
follows for an object that is referenced from nowhere or from one place only.
-/

namespace Jos.Lib

variable {ι α : Type*} [Fintype ι] [DecidableEq α]

/-- The number of slots that point at `a`. -/
def refs (r : ι → Option α) (a : α) : ℕ :=
  (Finset.univ.filter fun i => r i = some a).card

/-- Whether one slot points at `a`, as a number. -/
def hit (v : Option α) (a : α) : ℕ := if v = some a then 1 else 0

@[simp] theorem hit_none (a : α) : hit (none : Option α) a = 0 := rfl

@[simp] theorem hit_self (a : α) : hit (some a) a = 1 := by simp [hit]

theorem hit_of_ne {v : Option α} {a : α} (h : v ≠ some a) : hit v a = 0 := by simp [hit, h]

theorem hit_le_one (v : Option α) (a : α) : hit v a ≤ 1 := by
  unfold hit
  split <;> omega

/-- One object gains a reference. -/
theorem eq_update_of_gain {f g : α → ℕ} {a : α} (h : ∀ x, g x = f x + hit (some a) x) :
    g = Function.update f a (f a + 1) := by
  funext x
  rw [h]
  by_cases hx : x = a
  · rw [hx, Function.update_self, hit_self]
  · rw [Function.update_of_ne hx, hit_of_ne (by simpa using fun heq => hx heq.symm), add_zero]

/-- One object loses a reference. -/
theorem eq_update_of_drop {f g : α → ℕ} {a : α} (h : ∀ x, g x + hit (some a) x = f x) :
    g = Function.update f a (f a - 1) := by
  funext x
  rw [← h a]
  by_cases hx : x = a
  · rw [hx, Function.update_self, hit_self, Nat.add_sub_cancel]
  · rw [Function.update_of_ne hx, ← h x, hit_of_ne (by simpa using fun heq => hx heq.symm),
      add_zero]

/-- Writing one slot: what it pointed at loses a reference and what it points
at now gains one. -/
theorem refs_write {r r' : ι → Option α} {i : ι} (h : ∀ j, j ≠ i → r' j = r j) (a : α) :
    refs r' a + hit (r i) a = refs r a + hit (r' i) a := by
  classical
  have split (q : ι → Option α) :
      refs q a = ((Finset.univ.erase i).filter fun j => q j = some a).card + hit (q i) a := by
    unfold refs hit
    rw [← Finset.insert_erase (Finset.mem_univ i), Finset.filter_insert,
      Finset.erase_insert (Finset.notMem_erase i _)]
    split
    · rw [Finset.card_insert_of_notMem (by simp)]
    · rfl
  have hrest : ((Finset.univ.erase i).filter fun j => r' j = some a) =
      (Finset.univ.erase i).filter fun j => r j = some a := by
    refine Finset.filter_congr fun j hj => ?_
    rw [h j (Finset.ne_of_mem_erase hj)]
  rw [split r, split r', hrest]
  omega

theorem refs_eq_zero {r : ι → Option α} {a : α} : refs r a = 0 ↔ ∀ i, r i ≠ some a := by
  simp [refs, Finset.filter_eq_empty_iff]

theorem refs_pos {r : ι → Option α} {a : α} {i : ι} (h : r i = some a) : 0 < refs r a := by
  rw [Nat.pos_iff_ne_zero]
  exact fun h0 => refs_eq_zero.mp h0 i h

/-- An object with one reference is pointed at by one slot. -/
theorem refs_one_unique {r : ι → Option α} {a : α} (h : refs r a = 1) {i j : ι}
    (hi : r i = some a) (hj : r j = some a) : i = j := by
  obtain ⟨k, hk⟩ := Finset.card_eq_one.mp h
  have hmem (x : ι) (hx : r x = some a) : x = k := by
    have : x ∈ (Finset.univ.filter fun i => r i = some a) := by simp [hx]
    rw [hk] at this
    simpa using this
  rw [hmem i hi, hmem j hj]

/-- References that two sets of slots share out. -/
theorem refs_add {r r₁ r₂ : ι → Option α} {a : α}
    (h : ∀ i, r i = some a ↔ r₁ i = some a ∨ r₂ i = some a)
    (hdisj : ∀ i, ¬ (r₁ i = some a ∧ r₂ i = some a)) : refs r a = refs r₁ a + refs r₂ a := by
  classical
  have hunion : (Finset.univ.filter fun i => r i = some a) =
      (Finset.univ.filter fun i => r₁ i = some a) ∪
        Finset.univ.filter fun i => r₂ i = some a := by
    ext i
    simp [h]
  unfold refs
  rw [hunion, Finset.card_union_of_disjoint]
  rw [Finset.disjoint_left]
  intro i h₁ h₂
  exact hdisj i ⟨by simpa using h₁, by simpa using h₂⟩

/-- Distinct slots that point at one object are counted apart. -/
theorem card_le_refs {κ : Type*} [Fintype κ] {r : ι → Option α} {a : α} (f : κ → ι)
    (hf : Function.Injective f) (h : ∀ k, r (f k) = some a) : Fintype.card κ ≤ refs r a := by
  classical
  rw [← Finset.card_univ, ← Finset.card_image_of_injective Finset.univ hf]
  refine Finset.card_le_card fun i hi => ?_
  obtain ⟨k, -, rfl⟩ := Finset.mem_image.mp hi
  simp [h k]

/-- An object that only the slots `f k` point at has at most one reference for
each of them. -/
theorem refs_le_card {κ : Type*} [Fintype κ] {r : ι → Option α} {a : α} (f : κ → ι)
    (h : ∀ i, r i = some a → ∃ k, f k = i) : refs r a ≤ Fintype.card κ := by
  classical
  refine (Finset.card_le_card fun i hi => ?_).trans
    ((Finset.card_image_le (s := Finset.univ) (f := f)).trans Finset.card_univ.le)
  obtain ⟨k, rfl⟩ := h i (by simpa using hi)
  simp

-- The lemmas stand for the definition, which counts over all slots.
attribute [irreducible] refs

end Jos.Lib
