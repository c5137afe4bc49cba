import Mathlib.Data.BitVec
import Mathlib.Tactic.Abel

/-!
The x86 string instructions `movs` and `stos` with a `rep` prefix, on byte
memory with 32-bit addresses. An element of `w` bytes is read as a whole and
then written as a whole, and the two pointers go up or down by `w`, as the
direction flag says. Repeated copying keeps the old contents of the source if
no element is overwritten before it is read.
-/

namespace Jos.Lib

abbrev ByteMem := BitVec 32 → BitVec 8

variable {m : ByteMem} {a d s : BitVec 32} {w k n : ℕ}

/-! ### Bytes at a range of addresses -/

/-- The `n` bytes from `d` on, with no wrap at the end of the address space. -/
def InBytes (d : BitVec 32) (n : ℕ) (a : BitVec 32) : Prop :=
  d.toNat ≤ a.toNat ∧ a.toNat < d.toNat + n

instance (d : BitVec 32) (n : ℕ) (a : BitVec 32) : Decidable (InBytes d n a) :=
  inferInstanceAs (Decidable (_ ∧ _))

/-- `n` bytes from `d` on, given by their offset, are written. -/
def ByteMem.put (m : ByteMem) (d : BitVec 32) (n : ℕ) (f : BitVec 32 → BitVec 8) : ByteMem :=
  fun a => if InBytes d n a then f (a - d) else m a

/-- The `n` bytes from `s` on are at `d`. -/
def ByteMem.copied (m : ByteMem) (d s : BitVec 32) (n : ℕ) : ByteMem :=
  m.put d n fun i => m (s + i)

theorem ByteMem.put_of_in {f : BitVec 32 → BitVec 8} (h : InBytes d n a) :
    m.put d n f a = f (a - d) := if_pos h

theorem ByteMem.put_of_not_in {f : BitVec 32 → BitVec 8} (h : ¬ InBytes d n a) :
    m.put d n f a = m a := if_neg h

theorem ByteMem.copied_of_in (h : InBytes d n a) : m.copied d s n a = m (s + (a - d)) :=
  put_of_in h

@[simp] theorem ByteMem.put_zero (f : BitVec 32 → BitVec 8) : m.put d 0 f = m := by
  funext a
  exact put_of_not_in fun h => by
    unfold InBytes at h
    omega

theorem InBytes.offset_lt (h : InBytes d n a) : (a - d).toNat < n := by
  have ha := a.isLt
  unfold InBytes at h
  rw [BitVec.toNat_sub]
  omega

/-- A range in two parts. -/
theorem inBytes_add (h : d.toNat + w < 2 ^ 32) :
    InBytes d (w + n) a ↔ InBytes d w a ∨ InBytes (d + BitVec.ofNat 32 w) n a := by
  unfold InBytes
  rw [BitVec.toNat_add, BitVec.toNat_ofNat]
  omega

/-! ### The instructions -/

/-- One `movs` of `w` bytes. -/
def movs (w : ℕ) (edi esi : BitVec 32) (m : ByteMem) : ByteMem := m.copied edi esi w

/-- One `stos` of the low `w` bytes of `eax`. -/
def stos (w : ℕ) (edi eax : BitVec 32) (m : ByteMem) : ByteMem :=
  m.put edi w fun i => (eax >>> (8 * i.toNat)).truncate 8

/-- The pointers go up, or down when DF is set. -/
def advance (df : Bool) (w : ℕ) (p : BitVec 32) : BitVec 32 :=
  if df then p - BitVec.ofNat 32 w else p + BitVec.ofNat 32 w

def repMovs (df : Bool) (w : ℕ) (edi esi : BitVec 32) : ℕ → ByteMem → ByteMem
  | 0, m => m
  | ecx + 1, m => repMovs df w (advance df w edi) (advance df w esi) ecx (movs w edi esi m)

def repStos (df : Bool) (w : ℕ) (edi eax : BitVec 32) : ℕ → ByteMem → ByteMem
  | 0, m => m
  | ecx + 1, m => repStos df w (advance df w edi) eax ecx (stos w edi eax m)

/-! ### Copying -/

/-- The second of two copies, where it does not read what the first has
written. -/
theorem copied_copied {d' s' : BitVec 32} {n' : ℕ}
    (h : InBytes d' n' a → ¬ InBytes d n (s' + (a - d'))) :
    (m.copied d s n).copied d' s' n' a =
      if InBytes d' n' a then m (s' + (a - d')) else m.copied d s n a := by
  by_cases ha : InBytes d' n' a
  · rw [if_pos ha]
    exact (ByteMem.copied_of_in ha).trans (ByteMem.put_of_not_in (h ha))
  · rw [if_neg ha]
    exact ByteMem.put_of_not_in ha

/-- Copying the first `w` bytes and then the other `n`. -/
theorem copied_up (hs : s.toNat + (w + n) ≤ 2 ^ 32) (hd : d.toNat + (w + n) ≤ 2 ^ 32)
    (hapart : d.toNat ≤ s.toNat ∨ s.toNat + (w + n) ≤ d.toNat) :
    (m.copied d s w).copied (d + BitVec.ofNat 32 w) (s + BitVec.ofNat 32 w) n =
      m.copied d s (w + n) := by
  rcases Nat.eq_zero_or_pos n with rfl | hn
  · exact ByteMem.put_zero _
  · have hrange (a : BitVec 32) : InBytes d (w + n) a ↔
        InBytes d w a ∨ InBytes (d + BitVec.ofNat 32 w) n a := inBytes_add (by omega)
    funext a
    have hsame : s + BitVec.ofNat 32 w + (a - (d + BitVec.ofNat 32 w)) = s + (a - d) := by
      abel
    rw [copied_copied, hsame]
    · by_cases ha : InBytes (d + BitVec.ofNat 32 w) n a
      · rw [if_pos ha]
        exact (ByteMem.copied_of_in ((hrange a).mpr (Or.inr ha))).symm
      · rw [if_neg ha]
        unfold ByteMem.copied ByteMem.put
        simp only [hrange, ha, or_false]
    · intro ha hread
      rw [hsame] at hread
      unfold InBytes at ha hread
      simp only [BitVec.toNat_add, BitVec.toNat_sub, BitVec.toNat_ofNat] at ha hread
      omega

/-- Copying the last `w` bytes and then the other `n`. -/
theorem copied_down (hs : s.toNat + (n + w) ≤ 2 ^ 32) (hd : d.toNat + (n + w) ≤ 2 ^ 32)
    (hle : s.toNat ≤ d.toNat) :
    (m.copied (d + BitVec.ofNat 32 n) (s + BitVec.ofNat 32 n) w).copied d s n =
      m.copied d s (n + w) := by
  rcases Nat.eq_zero_or_pos w with rfl | hw
  · exact congrArg (ByteMem.copied · d s n) (ByteMem.put_zero _)
  · have hrange (a : BitVec 32) : InBytes d (n + w) a ↔
        InBytes d n a ∨ InBytes (d + BitVec.ofNat 32 n) w a := inBytes_add (by omega)
    funext a
    have hsame : s + BitVec.ofNat 32 n + (a - (d + BitVec.ofNat 32 n)) = s + (a - d) := by
      abel
    rw [copied_copied]
    · by_cases ha : InBytes d n a
      · rw [if_pos ha]
        exact (ByteMem.copied_of_in ((hrange a).mpr (Or.inl ha))).symm
      · rw [if_neg ha]
        unfold ByteMem.copied ByteMem.put
        simp only [hrange, ha, false_or, hsame]
    · intro ha hread
      unfold InBytes at ha hread
      simp only [BitVec.toNat_add, BitVec.toNat_sub, BitVec.toNat_ofNat] at ha hread
      omega

/-- Going up is right where the destination does not begin inside the source. -/
theorem repMovs_up (hs : s.toNat + w * k ≤ 2 ^ 32) (hd : d.toNat + w * k ≤ 2 ^ 32)
    (hapart : d.toNat ≤ s.toNat ∨ s.toNat + w * k ≤ d.toNat) :
    repMovs false w d s k m = m.copied d s (w * k) := by
  induction k generalizing d s m with
  | zero => exact (ByteMem.put_zero _).symm
  | succ k ih =>
      rw [Nat.mul_succ] at hs hd hapart ⊢
      rw [Nat.add_comm (w * k)] at hs hd hapart ⊢
      rw [← copied_up hs hd hapart]
      refine ih ?_ ?_ ?_ <;>
        · rw [advance, if_neg Bool.false_ne_true]
          simp only [advance, if_neg Bool.false_ne_true, BitVec.toNat_add, BitVec.toNat_ofNat]
          omega

/-- Going down is right where the source does not begin inside the destination. -/
theorem repMovs_down (hs : s.toNat + w * k ≤ 2 ^ 32) (hd : d.toNat + w * k ≤ 2 ^ 32)
    (hapart : s.toNat ≤ d.toNat) :
    repMovs true w (d + BitVec.ofNat 32 (w * k) - BitVec.ofNat 32 w)
      (s + BitVec.ofNat 32 (w * k) - BitVec.ofNat 32 w) k m = m.copied d s (w * k) := by
  induction k generalizing m with
  | zero => exact (ByteMem.put_zero _).symm
  | succ k ih =>
      have hnext (p : BitVec 32) : p + BitVec.ofNat 32 (w * (k + 1)) - BitVec.ofNat 32 w =
          p + BitVec.ofNat 32 (w * k) := by
        rw [Nat.mul_succ, BitVec.ofNat_add]
        abel
      rw [Nat.mul_succ] at hs hd
      rw [hnext, hnext, Nat.mul_succ, ← copied_down hs hd hapart]
      exact ih (by omega) (by omega)

/-! ### Filling -/

/-- The `n` bytes from `d` on are `c`. -/
def ByteMem.filled (m : ByteMem) (d : BitVec 32) (n : ℕ) (c : BitVec 8) : ByteMem :=
  m.put d n fun _ => c

theorem filled_up {c : BitVec 8} (hd : d.toNat + (w + n) ≤ 2 ^ 32) :
    (m.filled d w c).filled (d + BitVec.ofNat 32 w) n c = m.filled d (w + n) c := by
  rcases Nat.eq_zero_or_pos n with rfl | hn
  · exact ByteMem.put_zero _
  · funext a
    unfold ByteMem.filled ByteMem.put
    simp only [inBytes_add (show d.toNat + w < 2 ^ 32 by omega)]
    by_cases hfirst : InBytes d w a <;> simp [hfirst]

/-- Filling with elements whose bytes are all the same. -/
theorem repStos_up {eax : BitVec 32} {c : BitVec 8} (hd : d.toNat + w * k ≤ 2 ^ 32)
    (hc : ∀ i < w, (eax >>> (8 * i)).truncate 8 = c) :
    repStos false w d eax k m = m.filled d (w * k) c := by
  have hstos (d : BitVec 32) (m : ByteMem) : stos w d eax m = m.filled d w c := by
    funext a
    unfold stos ByteMem.filled ByteMem.put
    split
    · rename_i ha
      exact hc _ ha.offset_lt
    · rfl
  induction k generalizing d m with
  | zero => exact (ByteMem.put_zero _).symm
  | succ k ih =>
      rw [Nat.mul_succ] at hd ⊢
      rw [Nat.add_comm (w * k)] at hd ⊢
      rw [← filled_up hd, ← hstos]
      refine ih ?_
      simp only [advance, if_neg Bool.false_ne_true, BitVec.toNat_add, BitVec.toNat_ofNat]
      omega

end Jos.Lib
