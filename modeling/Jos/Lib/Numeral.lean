import Mathlib.Data.Nat.Digits.Lemmas

/-!
Numerals, the most significant digit first and without superfluous zeros: the
digits of `Nat.digits` in reverse, and one digit for zero. A numeral is printed
digit by digit from the end (`numeral_step`) and read from the start
(`foldl_numeral`).
-/

namespace Jos.Lib

variable {base n k : ℕ}

def numeral (base n : ℕ) : List ℕ := if n = 0 then [0] else (Nat.digits base n).reverse

theorem numeral_of_lt (h : n < base) : numeral base n = [n] := by
  unfold numeral
  split
  · rename_i hn
    rw [hn]
  · rename_i hn
    rw [Nat.digits_of_lt base n hn h]
    rfl

theorem numeral_step (hbase : 1 < base) (h : base ≤ n) :
    numeral base n = numeral base (n / base) ++ [n % base] := by
  have hn : n ≠ 0 := by omega
  have hdiv : n / base ≠ 0 := (Nat.div_pos h (by omega)).ne'
  unfold numeral
  rw [if_neg hn, if_neg hdiv, Nat.digits_def' hbase (by omega), List.reverse_cons]

theorem numeral_ne_nil : numeral base n ≠ [] := by
  unfold numeral
  split
  · exact List.cons_ne_nil _ _
  · rename_i hn
    rw [ne_eq, List.reverse_eq_nil_iff]
    exact Nat.digits_ne_nil_iff_ne_zero.mpr hn

theorem length_numeral_pos : 0 < (numeral base n).length :=
  List.length_pos_of_ne_nil numeral_ne_nil

theorem lt_of_mem_numeral (hbase : 1 < base) {d : ℕ} (h : d ∈ numeral base n) : d < base := by
  unfold numeral at h
  split at h
  · rw [List.mem_singleton.mp h]
    omega
  · exact Nat.digits_lt_base hbase (List.mem_reverse.mp h)

/-- Only the numeral of zero starts with a zero. -/
theorem head_numeral (h : (numeral base n).head? = some 0) : n = 0 := by
  by_contra hn
  unfold numeral at h
  rw [if_neg hn, List.head?_reverse, List.getLast?_eq_some_getLast
    (Nat.digits_ne_nil_iff_ne_zero.mpr hn)] at h
  exact Nat.getLast_digit_ne_zero base hn (Option.some.inj h)

theorem length_numeral_le (hbase : 1 < base) (hk : 0 < k) (h : n < base ^ k) :
    (numeral base n).length ≤ k := by
  unfold numeral
  split
  · exact hk
  · rw [List.length_reverse]
    exact (Nat.digits_length_le_iff hbase n).mpr h

/-- A numeral read from the start, in any arithmetic. -/
theorem foldl_numeral {α : Type*} [CommSemiring α] (hbase : 1 < base) :
    (numeral base n).foldl (fun (v : α) (d : ℕ) => v * (base : α) + (d : α)) 0 = (n : α) := by
  induction n using Nat.strong_induction_on with
  | _ n ih =>
      rcases lt_or_ge n base with hlt | hge
      · rw [numeral_of_lt hlt]
        simp
      · rw [numeral_step hbase hge, List.foldl_append,
          ih (n / base) (Nat.div_lt_self (by omega) hbase)]
        simp only [List.foldl_cons, List.foldl_nil]
        rw [← Nat.cast_mul, ← Nat.cast_add, Nat.div_add_mod']

end Jos.Lib
