import Mathlib.Data.List.Sort
import Mathlib.Data.Nat.PrimeFin
import Mathlib.Data.Nat.Prime.Nth

/-!
The sieve of Eratosthenes on streams. A stage has seen an initial part of the
increasing sequence of the numbers with some property. The initial parts are
closed under prefixes, and to filter one gives an initial part for the stronger
property. The first number that survives the first primes is the next prime.
-/

namespace Jos.Lib

/-- `l` is an initial part of the increasing sequence of all `x` with `P x`. -/
structure Initial (P : ℕ → Prop) (l : List ℕ) : Prop where
  sorted : l.Pairwise (· < ·)
  sound : ∀ x ∈ l, P x
  complete : ∀ x ∈ l, ∀ y < x, P y → y ∈ l

namespace Initial

variable {P Q : ℕ → Prop} {l l' : List ℕ} {x : ℕ}

theorem nil : Initial P [] := ⟨.nil, by simp, by simp⟩

theorem shorten (h : Initial P l) (hl : l' <+: l) : Initial P l' := by
  obtain ⟨m, rfl⟩ := hl
  obtain ⟨hsorted, -, hsep⟩ := List.pairwise_append.mp h.sorted
  refine ⟨hsorted, fun x hx => h.sound x (List.mem_append_left m hx), fun x hx y hy hPy => ?_⟩
  rcases List.mem_append.mp (h.complete x (List.mem_append_left m hx) y hy hPy) with hmem | hmem
  · exact hmem
  · exact absurd (hsep x hx y hmem) (Nat.lt_asymm hy)

theorem filter [DecidablePred Q] (h : Initial P l) :
    Initial (fun x => P x ∧ Q x) (l.filter (fun x => decide (Q x))) := by
  refine ⟨h.sorted.filter _, fun x hx => ?_, fun x hx y hy hPy => ?_⟩
  · rw [List.mem_filter, decide_eq_true_eq] at hx
    exact ⟨h.sound x hx.1, hx.2⟩
  · rw [List.mem_filter] at hx ⊢
    exact ⟨h.complete x hx.1 y hy hPy.1, decide_eq_true hPy.2⟩

theorem congr (h : Initial P l) (hPQ : ∀ x, P x ↔ Q x) : Initial Q l :=
  ⟨h.sorted, fun x hx => (hPQ x).mp (h.sound x hx),
    fun x hx y hy hQy => h.complete x hx y hy ((hPQ y).mpr hQy)⟩

/-- The first number is the least. -/
theorem head_least (h : Initial P (x :: l)) : P x ∧ ∀ y < x, ¬ P y := by
  refine ⟨h.sound x List.mem_cons_self, fun y hy hPy => ?_⟩
  rcases List.mem_cons.mp (h.complete x List.mem_cons_self y hy hPy) with rfl | hmem
  · exact Nat.lt_irrefl y hy
  · exact Nat.lt_asymm hy (List.rel_of_pairwise_cons h.sorted hmem)

/-- Everything from 2 on. -/
theorem range (n : ℕ) : Initial (2 ≤ ·) ((List.range n).filter fun x => 2 ≤ x) := by
  refine ⟨List.pairwise_lt_range.filter _, fun x hx => ?_, fun x hx y hy hPy => ?_⟩
  · exact of_decide_eq_true (List.mem_filter.mp hx).2
  · rw [List.mem_filter, List.mem_range] at hx ⊢
    exact ⟨hy.trans hx.1, decide_eq_true hPy⟩

end Initial

/-! ### Primes -/

/-- Not divisible by any of the first `k` primes. -/
def Survives (k x : ℕ) : Prop := 2 ≤ x ∧ ∀ j < k, ¬ Nat.nth Nat.Prime j ∣ x

theorem survives_zero (x : ℕ) : Survives 0 x ↔ 2 ≤ x := by simp [Survives]

theorem survives_succ (k x : ℕ) :
    Survives (k + 1) x ↔ Survives k x ∧ ¬ Nat.nth Nat.Prime k ∣ x := by
  simp only [Survives, Nat.lt_succ_iff_lt_or_eq, or_imp, forall_and, forall_eq, and_assoc]

theorem survives_prime (k : ℕ) : Survives k (Nat.nth Nat.Prime k) := by
  have hprime (j : ℕ) := Nat.nth_mem_of_infinite Nat.infinite_setOfPred_prime j
  refine ⟨(hprime k).two_le, fun j hj hdvd => ?_⟩
  have heq := (Nat.prime_dvd_prime_iff_eq (hprime j) (hprime k)).mp hdvd
  exact hj.ne (Nat.nth_injective Nat.infinite_setOfPred_prime heq)

/-- What survives the first `k` primes has a prime factor that is not one of
them. -/
theorem prime_le_of_survives {k x : ℕ} (h : Survives k x) : Nat.nth Nat.Prime k ≤ x := by
  have hx : x ≠ 1 := by
    have := h.1
    omega
  have hfac := Nat.minFac_prime hx
  have hnth := Nat.nth_count hfac
  have hk : k ≤ Nat.count Nat.Prime x.minFac := by
    by_contra hlt
    refine h.2 _ (Nat.lt_of_not_le hlt) ?_
    rw [hnth]
    exact Nat.minFac_dvd x
  calc Nat.nth Nat.Prime k
      ≤ Nat.nth Nat.Prime (Nat.count Nat.Prime x.minFac) :=
        Nat.nth_monotone Nat.infinite_setOfPred_prime hk
    _ = x.minFac := hnth
    _ ≤ x := Nat.minFac_le (by have := h.1; omega)

/-- The head of a stage is the next prime. -/
theorem Initial.head_prime {k x : ℕ} {l : List ℕ} (h : Initial (Survives k) (x :: l)) :
    x = Nat.nth Nat.Prime k := by
  obtain ⟨hx, hleast⟩ := h.head_least
  apply Nat.le_antisymm
  · by_contra hlt
    exact hleast _ (Nat.lt_of_not_le hlt) (survives_prime k)
  · exact prime_le_of_survives hx

/-- To filter a stage by its head gives the next stage. -/
theorem Initial.next {k p : ℕ} {l : List ℕ} (h : Initial (Survives k) l)
    (hp : p = Nat.nth Nat.Prime k) :
    Initial (Survives (k + 1)) (l.filter fun x => ¬ p ∣ x) := by
  subst hp
  exact (h.filter (Q := fun x => ¬ Nat.nth Nat.Prime k ∣ x)).congr fun x => (survives_succ k x).symm

end Jos.Lib
