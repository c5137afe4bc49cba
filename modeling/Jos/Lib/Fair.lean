import Mathlib.Data.Nat.Init
import Mathlib.Tactic.ByContra

/-!
Fair runs, in which every process is scheduled again and again. They get
somewhere if in each state there is a process whose next step brings the goal
nearer, and if the steps of the others until then do no harm.
-/

namespace Jos.Lib

variable {σ ι : Type*} {x : ℕ → σ} {who : ℕ → ι} {rank : σ → ℕ} {helper : σ → ι} {t u : ℕ}

def Fair (who : ℕ → ι) : Prop := ∀ p t, ∃ u, t ≤ u ∧ who u = p

/-- A step of process `p` that brings the goal nearer, or one that leaves the
rank and the helper as they are and is not of the helper. -/
def Nears (rank : σ → ℕ) (helper : σ → ι) (p : ι) (s s' : σ) : Prop :=
  rank s' < rank s ∨ rank s' = rank s ∧ helper s' = helper s ∧ p ≠ helper s

/-- As long as no step brings the goal nearer, the helper has not moved. -/
theorem Nears.waits (h : ∀ v, t ≤ v → Nears rank helper (who v) (x v) (x (v + 1)))
    (hrank : ∀ v, t ≤ v → rank (x t) ≤ rank (x v)) (htu : t ≤ u) :
    rank (x u) = rank (x t) ∧ helper (x u) = helper (x t) := by
  induction u, htu using Nat.le_induction with
  | base => exact ⟨rfl, rfl⟩
  | succ u htu ih =>
      obtain ⟨hr, hh⟩ := ih
      have hle := hrank (u + 1) (Nat.le_succ_of_le htu)
      rcases h u htu with hlt | ⟨hr', hh', -⟩
      · exact absurd hlt (by omega)
      · exact ⟨hr'.trans hr, hh'.trans hh⟩

theorem Fair.nearer (hfair : Fair who)
    (h : ∀ v, t ≤ v → Nears rank helper (who v) (x v) (x (v + 1))) :
    ∃ u, t ≤ u ∧ rank (x u) < rank (x t) := by
  by_contra hnot
  have hrank (v : ℕ) (hv : t ≤ v) : rank (x t) ≤ rank (x v) := by
    by_contra hlt
    exact hnot ⟨v, hv, by omega⟩
  obtain ⟨u, htu, hwho⟩ := hfair (helper (x t)) t
  obtain ⟨hr, hh⟩ := Nears.waits h hrank htu
  have hle := hrank (u + 1) (Nat.le_succ_of_le htu)
  rcases h u htu with hlt | ⟨-, -, hne⟩
  · omega
  · exact hne (hwho.trans hh.symm)

/-- A fair run does not stay in a set in which every step nears the way out. -/
theorem Fair.leaves {P : σ → Prop} (hfair : Fair who)
    (h : ∀ v, P (x v) → P (x (v + 1)) → Nears rank helper (who v) (x v) (x (v + 1)))
    (ht : P (x t)) : ∃ u, t ≤ u ∧ P (x u) ∧ ¬ P (x (u + 1)) := by
  by_contra hnot
  have hstay (v : ℕ) (hv : t ≤ v) : P (x v) := by
    induction v, hv using Nat.le_induction with
    | base => exact ht
    | succ v hv ih =>
        by_contra hout
        exact hnot ⟨v, hv, ih, hout⟩
  have hnears (v : ℕ) (hv : t ≤ v) : Nears rank helper (who v) (x v) (x (v + 1)) :=
    h v (hstay v hv) (hstay (v + 1) (Nat.le_succ_of_le hv))
  -- the rank cannot decrease for ever
  have hnone (r v : ℕ) (hr : rank (x v) = r) (hv : t ≤ v) : False := by
    induction r using Nat.strong_induction_on generalizing v with
    | h r ih =>
        obtain ⟨u, hvu, hlt⟩ := hfair.nearer fun w hw => hnears w (Nat.le_trans hv hw)
        exact ih (rank (x u)) (hr ▸ hlt) u rfl (Nat.le_trans hv hvu)
  exact hnone _ t rfl (Nat.le_refl t)

end Jos.Lib
