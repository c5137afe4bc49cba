import Mathlib.Init

/-!
Computations that may fail: when a sequence of them succeeds, and the
induction rule for a loop over a list whose body may fail.
-/

namespace Jos.Lib

universe u v w

variable {ε : Type u} {α : Type w}

@[simp] theorem bind_eq_ok {β γ : Type v} {x : Except ε β} {f : β → Except ε γ} {b : γ} :
    (x >>= f) = .ok b ↔ ∃ a, x = .ok a ∧ f a = .ok b := by
  cases x with
  | error msg => simp [bind, Except.bind]
  | ok a => simp [bind, Except.bind]

theorem bind_of_ok {β γ : Type v} {x : Except ε β} {f : β → Except ε γ} {a : β} (h : x = .ok a) :
    (x >>= f) = f a := by
  rw [h]
  rfl

theorem bind_of_error {β γ : Type v} {x : Except ε β} {f : β → Except ε γ} {msg : ε}
    (h : x = .error msg) : (x >>= f) = .error msg := by
  rw [h]
  rfl

/-- `I l s`: what holds when the elements `l` are still to be visited. -/
theorem foldlM_induct {σ : Type v} {f : σ → α → Except ε σ} {I : List α → σ → Prop}
    (hstep : ∀ a l s t, I (a :: l) s → f s a = .ok t → I l t) {l : List α} {s t : σ}
    (hs : I l s) (h : l.foldlM f s = .ok t) : I [] t := by
  induction l generalizing s with
  | nil =>
      obtain rfl : s = t := Except.ok.inj h
      exact hs
  | cons a l ih =>
      obtain ⟨u, hu, ht⟩ := bind_eq_ok.mp h
      exact ih (hstep a l s u hs hu) ht

/-- A loop whose body succeeds as long as `I` holds succeeds. -/
theorem foldlM_total {σ : Type v} {f : σ → α → Except ε σ} {I : List α → σ → Prop}
    (hstep : ∀ a l s, I (a :: l) s → ∃ t, f s a = .ok t ∧ I l t) {l : List α} {s : σ}
    (hs : I l s) : ∃ t, l.foldlM f s = .ok t ∧ I [] t := by
  induction l generalizing s with
  | nil => exact ⟨s, rfl, hs⟩
  | cons a l ih =>
      obtain ⟨u, hu, hl⟩ := hstep a l s hs
      obtain ⟨t, ht, hnil⟩ := ih hl
      exact ⟨t, bind_eq_ok.mpr ⟨u, hu, ht⟩, hnil⟩

end Jos.Lib
