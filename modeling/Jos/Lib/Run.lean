import Mathlib.Logic.Relation

/-!
Runs of a labelled transition system, possibly restricted to the steps that a
condition admits, and the induction rules that carry an invariant along them.
-/

namespace Jos.Lib

variable {σ : Type*} {l : Type*}

/-- One step whose label the condition admits in the state before it. -/
def Admitted (step : σ → l → σ → Prop) (ok : σ → l → Prop) (s t : σ) : Prop :=
  ∃ a, ok s a ∧ step s a t

/-- The states reached by admitted steps. -/
abbrev Run (step : σ → l → σ → Prop) (ok : σ → l → Prop) : σ → σ → Prop :=
  Relation.ReflTransGen (Admitted step ok)

/-- What one admitted step preserves, a run preserves. -/
theorem Run.invariant {step : σ → l → σ → Prop} {ok : σ → l → Prop} {I : σ → Prop}
    (hstep : ∀ {s a t}, I s → ok s a → step s a t → I t) {s t : σ} (h : Run step ok s t)
    (hs : I s) : I t := by
  induction h with
  | refl => exact hs
  | tail _ hlast ih =>
      obtain ⟨a, hok, hst⟩ := hlast
      exact hstep ih hok hst

/-- A stronger condition admits fewer runs. -/
theorem Run.mono {step : σ → l → σ → Prop} {ok ok' : σ → l → Prop}
    (himp : ∀ s a, ok s a → ok' s a) {s t : σ} (h : Run step ok s t) : Run step ok' s t :=
  Relation.ReflTransGen.mono (fun s _ ⟨a, hok, hst⟩ => ⟨a, himp s a hok, hst⟩) _ _ h

/-- Forward simulation: if every step of the system is one of another system,
seen through `f`, then so is every run. -/
theorem Run.simulates {τ : Type*} {step : σ → l → σ → Prop} {ok : σ → l → Prop}
    {step' : τ → l → τ → Prop} {ok' : τ → l → Prop} {I : σ → Prop} {f : σ → τ}
    (hinv : ∀ {s a t}, I s → ok s a → step s a t → I t)
    (hok : ∀ {s a}, I s → ok s a → ok' (f s) a)
    (hstep : ∀ {s a t}, I s → ok s a → step s a t → step' (f s) a (f t)) {s t : σ}
    (h : Run step ok s t) (hs : I s) : Run step' ok' (f s) (f t) := by
  have hboth : I t ∧ Run step' ok' (f s) (f t) := by
    induction h with
    | refl => exact ⟨hs, .refl⟩
    | tail _ hlast ih =>
        obtain ⟨a, ha, hst⟩ := hlast
        exact ⟨hinv ih.1 ha hst, ih.2.tail ⟨a, hok ih.1 ha, hstep ih.1 ha hst⟩⟩
  exact hboth.2

/-- A run that a function computes, giving up where a step is not admitted. -/
theorem Run.of_foldlM {step : σ → l → σ → Prop} {ok : σ → l → Prop} {f : σ → l → Option σ}
    (hf : ∀ {s a t}, f s a = some t → ok s a ∧ step s a t) {ls : List l} {s t : σ}
    (h : ls.foldlM f s = some t) : Run step ok s t := by
  induction ls generalizing s with
  | nil =>
      cases h
      exact .refl
  | cons a ls ih =>
      simp only [List.foldlM_cons, Option.bind_eq_bind, Option.bind_eq_some_iff] at h
      obtain ⟨u, hu, ht⟩ := h
      exact .head ⟨a, hf hu⟩ (ih ht)

end Jos.Lib
