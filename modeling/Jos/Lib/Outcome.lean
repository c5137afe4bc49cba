import Mathlib.Logic.Basic

/-!
State computations that may fail to return.

A handler that owns the processor ends in one of three ways: it returns to
its caller, it leaves for good (the processor goes on with something else, so
nothing after the call runs), or it stops the machine. `Comp` is the monad of
such computations, and `Comp.wp` its weakest preconditions, with one condition
for each of the three ways to end and a rule for each way to build a
computation.
-/

namespace Jos.Lib

universe u v w x

/-- How a computation ends. -/
inductive Outcome (σ : Type u) (ε : Type v) (α : Type w) where
  | ret (a : α) (s : σ)
  | leave (s : σ)
  | stop (why : ε) (s : σ)

/-- It returns, and what it returns passes a test. -/
def Outcome.returns {σ : Type u} {ε : Type v} {α : Type w} (o : Outcome σ ε α)
    (test : α → σ → Bool) : Bool :=
  match o with
  | .ret a s => test a s
  | .leave _ => false
  | .stop _ _ => false

theorem Outcome.returns_eq_true {σ : Type u} {ε : Type v} {α : Type w} {o : Outcome σ ε α}
    {test : α → σ → Bool} : o.returns test = true ↔ ∃ a s, o = .ret a s ∧ test a s = true := by
  constructor
  · intro h
    cases o with
    | ret a s => exact ⟨a, s, rfl, h⟩
    | leave s => exact absurd h Bool.false_ne_true
    | stop why s => exact absurd h Bool.false_ne_true
  · rintro ⟨a, s, rfl, h⟩
    exact h

/-- A computation on states `σ` that may leave or stop. -/
def Comp (σ : Type u) (ε : Type v) (α : Type w) := σ → Outcome σ ε α

namespace Comp

variable {σ : Type u} {ε : Type v}

def pure {α : Type w} (a : α) : Comp σ ε α := fun s => .ret a s

def bind {α : Type w} {β : Type x} (m : Comp σ ε α) (f : α → Comp σ ε β) : Comp σ ε β :=
  fun s =>
    match m s with
    | .ret a t => f a t
    | .leave t => .leave t
    | .stop why t => .stop why t

instance : Monad (Comp σ ε) where
  pure := Comp.pure
  bind := Comp.bind

/-- The current state. -/
def get : Comp σ ε σ := fun s => .ret s s

def modify (f : σ → σ) : Comp σ ε Unit := fun s => .ret () (f s)

/-- Leave: control does not come back to the caller. -/
def exit {α : Type w} : Comp σ ε α := fun s => .leave s

/-- Stop the machine. -/
def stop {α : Type w} (why : ε) : Comp σ ε α := fun s => .stop why s

variable {α : Type} {β : Type} {m : Comp σ ε α} {f : α → Comp σ ε β} {s t : σ}

@[simp] theorem pure_apply (a : α) (s : σ) : (Pure.pure a : Comp σ ε α) s = .ret a s := rfl

@[simp] theorem get_apply (s : σ) : (get : Comp σ ε σ) s = .ret s s := rfl

@[simp] theorem modify_apply (g : σ → σ) (s : σ) :
    (modify g : Comp σ ε Unit) s = .ret () (g s) := rfl

@[simp] theorem exit_apply (s : σ) : (exit : Comp σ ε α) s = .leave s := rfl

@[simp] theorem stop_apply (why : ε) (s : σ) :
    (stop why : Comp σ ε α) s = .stop why s := rfl

theorem bind_apply (m : Comp σ ε α) (f : α → Comp σ ε β) (s : σ) :
    (m >>= f) s =
      match m s with
      | .ret a t => f a t
      | .leave t => .leave t
      | .stop why t => .stop why t := rfl

theorem bind_of_ret {a : α} (h : m s = .ret a t) : (m >>= f) s = f a t := by
  rw [bind_apply, h]

theorem bind_of_leave (h : m s = .leave t) : (m >>= f) s = .leave t := by
  rw [bind_apply, h]

theorem bind_of_stop {why : ε} (h : m s = .stop why t) : (m >>= f) s = .stop why t := by
  rw [bind_apply, h]

@[simp] theorem get_bind {β : Type} (f : σ → Comp σ ε β) (s : σ) :
    Comp.bind get f s = f s s := rfl

/-! ### Weakest preconditions -/

/-- The states from which `m` ends as asked: with a value and a state that
satisfy `R` when it returns, in `E` when it leaves and in `H` when it stops. -/
def wp {α : Type w} (m : Comp σ ε α) (R : α → σ → Prop) (E H : σ → Prop) (s : σ) : Prop :=
  match m s with
  | .ret a t => R a t
  | .leave t => E t
  | .stop _ t => H t

variable {R R' : α → σ → Prop} {E E' H H' : σ → Prop}

theorem wp.ret {a : α} (h : wp m R E H s) (hm : m s = .ret a t) : R a t := by
  simpa [wp, hm] using h

theorem wp.leave (h : wp m R E H s) (hm : m s = .leave t) : E t := by
  simpa [wp, hm] using h

theorem wp.stop {why : ε} (h : wp m R E H s) (hm : m s = .stop why t) : H t := by
  simpa [wp, hm] using h

theorem wp.mono (h : wp m R E H s) (hR : ∀ a t, R a t → R' a t) (hE : ∀ t, E t → E' t)
    (hH : ∀ t, H t → H' t) : wp m R' E' H' s := by
  unfold wp at *
  cases hm : m s with
  | ret a t => exact hR a t (by simpa [hm] using h)
  | leave t => exact hE t (by simpa [hm] using h)
  | stop why t => exact hH t (by simpa [hm] using h)

theorem wp_intro (hR : ∀ a t, m s = .ret a t → R a t) (hE : ∀ t, m s = .leave t → E t)
    (hH : ∀ why t, m s = .stop why t → H t) : wp m R E H s := by
  unfold wp
  cases hm : m s with
  | ret a t => exact hR a t hm
  | leave t => exact hE t hm
  | stop why t => exact hH why t hm

@[simp] theorem wp_pure (a : α) : wp (Pure.pure a : Comp σ ε α) R E H s ↔ R a s := Iff.rfl

@[simp] theorem wp_get {R : σ → σ → Prop} : wp (get : Comp σ ε σ) R E H s ↔ R s s := Iff.rfl

@[simp] theorem wp_modify {g : σ → σ} {R : Unit → σ → Prop} :
    wp (modify g : Comp σ ε Unit) R E H s ↔ R () (g s) := Iff.rfl

@[simp] theorem wp_exit : wp (exit : Comp σ ε α) R E H s ↔ E s := Iff.rfl

@[simp] theorem wp_stop (why : ε) : wp (stop why : Comp σ ε α) R E H s ↔ H s := Iff.rfl

@[simp] theorem wp_bind {R : β → σ → Prop} :
    wp (m >>= f) R E H s ↔ wp m (fun a t => wp (f a) R E H t) E H s := by
  unfold wp
  rw [bind_apply]
  cases m s <;> rfl

@[simp] theorem wp_ite {p : Prop} [Decidable p] {m₁ m₂ : Comp σ ε α} :
    wp (if p then m₁ else m₂) R E H s ↔ (p → wp m₁ R E H s) ∧ (¬ p → wp m₂ R E H s) := by
  split <;> simp [*]

-- From here on the rules stand for the definition: unfolding it would run the computation.
attribute [irreducible] wp

/-! ### Reasons to stop -/

/-- From `s`, `m` stops for a reason that `ok` admits, if it stops. -/
def StopsOnly (ok : ε → σ → Prop) (m : Comp σ ε α) (s : σ) : Prop :=
  ∀ why t, m s = .stop why t → ok why t

variable {ok : ε → σ → Prop}

theorem stopsOnly_of_ret {a : α} (h : m s = .ret a t) : StopsOnly ok m s := by
  intro why u hstop
  rw [h] at hstop
  cases hstop

theorem stopsOnly_of_leave (h : m s = .leave t) : StopsOnly ok m s := by
  intro why u hstop
  rw [h] at hstop
  cases hstop

theorem stopsOnly_of_eq {m' : Comp σ ε α} (h : m s = m' t) (h' : StopsOnly ok m' t) :
    StopsOnly ok m s := by
  intro why u hstop
  rw [h] at hstop
  exact h' why u hstop

/-- A sequence stops where its first part does, or its second. -/
theorem StopsOnly.bind (h : StopsOnly ok m s)
    (hf : ∀ a t, m s = .ret a t → StopsOnly ok (f a) t) : StopsOnly ok (m >>= f) s := by
  intro why t hstop
  rw [bind_apply] at hstop
  cases hm : m s with
  | ret a u =>
      rw [hm] at hstop
      exact hf a u hm why t hstop
  | leave u =>
      rw [hm] at hstop
      cases hstop
  | stop why' u =>
      rw [hm] at hstop
      cases hstop
      exact h why t hm

theorem StopsOnly.after {a : α} (hm : m s = .ret a t) (h : StopsOnly ok (f a) t) :
    StopsOnly ok (m >>= f) s :=
  stopsOnly_of_eq (bind_of_ret hm) h

end Comp

end Jos.Lib
