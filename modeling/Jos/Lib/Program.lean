import Mathlib.Logic.Relation

/-!
A program that runs among others. It returns, or does an action and goes on
with the answer, and before each of its actions the others may change the
state. `Meets` is the verification condition of a program: what has to hold
before its actions and when it returns, whatever the others do in between. It
is proved along the program, with an assertion for each action that the others
keep, and then holds wherever the program gets.
-/

namespace Jos.Lib

universe u v w

/-- A program whose action `a` is answered by an `R a`. -/
inductive Program {A : Type u} (R : A → Type v) (α : Type w) where
  | ret (x : α)
  | act (a : A) (k : R a → Program R α)

namespace Program

variable {A : Type u} {R : A → Type v} {α β : Type v}

def bind : Program R α → (α → Program R β) → Program R β
  | ret x, f => f x
  | act a k, f => act a fun r => (k r).bind f

instance : Monad (Program R) where
  pure := ret
  bind := bind

/-- One action. -/
def perform (a : A) : Program R (R a) := act a ret

end Program

/-- What the actions of a program do to states, and what the others may do to
them while the program is about to do an action. -/
structure Arena {A : Type u} (R : A → Type v) (σ : Type w) where
  does : (a : A) → σ → R a → σ → Prop
  others : A → σ → σ → Prop

namespace Arena

variable {A : Type u} {R : A → Type v} {σ : Type w} {α β : Type v} {I : Arena R σ}
  {V : σ → Prop} {ok : A → σ → Prop} {Q Q' : α → σ → Prop} {p p' : Program R α}
  {f : α → Program R β} {a : A} {k : R a → Program R α} {s t : σ} {x : α}

/-- One action of the program, or of the others. -/
inductive Next (I : Arena R σ) : Program R α × σ → Program R α × σ → Prop
  | does {a : A} {k : R a → Program R α} {s t : σ} {r : R a} (h : I.does a s r t) :
      Next I (.act a k, s) (k r, t)
  | others {a : A} {k : R a → Program R α} {s t : σ} (h : I.others a s t) :
      Next I (.act a k, s) (.act a k, t)

/-- What the program and the others can come to. -/
abbrev Reaches (I : Arena R σ) : Program R α × σ → Program R α × σ → Prop :=
  Relation.ReflTransGen (Next I)

/-- The others, between states that satisfy `V`. -/
abbrev Meanwhile (I : Arena R σ) (V : σ → Prop) (a : A) : σ → σ → Prop :=
  Relation.ReflTransGen fun s t => V s ∧ V t ∧ I.others a s t

/-- Whatever the others do meanwhile, `ok` holds before each action and `Q` of
the value that is returned. Only states that satisfy `V` are visited. -/
def Meets (I : Arena R σ) (V : σ → Prop) (ok : A → σ → Prop) (Q : α → σ → Prop) :
    Program R α → σ → Prop
  | .ret x, s => Q x s
  | .act a k, s => ∀ t, I.Meanwhile V a s t → V t →
      ok a t ∧ ∀ r u, V u → I.does a t r u → Meets I V ok Q (k r) u

theorem meets_ret : I.Meets V ok Q (.ret x) s ↔ Q x s := Iff.rfl

theorem meets_pure : I.Meets V ok Q (pure x) s ↔ Q x s := Iff.rfl

/-- An action, before which the others keep the assertion `P`. -/
theorem meets_act (P : σ → Prop) (hs : P s)
    (hothers : ∀ s t, V s → V t → P s → I.others a s t → P t)
    (hok : ∀ t, V t → P t → ok a t)
    (hdoes : ∀ t r u, V t → V u → P t → I.does a t r u → I.Meets V ok Q (k r) u) :
    I.Meets V ok Q (.act a k) s := by
  intro t hmeanwhile
  have hP : P t := by
    induction hmeanwhile with
    | refl => exact hs
    | tail _ hstep ih => exact hothers _ _ hstep.1 hstep.2.1 ih hstep.2.2
  intro hVt
  exact ⟨hok t hVt hP, fun r u hVu hact => hdoes t r u hVt hVu hP hact⟩

theorem meets_perform {Q : R a → σ → Prop} (P : σ → Prop) (hs : P s)
    (hothers : ∀ s t, V s → V t → P s → I.others a s t → P t)
    (hok : ∀ t, V t → P t → ok a t)
    (hdoes : ∀ t r u, V t → V u → P t → I.does a t r u → Q r u) :
    I.Meets V ok Q (Program.perform a) s :=
  meets_act P hs hothers hok hdoes

theorem Meets.mono (h : I.Meets V ok Q p s) (hQ : ∀ x t, Q x t → Q' x t) :
    I.Meets V ok Q' p s := by
  induction p generalizing s with
  | ret x => exact hQ x s h
  | act a k ih =>
      intro t hmeanwhile hVt
      obtain ⟨hok, hdoes⟩ := h t hmeanwhile hVt
      exact ⟨hok, fun r u hVu hact => ih r (hdoes r u hVu hact)⟩

/-- Programs in sequence. -/
theorem Meets.bind {Q : β → σ → Prop}
    (h : I.Meets V ok (fun x t => I.Meets V ok Q (f x) t) p s) : I.Meets V ok Q (p >>= f) s := by
  induction p generalizing s with
  | ret x => exact h
  | act a k ih =>
      intro t hmeanwhile hVt
      obtain ⟨hok, hdoes⟩ := h t hmeanwhile hVt
      exact ⟨hok, fun r u hVu hact => ih r (hdoes r u hVu hact)⟩

/-- The first program establishes `Q`, from which the second goes on. -/
theorem Meets.seq {Q' : β → σ → Prop} (h : I.Meets V ok Q p s)
    (hf : ∀ x t, Q x t → I.Meets V ok Q' (f x) t) : I.Meets V ok Q' (p >>= f) s :=
  (h.mono hf).bind

/-- The verification condition holds wherever the program gets. -/
theorem Meets.reaches (hreach : I.Reaches (p, s) (p', t))
    (hV : ∀ q u, I.Reaches (p, s) (q, u) → V u) (h : I.Meets V ok Q p s) :
    I.Meets V ok Q p' t := by
  have hstep : ∀ b, I.Reaches (p, s) b → I.Meets V ok Q b.1 b.2 := by
    intro b hb
    induction hb with
    | refl => exact h
    | @tail b b' hb hnext ih =>
        have hVb := hV b.1 b.2 hb
        have hVb' := hV b'.1 b'.2 (hb.tail hnext)
        cases hnext with
        | does hact => exact (ih _ .refl hVb).2 _ _ hVb' hact
        | others hother =>
            exact fun u hmeanwhile => ih u (.head ⟨hVb, hVb', hother⟩ hmeanwhile)
  exact hstep (p', t) hreach

/-- Before each action that the program gets to. -/
theorem Meets.before (h : I.Meets V ok Q p s) (hreach : I.Reaches (p, s) (.act a k, t))
    (hV : ∀ q u, I.Reaches (p, s) (q, u) → V u) : ok a t :=
  (h.reaches hreach hV t .refl (hV _ _ hreach)).1

/-- When the program returns. -/
theorem Meets.returns (h : I.Meets V ok Q p s) (hreach : I.Reaches (p, s) (.ret x, t))
    (hV : ∀ q u, I.Reaches (p, s) (q, u) → V u) : Q x t :=
  h.reaches hreach hV

/-- What every action keeps, of the program and of the others, holds of all
states that are reached. -/
theorem Reaches.invariant {J : σ → Prop} (hreach : I.Reaches (p, s) (p', t)) (hs : J s)
    (hdoes : ∀ a s r t, J s → I.does a s r t → J t)
    (hothers : ∀ a s t, J s → I.others a s t → J t) : J t := by
  have hstep : ∀ b, I.Reaches (p, s) b → J b.2 := by
    intro b hb
    induction hb with
    | refl => exact hs
    | tail _ hnext ih =>
        cases hnext with
        | does hact => exact hdoes _ _ _ _ ih hact
        | others hother => exact hothers _ _ _ ih hother
  exact hstep (p', t) hreach

end Arena

end Jos.Lib
