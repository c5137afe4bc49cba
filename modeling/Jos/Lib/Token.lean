import Mathlib.Logic.Function.Basic

/-!
A token that at most one of several processes has. Who has it can be read from
what the processes do: `P` holds of the program point of the one that has it,
and of no other. A step of one process keeps, takes or drops the token.
-/

namespace Jos.Lib

variable {ι α : Type*}

/-- `P` holds of the point of the process that has the token, if any does. -/
def Token (P : α → Prop) (pt : ι → α) (who : Option ι) : Prop :=
  ∀ c, P (pt c) ↔ who = some c

namespace Token

variable {P Q : α → Prop} {f : ι → α} {who : Option ι} {c d : ι} {a : α}

theorem unique (h : Token P f who) (hc : P (f c)) (hd : P (f d)) : c = d :=
  Option.some.inj (((h c).mp hc).symm.trans ((h d).mp hd))

theorem none_of_forall (h : Token P f who) (hnone : ∀ c, ¬ P (f c)) : who = none := by
  cases who with
  | none => rfl
  | some c => exact absurd ((h c).mpr rfl) (hnone c)

variable [DecidableEq ι]

theorem keep (h : Token P f who) (ha : P a ↔ P (f c)) : Token P (Function.update f c a) who := by
  intro d
  by_cases hd : d = c
  · subst hd
    rw [Function.update_self, ha, h d]
  · rw [Function.update_of_ne hd, h d]

theorem take (h : Token P f none) (ha : P a) : Token P (Function.update f c a) (some c) := by
  intro d
  by_cases hd : d = c
  · subst hd
    rw [Function.update_self]
    exact iff_of_true ha rfl
  · rw [Function.update_of_ne hd, h d]
    exact iff_of_false (by simp) fun hcd => hd (Option.some.inj hcd).symm

theorem drop (h : Token P f who) (hc : P (f c)) (ha : ¬ P a) :
    Token P (Function.update f c a) none := by
  intro d
  by_cases hd : d = c
  · subst hd
    rw [Function.update_self]
    exact iff_of_false ha (by simp)
  · rw [Function.update_of_ne hd]
    exact iff_of_false (fun hPd => hd (h.unique hPd hc)) (by simp)

end Token

end Jos.Lib
