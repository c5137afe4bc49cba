import Mathlib.Data.List.Basic

/-!
A past-time operator on logs, the latest event first: `Since A B l` says that
an event in `A` happened and none in `B` after it.
-/

namespace Jos.Lib

variable {ε : Type*} {A A' B : ε → Prop} {x : ε} {l : List ε}

def Since (A B : ε → Prop) : List ε → Prop
  | [] => False
  | x :: l => A x ∨ ¬ B x ∧ Since A B l

@[simp] theorem since_nil : ¬ Since A B [] := id

@[simp] theorem since_cons : Since A B (x :: l) ↔ A x ∨ ¬ B x ∧ Since A B l := Iff.rfl

instance Since.decidable [DecidablePred A] [DecidablePred B] (l : List ε) :
    Decidable (Since A B l) :=
  match l with
  | [] => isFalse since_nil
  | x :: l =>
      have := Since.decidable l
      inferInstanceAs (Decidable (A x ∨ ¬ B x ∧ Since A B l))

/-- An event that is in neither set makes no difference. -/
theorem since_cons_of_not (hA : ¬ A x) (hB : ¬ B x) : Since A B (x :: l) ↔ Since A B l := by
  simp [hA, hB]

theorem since_iff : Since A B l ↔
    ∃ l₁ x l₂, l = l₁ ++ x :: l₂ ∧ A x ∧ ∀ y ∈ l₁, ¬ B y := by
  induction l with
  | nil => simp
  | cons a l ih =>
      rw [since_cons, ih]
      constructor
      · rintro (ha | ⟨hb, l₁, x, l₂, rfl, hx, hl₁⟩)
        · exact ⟨[], a, l, rfl, ha, by simp⟩
        · refine ⟨a :: l₁, x, l₂, rfl, hx, fun y hy => ?_⟩
          rcases List.mem_cons.mp hy with rfl | hy
          · exact hb
          · exact hl₁ y hy
      · rintro ⟨l₁, x, l₂, heq, hx, hl₁⟩
        cases l₁ with
        | nil =>
            obtain ⟨rfl, rfl⟩ := List.cons.inj heq
            exact Or.inl hx
        | cons b l₁ =>
            obtain ⟨rfl, rfl⟩ := List.cons.inj heq
            exact Or.inr ⟨hl₁ _ (by simp), l₁, x, l₂, rfl, hx, fun y hy => hl₁ y (by simp [hy])⟩

theorem Since.mono (h : Since A B l) (hA : ∀ x, A x → A' x) : Since A' B l := by
  obtain ⟨l₁, x, l₂, rfl, hx, hl₁⟩ := since_iff.mp h
  exact since_iff.mpr ⟨l₁, x, l₂, rfl, hA x hx, hl₁⟩

end Jos.Lib
