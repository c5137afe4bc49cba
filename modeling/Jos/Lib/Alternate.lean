import Mathlib.Data.List.Basic

/-!
Logs in which two kinds of events take turns. A function tells the events that
begin something (`some true`), those that end it (`some false`) and those that
have nothing to do with it apart. The latest event comes first in a log. The
phase of a log is the last event of either kind, and does not exist when two
events of one kind follow each other or the first event is an end.
-/

namespace Jos.Lib

variable {ε : Type*} {f : ε → Option Bool} {a x y : ε} {b : Bool} {l l₁ l₂ l₃ : List ε}

def phase (f : ε → Option Bool) : List ε → Option Bool
  | [] => some false
  | a :: l =>
      match f a with
      | none => phase f l
      | some b => if phase f l = some (!b) then some b else none

@[simp] theorem phase_nil : phase f [] = some false := rfl

theorem phase_cons_none (ha : f a = none) : phase f (a :: l) = phase f l := by
  simp [phase, ha]

theorem phase_cons_some (ha : f a = some b) (hl : phase f l = some (!b)) :
    phase f (a :: l) = some b := by
  simp [phase, ha, hl]

theorem phase_of_cons (ha : f a = some b) (h : phase f (a :: l) ≠ none) :
    phase f l = some (!b) ∧ phase f (a :: l) = some b := by
  have hcons : phase f (a :: l) = if phase f l = some (!b) then some b else none := by
    simp [phase, ha]
  rw [hcons] at h ⊢
  by_cases hl : phase f l = some (!b)
  · exact ⟨hl, if_pos hl⟩
  · exact absurd (if_neg hl) h

/-- What happened first was in order too. -/
theorem phase_suffix (h : phase f (l₁ ++ l₂) ≠ none) : phase f l₂ ≠ none := by
  induction l₁ with
  | nil => exact h
  | cons a l₁ ih =>
      refine ih fun hnone => h ?_
      rw [List.cons_append]
      cases ha : f a with
      | none => rw [phase_cons_none ha, hnone]
      | some b => simp [phase, ha, hnone]

/-- Events of one kind do not change the phase. -/
theorem phase_append_same (hl : ∀ a ∈ l₁, f a ≠ some (!b)) (h : phase f l₂ = some b)
    (hne : phase f (l₁ ++ l₂) ≠ none) : phase f (l₁ ++ l₂) = some b := by
  induction l₁ with
  | nil => exact h
  | cons a l₁ ih =>
      have hne' : phase f ([a] ++ (l₁ ++ l₂)) ≠ none := hne
      have hrest := ih (fun x hx => hl x (by simp [hx])) (phase_suffix hne')
      rw [List.cons_append] at hne ⊢
      cases ha : f a with
      | none => rw [phase_cons_none ha, hrest]
      | some b' =>
          obtain ⟨hprev, hnow⟩ := phase_of_cons ha hne
          rw [hrest] at hprev
          obtain rfl : b = !b' := Option.some.inj hprev
          exact absurd ha (by simpa using hl a (by simp))

/-- Between two events of one kind there is one of the other. -/
theorem phase_between (h : phase f (l₁ ++ x :: l₂ ++ y :: l₃) ≠ none) (hx : f x = some b)
    (hy : f y = some b) : ∃ z ∈ l₂, f z = some (!b) := by
  by_contra hall
  push Not at hall
  rw [List.append_assoc] at h
  have htail : phase f (x :: (l₂ ++ y :: l₃)) ≠ none := phase_suffix h
  obtain ⟨hrest, -⟩ := phase_of_cons hx htail
  have hne : phase f (l₂ ++ y :: l₃) ≠ none := by simp [hrest]
  have hlast := (phase_of_cons hy (phase_suffix hne)).2
  have hsame := phase_append_same hall hlast (by simp [hrest])
  rw [hrest] at hsame
  simp at hsame

/-- What ends has begun. -/
theorem phase_begun (h : phase f (l₁ ++ x :: l₂) ≠ none) (hx : f x = some false) :
    ∃ z ∈ l₂, f z = some true := by
  by_contra hall
  push Not at hall
  obtain ⟨hrest, -⟩ := phase_of_cons hx (phase_suffix h)
  have hne : phase f (l₂ ++ []) ≠ none := by simp [hrest]
  have hsame := phase_append_same (b := false) (by simpa using hall) rfl hne
  rw [List.append_nil, hrest] at hsame
  cases hsame

end Jos.Lib
