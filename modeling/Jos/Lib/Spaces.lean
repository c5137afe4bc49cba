import Mathlib.Data.Set.Basic
import Mathlib.Logic.Function.Basic

/-!
Address spaces over a store of pages, without page tables, reference counts
and free lists. An owner has, at each address, a page and what it may do with
it. A page that nobody maps has no contents to speak of, and the contents of
device pages change by themselves: `forget` makes both blank.
-/

namespace Jos.Lib

universe u v w x y

/-- `ι` are the owners, `α` the addresses, `π` the pages, `κ` the permissions
and `δ` the contents of pages. -/
@[ext] structure Spaces (ι : Type u) (α : Type v) (π : Type w) (κ : Type x) (δ : Type y) where
  map : ι → α → Option (π × κ)
  content : π → δ

namespace Spaces

variable {ι : Type u} {α : Type v} {π : Type w} {κ : Type x} {δ : Type y}
  {S T U : Spaces ι α π κ δ} {D : Set π} {O : Set ι} {o o' : ι} {a : α} {p p' : π} {k : κ}
  {f : α → Option (π × κ)} {c : δ}

/-- Owner `o` maps page `p` somewhere. -/
def Maps (S : Spaces ι α π κ δ) (o : ι) (p : π) : Prop := ∃ a k, S.map o a = some (p, k)

/-- Owners in `O` map page `p`, and nobody else does. -/
def Owned (S : Spaces ι α π κ δ) (O : Set ι) (p : π) : Prop :=
  (∃ o ∈ O, S.Maps o p) ∧ ∀ o, S.Maps o p → o ∈ O

open Classical in
/-- Only the contents of pages in use, which are no device pages, count. -/
noncomputable def forget [Inhabited δ] (D : Set π) (S : Spaces ι α π κ δ) :
    Spaces ι α π κ δ :=
  { S with content := fun p => if p ∉ D ∧ ∃ o, S.Maps o p then S.content p else default }

section

variable [DecidableEq ι]

/-- Give `o` a whole address space. -/
def assign (S : Spaces ι α π κ δ) (o : ι) (f : α → Option (π × κ)) : Spaces ι α π κ δ :=
  { S with map := Function.update S.map o f }

variable [DecidableEq α]

/-- Map page `p` at `a`. -/
def enter (S : Spaces ι α π κ δ) (o : ι) (a : α) (p : π) (k : κ) : Spaces ι α π κ δ :=
  S.assign o (Function.update (S.map o) a (some (p, k)))

/-- Unmap what is at `a`. -/
def clear (S : Spaces ι α π κ δ) (o : ι) (a : α) : Spaces ι α π κ δ :=
  S.assign o (Function.update (S.map o) a none)

end

/-- Change the contents of page `p`. -/
def write [DecidableEq π] (S : Spaces ι α π κ δ) (p : π) (c : δ) : Spaces ι α π κ δ :=
  { S with content := Function.update S.content p c }

/-! ### Comparing two states -/

section

variable [Inhabited δ]

@[simp] theorem forget_map : (S.forget D).map = S.map := rfl

theorem content_forget (hD : p ∉ D) (h : S.Maps o p) : (S.forget D).content p = S.content p :=
  if_pos ⟨hD, o, h⟩

theorem content_blank (h : ¬ (p ∉ D ∧ ∃ o, S.Maps o p)) : (S.forget D).content p = default :=
  if_neg h

/-- Spaces that agree up to what is forgotten. -/
theorem forget_congr (hmap : T.map = S.map)
    (hcontent : ∀ o p, p ∉ D → S.Maps o p → T.content p = S.content p) :
    T.forget D = S.forget D := by
  have hmaps (o : ι) (p : π) : T.Maps o p ↔ S.Maps o p := by simp only [Maps, hmap]
  ext1
  · exact hmap
  · funext p
    by_cases h : p ∉ D ∧ ∃ o, S.Maps o p
    · obtain ⟨hD, o, ho⟩ := h
      rw [content_forget hD ((hmaps o p).mpr ho), content_forget hD ho, hcontent o p hD ho]
    · rw [content_blank h, content_blank (by simpa only [hmaps] using h)]

end

section

variable [DecidableEq ι]

theorem assign_self : (S.assign o f).map o = f := Function.update_self ..

theorem assign_of_ne (h : o' ≠ o) : (S.assign o f).map o' = S.map o' := Function.update_of_ne h ..

theorem enter_map [DecidableEq α] (o' : ι) (a' : α) : (S.enter o a p k).map o' a' =
    if o' = o ∧ a' = a then some (p, k) else S.map o' a' := by
  by_cases ho : o' = o
  · subst ho
    simp [enter, assign, Function.update_apply]
  · simp [enter, assign_of_ne ho, ho]

theorem clear_map [DecidableEq α] (o' : ι) (a' : α) : (S.clear o a).map o' a' =
    if o' = o ∧ a' = a then none else S.map o' a' := by
  by_cases ho : o' = o
  · subst ho
    simp [clear, assign, Function.update_apply]
  · simp [clear, assign_of_ne ho, ho]

theorem maps_assign_self : (S.assign o f).Maps o p ↔ ∃ a k, f a = some (p, k) := by
  simp only [Maps, assign_self]

theorem maps_assign_of_ne (h : o' ≠ o) : (S.assign o f).Maps o' p ↔ S.Maps o' p := by
  simp only [Maps, assign_of_ne h]

end

/-! ### What the operations do to others -/

/-- Nothing has happened to the owners in `O`: they have the address spaces that
they had, and the pages that they alone map, device pages apart, are still
their own and have the same contents. -/
structure Untouched (D : Set π) (O : Set ι) (S T : Spaces ι α π κ δ) : Prop where
  map : ∀ o ∈ O, T.map o = S.map o
  owned : ∀ p, p ∉ D → S.Owned O p → T.Owned O p
  content : ∀ p, p ∉ D → S.Owned O p → T.content p = S.content p

namespace Untouched

theorem refl (D : Set π) (O : Set ι) (S : Spaces ι α π κ δ) : Untouched D O S S :=
  ⟨fun _ _ => rfl, fun _ _ h => h, fun _ _ _ => rfl⟩

theorem trans (h : Untouched D O S T) (h' : Untouched D O T U) : Untouched D O S U where
  map o ho := (h'.map o ho).trans (h.map o ho)
  owned p hD hp := h'.owned p hD (h.owned p hD hp)
  content p hD hp := (h'.content p hD (h.owned p hD hp)).trans (h.content p hD hp)

theorem forget [Inhabited δ] : Untouched D O S (S.forget D) where
  map _ _ := rfl
  owned _ _ h := h
  content _ hD h := by
    obtain ⟨o, _, ho⟩ := h.1
    exact content_forget hD ho

/-- Another owner gets an address space, in which the pages of `O` are not. -/
theorem assign [DecidableEq ι] (hne : o ∉ O)
    (hf : ∀ a p k, f a = some (p, k) → p ∉ D → ¬ S.Owned O p) :
    Untouched D O S (S.assign o f) where
  map o' ho' := assign_of_ne (ne_of_mem_of_not_mem ho' hne)
  owned p hD hp := by
    obtain ⟨⟨o', ho', hmaps⟩, honly⟩ := hp
    refine ⟨⟨o', ho', (maps_assign_of_ne (ne_of_mem_of_not_mem ho' hne)).mpr hmaps⟩,
      fun o₁ h => ?_⟩
    by_cases heq : o₁ = o
    · subst heq
      obtain ⟨a, k, ha⟩ := maps_assign_self.mp h
      exact absurd ⟨⟨o', ho', hmaps⟩, honly⟩ (hf a p k ha hD)
    · exact honly o₁ ((maps_assign_of_ne heq).mp h)
  content _ _ _ := rfl

/-- Another owner enters a page that is not one of `O`. -/
theorem enter [DecidableEq ι] [DecidableEq α] (hne : o ∉ O) (hp : ¬ S.Owned O p) :
    Untouched D O S (S.enter o a p k) := by
  refine assign hne fun a' p' k' hf _ hown => ?_
  by_cases ha : a' = a
  · subst ha
    rw [Function.update_self] at hf
    cases hf
    exact hp hown
  · rw [Function.update_of_ne ha] at hf
    exact hne (hown.2 o ⟨a', k', hf⟩)

theorem clear [DecidableEq ι] [DecidableEq α] (hne : o ∉ O) :
    Untouched D O S (S.clear o a) := by
  refine assign hne fun a' p' k' hf _ hown => ?_
  by_cases ha : a' = a
  · subst ha
    rw [Function.update_self] at hf
    cases hf
  · rw [Function.update_of_ne ha] at hf
    exact hne (hown.2 o ⟨a', k', hf⟩)

/-- A page that is not one of `O` is written. -/
theorem write [DecidableEq π] (hp : ¬ S.Owned O p) : Untouched D O S (S.write p c) where
  map _ _ := rfl
  owned _ _ h := h
  content p' _ h := by
    have hne : p' ≠ p := by
      rintro rfl
      exact hp h
    exact Function.update_of_ne hne _ _

end Untouched

end Spaces

end Jos.Lib
