import Mathlib.Logic.Function.Iterate
import Mathlib.Data.List.Nodup

/-!
Intrusive singly linked lists: the members of a list are the cells
themselves, and a successor function (the link field of each cell) together
with the address of the first cell says which cells are on it and in which
order. `Linked next head l` reads the pointers: following `next` from `head`
visits exactly the cells `l` and then stops.
-/

namespace Jos.Lib

variable {α : Type*}

/-- Following `next` from `head` visits the cells `l`, in order, and ends. -/
def Linked (next : α → Option α) : Option α → List α → Prop
  | head, [] => head = none
  | head, a :: l => head = some a ∧ Linked next (next a) l

@[simp] theorem linked_nil (next : α → Option α) (head : Option α) :
    Linked next head [] ↔ head = none := Iff.rfl

@[simp] theorem linked_cons (next : α → Option α) (head : Option α) (a : α) (l : List α) :
    Linked next head (a :: l) ↔ head = some a ∧ Linked next (next a) l := Iff.rfl

theorem Linked.unique {next : α → Option α} {head : Option α} {l l' : List α}
    (h : Linked next head l) (h' : Linked next head l') : l = l' := by
  induction l generalizing head l' with
  | nil =>
      cases l' with
      | nil => rfl
      | cons b l' =>
          have hnone : head = none := h
          simp [hnone] at h'
  | cons a l ih =>
      cases l' with
      | nil =>
          have hnone : head = none := h'
          simp [hnone] at h
      | cons b l' =>
          obtain ⟨ha, hl⟩ := h
          obtain ⟨hb, hl'⟩ := h'
          obtain rfl : a = b := Option.some.inj (ha.symm.trans hb)
          rw [ih hl hl']

theorem Linked.eq_nil {next : α → Option α} {l : List α} (h : Linked next none l) : l = [] :=
  h.unique rfl

/-- A list has more members than there are links to follow. -/
theorem Linked.lt_length {next : α → Option α} {k : ℕ} {head : Option α} {l : List α}
    (h : Linked next head l) (hk : (fun a : Option α => a.bind next)^[k] head ≠ none) :
    k < l.length := by
  induction k generalizing head l with
  | zero =>
      cases l with
      | nil => exact absurd h hk
      | cons a l => exact Nat.succ_pos _
  | succ k ih =>
      cases l with
      | nil =>
          obtain rfl : head = none := h
          exact absurd (Function.iterate_fixed rfl _) hk
      | cons a l =>
          obtain ⟨rfl, hl⟩ := h
          exact Nat.succ_lt_succ (ih hl hk)

/-- A non-null head is the first member, and its link leads to the others. -/
theorem Linked.pop {next : α → Option α} {a : α} {l : List α}
    (h : Linked next (some a) l) : ∃ t, l = a :: t ∧ Linked next (next a) t := by
  cases l with
  | nil => simp at h
  | cons b t =>
      obtain ⟨hb, ht⟩ := h
      obtain rfl := Option.some.inj hb
      exact ⟨t, rfl, ht⟩

/-- Only the links of the members matter. -/
theorem linked_congr {next next' : α → Option α} {head : Option α} {l : List α}
    (hagree : ∀ a ∈ l, next' a = next a) : Linked next' head l ↔ Linked next head l := by
  induction l generalizing head with
  | nil => rfl
  | cons a l ih =>
      have ha : next' a = next a := hagree a (by simp)
      have hl : ∀ b ∈ l, next' b = next b := fun b hb => hagree b (by simp [hb])
      simp only [linked_cons, ha, ih hl]

/-- Writing the link of a cell that is not on the list leaves the list as it
is. -/
theorem linked_update [DecidableEq α] {next : α → Option α} {head : Option α} {l : List α}
    {a : α} (v : Option α) (ha : a ∉ l) :
    Linked (Function.update next a v) head l ↔ Linked next head l := by
  refine linked_congr fun b hb => ?_
  rw [Function.update_of_ne]
  rintro rfl
  exact ha hb

/-- Pushing a cell: its link is set to the old head and it becomes the head. -/
theorem Linked.push [DecidableEq α] {next : α → Option α} {head : Option α} {l : List α}
    {a : α} (h : Linked next head l) (ha : a ∉ l) :
    Linked (Function.update next a head) (some a) (a :: l) := by
  refine ⟨rfl, ?_⟩
  rw [Function.update_self]
  exact (linked_update head ha).mpr h

/-- Cells that are linked in the order of a list. -/
theorem Linked.of_getElem? {next : α → Option α} {head : Option α} {l : List α}
    (hhead : head = l[0]?) (hnext : ∀ {k a}, l[k]? = some a → next a = l[k + 1]?) :
    Linked next head l := by
  induction l generalizing head with
  | nil => simpa using hhead
  | cons a l ih =>
      refine ⟨by simpa using hhead, ih ?_ fun {k b} hb => ?_⟩
      · simpa using hnext (k := 0) (a := a) rfl
      · simpa using hnext (k := k + 1) (by simpa using hb)

/-- A member whose link is null is the last one, so a null link alone does not
say that a cell is off the list. -/
theorem Linked.last {next : α → Option α} {head : Option α} {l : List α} {a : α}
    (h : Linked next head l) (ha : a ∈ l) (hnull : next a = none) : ∃ t, l = t ++ [a] := by
  induction l generalizing head with
  | nil => simp at ha
  | cons b l ih =>
      obtain ⟨-, hl⟩ := h
      rcases List.mem_cons.mp ha with rfl | hmem
      · rw [hnull] at hl
        exact ⟨[], by rw [hl.eq_nil]; rfl⟩
      · obtain ⟨t, ht⟩ := ih hl hmem
        exact ⟨b :: t, by rw [ht]; rfl⟩

/-- Pushing the last member, whose link is null, closes a cycle: following the
links no longer ends. -/
theorem Linked.push_last [DecidableEq α] {next : α → Option α} {head : Option α} {l : List α}
    {a : α} (h : Linked next head (l ++ [a])) (ha : a ∉ l) :
    ¬ ∃ l', Linked (Function.update next a head) (some a) l' := by
  rintro ⟨l', hl'⟩
  have hlong {head' : Option α} {l₁ l₂ : List α} (hl₁ : Linked next head' (l₁ ++ [a]))
      (ha₁ : a ∉ l₁) (hl₂ : Linked (Function.update next a head) head' l₂) :
      ∃ l₃, l₂ = l₁ ++ l₃ ∧ Linked (Function.update next a head) (some a) l₃ := by
    induction l₁ generalizing head' l₂ with
    | nil =>
        obtain rfl : head' = some a := hl₁.1
        exact ⟨l₂, rfl, hl₂⟩
    | cons b l₁ ih =>
        obtain ⟨rfl, hrest⟩ := hl₁
        obtain ⟨t, rfl, ht⟩ := hl₂.pop
        have hba : b ≠ a := fun hba => ha₁ (by simp [hba])
        have hmem : a ∉ l₁ := fun hmem => ha₁ (by simp [hmem])
        rw [Function.update_of_ne hba] at ht
        obtain ⟨l₃, rfl, hl₃⟩ := ih hrest hmem ht
        exact ⟨l₃, rfl, hl₃⟩
  obtain ⟨t, rfl, ht⟩ := hl'.pop
  rw [Function.update_self] at ht
  obtain ⟨l₃, rfl, hl₃⟩ := hlong h ha ht
  have hlen := congrArg List.length (hl'.unique hl₃)
  simp only [List.length_cons, List.length_append] at hlen
  omega

end Jos.Lib
