import Jos.Lib.LinkedList
import Mathlib.Data.BitVec

/-!
A pool of reference-counted cells. Every cell has a count of `w` bits, which
wraps around, and a link; the cells that may be handed out next are on an
intrusive list. `Counts P member counted load` says that the pool is in order
for the given load of references: the counts are the loads modulo `2 ^ w`, and
the list holds members without a reference, each once. The lemmas follow the
operations of an allocator, with what each does to the load.
-/

namespace Jos.Lib

structure Pool (α : Type*) (w : ℕ) where
  ref : α → BitVec w
  link : α → Option α
  head : Option α

namespace Pool

variable {α : Type*} {w : ℕ} {P : Pool α w} {a b : α}

/-- The cell is on the free list. -/
def On (P : Pool α w) (a : α) : Prop := ∃ l, Linked P.link P.head l ∧ a ∈ l

structure Counts (P : Pool α w) (member counted : α → Prop) (load : α → ℕ) : Prop where
  list : ∃ l, Linked P.link P.head l ∧ l.Nodup ∧ ∀ a ∈ l, member a ∧ load a = 0
  ref : ∀ a, counted a → P.ref a = BitVec.ofNat w (load a)

theorem On.head_ne_none (h : P.On a) : P.head ≠ none := by
  obtain ⟨l, hl, ha⟩ := h
  intro hnone
  rw [hnone] at hl
  simp [hl.eq_nil] at ha

variable {member counted : α → Prop} {load load' : α → ℕ}

theorem Counts.of_on (h : P.Counts member counted load) (ha : P.On a) :
    member a ∧ load a = 0 := by
  obtain ⟨l, hl, -, hmem⟩ := h.list
  obtain ⟨l', hl', ha⟩ := ha
  rw [hl'.unique hl] at ha
  exact hmem a ha

/-- With two cells on the list, the first has a link. -/
theorem On.head_link (ha : P.On a) (hb : P.On b) (hne : a ≠ b) :
    ∃ a b, P.head = some a ∧ P.link a = some b := by
  obtain ⟨l, hl, ha⟩ := ha
  obtain ⟨l', hl', hb⟩ := hb
  obtain rfl := hl.unique hl'
  cases l with
  | nil => cases ha
  | cons a' l =>
      obtain ⟨hhead, hrest⟩ := hl
      cases l with
      | nil =>
          rw [List.mem_singleton] at ha hb
          exact absurd (ha.trans hb.symm) hne
      | cons b' l => exact ⟨a', b', hhead, hrest.1⟩

/-- A referenced cell is not on the list. -/
theorem Counts.not_on (h : P.Counts member counted load) (ha : 0 < load a) : ¬ P.On a :=
  fun hon => absurd (h.of_on hon).2 (by omega)

theorem Counts.congr (h : P.Counts member counted load)
    (hmember : ∀ a, member a → counted a) (hload : ∀ a, counted a → load' a = load a) :
    P.Counts member counted load' := by
  obtain ⟨l, hl, hnodup, hmem⟩ := h.list
  refine ⟨⟨l, hl, hnodup, fun a ha => ⟨(hmem a ha).1, ?_⟩⟩, fun a ha => ?_⟩
  · rw [hload a (hmember a (hmem a ha).1), (hmem a ha).2]
  · rw [hload a ha, h.ref a ha]

theorem Counts.on_head (hhead : P.head = some a) (h : P.Counts member counted load) :
    P.On a := by
  obtain ⟨l, hl, -, -⟩ := h.list
  have hl' := hl
  rw [hhead] at hl'
  obtain ⟨t, rfl, -⟩ := hl'.pop
  exact ⟨a :: t, hl, by simp⟩

/-- A count below `2 ^ w` that reads one is one. -/
theorem Counts.load_eq_one (h : P.Counts member counted load) (ha : counted a) (hw : 0 < w)
    (hle : load a ≤ 2 ^ w) (href : P.ref a = 1) : load a = 1 := by
  have hmod : load a % 2 ^ w = 1 := by
    have htoNat := congrArg BitVec.toNat ((h.ref a ha).symm.trans href)
    have hone : (1 : BitVec w).toNat = 1 := by
      simpa using Nat.mod_eq_of_lt (Nat.one_lt_two_pow hw.ne')
    rwa [BitVec.toNat_ofNat, hone] at htoNat
  rcases hle.lt_or_eq with hlt | heq
  · rwa [Nat.mod_eq_of_lt hlt] at hmod
  · rw [heq, Nat.mod_self] at hmod
    omega

/-! ### Cells put back -/

/-- No cell gained a reference, and the cells put on the list are those that
have lost their last. -/
structure Released (P P' : Pool α w) (load load' : α → ℕ) : Prop where
  le : ∀ a, load' a ≤ load a
  on : ∀ a, P'.On a ↔ P.On a ∨ 0 < load a ∧ load' a = 0

theorem Released.refl (P : Pool α w) (load : α → ℕ) : P.Released P load load where
  le _ := le_rfl
  on a := by
    constructor
    · exact Or.inl
    · rintro (hon | ⟨hpos, hzero⟩)
      · exact hon
      · omega

theorem Released.trans {P' P'' : Pool α w} {load'' : α → ℕ} (h : P.Released P' load load')
    (h' : P'.Released P'' load' load'') : P.Released P'' load load'' where
  le a := (h'.le a).trans (h.le a)
  on a := by
    have hle := h'.le a
    rw [h'.on, h.on]
    constructor
    · rintro ((hon | ⟨hpos, hzero⟩) | ⟨hpos, hzero⟩)
      · exact Or.inl hon
      · exact Or.inr ⟨hpos, by omega⟩
      · exact Or.inr ⟨hpos.trans_le (h.le a), hzero⟩
    · rintro (hon | ⟨hpos, hzero⟩)
      · exact Or.inl (Or.inl hon)
      · rcases Nat.eq_zero_or_pos (load' a) with hmid | hmid
        · exact Or.inl (Or.inr ⟨hpos, hmid⟩)
        · exact Or.inr ⟨hmid, hzero⟩

/-! ### Operations -/

variable [DecidableEq α]

def setRef (P : Pool α w) (a : α) (v : BitVec w) : Pool α w :=
  { P with ref := Function.update P.ref a v }

/-- Unlink the first cell. -/
def pop (P : Pool α w) (a : α) : Pool α w :=
  { P with link := Function.update P.link a none, head := P.link a }

/-- Put a cell at the front of the list. -/
def push (P : Pool α w) (a : α) : Pool α w :=
  { P with link := Function.update P.link a P.head, head := some a }

theorem Counts.pop (h : P.Counts member counted load) (hhead : P.head = some a) :
    (P.pop a).Counts member counted load := by
  obtain ⟨l, hl, hnodup, hmem⟩ := h.list
  rw [hhead] at hl
  obtain ⟨t, rfl, ht⟩ := hl.pop
  obtain ⟨ha, ht'⟩ := List.nodup_cons.mp hnodup
  exact ⟨⟨t, (linked_update none ha).mpr ht, ht', fun b hb => hmem b (by simp [hb])⟩, h.ref⟩

/-- The list after its first cell is unlinked. -/
theorem Counts.linked_pop {l : List α} (h : P.Counts member counted load)
    (hl : Linked P.link P.head (a :: l)) : Linked (P.pop a).link (P.pop a).head l := by
  obtain ⟨l', hl', hnodup, -⟩ := h.list
  obtain rfl := hl'.unique hl
  exact (linked_update none (List.nodup_cons.mp hnodup).1).mpr hl.2

/-- After the first cell is unlinked the others are on the list, and it is
not. -/
theorem Counts.on_pop (h : P.Counts member counted load) (hhead : P.head = some a) :
    (P.pop a).On b ↔ P.On b ∧ b ≠ a := by
  obtain ⟨l, hl, hnodup, -⟩ := h.list
  have hl' := hl
  rw [hhead] at hl'
  obtain ⟨t, rfl, ht⟩ := hl'.pop
  obtain ⟨ha, -⟩ := List.nodup_cons.mp hnodup
  have htail : Linked (P.pop a).link (P.pop a).head t := (linked_update none ha).mpr ht
  constructor
  · rintro ⟨l', hl', hb⟩
    rw [hl'.unique htail] at hb
    exact ⟨⟨a :: t, hl, by simp [hb]⟩, fun heq => ha (heq ▸ hb)⟩
  · rintro ⟨⟨l', hl', hb⟩, hne⟩
    rw [hl'.unique hl] at hb
    exact ⟨t, htail, (List.mem_cons.mp hb).resolve_left hne⟩

theorem Counts.on_push (h : P.Counts member counted load) (ha : ¬ P.On a) :
    (P.push a).On b ↔ P.On b ∨ b = a := by
  obtain ⟨l, hl, -, -⟩ := h.list
  have hmem : a ∉ l := fun hmem => ha ⟨l, hl, hmem⟩
  have hpush : Linked (P.push a).link (P.push a).head (a :: l) := hl.push hmem
  constructor
  · rintro ⟨l', hl', hb⟩
    rw [hl'.unique hpush] at hb
    exact (List.mem_cons.mp hb).elim Or.inr fun hb => Or.inl ⟨l, hl, hb⟩
  · rintro (⟨l', hl', hb⟩ | rfl)
    · rw [hl'.unique hl] at hb
      exact ⟨a :: l, hpush, by simp [hb]⟩
    · exact ⟨b :: l, hpush, by simp⟩

@[simp] theorem on_setRef {v : BitVec w} : (P.setRef a v).On b ↔ P.On b := Iff.rfl

/-- One more reference to a cell that is in use. -/
theorem Counts.incr (h : P.Counts member counted load) (ha : ¬ P.On a) :
    (P.setRef a (P.ref a + 1)).Counts member counted
      (Function.update load a (load a + 1)) := by
  obtain ⟨l, hl, hnodup, hmem⟩ := h.list
  refine ⟨⟨l, hl, hnodup, fun b hb => ?_⟩, fun b hb => ?_⟩
  · have hne : b ≠ a := by
      rintro rfl
      exact ha ⟨l, hl, hb⟩
    rw [Function.update_of_ne hne]
    exact hmem b hb
  · by_cases hba : b = a
    · subst hba
      simp only [setRef, Function.update_self, h.ref b hb, BitVec.ofNat_add]
      rfl
    · simp only [setRef, Function.update_of_ne hba]
      exact h.ref b hb

/-- One reference less, and the count does not become zero. -/
theorem Counts.decr (h : P.Counts member counted load) (ha : 0 < load a) :
    (P.setRef a (P.ref a - 1)).Counts member counted
      (Function.update load a (load a - 1)) := by
  obtain ⟨l, hl, hnodup, hmem⟩ := h.list
  refine ⟨⟨l, hl, hnodup, fun b hb => ?_⟩, fun b hb => ?_⟩
  · have hne : b ≠ a := by
      rintro rfl
      exact absurd (hmem b hb).2 (by omega)
    rw [Function.update_of_ne hne]
    exact hmem b hb
  · by_cases hba : b = a
    · subst hba
      obtain ⟨k, hk⟩ : ∃ k, load b = k + 1 := ⟨load b - 1, by omega⟩
      simp only [setRef, Function.update_self, h.ref b hb, hk, BitVec.ofNat_add,
        Nat.add_sub_cancel]
      exact BitVec.add_sub_cancel _ _
    · simp only [setRef, Function.update_of_ne hba]
      exact h.ref b hb

/-- A member without references goes on the list. -/
theorem Counts.push (h : P.Counts member counted load) (ha : ¬ P.On a) (hmember : member a)
    (hload : load a = 0) : (P.push a).Counts member counted load := by
  obtain ⟨l, hl, hnodup, hmem⟩ := h.list
  have hnot : a ∉ l := fun hmem => ha ⟨l, hl, hmem⟩
  refine ⟨⟨a :: l, hl.push hnot, List.nodup_cons.mpr ⟨hnot, hnodup⟩, fun b hb => ?_⟩, h.ref⟩
  rcases List.mem_cons.mp hb with rfl | hb
  · exact ⟨hmember, hload⟩
  · exact hmem b hb

/-! ### Cells off the list -/

/-- A cell that is not on the list has no link. -/
def Unlinked (P : Pool α w) : Prop := ∀ a, ¬ P.On a → P.link a = none

theorem Unlinked.setRef {v : BitVec w} (h : P.Unlinked) : (P.setRef a v).Unlinked := h

theorem Unlinked.pop (h : P.Unlinked) (hc : P.Counts member counted load)
    (hhead : P.head = some a) : (P.pop a).Unlinked := by
  intro b hb
  by_cases hba : b = a
  · subst hba
    exact Function.update_self _ _ _
  · refine (Function.update_of_ne hba _ _).trans (h b fun hon => hb ?_)
    exact (hc.on_pop hhead).mpr ⟨hon, hba⟩

theorem Unlinked.push (h : P.Unlinked) (hc : P.Counts member counted load) (ha : ¬ P.On a) :
    (P.push a).Unlinked := by
  intro b hb
  rw [hc.on_push ha, not_or] at hb
  exact (Function.update_of_ne hb.2 _ _).trans (h b hb.1)

end Pool

end Jos.Lib
