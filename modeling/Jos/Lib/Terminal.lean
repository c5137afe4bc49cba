import Mathlib.Logic.Function.Basic
import Mathlib.Tactic.Linarith

/-!
A terminal with lines of `cols` cells and no last line, seen through a window of
`rows` lines. The cells are numbered line by line, so that a character in the
last column is followed by one in the next line. When the cursor has left the
window at the bottom, the window moves down by a line; it never moves up.
-/

namespace Jos.Lib

structure Terminal (α : Type*) where
  cells : ℕ → α
  cursor : ℕ
  /-- The first line of the window. -/
  top : ℕ

inductive TermOp (α : Type*) where
  | put (cell : α)
  /-- Back by a cell, which becomes a blank. -/
  | back (blank : α)
  | newline
  | carriage

variable {α : Type*} (cols rows : ℕ)

def Terminal.move (t : Terminal α) : TermOp α → Terminal α
  | .put cell =>
      { t with cells := Function.update t.cells t.cursor cell, cursor := t.cursor + 1 }
  | .back blank =>
      if t.top * cols < t.cursor then
        { t with cells := Function.update t.cells (t.cursor - 1) blank, cursor := t.cursor - 1 }
      else t
  | .newline => { t with cursor := (t.cursor / cols + 1) * cols }
  | .carriage => { t with cursor := t.cursor / cols * cols }

/-- The window follows the cursor. -/
def Terminal.follow (t : Terminal α) : Terminal α :=
  if (t.top + rows) * cols ≤ t.cursor then { t with top := t.top + 1 } else t

def Terminal.op (t : Terminal α) (o : TermOp α) : Terminal α := (t.move cols o).follow cols rows

def Terminal.run (t : Terminal α) (ops : List (TermOp α)) : Terminal α :=
  ops.foldl (Terminal.op cols rows) t

/-- The cursor is in the window, or in the line below it, and the lines below
the window are blank. -/
structure InReach (blank : α) (t : Terminal α) : Prop where
  le : t.top * cols ≤ t.cursor
  lt : t.cursor < (t.top + rows + 1) * cols
  below : ∀ i, (t.top + rows) * cols ≤ i → t.cells i = blank

/-- The cursor is in the window. -/
structure InWindow (blank : α) (t : Terminal α) : Prop where
  le : t.top * cols ≤ t.cursor
  lt : t.cursor < (t.top + rows) * cols
  below : ∀ i, (t.top + rows) * cols ≤ i → t.cells i = blank

variable {cols rows} {blank : α} {t : Terminal α}

theorem InWindow.move (h : InWindow cols rows blank t) (hcols : 0 < cols) (o : TermOp α) :
    InReach cols rows blank (t.move cols o) := by
  have hle := h.le
  have hlt := h.lt
  have hline : (t.top + rows + 1) * cols = (t.top + rows) * cols + cols := Nat.succ_mul _ _
  have hfirst : t.top ≤ t.cursor / cols := (Nat.le_div_iff_mul_le hcols).mpr hle
  have hlast : t.cursor / cols < t.top + rows := (Nat.div_lt_iff_lt_mul hcols).mpr hlt
  cases o with
  | put cell =>
      have hfrom : t.top * cols ≤ t.cursor + 1 := by omega
      have hto : t.cursor + 1 < (t.top + rows + 1) * cols := by omega
      exact ⟨hfrom, hto, fun i (hi : (t.top + rows) * cols ≤ i) =>
        (Function.update_of_ne (by omega) _ _).trans (h.below i hi)⟩
  | back cell =>
      unfold Terminal.move
      simp only
      split
      · have hfrom : t.top * cols ≤ t.cursor - 1 := by omega
        have hto : t.cursor - 1 < (t.top + rows + 1) * cols := by omega
        exact ⟨hfrom, hto, fun i (hi : (t.top + rows) * cols ≤ i) =>
          (Function.update_of_ne (by omega) _ _).trans (h.below i hi)⟩
      · exact ⟨hle, by omega, h.below⟩
  | newline =>
      have hfrom : t.top ≤ t.cursor / cols + 1 := by omega
      have hnext : t.cursor / cols + 1 < t.top + rows + 1 := by omega
      exact ⟨Nat.mul_le_mul_right cols hfrom, Nat.mul_lt_mul_of_pos_right hnext hcols,
        h.below⟩
  | carriage =>
      have hsame : t.cursor / cols < t.top + rows + 1 := by omega
      exact ⟨Nat.mul_le_mul_right cols hfirst, Nat.mul_lt_mul_of_pos_right hsame hcols, h.below⟩

theorem InReach.follow (h : InReach cols rows blank t) (hrows : 0 < rows) :
    InWindow cols rows blank (t.follow cols rows) := by
  have hle := h.le
  have hlt := h.lt
  unfold Terminal.follow
  split
  · rename_i hout
    have hfirst : (t.top + 1) * cols ≤ (t.top + rows) * cols :=
      Nat.mul_le_mul_right cols (by omega)
    have hline : t.top + 1 + rows = t.top + rows + 1 := by omega
    refine ⟨hfirst.trans hout, ?_, fun i hi => h.below i ?_⟩
    · change t.cursor < (t.top + 1 + rows) * cols
      rw [hline]
      exact hlt
    · change (t.top + 1 + rows) * cols ≤ i at hi
      exact (Nat.mul_le_mul_right cols (by omega)).trans hi
  · exact ⟨hle, by omega, h.below⟩

theorem InWindow.op (h : InWindow cols rows blank t) (hcols : 0 < cols) (hrows : 0 < rows)
    (o : TermOp α) : InWindow cols rows blank (t.op cols rows o) :=
  (h.move hcols o).follow hrows

/-- The window never moves up. -/
theorem top_le_op (o : TermOp α) : t.top ≤ (t.op cols rows o).top := by
  have hmove : (t.move cols o).top = t.top := by
    cases o with
    | back cell =>
        unfold Terminal.move
        simp only
        split <;> rfl
    | put cell => rfl
    | newline => rfl
    | carriage => rfl
  unfold Terminal.op Terminal.follow
  split
  · change t.top ≤ (t.move cols o).top + 1
    omega
  · exact hmove.ge

theorem top_le_run (ops : List (TermOp α)) : t.top ≤ (t.run cols rows ops).top := by
  induction ops generalizing t with
  | nil => exact le_rfl
  | cons o ops ih => exact (top_le_op o).trans ih

end Jos.Lib
