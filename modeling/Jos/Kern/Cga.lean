import Jos.Lib.Terminal
import Jos.Ulib.Printfmt

/-!
The text display in kern/console.c. `cga_putc` moves the cursor and then scrolls
by a line if it has left the screen. It is a terminal of unbounded length seen
through a window (`Shows`): the cells of the buffer are those of the window, and
the position is that of the cursor in the window.
-/

namespace Jos

open Jos.Lib

/-! ### The functions -/

def crtRows : ℕ := 25

def crtCols : ℕ := 80

def crtSize : ℕ := crtRows * crtCols

theorem crtSize_eq : crtSize = 2000 := rfl

structure Cga where
  crtBuf : ℕ → BitVec 16
  crtPos : BitVec 16
  /-- The indexes of `crt_buf` that have been written. -/
  writes : List ℕ
  /-- The location that the controller has been told. -/
  cursor : BitVec 16
  /-- What has been sent to the serial and the parallel port. -/
  serial : List (BitVec 8)
  lpt : List (BitVec 8)

/-- `crt_buf[i] = v`. -/
def Cga.store (s : Cga) (i : ℕ) (v : BitVec 16) : Cga :=
  { s with crtBuf := Function.update s.crtBuf i v, writes := s.writes ++ [i] }

/-- A space, black on white. -/
def crtBlank : BitVec 16 := 0x0700 ||| 0x20

/-- The `memmove` of all lines but the first. -/
def Cga.moveLines (s : Cga) : Cga :=
  { s with
    crtBuf := fun i => if i < crtSize - crtCols then s.crtBuf (i + crtCols) else s.crtBuf i
    writes := s.writes ++ List.range (crtSize - crtCols) }

/-- The end of `cga_putc`: the screen is scrolled, and the cursor moved. -/
def cgaEnd (s : Cga) : Cga :=
  let s :=
    if crtSize ≤ s.crtPos.toNat then
      let s := (List.range' (crtSize - crtCols) crtCols).foldl (fun s i => s.store i crtBlank)
        s.moveLines
      { s with crtPos := s.crtPos - 80 }
    else s
  { s with cursor := s.crtPos }

/-- If no attribute is given, then black on white. -/
def withAttr (c : Word) : Word := if c &&& ~~~0xFF = 0 then c ||| 0x0700 else c

theorem withAttr_low (c : Word) : withAttr c &&& 0xFF = c &&& 0xFF := by
  unfold withAttr
  split
  · have hattr : (0x0700 : Word) &&& 0xFF = 0#32 := by decide
    rw [BitVec.and_or_distrib_right, hattr, BitVec.or_zero]
  · rfl

mutual

def cgaPutc (s : Cga) (c : Word) : Cga :=
  if withAttr c &&& 0xFF = 0x08 then
    cgaEnd (if 0 < s.crtPos then
      let s := { s with crtPos := s.crtPos - 1 }
      s.store s.crtPos.toNat ((withAttr c &&& ~~~0xFF ||| chr ' ').truncate 16)
    else s)
  else if withAttr c &&& 0xFF = 0x0A then
    let s := { s with crtPos := s.crtPos + 80 }
    cgaEnd { s with crtPos := s.crtPos - s.crtPos % 80 }
  else if withAttr c &&& 0xFF = 0x0D then
    cgaEnd { s with crtPos := s.crtPos - s.crtPos % 80 }
  else if withAttr c &&& 0xFF = 0x09 then
    let s := consPutc s (chr ' ')
    let s := consPutc s (chr ' ')
    let s := consPutc s (chr ' ')
    let s := consPutc s (chr ' ')
    let s := consPutc s (chr ' ')
    cgaEnd s
  else cgaEnd { s.store s.crtPos.toNat ((withAttr c).truncate 16) with crtPos := s.crtPos + 1 }
termination_by if c &&& 0xFF = 0x09 then 2 else 0
decreasing_by
  all_goals
    have htab : c &&& 0xFF = 0x09 := by
      rw [← withAttr_low]
      assumption
    exact lt_of_lt_of_eq (by decide) (if_pos htab).symm

/-- The ports take the low byte. -/
def consPutc (s : Cga) (c : Word) : Cga :=
  cgaPutc { s with serial := s.serial ++ [c.truncate 8], lpt := s.lpt ++ [c.truncate 8] } c
termination_by (if c &&& 0xFF = 0x09 then 2 else 0) + 1

end

/-- What a character does on a terminal. A tab is five spaces without its
attribute, and a backspace leaves a space with its own. -/
def interpret (c : Word) : List (TermOp (BitVec 16)) :=
  if c &&& 0xFF = 0x08 then [.back ((withAttr c &&& ~~~0xFF ||| chr ' ').truncate 16)]
  else if c &&& 0xFF = 0x0A then [.newline]
  else if c &&& 0xFF = 0x0D then [.carriage]
  else if c &&& 0xFF = 0x09 then List.replicate 5 (.put crtBlank)
  else [.put ((withAttr c).truncate 16)]

/-! ### Scrolling -/

variable {buf : ℕ → BitVec 16} {s : Cga} {t : Terminal (BitVec 16)} {v : BitVec 16} {c : Word}

theorem foldl_store (a n : ℕ) : (List.range' a n).foldl (fun s i => s.store i v) s =
    { s with
      crtBuf := fun i => if a ≤ i ∧ i < a + n then v else s.crtBuf i
      writes := s.writes ++ List.range' a n } := by
  induction n generalizing a s with
  | zero =>
      have hnone (i : ℕ) : ¬ (a ≤ i ∧ i < a + 0) := by omega
      simp only [List.range'_zero, List.foldl_nil, hnone, if_false, List.append_nil]
  | succ n ih =>
      have hbuf : (fun i => if a + 1 ≤ i ∧ i < a + 1 + n then v else (s.store a v).crtBuf i) =
          fun i => if a ≤ i ∧ i < a + (n + 1) then v else s.crtBuf i := by
        funext i
        rcases lt_trichotomy i a with hlt | rfl | hgt
        · rw [if_neg (by omega), if_neg (by omega)]
          exact Function.update_of_ne (by omega) _ _
        · rw [if_neg (by omega), if_pos (by omega)]
          exact Function.update_self _ _ _
        · have hiff : (a + 1 ≤ i ∧ i < a + 1 + n) ↔ (a ≤ i ∧ i < a + (n + 1)) := by omega
          have hsame : (s.store a v).crtBuf i = s.crtBuf i := Function.update_of_ne (by omega) _ _
          simp only [hiff, hsame]
      rw [List.range'_succ, List.foldl_cons, ih (a + 1), hbuf]
      simp only [Cga.store, List.append_assoc, List.singleton_append]

/-- The screen shows the window of the terminal. The cursor may be below it. -/
structure Shows (buf : ℕ → BitVec 16) (s : Cga) (t : Terminal (BitVec 16)) : Prop where
  pos : t.cursor = t.top * crtCols + s.crtPos.toNat
  cells : ∀ i < crtSize, s.crtBuf i = t.cells (t.top * crtCols + i)
  writes : ∀ i ∈ s.writes, i < crtSize
  frame : ∀ i, i ∉ s.writes → s.crtBuf i = buf i

theorem Shows.cgaEnd (h : Shows buf s t) (hreach : InReach crtCols crtRows crtBlank t) :
    Shows buf (cgaEnd s) (t.follow crtCols crtRows) := by
  have hpos : t.cursor = t.top * 80 + s.crtPos.toNat := h.pos
  have hbelow : ∀ i, (t.top + 25) * 80 ≤ i → t.cells i = crtBlank := hreach.below
  have hkept : crtSize - crtCols = 1920 := rfl
  unfold Jos.cgaEnd Terminal.follow
  rcases lt_or_ge s.crtPos.toNat 2000 with hin | hout
  · have hin' : ¬ (t.top + crtRows) * crtCols ≤ t.cursor := by
      change ¬ (t.top + 25) * 80 ≤ t.cursor
      omega
    rw [if_neg (by rw [crtSize_eq]; omega), if_neg hin']
    exact ⟨h.pos, h.cells, h.writes, h.frame⟩
  · have hout' : (t.top + crtRows) * crtCols ≤ t.cursor := by
      change (t.top + 25) * 80 ≤ t.cursor
      omega
    have hsub : (s.crtPos - 80).toNat = s.crtPos.toNat - 80 :=
      BitVec.toNat_sub_of_le (BitVec.le_def.mpr (by change 80 ≤ s.crtPos.toNat; omega))
    rw [if_pos (by rw [crtSize_eq]; omega), if_pos hout', foldl_store, hkept]
    exact {
      pos := by
        change t.cursor = (t.top + 1) * 80 + (s.crtPos - 80).toNat
        omega
      cells := fun i hi => by
        rw [crtSize_eq] at hi
        change (if 1920 ≤ i ∧ i < 1920 + 80 then crtBlank
          else if i < crtSize - crtCols then s.crtBuf (i + 80) else s.crtBuf i) =
            t.cells ((t.top + 1) * 80 + i)
        rcases lt_or_ge i 1920 with hup | hnew
        · have hcell : s.crtBuf (i + 80) = t.cells (t.top * 80 + (i + 80)) :=
            h.cells (i + 80) (by rw [crtSize_eq]; omega)
          rw [if_neg (by omega), if_pos (by omega), hcell]
          exact congrArg t.cells (by omega)
        · rw [if_pos (by omega), hbelow _ (by omega)]
      writes := fun i hi => by
        rw [crtSize_eq]
        rcases List.mem_append.mp hi with hi | hi
        · rcases List.mem_append.mp hi with hi | hi
          · exact h.writes i hi
          · have hlt : i < 1920 := List.mem_range.mp hi
            omega
        · have hlt : 1920 ≤ i ∧ i < 1920 + 80 := List.mem_range'_1.mp hi
          omega
      frame := fun i hi => by
        have hold : i ∉ s.writes := fun hmem =>
          hi (List.mem_append_left _ (List.mem_append_left _ hmem))
        have hnot : ¬ i < crtSize - crtCols := fun hlt =>
          hi (List.mem_append_left _ (List.mem_append_right _ (List.mem_range.mpr hlt)))
        have hnot' : ¬ (1920 ≤ i ∧ i < 1920 + crtCols) := fun hin =>
          hi (List.mem_append_right _ (List.mem_range'_1.mpr hin))
        exact (if_neg hnot').trans ((if_neg hnot).trans (h.frame i hold)) }

/-! ### The characters -/

/-- The screen shows the terminal with its cursor. -/
structure Agrees (buf : ℕ → BitVec 16) (s : Cga) (t : Terminal (BitVec 16)) : Prop where
  shows : Shows buf s t
  window : InWindow crtCols crtRows crtBlank t

theorem Agrees.pos_lt (h : Agrees buf s t) : s.crtPos.toNat < 2000 := by
  have hpos : t.cursor = t.top * 80 + s.crtPos.toNat := h.shows.pos
  have hlt : t.cursor < (t.top + 25) * 80 := h.window.lt
  omega

/-- After the cursor has been moved as on the terminal, the end of `cga_putc`
follows it. -/
theorem Agrees.op {s' : Cga} {o : TermOp (BitVec 16)} (h : Agrees buf s t)
    (hshows : Shows buf s' (t.move crtCols o)) :
    Agrees buf (cgaEnd s') (t.op crtCols crtRows o) :=
  ⟨hshows.cgaEnd (h.window.move (by decide) o), h.window.op (by decide) (by decide) o⟩

/-- A cell of the screen is written. -/
theorem Shows.store (h : Shows buf s t) {i cursor : ℕ} (hi : i < crtSize) (pos : BitVec 16)
    (hcursor : cursor = t.top * crtCols + pos.toNat) :
    Shows buf { s.store i v with crtPos := pos }
      { t with cells := Function.update t.cells (t.top * crtCols + i) v, cursor := cursor } where
  pos := hcursor
  cells j hj := by
    change Function.update s.crtBuf i v j =
      Function.update t.cells (t.top * crtCols + i) v (t.top * crtCols + j)
    rcases eq_or_ne j i with rfl | hne
    · rw [Function.update_self, Function.update_self]
    · rw [Function.update_of_ne hne, Function.update_of_ne (by omega)]
      exact h.cells j hj
  writes j hj := by
    rcases List.mem_append.mp hj with hj | hj
    · exact h.writes j hj
    · rw [List.mem_singleton.mp hj]
      exact hi
  frame j hj := by
    have hne : j ≠ i := fun heq => hj (List.mem_append_right _ (List.mem_singleton.mpr heq))
    exact (Function.update_of_ne hne _ _).trans
      (h.frame j fun hmem => hj (List.mem_append_left _ hmem))

theorem Agrees.put (h : Agrees buf s t) (v : BitVec 16) :
    Agrees buf (cgaEnd { s.store s.crtPos.toNat v with crtPos := s.crtPos + 1 })
      (t.op crtCols crtRows (.put v)) := by
  have hpos := h.shows.pos
  have hlt := h.pos_lt
  have hnext : (s.crtPos + 1).toNat = s.crtPos.toNat + 1 := by
    rw [BitVec.toNat_add, show (1 : BitVec 16).toNat = 1 from rfl]
    omega
  have hstore := @Shows.store buf s t v h.shows _ (t.cursor + 1) (by rw [crtSize_eq]; exact hlt)
    (s.crtPos + 1) (by omega)
  rw [← hpos] at hstore
  exact h.op hstore

theorem Agrees.back (h : Agrees buf s t) (v : BitVec 16) :
    Agrees buf (cgaEnd (if 0 < s.crtPos then
        let s := { s with crtPos := s.crtPos - 1 }
        s.store s.crtPos.toNat v
      else s)) (t.op crtCols crtRows (.back v)) := by
  have hpos := h.shows.pos
  have hlt := h.pos_lt
  refine h.op ?_
  unfold Terminal.move
  by_cases hleft : 0 < s.crtPos
  · have hpositive : 0 < s.crtPos.toNat := BitVec.lt_def.mp hleft
    have hprev : (s.crtPos - 1).toNat = s.crtPos.toNat - 1 :=
      BitVec.toNat_sub_of_le (BitVec.le_def.mpr hpositive)
    have hcursor : t.cursor - 1 = t.top * crtCols + (s.crtPos - 1).toNat := by omega
    have hstore := @Shows.store buf s t v h.shows (s.crtPos - 1).toNat (t.cursor - 1)
      (by rw [crtSize_eq]; omega) (s.crtPos - 1) hcursor
    rw [← hcursor] at hstore
    rw [if_pos hleft]
    simp only [if_pos (show t.top * crtCols < t.cursor by omega)]
    exact hstore
  · have hpositive : ¬ 0 < s.crtPos.toNat := fun hlt => hleft (BitVec.lt_def.mpr hlt)
    rw [if_neg hleft]
    simp only [if_neg (show ¬ t.top * crtCols < t.cursor by omega)]
    exact h.shows

/-- The cursor goes to another place. -/
theorem Shows.goto (h : Shows buf s t) {pos : BitVec 16} {cursor : ℕ}
    (hcursor : cursor = t.top * crtCols + pos.toNat) :
    Shows buf { s with crtPos := pos } { t with cursor := cursor } :=
  ⟨hcursor, h.cells, h.writes, h.frame⟩

theorem lineStart_toNat (pos : BitVec 16) : (pos - pos % 80).toNat = pos.toNat / 80 * 80 := by
  have hmod : (pos % 80).toNat = pos.toNat % 80 := BitVec.toNat_umod
  have hle : pos.toNat % 80 ≤ pos.toNat := Nat.mod_le _ _
  rw [BitVec.toNat_sub_of_le (BitVec.le_def.mpr (by omega)), hmod]
  omega

theorem Agrees.newline (h : Agrees buf s t) :
    Agrees buf (cgaEnd { s with crtPos := s.crtPos + 80 - (s.crtPos + 80) % 80 })
      (t.op crtCols crtRows .newline) := by
  have hpos : t.cursor = t.top * 80 + s.crtPos.toNat := h.shows.pos
  have hlt := h.pos_lt
  have hnext : (s.crtPos + 80).toNat = s.crtPos.toNat + 80 := by
    rw [BitVec.toNat_add, show (80 : BitVec 16).toNat = 80 from rfl]
    omega
  refine h.op (h.shows.goto ?_)
  change (t.cursor / 80 + 1) * 80 = t.top * 80 + _
  rw [lineStart_toNat, hnext]
  omega

theorem Agrees.carriage (h : Agrees buf s t) :
    Agrees buf (cgaEnd { s with crtPos := s.crtPos - s.crtPos % 80 })
      (t.op crtCols crtRows .carriage) := by
  have hpos : t.cursor = t.top * 80 + s.crtPos.toNat := h.shows.pos
  refine h.op (h.shows.goto ?_)
  change t.cursor / 80 * 80 = t.top * 80 + _
  rw [lineStart_toNat]
  omega

/-- At the end of a tab there is nothing left to scroll. -/
theorem Agrees.cgaEnd (h : Agrees buf s t) : Agrees buf (cgaEnd s) t := by
  have hlt := h.pos_lt
  unfold Jos.cgaEnd
  rw [if_neg (by rw [crtSize_eq]; omega)]
  exact ⟨⟨h.shows.pos, h.shows.cells, h.shows.writes, h.shows.frame⟩, h.window⟩

theorem Agrees.space (h : Agrees buf s t) :
    Agrees buf (consPutc s (chr ' ')) (t.op crtCols crtRows (.put crtBlank)) := by
  have hlow : withAttr (chr ' ') &&& 0xFF = 0x20 := by decide
  rw [consPutc, cgaPutc, hlow, if_neg (by decide), if_neg (by decide), if_neg (by decide),
    if_neg (by decide)]
  have hsame : Agrees buf { s with
      serial := s.serial ++ [(chr ' ').truncate 8], lpt := s.lpt ++ [(chr ' ').truncate 8] } t :=
    ⟨⟨h.shows.pos, h.shows.cells, h.shows.writes, h.shows.frame⟩, h.window⟩
  exact hsame.put crtBlank

theorem Agrees.putc (h : Agrees buf s t) (c : Word) :
    Agrees buf (cgaPutc s c) (t.run crtCols crtRows (interpret c)) := by
  rw [cgaPutc, withAttr_low]
  unfold interpret
  by_cases hback : c &&& 0xFF = 0x08
  · rw [if_pos hback, if_pos hback]
    exact h.back _
  · rw [if_neg hback, if_neg hback]
    by_cases hnewline : c &&& 0xFF = 0x0A
    · rw [if_pos hnewline, if_pos hnewline]
      exact h.newline
    · rw [if_neg hnewline, if_neg hnewline]
      by_cases hcarriage : c &&& 0xFF = 0x0D
      · rw [if_pos hcarriage, if_pos hcarriage]
        exact h.carriage
      · rw [if_neg hcarriage, if_neg hcarriage]
        by_cases htab : c &&& 0xFF = 0x09
        · rw [if_pos htab, if_pos htab]
          exact h.space.space.space.space.space.cgaEnd
        · rw [if_neg htab, if_neg htab]
          exact h.put _

/-! ### Runs -/

/-- The terminal at the start: what is on the screen, and blank lines below. -/
def terminalOf (buf : ℕ → BitVec 16) (pos : BitVec 16) : Terminal (BitVec 16) :=
  ⟨fun i => if i < crtSize then buf i else crtBlank, pos.toNat, 0⟩

theorem terminalOf_agrees {pos : BitVec 16} (hpos : pos.toNat < crtSize) (cursor : BitVec 16)
    (serial lpt : List (BitVec 8)) :
    Agrees buf ⟨buf, pos, [], cursor, serial, lpt⟩ (terminalOf buf pos) where
  shows :=
    { pos := by
        change pos.toNat = 0 * crtCols + pos.toNat
        omega
      cells := fun i hi => by
        change buf i = if 0 * crtCols + i < crtSize then buf (0 * crtCols + i) else crtBlank
        rw [Nat.zero_mul, Nat.zero_add, if_pos hi]
      writes := nofun
      frame := fun _ _ => rfl }
  window :=
    { le := by
        change 0 * crtCols ≤ pos.toNat
        omega
      lt := by
        change pos.toNat < (0 + crtRows) * crtCols
        rw [Nat.zero_add]
        exact hpos
      below := fun i hi => by
        change (0 + crtRows) * crtCols ≤ i at hi
        rw [Nat.zero_add] at hi
        exact if_neg (not_lt.mpr hi) }

theorem Agrees.run (h : Agrees buf s t) (cs : List Word) :
    Agrees buf (cs.foldl cgaPutc s) (t.run crtCols crtRows (cs.flatMap interpret)) := by
  induction cs generalizing s t with
  | nil => exact h
  | cons c cs ih =>
      have hnext := ih (h.putc c)
      unfold Terminal.run at hnext ⊢
      rw [List.flatMap_cons, List.foldl_append]
      exact hnext

/-- After any characters the screen is the window of the terminal, which has
not moved up at any of them, and the cursor is on the screen. -/
theorem cga_shows_window (buf : ℕ → BitVec 16) {pos : BitVec 16} (hpos : pos.toNat < crtSize)
    (cursor : BitVec 16) (serial lpt : List (BitVec 8)) (cs : List Word) :
    let s := cs.foldl cgaPutc ⟨buf, pos, [], cursor, serial, lpt⟩
    let t := (terminalOf buf pos).run crtCols crtRows (cs.flatMap interpret)
    s.crtPos.toNat < crtSize ∧ (∀ i ∈ s.writes, i < crtSize) ∧
      (∀ i, i ∉ s.writes → s.crtBuf i = buf i) ∧
      (∀ i < crtSize, s.crtBuf i = t.cells (t.top * crtCols + i)) ∧
      t.cursor = t.top * crtCols + s.crtPos.toNat ∧
      (∀ i, (t.top + crtRows) * crtCols ≤ i → t.cells i = crtBlank) ∧
      ∀ cs' : List Word,
        t.top ≤ ((terminalOf buf pos).run crtCols crtRows ((cs ++ cs').flatMap interpret)).top := by
  intro s t
  have h := (@terminalOf_agrees buf pos hpos cursor serial lpt).run cs
  refine ⟨h.pos_lt, h.shows.writes, h.shows.frame, h.shows.cells, h.shows.pos, h.window.below,
    fun cs' => ?_⟩
  have hrun : (terminalOf buf pos).run crtCols crtRows ((cs ++ cs').flatMap interpret) =
      t.run crtCols crtRows (cs'.flatMap interpret) := by
    unfold Terminal.run
    rw [List.flatMap_append, List.foldl_append]
    rfl
  rw [hrun]
  exact top_le_run _

theorem cga_shows_window_tab : (([chr 'A', chr '\t'].foldl cgaPutc
    ⟨fun _ => crtBlank, 1999, [], 0, [], []⟩).crtPos).toNat < crtSize :=
  (cga_shows_window (fun _ => crtBlank) (by decide) 0 [] [] [chr 'A', chr '\t']).1

/-- A character in the last cell, and a tab. -/
example : ((terminalOf (fun _ => crtBlank) 1999).run crtCols crtRows
    ([chr 'A', chr '\t'].flatMap interpret)).cursor = 2005 := by
  decide +kernel

end Jos
