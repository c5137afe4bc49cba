import Jos.Ulib.Printf

/-!
`readline` of lib/readline.c, as the kernel links it. It keeps the line in a
buffer of 1024 bytes and edits it as the characters come, until the first
newline or carriage return.
-/

namespace Jos

def buflen : ℕ := 1024

/-- Whether the call goes on, or has returned `NULL` or the buffer. -/
inductive ReadlineRet where
  | reading
  | null
  | buf
  deriving DecidableEq

structure Readline where
  i : ℕ
  buf : ℕ → BitVec 8
  console : List Word
  ret : ReadlineRet

/-- `iscons` of kern/console.c. -/
def iscons (_fdnum : ℕ) : ℕ := 1

/-- `if (echoing) cputchar(c)` -/
def Readline.echo (s : Readline) (c : Word) : Readline :=
  { s with console := if iscons 0 ≠ 0 then s.console ++ [c] else s.console }

/-- What the loop does with one character from `getchar`. -/
def Readline.body (load : Word → BitVec 8) (s : Readline) (c : Word) : Readline :=
  if c.toInt < 0 then
    { s with
      console := (kernVcprintf s.console load (str "read error: %e\n") [c]).console
      ret := .null }
  else if (c = 0x08 ∨ c = 0x7f) ∧ s.i > 0 then { s.echo 0x08 with i := s.i - 1 }
  else if c.toInt ≥ 32 ∧ s.i < buflen - 1 then
    { s.echo c with
      buf := Function.update s.buf s.i (c.truncate 8)
      i := s.i + 1 }
  else if c = 10 ∨ c = 13 then
    { s.echo 10 with
      buf := Function.update s.buf s.i 0
      ret := .buf }
  else s

/-- The call after the characters `cs`. -/
def Readline.run (load : Word → BitVec 8) (s : Readline) (cs : List Word) : Readline :=
  cs.foldl (fun s c => if s.ret = .reading then s.body load c else s) s

/-- The call before its first character; `buf` is what the last one has left. -/
def readline (load : Word → BitVec 8) (console : List Word) (buf : ℕ → BitVec 8) (prompt : Word) :
    Readline where
  i := 0
  buf := buf
  console :=
    if prompt ≠ 0 then (kernVcprintf console load (str "%s") [prompt]).console else console
  ret := .reading

/-- The characters stored so far. -/
def Readline.line (s : Readline) : List (BitVec 8) := (List.range s.i).map s.buf

/-! ### Editing -/

/-- One character, as the line should be edited. -/
def editLine (line : List (BitVec 8)) (c : Word) : List (BitVec 8) :=
  if c = 0x08 ∨ c = 0x7f then line.dropLast
  else if 32 ≤ c.toNat ∧ line.length < buflen - 1 then line ++ [c.truncate 8]
  else line

/-- How many characters are removed. -/
def removals (line : List (BitVec 8)) : List Word → ℕ
  | [] => 0
  | c :: cs =>
      (if (c = 0x08 ∨ c = 0x7f) ∧ line ≠ [] then 1 else 0) + removals (editLine line c) cs

def IsNewline (c : Word) : Prop := c = 10 ∨ c = 13

instance (c : Word) : Decidable (IsNewline c) := inferInstanceAs (Decidable (_ ∨ _))

/-- The characters before the first newline or carriage return. -/
def beforeNewline (cs : List Word) : List Word := cs.takeWhile (¬ IsNewline ·)

/-- No DEL comes while the line is empty. -/
def DelAfterText (line : List (BitVec 8)) : List Word → Prop
  | [] => True
  | c :: cs => (c = 0x7f → line ≠ []) ∧ DelAfterText (editLine line c) cs

/-- Neither character that removes another is in the line. -/
def NoDel (line : List (BitVec 8)) : Prop := ∀ b ∈ line, b ≠ 0x08 ∧ b ≠ 0x7f

/-- The call reads the line as it should. -/
structure Readline.Edits (load : Word → BitVec 8) (s : Readline) (cs : List Word) : Prop where
  returned : (s.run load cs).ret = .buf
  line_eq : (s.run load cs).line = (beforeNewline cs).foldl editLine []
  nul : (s.run load cs).buf (s.run load cs).i = 0
  noDel : ∀ cs', cs' <+: cs → NoDel (s.run load cs').line
  bounded : ∀ cs', cs' <+: cs → (s.run load cs').i ≤ buflen - 1
  echoed : (s.run load cs).console.count 0x08 =
    s.console.count 0x08 + removals [] (beforeNewline cs)

variable {load : Word → BitVec 8} {s t : Readline} {c : Word} {cs cs' : List Word}
  {line : List (BitVec 8)}

/-- A value of `getchar`. -/
def IsChar (c : Word) : Prop := 1 ≤ c.toNat ∧ c.toNat ≤ 255

instance (c : Word) : Decidable (IsChar c) := inferInstanceAs (Decidable (_ ∧ _))

theorem IsChar.toInt_eq (h : IsChar c) : c.toInt = c.toNat :=
  BitVec.toInt_eq_toNat_of_lt (by
    unfold IsChar at h
    omega)

theorem IsChar.not_neg (h : IsChar c) : ¬ c.toInt < 0 := by
  rw [h.toInt_eq]
  omega

/-- A character and the byte that is stored. -/
theorem IsChar.truncate_eq (h : IsChar c) {b : BitVec 8} :
    c.truncate 8 = b ↔ c = b.setWidth 32 := by
  unfold IsChar at h
  rw [← BitVec.toNat_inj, ← BitVec.toNat_inj, BitVec.truncate_eq_setWidth, BitVec.toNat_setWidth,
    BitVec.toNat_setWidth]
  have hb := b.isLt
  omega

/-! ### The line after one character -/

@[simp] theorem Readline.echo_console : (s.echo c).console = s.console ++ [c] := rfl

theorem Readline.length_line : s.line.length = s.i := by simp [Readline.line]

theorem Readline.line_eq_nil : s.line = [] ↔ s.i = 0 := by
  rw [← List.length_eq_zero_iff, Readline.length_line]

/-- The line without its last character. -/
theorem Readline.line_removed (hbuf : t.buf = s.buf) (hi : t.i = s.i - 1) :
    t.line = s.line.dropLast := by
  rw [Readline.line, Readline.line, hbuf, hi, List.dropLast_eq_take, ← List.map_take,
    List.take_range]
  simp

/-- The line with one more character. -/
theorem Readline.line_stored {b : BitVec 8} (hbuf : t.buf = Function.update s.buf s.i b)
    (hi : t.i = s.i + 1) : t.line = s.line ++ [b] := by
  have hkept (j : ℕ) (hj : j ∈ List.range s.i) : Function.update s.buf s.i b j = s.buf j :=
    Function.update_of_ne (List.mem_range.mp hj).ne b s.buf
  rw [Readline.line, Readline.line, hbuf, hi, List.range_succ, List.map_append,
    List.map_congr_left hkept]
  simp

/-- The NUL is not part of the line. -/
theorem Readline.line_ended {b : BitVec 8} (hbuf : t.buf = Function.update s.buf s.i b)
    (hi : t.i = s.i) : t.line = s.line := by
  rw [Readline.line, Readline.line, hbuf, hi]
  exact List.map_congr_left fun j hj => Function.update_of_ne (List.mem_range.mp hj).ne b s.buf

/-- The call goes on and has stored `line`. -/
structure Readline.At (s : Readline) (line : List (BitVec 8)) : Prop where
  reading : s.ret = .reading
  line_eq : s.line = line
  bounded : s.i ≤ buflen - 1

theorem Readline.At.length_eq (h : s.At line) : line.length = s.i := by
  rw [← h.line_eq]
  exact Readline.length_line

theorem Readline.At.pos_iff (h : s.At line) : s.i > 0 ↔ line ≠ [] := by
  rw [gt_iff_lt, Nat.pos_iff_ne_zero, ← h.line_eq, ne_eq, ne_eq, Readline.line_eq_nil]

theorem Readline.body_back (hc : IsChar c) (hback : c = 0x08 ∨ c = 0x7f) (hi : s.i > 0) :
    s.body load c = { s.echo 0x08 with i := s.i - 1 } := by
  rw [Readline.body, if_neg hc.not_neg, if_pos ⟨hback, hi⟩]

theorem Readline.body_store (hc : IsChar c) (hback : ¬ ((c = 0x08 ∨ c = 0x7f) ∧ s.i > 0))
    (hstore : 32 ≤ c.toNat ∧ s.i < buflen - 1) :
    s.body load c = { s.echo c with
      buf := Function.update s.buf s.i (c.truncate 8)
      i := s.i + 1 } := by
  have hge : c.toInt ≥ 32 := by
    rw [hc.toInt_eq]
    exact Int.ofNat_le.mpr hstore.1
  rw [Readline.body, if_neg hc.not_neg, if_neg hback, if_pos ⟨hge, hstore.2⟩]

theorem Readline.body_ignore (hc : IsChar c) (hback : ¬ ((c = 0x08 ∨ c = 0x7f) ∧ s.i > 0))
    (hstore : ¬ (32 ≤ c.toNat ∧ s.i < buflen - 1)) (hnew : ¬ IsNewline c) :
    s.body load c = s := by
  have hge : ¬ (c.toInt ≥ 32 ∧ s.i < buflen - 1) := by
    rw [hc.toInt_eq]
    omega
  rw [Readline.body, if_neg hc.not_neg, if_neg hback, if_neg hge]
  exact if_neg hnew

theorem Readline.body_newline (hnew : IsNewline c) :
    s.body load c = { s.echo 10 with buf := Function.update s.buf s.i 0, ret := .buf } := by
  have hint : c.toInt = 10 ∨ c.toInt = 13 := hnew.imp (congrArg BitVec.toInt)
    (congrArg BitVec.toInt)
  have hback : ¬ ((c = 0x08 ∨ c = 0x7f) ∧ s.i > 0) := by
    rcases hnew with rfl | rfl <;> simp
  rw [Readline.body, if_neg (by omega), if_neg hback, if_neg (by omega)]
  exact if_pos hnew

/-- The four branches against the line as it should be. -/
theorem Readline.body_at (load : Word → BitVec 8) (h : s.At line) (hc : IsChar c)
    (hnew : ¬ IsNewline c) (hdel : c = 0x7f → line ≠ []) :
    (s.body load c).At (editLine line c) ∧
      (s.body load c).console.count 0x08 =
        s.console.count 0x08 + if (c = 0x08 ∨ c = 0x7f) ∧ line ≠ [] then 1 else 0 := by
  simp only [editLine, h.length_eq, ← h.pos_iff]
  by_cases hback : c = 0x08 ∨ c = 0x7f
  · by_cases hi : s.i > 0
    · rw [Readline.body_back hc hback hi, if_pos hback, if_pos ⟨hback, hi⟩]
      refine ⟨⟨h.reading, ?_, (Nat.sub_le _ _).trans h.bounded⟩, ?_⟩
      · rw [← h.line_eq]
        exact Readline.line_removed rfl rfl
      · simp
    · -- only '\b' comes here, and it is below ' '
      obtain rfl : line = [] := not_not.mp (mt h.pos_iff.mpr hi)
      obtain rfl : c = 0x08 := hback.resolve_right fun hc => hdel hc rfl
      rw [Readline.body_ignore hc (fun hpos => hi hpos.2) (by simp) hnew, if_pos hback,
        if_neg fun hpos => hi hpos.2]
      exact ⟨h, rfl⟩
  · have hne : c ≠ 0x08 := fun hc => hback (Or.inl hc)
    have hback' : ¬ ((c = 0x08 ∨ c = 0x7f) ∧ s.i > 0) := fun hpos => hback hpos.1
    rw [if_neg hback, if_neg hback']
    split
    · rename_i hstore
      rw [Readline.body_store hc hback' hstore]
      refine ⟨⟨h.reading, ?_, hstore.2⟩, ?_⟩
      · rw [← h.line_eq]
        exact Readline.line_stored rfl rfl
      · simpa [List.count_cons] using hne
    · rename_i hstore
      rw [Readline.body_ignore hc hback' hstore hnew]
      exact ⟨h, rfl⟩

/-- A DEL on the empty line is stored. -/
theorem Readline.body_del (h : s.At []) : (s.body load 0x7f).line = [0x7f] := by
  have hi : s.i = 0 := h.length_eq.symm
  rw [Readline.body_store ⟨by decide, by decide⟩ (by omega) ⟨by decide, hi ▸ by decide⟩,
    Readline.line_stored (s := s) rfl rfl, h.line_eq]
  rfl

/-! ### Runs -/

theorem Readline.run_append :
    s.run load (cs ++ cs') = (s.run load cs).run load cs' := List.foldl_append ..

theorem Readline.run_cons (h : s.ret = .reading) :
    s.run load (c :: cs) = (s.body load c).run load cs := by
  rw [Readline.run, List.foldl_cons, if_pos h]
  rfl

theorem Readline.run_returned (h : s.ret ≠ .reading) : s.run load cs = s := by
  induction cs with
  | nil => rfl
  | cons c cs ih =>
      rw [Readline.run, List.foldl_cons, if_neg h]
      exact ih

/-- By induction on the characters: the line is edited as it should be. -/
theorem Readline.run_at (load : Word → BitVec 8) (h : s.At line)
    (hcs : ∀ c ∈ cs, IsChar c ∧ ¬ IsNewline c)
    (hdel : DelAfterText line cs) :
    (s.run load cs).At (cs.foldl editLine line) ∧
      (s.run load cs).console.count 0x08 = s.console.count 0x08 + removals line cs := by
  induction cs generalizing s line with
  | nil => exact ⟨h, rfl⟩
  | cons c cs ih =>
      obtain ⟨hc, hrest⟩ := List.forall_mem_cons.mp hcs
      obtain ⟨h', hcount⟩ := Readline.body_at load h hc.1 hc.2 hdel.1
      obtain ⟨h'', hcount'⟩ := ih h' hrest hdel.2
      rw [Readline.run_cons h.reading]
      exact ⟨h'', by rw [hcount', hcount, removals, Nat.add_assoc]⟩

/-- After the newline the call has returned. -/
theorem Readline.run_newline (h : s.At line) (hnew : IsNewline c) :
    s.run load (c :: cs) =
      { s.echo 10 with buf := Function.update s.buf s.i 0, ret := .buf } := by
  rw [Readline.run_cons h.reading, Readline.body_newline hnew]
  exact Readline.run_returned (by simp)

/-- A DEL on an empty line stays in it for one character at least. -/
theorem Readline.run_del (load : Word → BitVec 8) (h : s.At line)
    (hcs : ∀ c ∈ cs, IsChar c ∧ ¬ IsNewline c)
    (hdel : ¬ DelAfterText line cs) : ∃ cs', cs' <+: cs ∧ ¬ NoDel (s.run load cs').line := by
  induction cs generalizing s line with
  | nil => exact absurd trivial hdel
  | cons c cs ih =>
      obtain ⟨hc, hrest⟩ := List.forall_mem_cons.mp hcs
      by_cases hhere : c = 0x7f → line ≠ []
      · have h' := (Readline.body_at load h hc.1 hc.2 hhere).1
        obtain ⟨cs', hstarts, hbad⟩ := ih h' hrest fun hlater => hdel ⟨hhere, hlater⟩
        refine ⟨c :: cs', (List.prefix_cons_inj c).mpr hstarts, ?_⟩
        rwa [Readline.run_cons h.reading]
      · obtain ⟨rfl, hline⟩ := Classical.not_imp.mp hhere
        obtain rfl := not_not.mp hline
        refine ⟨[0x7f], List.prefix_append [0x7f] cs, fun hclean => ?_⟩
        rw [Readline.run_cons h.reading] at hclean
        exact (hclean 0x7f (by
          rw [Readline.run, List.foldl_nil, Readline.body_del h]
          exact List.mem_singleton_self _)).2 rfl

/-! ### The edited line -/

theorem NoDel.editLine (h : NoDel line) (hc : IsChar c) : NoDel (editLine line c) := by
  rw [Jos.editLine]
  split
  · exact fun b hb => h b (List.mem_of_mem_dropLast hb)
  · rename_i hback
    split
    · intro b hb
      rcases List.mem_append.mp hb with hold | hnew
      · exact h b hold
      · obtain rfl := List.mem_singleton.mp hnew
        exact ⟨fun hb => hback (Or.inl (hc.truncate_eq.mp hb)),
          fun hb => hback (Or.inr (hc.truncate_eq.mp hb))⟩
    · exact h

theorem NoDel.foldl (h : NoDel line) (hcs : ∀ c ∈ cs, IsChar c) :
    NoDel (cs.foldl Jos.editLine line) := by
  induction cs generalizing line with
  | nil => exact h
  | cons c cs ih =>
      obtain ⟨hc, hrest⟩ := List.forall_mem_cons.mp hcs
      exact ih (h.editLine hc) hrest

theorem DelAfterText.of_append (h : DelAfterText line (cs ++ cs')) : DelAfterText line cs := by
  induction cs generalizing line with
  | nil => trivial
  | cons c cs ih => exact ⟨h.1, ih h.2⟩

theorem beforeNewline_split (h : ∃ c ∈ cs, IsNewline c) :
    ∃ c rest, cs = beforeNewline cs ++ c :: rest ∧ IsNewline c := by
  induction cs with
  | nil => simp at h
  | cons d cs ih =>
      by_cases hd : IsNewline d
      · exact ⟨d, cs, by simp [beforeNewline, hd], hd⟩
      · obtain ⟨c, rest, hcs, hc⟩ := ih (by simpa [hd] using h)
        refine ⟨c, rest, ?_, hc⟩
        rw [beforeNewline, List.takeWhile_cons_of_pos (by simpa using hd), List.cons_append]
        exact congrArg (d :: ·) hcs

theorem prefix_split {before rest : List Word} (h : cs' <+: before ++ c :: rest) :
    cs' <+: before ∨ ∃ more, cs' = before ++ c :: more := by
  rcases List.prefix_or_prefix_of_prefix h (List.prefix_append before _) with hshort | hlong
  · exact Or.inl hshort
  · obtain ⟨tail, rfl⟩ := hlong
    rcases List.prefix_cons_iff.mp ((List.prefix_append_right_inj _).mp h) with rfl | ⟨more, rfl, -⟩
    · exact Or.inl (by rw [List.append_nil])
    · exact Or.inr ⟨more, rfl⟩

/-- The line is edited as it should be if and only if no DEL comes while it is
empty. -/
theorem readline_edits_iff {console : List Word} {buf : ℕ → BitVec 8} {prompt : Word}
    (hcs : ∀ c ∈ cs, IsChar c) (hnew : ∃ c ∈ cs, IsNewline c) :
    (readline load console buf prompt).Edits load cs ↔ DelAfterText [] (beforeNewline cs) := by
  have hstart : (readline load console buf prompt).At [] := ⟨rfl, rfl, Nat.zero_le _⟩
  generalize readline load console buf prompt = s at *
  obtain ⟨nl, rest, hsplit, hnl⟩ := beforeNewline_split hnew
  have hbefore : ∀ c ∈ beforeNewline cs, IsChar c ∧ ¬ IsNewline c := fun c hc =>
    ⟨hcs c (List.takeWhile_prefix _ |>.subset hc), by simpa using List.mem_takeWhile_imp hc⟩
  generalize hbeforeEq : beforeNewline cs = before at *
  subst hsplit
  constructor
  · intro hedits
    by_contra hdel
    obtain ⟨cs', hstarts, hbad⟩ := Readline.run_del load hstart hbefore hdel
    exact hbad (hedits.noDel cs' (hstarts.trans (List.prefix_append _ _)))
  · intro hdel
    obtain ⟨hat, hcount⟩ := Readline.run_at load hstart hbefore hdel
    have hend (more : List Word) : s.run load (before ++ nl :: more) =
        { (s.run load before).echo 10 with
          buf := Function.update (s.run load before).buf (s.run load before).i 0
          ret := .buf } := by
      rw [Readline.run_append, Readline.run_newline hat hnl]
    have hline : ((s.run load (before ++ nl :: rest)).line) = before.foldl editLine [] := by
      rw [hend, ← hat.line_eq]
      exact Readline.line_ended rfl rfl
    have hstarts (cs' : List Word) (h : cs' <+: before ++ nl :: rest) :
        ∃ cs₁, cs₁ <+: before ∧ (s.run load cs').line = (s.run load cs₁).line := by
      rcases prefix_split h with hshort | ⟨more, rfl⟩
      · exact ⟨cs', hshort, rfl⟩
      · refine ⟨before, List.prefix_rfl, ?_⟩
        rw [hend]
        exact Readline.line_ended rfl rfl
    have hat' (cs₁ : List Word) (h : cs₁ <+: before) :
        (s.run load cs₁).At (cs₁.foldl editLine []) := by
      obtain ⟨more, rfl⟩ := h
      exact (Readline.run_at load hstart (fun c hc => hbefore c (List.mem_append_left _ hc))
        hdel.of_append).1
    exact
      { returned := by rw [hend]
        line_eq := by rw [hbeforeEq, hline]
        nul := by
          rw [hend]
          exact Function.update_self ..
        noDel := fun cs' h => by
          obtain ⟨cs₁, h₁, hsame⟩ := hstarts cs' h
          rw [hsame, (hat' cs₁ h₁).line_eq]
          exact NoDel.foldl (fun b hb => absurd hb List.not_mem_nil)
            fun c hc => (hbefore c (h₁.subset hc)).1
        bounded := fun cs' h => by
          obtain ⟨cs₁, h₁, hsame⟩ := hstarts cs' h
          rw [← Readline.length_line, hsame, Readline.length_line]
          exact (hat' cs₁ h₁).bounded
        echoed := by
          rw [hend, hbeforeEq, ← hcount]
          simp }

/-- A character that is removed again, and one that stays. -/
theorem readline_edits_iff_typed :
    (readline (fun _ => 0) [] (fun _ => 0) 0).Edits (fun _ => 0) [97, 0x7f, 98, 13] :=
  (readline_edits_iff (by simp [IsChar]) ⟨13, by simp, by decide⟩).mpr
    (by simp [beforeNewline, IsNewline, DelAfterText, editLine, buflen])

/-- DEL on the empty line is kept. -/
theorem not_readline_edits :
    ¬ (readline (fun _ => 0) [] (fun _ => 0) 0).Edits (fun _ => 0) [0x7f, 10] := by
  intro h
  have hline := (h.noDel [0x7f] ⟨[10], rfl⟩ 0x7f (by decide)).2
  exact hline rfl

end Jos
