import Jos.Lib.RepString
import Jos.Ulib.Printf

/-!
`vsnprintf` of lib/printfmt.c. Its `putch` stores a character as long as there
is room for one and the NUL after it, and counts all of them. After any number
of characters the buffer begins with as many of them as there is room for
(`Stored`); `vsnprintf` adds the NUL behind them.
-/

namespace Jos

open Jos.Lib

/-! ### The buffer -/

/-- `struct sprintbuf`. -/
structure SprintBuf where
  buf : Word
  ebuf : Word
  cnt : Word

/-- The memory, and the addresses written to. -/
structure Sprint where
  b : SprintBuf
  mem : ByteMem
  writes : List Word

/-- `*p = c`. -/
def Sprint.put (s : Sprint) (p : Word) (c : BitVec 8) : Sprint :=
  { s with mem := Function.update s.mem p c, writes := s.writes ++ [p] }

def sprintputch (s : Sprint) (ch : Word) : Sprint :=
  let b := { s.b with cnt := s.b.cnt + 1 }
  if b.buf < b.ebuf then
    { s.put b.buf (ch.truncate 8) with b := { b with buf := b.buf + 1 } }
  else { s with b := b }

/-- The return value, and the memory. -/
structure Sprinted where
  ret : Word
  mem : ByteMem
  writes : List Word

/-- `vsnprintf`, for what `vprintfmt` passes to `putch`. -/
def vsnprintfOf (out : List Word) (buf n : Word) (m : ByteMem) : Sprinted :=
  if buf = 0 ∨ n.slt 1 then ⟨-eInval, m, []⟩
  else
    let s := out.foldl sprintputch ⟨⟨buf, buf + n - 1, 0⟩, m, []⟩
    let s := s.put s.b.buf 0
    ⟨s.b.cnt, s.mem, s.writes⟩

/-- The bytes of the strings are those that `load` gives. -/
def vsnprintf (load : Word → BitVec 8) (buf n : Word) (fmt : List (BitVec 8)) (ap : List Word)
    (m : ByteMem) : Sprinted :=
  vsnprintfOf (vprintfmt load fmt ap) buf n m

/-! ### After some characters -/

variable {m : ByteMem} {p buf n : Word} {s : Sprint} {l : List (BitVec 8)} {out : List Word}
  {room k : ℕ}

/-- The first `k` bytes at `p`. -/
def bytesAt (m : ByteMem) (p : Word) (k : ℕ) : List (BitVec 8) :=
  (List.range k).map fun i => m (p + BitVec.ofNat 32 i)

theorem bytesAt_succ : bytesAt m p (k + 1) = bytesAt m p k ++ [m (p + BitVec.ofNat 32 k)] := by
  unfold bytesAt
  rw [List.range_succ, List.map_append, List.map_singleton]

theorem offset_toNat {i : ℕ} (h : p.toNat + i < 2 ^ 32) :
    (p + BitVec.ofNat 32 i).toNat = p.toNat + i := by
  rw [BitVec.toNat_add, BitVec.toNat_ofNat]
  omega

/-- A byte behind the first `k` is written. -/
theorem bytesAt_update {c : BitVec 8} (h : p.toNat + k < 2 ^ 32) :
    bytesAt (Function.update m (p + BitVec.ofNat 32 k) c) p k = bytesAt m p k := by
  unfold bytesAt
  apply List.map_congr_left
  intro i hi
  have hlt : i < k := List.mem_range.mp hi
  have hne : p + BitVec.ofNat 32 i ≠ p + BitVec.ofNat 32 k := by
    intro heq
    have hnat := congrArg BitVec.toNat heq
    rw [offset_toNat (by omega), offset_toNat h] at hnat
    omega
  exact Function.update_of_ne hne c m

/-- After the characters `l`, with room for `room` of them from `buf` on. -/
structure Stored (m : ByteMem) (buf : Word) (room : ℕ) (l : List (BitVec 8)) (s : Sprint) :
    Prop where
  pos : s.b.buf = buf + BitVec.ofNat 32 (min room l.length)
  ebuf : s.b.ebuf = buf + BitVec.ofNat 32 room
  cnt : s.b.cnt = BitVec.ofNat 32 l.length
  bytes : bytesAt s.mem buf (min room l.length) = l.take room
  writes : ∀ a ∈ s.writes, InBytes buf (min room l.length) a
  frame : ∀ a, a ∉ s.writes → s.mem a = m a

theorem Stored.step (hfit : buf.toNat + room < 2 ^ 32) (h : Stored m buf room l s) (ch : Word) :
    Stored m buf room (l ++ [ch.truncate 8]) (sprintputch s ch) := by
  have hcnt : s.b.cnt + 1 = BitVec.ofNat 32 (l ++ [ch.truncate 8]).length := by
    rw [h.cnt, List.length_append, BitVec.ofNat_add]
    rfl
  have hroom : s.b.buf < s.b.ebuf ↔ l.length < room := by
    rw [h.pos, h.ebuf, BitVec.lt_def, offset_toNat (by omega), offset_toNat (by omega)]
    omega
  unfold sprintputch
  by_cases hlt : l.length < room
  · -- the character is stored
    have hmin : min room l.length = l.length := by omega
    have hmin' : min room (l ++ [ch.truncate 8]).length = l.length + 1 := by
      rw [List.length_append, List.length_singleton]
      omega
    have hbuf : s.b.buf = buf + BitVec.ofNat 32 l.length := by rw [h.pos, hmin]
    have hbytes : bytesAt s.mem buf l.length = l := by
      rw [← hmin, h.bytes, List.take_of_length_le (by omega)]
    rw [if_pos (hroom.mpr hlt)]
    exact {
      pos := by
        change s.b.buf + 1 = _
        rw [hmin', hbuf, BitVec.ofNat_add, add_assoc]
        rfl
      ebuf := h.ebuf
      cnt := hcnt
      bytes := by
        change bytesAt (Function.update s.mem s.b.buf (ch.truncate 8)) buf _ = _
        rw [hmin', bytesAt_succ, hbuf, bytesAt_update (by omega), Function.update_self, hbytes,
          List.take_of_length_le (by rw [List.length_append, List.length_singleton]; omega)]
      writes a ha := by
        rw [hmin']
        rcases List.mem_append.mp ha with ha | ha
        · have hin := h.writes a ha
          unfold InBytes at hin ⊢
          omega
        · have ha : a = s.b.buf := List.mem_singleton.mp ha
          rw [ha, hbuf, InBytes, offset_toNat (by omega)]
          omega
      frame a ha := by
        have hnot : a ∉ s.writes ∧ a ≠ s.b.buf :=
          ⟨fun hmem => ha (List.mem_append_left _ hmem),
            fun heq => ha (List.mem_append_right _ (List.mem_singleton.mpr heq))⟩
        exact (Function.update_of_ne hnot.2 _ _).trans (h.frame a hnot.1) }
  · -- the buffer is full
    have hmin : min room (l ++ [ch.truncate 8]).length = min room l.length := by
      rw [List.length_append, List.length_singleton]
      omega
    rw [if_neg fun hbuf => hlt (hroom.mp hbuf)]
    exact {
      pos := by rw [hmin, ← h.pos]
      ebuf := h.ebuf
      cnt := hcnt
      bytes := by rw [hmin, h.bytes, List.take_append_of_le_length (by omega)]
      writes := by
        rw [hmin]
        exact h.writes
      frame := h.frame }

theorem Stored.run (hfit : buf.toNat + room < 2 ^ 32) (h : Stored m buf room l s)
    (out : List Word) : Stored m buf room (l ++ chars out) (out.foldl sprintputch s) := by
  induction out generalizing l s with
  | nil =>
      rw [chars, List.map_nil, List.append_nil]
      exact h
  | cons ch out ih =>
      have hnext := ih (h.step hfit ch)
      rw [List.append_assoc] at hnext
      exact hnext

/-! ### The whole call -/

/-- The buffer holds the first characters of `out` and a NUL, nothing else is
written, and all of them are counted. -/
structure Truncated (out : List Word) (buf n : Word) (m : ByteMem) (r : Sprinted) : Prop where
  ret : r.ret.toInt = out.length
  bytes : bytesAt r.mem buf (min (n.toNat - 1) out.length) = (chars out).take (n.toNat - 1)
  nul : r.mem (buf + BitVec.ofNat 32 (min (n.toNat - 1) out.length)) = 0
  writes : ∀ a ∈ r.writes, InBytes buf n.toNat a
  frame : ∀ a, a ∉ r.writes → r.mem a = m a

theorem vsnprintfOf_truncated (hbuf : buf ≠ 0) (hn : 1 ≤ n.toInt)
    (hfit : buf.toNat + n.toNat ≤ 2 ^ 32) (hlen : out.length < 2 ^ 31) :
    Truncated out buf n m (vsnprintfOf out buf n m) := by
  have hpos : 1 ≤ n.toNat := by
    rw [BitVec.toInt_eq_toNat_cond] at hn
    split at hn <;> omega
  obtain ⟨room, hroom⟩ : ∃ room, n.toNat = room + 1 := ⟨n.toNat - 1, by omega⟩
  have hend : buf + n - 1 = buf + BitVec.ofNat 32 room := by
    have hnroom : n = BitVec.ofNat 32 room + 1 := by
      have hofNat : BitVec.ofNat 32 (room + 1) = n := by rw [← hroom, BitVec.ofNat_toNat]; rfl
      rw [← hofNat, BitVec.ofNat_add]
      rfl
    rw [hnroom, ← add_assoc, add_sub_cancel_right]
  have hslt : n.slt 1 = false := by
    rw [BitVec.slt, decide_eq_false_iff_not, not_lt]
    exact hn
  have hempty : Stored m buf room [] ⟨⟨buf, buf + n - 1, 0⟩, m, []⟩ :=
    { pos := by
        rw [List.length_nil, Nat.min_zero]
        exact (BitVec.add_zero buf).symm
      ebuf := hend
      cnt := rfl
      bytes := by
        rw [List.length_nil, Nat.min_zero, List.take_nil]
        rfl
      writes := nofun
      frame := fun _ _ => rfl }
  have hstored := hempty.run (by omega) out
  rw [List.nil_append] at hstored
  have hchars : (chars out).length = out.length := List.length_map _
  unfold vsnprintfOf
  rw [if_neg (by rw [hslt]; simpa using hbuf)]
  set s := out.foldl sprintputch ⟨⟨buf, buf + n - 1, 0⟩, m, []⟩
  have hlast : s.b.buf = buf + BitVec.ofNat 32 (min room out.length) := by
    rw [hstored.pos, hchars]
  have hn1 : n.toNat - 1 = room := by omega
  exact {
    ret := by
      change s.b.cnt.toInt = _
      rw [hstored.cnt, hchars, BitVec.toInt_eq_toNat_cond, BitVec.toNat_ofNat]
      split <;> omega
    bytes := by
      change bytesAt (Function.update s.mem s.b.buf 0) buf _ = _
      rw [hn1, hlast, bytesAt_update (by omega), ← hstored.bytes, hchars]
    nul := by
      change Function.update s.mem s.b.buf 0 _ = 0
      rw [hn1, ← hlast, Function.update_self]
    writes a ha := by
      rcases List.mem_append.mp ha with ha | ha
      · have hin := hstored.writes a ha
        unfold InBytes at hin ⊢
        omega
      · have ha : a = s.b.buf := List.mem_singleton.mp ha
        rw [ha, hlast, InBytes, offset_toNat (by omega)]
        omega
    frame a ha := by
      have hnot : a ∉ s.writes ∧ a ≠ s.b.buf :=
        ⟨fun hmem => ha (List.mem_append_left _ hmem),
          fun heq => ha (List.mem_append_right _ (List.mem_singleton.mpr heq))⟩
      exact (Function.update_of_ne hnot.2 _ _).trans (hstored.frame a hnot.1) }

theorem toNat_le_toNat {n n' : Word} (hn : 1 ≤ n.toInt) (h : n.toInt ≤ n'.toInt) :
    n.toNat ≤ n'.toNat := by
  rw [BitVec.toInt_eq_toNat_cond] at hn
  rw [BitVec.toInt_eq_toNat_cond, BitVec.toInt_eq_toNat_cond] at h
  split at hn <;> split at h <;> split at h <;> omega

/-- `vsnprintf` truncates, so a larger buffer gets more of the same characters,
and all of them if the return value says so. -/
theorem vsnprintf_truncates {calls : List Word} (hbuf : buf ≠ 0) (hn : 1 ≤ n.toInt)
    (hfit : buf.toNat + n.toNat ≤ 2 ^ 32) (hlen : calls.length < 2 ^ 31) (m : ByteMem) :
    (∀ load fmt ap, vprintfmt load fmt ap = calls →
      vsnprintf load buf n fmt ap m = vsnprintfOf calls buf n m) ∧
    Truncated calls buf n m (vsnprintfOf calls buf n m) ∧
    (∀ (buf' n' : Word) (m' : ByteMem), buf' ≠ 0 → n.toInt ≤ n'.toInt →
      buf'.toNat + n'.toNat ≤ 2 ^ 32 →
        bytesAt (vsnprintfOf calls buf n m).mem buf (min (n.toNat - 1) calls.length) <+:
          bytesAt (vsnprintfOf calls buf' n' m').mem buf' (min (n'.toNat - 1) calls.length)) ∧
    ((vsnprintfOf calls buf n m).ret.toInt < n.toInt →
      bytesAt (vsnprintfOf calls buf n m).mem buf calls.length = chars calls ∧
        (vsnprintfOf calls buf n m).mem (buf + BitVec.ofNat 32 calls.length) = 0) := by
  have htrunc := @vsnprintfOf_truncated m buf n calls hbuf hn hfit hlen
  have hchars : (chars calls).length = calls.length := List.length_map _
  refine ⟨fun load fmt ap h => ?_, htrunc, fun buf' n' m' hbuf' hle hfit' => ?_, fun hret => ?_⟩
  · rw [vsnprintf, h]
  · have hnat := toNat_le_toNat hn hle
    have htrunc' := @vsnprintfOf_truncated m' buf' n' calls hbuf' (hn.trans hle) hfit' hlen
    rw [htrunc.bytes, htrunc'.bytes]
    exact List.take_prefix_take_left (by omega)
  · have hlt : calls.length ≤ n.toNat - 1 := by
      rw [htrunc.ret] at hret
      rw [BitVec.toInt_eq_toNat_cond] at hn hret
      split at hn <;> split at hret <;> omega
    have hbytes := htrunc.bytes
    have hnul := htrunc.nul
    rw [min_eq_right hlt] at hbytes hnul
    exact ⟨by rw [hbytes, List.take_of_length_le (by omega)], hnul⟩

theorem vsnprintf_truncates_four :
    Truncated ((str "panic").map charInt) 0xF0108000 4 (fun _ => 1)
      (vsnprintfOf ((str "panic").map charInt) 0xF0108000 4 fun _ => 1) :=
  (vsnprintf_truncates (by decide) (by decide) (by decide) (by decide) fun _ => 1).2.1

example : bytesAt (vsnprintf (fun _ => 0) 0x1000 4 (str "%x") [0xBEEF] fun _ => 1).mem 0x1000 5 =
    str "bee" ++ [0, 1] := by
  decide +kernel

end Jos
