import Mathlib.Data.List.TakeWhile
import Jos.Ulib.Printfmt

/-!
`cprintf` in the kernel and in user programs. The kernel's `putch` puts each
character on the console. That of user programs collects the characters in a
buffer which `sys_cputs` prints, and there the kernel formats it as a string:
what follows a NUL in the buffer is lost. The kernel's `putch` does not count.
-/

namespace Jos

/-! ### kern/printf.c -/

/-- The console, as the values given to `cputchar`, and `cnt` of `vcprintf`. -/
structure KernPrint where
  console : List Word
  cnt : Word

/-- `putch`; `*cnt++` increments the pointer and not what it points to. -/
def KernPrint.putch (b : KernPrint) (ch : Word) : KernPrint :=
  { b with console := b.console ++ [ch] }

/-- `vcprintf` of the kernel, which returns `cnt`. -/
def kernVcprintf (console : List Word) (load : Word → BitVec 8) (fmt : List (BitVec 8))
    (ap : List Word) : KernPrint :=
  (vprintfmt load fmt ap).foldl KernPrint.putch ⟨console, 0⟩

/-! ### lib/printf.c -/

/-- Where `struct printbuf` keeps its characters on the stack. -/
structure BufPlace where
  addr : Word
  ne_zero : addr ≠ 0
  fits : addr.toNat + 256 ≤ 2 ^ 32

structure Printbuf where
  idx : ℕ
  cnt : Word
  buf : ℕ → BitVec 8
  console : List Word

/-- `sys_cputs(b->buf, b->idx)`: the kernel prints the buffer with the format
`%.*s`. -/
def sysCputsBuf (a : BufPlace) (b : Printbuf) : Printbuf :=
  { b with
    console := (kernVcprintf b.console (fun va => b.buf (va - a.addr).toNat) (str "%.*s")
      [BitVec.ofNat 32 b.idx, a.addr]).console }

/-- `putch`. -/
def Printbuf.putch (a : BufPlace) (b : Printbuf) (ch : Word) : Printbuf :=
  let b := { b with buf := Function.update b.buf b.idx (ch.truncate 8), idx := b.idx + 1 }
  let b := if b.idx = 256 - 1 then { sysCputsBuf a b with idx := 0 } else b
  { b with cnt := b.cnt + 1 }

/-- `vcprintf` of user programs, which returns `cnt`; the buffer is not
initialized. -/
def userVcprintf (a : BufPlace) (buf : ℕ → BitVec 8) (console : List Word)
    (load : Word → BitVec 8) (fmt : List (BitVec 8)) (ap : List Word) : Printbuf :=
  sysCputsBuf a ((vprintfmt load fmt ap).foldl (Printbuf.putch a) ⟨0, 0, buf, console⟩)

/-! ### The kernel's side -/

variable {a : BufPlace} {b : Printbuf} {S console : List Word} {load : Word → BitVec 8}
  {fmt : List (BitVec 8)} {ap : List Word}

theorem foldl_kernPutch (b : KernPrint) (S : List Word) :
    S.foldl KernPrint.putch b = ⟨b.console ++ S, b.cnt⟩ := by
  induction S generalizing b with
  | nil => simp
  | cons ch S ih => simp [ih, KernPrint.putch]

/-- Memory that can be read everywhere: the string is printed to its first
NUL. -/
theorem printLoop_out {k L : ℕ} {p precision : Word} (hk : L < k) (hprec : precision.toNat = L)
    (hL : L < 2 ^ 31) :
    (printLoop (fun va => some (load va)) k p precision).out =
      ((List.range L).map fun i => load (p + BitVec.ofNat 32 i)).takeWhile (· ≠ 0) := by
  induction L generalizing k p precision with
  | zero =>
      obtain ⟨k, rfl⟩ : ∃ j, k = j + 1 := ⟨k - 1, by omega⟩
      obtain rfl : precision = 0 := BitVec.eq_of_toNat_eq hprec
      have hdone : ((0 : Word) - 1).slt 0 = true := by decide
      have hzero : ¬ (0 : Word).slt 0 = true := by decide
      simp only [printLoop, if_neg hzero, if_pos hdone]
      split <;> rfl
  | succ L ih =>
      obtain ⟨k, rfl⟩ : ∃ j, k = j + 1 := ⟨k - 1, by omega⟩
      have hpred := toNat_pred (x := precision) (by omega)
      have hneg : ¬ precision.slt 0 = true := by
        rw [slt_zero_iff]
        omega
      have hgo : ¬ (precision - 1).slt 0 = true := by
        rw [slt_zero_iff]
        omega
      have hrest := @ih k (p + 1) (precision - 1) (by omega) (by omega) (by omega)
      have hhead : load (p + BitVec.ofNat 32 0) = load p := by simp
      rw [List.range_succ_eq_map, List.map_cons, List.map_map, hhead, List.takeWhile_cons]
      simp only [Function.comp_def, ofNat_succ]
      rw [← hrest]
      by_cases hch : load p = 0
      · simp [printLoop, hch]
      · simp only [printLoop, if_neg hneg, if_neg hgo, Printed.char, ne_eq, hch, if_false,
          not_false_eq_true, decide_true, if_true]

/-- The characters collected so far. -/
def Printbuf.pending (b : Printbuf) : List (BitVec 8) := (List.range b.idx).map b.buf

/-- The format of `sys_cputs`, with the width 0 that the period sets. -/
theorem vprintfmt_str (load : Word → BitVec 8) (len p : Word) :
    vprintfmt load (str "%.*s") [len, p] =
      formatString load ⟨chr ' ', 0, len, 0, false⟩ p ++ [] := rfl

theorem formatString_plain {v : Conv} {p : Word} (hwidth : v.width = 0) (halt : v.altflag = false)
    (hlen : (strChars load p v.precision).length ≤ 2 ^ 31) :
    formatString load v p = (strChars load p v.precision).map charInt := by
  have hzero : (0 : Word).slt 0 = false := rfl
  have hzeroNat : (0 : Word).toNat = 0 := rfl
  have hpad : (0 - BitVec.ofNat 32 (strChars load p v.precision).length).toInt.toNat = 0 := by
    rw [BitVec.toInt_eq_toNat_cond, BitVec.toNat_sub, BitVec.toNat_ofNat, hzeroNat]
    split <;> omega
  simp only [formatString, hwidth, halt, hzero, hpad, Bool.false_eq_true, false_and, if_false,
    List.replicate_zero, List.nil_append, List.append_nil]

/-- The kernel prints the buffer up to its first NUL. -/
theorem sysCputsBuf_console (hidx : b.idx < 256) :
    (sysCputsBuf a b).console = b.console ++ (b.pending.takeWhile (· ≠ 0)).map charInt := by
  have hfits := a.fits
  have hprec : (BitVec.ofNat 32 b.idx).toNat = b.idx := by
    rw [BitVec.toNat_ofNat]
    omega
  have hbuf (i : ℕ) (hi : i ∈ List.range b.idx) :
      b.buf (a.addr + BitVec.ofNat 32 i - a.addr).toNat = b.buf i := by
    have hlt := List.mem_range.mp hi
    rw [BitVec.add_comm, BitVec.add_sub_cancel, BitVec.toNat_ofNat, Nat.mod_eq_of_lt (by omega)]
  have hchars : strChars (fun va => b.buf (va - a.addr).toNat) a.addr (BitVec.ofNat 32 b.idx) =
      b.pending.takeWhile (· ≠ 0) := by
    rw [strChars, if_neg a.ne_zero, printLoop_out (by omega) hprec (by omega),
      List.map_congr_left hbuf]
    rfl
  have hlen : (b.pending.takeWhile (· ≠ 0)).length ≤ b.idx := by
    refine (List.IsPrefix.length_le ( List.takeWhile_prefix _)).trans ?_
    simp [Printbuf.pending]
  show (kernVcprintf _ _ _ _).console = _
  rw [kernVcprintf, foldl_kernPutch, vprintfmt_str, List.append_nil,
    formatString_plain rfl rfl (by rw [hchars]; omega), hchars]

/-! ### The user's side -/

/-- The characters, as a console shows them. -/
def chars (S : List Word) : List (BitVec 8) := S.map (·.truncate 8)

/-- What `sys_cputs` prints of what it is given. -/
def cut (l : List (BitVec 8)) : List (BitVec 8) := l.takeWhile (· ≠ 0)

/-- The characters in chunks of 255, each one cut. -/
def chunked (l : List (BitVec 8)) : List (BitVec 8) :=
  if l.length < 255 then cut l else cut (l.take 255) ++ chunked (l.drop 255)
termination_by l.length
decreasing_by
  rw [List.length_drop]
  omega

theorem pending_put (ch : Word) :
    ({ b with buf := Function.update b.buf b.idx (ch.truncate 8), idx := b.idx + 1 } :
      Printbuf).pending = b.pending ++ [ch.truncate 8] := by
  have hold (i : ℕ) (hi : i ∈ List.range b.idx) :
      Function.update b.buf b.idx (ch.truncate 8) i = b.buf i :=
    Function.update_of_ne (List.mem_range.mp hi).ne _ _
  simp only [Printbuf.pending, List.range_succ, List.map_append, List.map_congr_left hold,
    List.map_cons, List.map_nil, Function.update_self]

/-- A character that does not fill the buffer is kept. -/
theorem putch_keep (hidx : b.idx + 1 < 255) (ch : Word) :
    (b.putch a ch).idx = b.idx + 1 ∧ (b.putch a ch).console = b.console ∧
      (b.putch a ch).pending = b.pending ++ [ch.truncate 8] := by
  have hput : b.putch a ch =
      { b with
        buf := Function.update b.buf b.idx (ch.truncate 8)
        idx := b.idx + 1
        cnt := b.cnt + 1 } := by
    simp only [Printbuf.putch]
    rw [if_neg (by omega)]
  rw [hput]
  exact ⟨rfl, rfl, pending_put ch⟩

/-- One that does fill it is printed with those before it. -/
theorem putch_flush (hidx : b.idx + 1 = 255) (ch : Word) :
    (b.putch a ch).idx = 0 ∧ (b.putch a ch).pending = [] ∧ (b.putch a ch).console =
      b.console ++ (cut (b.pending ++ [ch.truncate 8])).map charInt := by
  have hput : b.putch a ch =
      { sysCputsBuf a { b with
          buf := Function.update b.buf b.idx (ch.truncate 8), idx := b.idx + 1 } with
        idx := 0, cnt := b.cnt + 1 } := by
    simp only [Printbuf.putch]
    rw [if_pos (by omega)]
    rfl
  rw [hput]
  refine ⟨rfl, rfl, ?_⟩
  rw [← pending_put]
  exact sysCputsBuf_console (by show b.idx + 1 < 256; omega)

theorem putch_cnt (ch : Word) : (b.putch a ch).cnt = b.cnt + 1 := by
  simp only [Printbuf.putch]
  split <;> rfl

theorem chunked_short {l : List (BitVec 8)} (hl : l.length < 255) : chunked l = cut l := by
  rw [chunked, if_pos hl]

theorem chunked_full {l rest : List (BitVec 8)} (hl : l.length = 255) :
    chunked (l ++ rest) = cut l ++ chunked rest := by
  rw [chunked, if_neg (by rw [List.length_append]; omega), List.take_left' hl, List.drop_left' hl]

theorem length_pending : b.pending.length = b.idx := by simp [Printbuf.pending]

/-- From a buffer that is not full on, what has been collected is printed with
the rest in chunks. -/
theorem foldl_putch (hidx : b.idx < 255) (S : List Word) :
    (sysCputsBuf a (S.foldl (Printbuf.putch a) b)).console =
        b.console ++ (chunked (b.pending ++ chars S)).map charInt ∧
      (S.foldl (Printbuf.putch a) b).cnt = b.cnt + BitVec.ofNat 32 S.length := by
  induction S generalizing b with
  | nil =>
      have hshort : (b.pending ++ chars []).length < 255 := by simpa [chars, length_pending]
      refine ⟨?_, by simp⟩
      rw [chunked_short hshort, chars, List.map_nil, List.append_nil]
      exact sysCputsBuf_console (b := b) (by omega)
  | cons ch S ih =>
      have hcnt : b.cnt + BitVec.ofNat 32 (ch :: S).length =
          (b.putch a ch).cnt + BitVec.ofNat 32 S.length := by
        rw [putch_cnt, List.length_cons, ofNat_succ]
      have hsplit : b.pending ++ chars (ch :: S) =
          (b.pending ++ [ch.truncate 8]) ++ chars S := by simp [chars]
      rw [List.foldl_cons, hcnt, hsplit]
      by_cases hfull : b.idx + 1 = 255
      · obtain ⟨hidx', hpend, hcons⟩ := putch_flush (a := a) hfull ch
        obtain ⟨hout, hcnt'⟩ := @ih (b.putch a ch) (by omega)
        have hlen : (b.pending ++ [ch.truncate 8]).length = 255 := by
          rw [List.length_append, length_pending]
          exact hfull
        refine ⟨?_, hcnt'⟩
        rw [hout, hcons, hpend, chunked_full hlen, List.map_append, List.append_assoc]
        rfl
      · obtain ⟨hidx', hcons, hpend⟩ := putch_keep (a := a) (b := b) (by omega) ch
        obtain ⟨hout, hcnt'⟩ := @ih (b.putch a ch) (by omega)
        exact ⟨by rw [hout, hcons, hpend], hcnt'⟩

/-! ### Chunks -/

theorem length_cut (l : List (BitVec 8)) : (cut l).length ≤ l.length :=
  List.IsPrefix.length_le ( List.takeWhile_prefix _)

theorem cut_eq_self {l : List (BitVec 8)} : cut l = l ↔ 0 ∉ l := by
  rw [cut, List.takeWhile_eq_self_iff]
  refine ⟨fun h hmem => ?_, fun h x hx => ?_⟩
  · simpa using h 0 hmem
  · refine decide_eq_true ?_
    rintro rfl
    exact h hx

theorem length_chunked (l : List (BitVec 8)) : (chunked l).length ≤ l.length := by
  induction l using chunked.induct with
  | case1 l hl =>
      rw [chunked_short hl]
      exact length_cut l
  | case2 l hl ih =>
      have hcut := length_cut (l.take 255)
      have htake := List.length_take_le 255 l
      rw [List.length_drop] at ih
      rw [chunked, if_neg hl, List.length_append]
      omega

/-- Nothing is lost exactly when there is no NUL. -/
theorem chunked_eq_self {l : List (BitVec 8)} : chunked l = l ↔ 0 ∉ l := by
  induction l using chunked.induct with
  | case1 l hl =>
      rw [chunked_short hl]
      exact cut_eq_self
  | case2 l hl ih =>
      have hmem : 0 ∉ l ↔ 0 ∉ l.take 255 ∧ 0 ∉ l.drop 255 := by
        rw [← not_or, ← List.mem_append, List.take_append_drop]
      rw [hmem, ← cut_eq_self, ← ih, chunked, if_neg hl]
      refine ⟨fun h => ?_, fun h => ?_⟩
      · have hlen := congrArg List.length h
        have hcut := length_cut (l.take 255)
        have hrest := length_chunked (l.drop 255)
        rw [List.length_append] at hlen
        rw [List.length_take] at hcut
        rw [List.length_drop] at hrest
        refine List.append_inj (h.trans (List.take_append_drop 255 l).symm) ?_
        rw [List.length_take]
        omega
      · rw [h.1, h.2, List.take_append_drop]

theorem chars_append (S S' : List Word) : chars (S ++ S') = chars S ++ chars S' :=
  List.map_append

theorem chars_charInt (l : List (BitVec 8)) : chars (l.map charInt) = l := by
  have hone (ch : BitVec 8) : (charInt ch).truncate 8 = ch := by
    show (ch.signExtend 32).setWidth 8 = ch
    apply BitVec.eq_of_getLsbD_eq
    intro i hi
    rw [BitVec.getLsbD_setWidth, BitVec.getLsbD_signExtend]
    simp [hi, show i < 32 by omega]
  simp only [chars, List.map_map, Function.comp_def, hone, List.map_id']

/-! ### Both -/

/-- Both print the characters of `S` and return how many there are. -/
structure PrintingAgrees (console S : List Word) (kern : KernPrint) (user : Printbuf) : Prop where
  kern_console : chars kern.console = chars (console ++ S)
  user_console : chars user.console = chars (console ++ S)
  kern_cnt : kern.cnt.toNat = S.length
  user_cnt : user.cnt.toNat = S.length

/-- The kernel prints every character and returns 0. User programs print every
character if and only if none of them is a NUL, and return how many there are.
So both do what they should only where there is nothing to print. -/
theorem printing_agrees (a : BufPlace) (buf : ℕ → BitVec 8) (console : List Word)
    (load : Word → BitVec 8) (fmt : List (BitVec 8)) (ap : List Word) :
    let S := vprintfmt load fmt ap
    let kern := kernVcprintf console load fmt ap
    let user := userVcprintf a buf console load fmt ap
    kern = ⟨console ++ S, 0⟩ ∧
      (chars user.console = chars (console ++ S) ↔ 0 ∉ chars S) ∧
      user.cnt = BitVec.ofNat 32 S.length ∧
      (PrintingAgrees console S kern user ↔ S = []) := by
  intro S kern user
  have hkern : kern = ⟨console ++ S, 0⟩ := foldl_kernPutch _ _
  obtain ⟨hout, hcnt⟩ := foldl_putch (a := a) (b := ⟨0, 0, buf, console⟩) (Nat.succ_pos 254) S
  have huser : chars user.console = chars console ++ chunked (chars S) := by
    have hout' : user.console = console ++ (chunked (chars S)).map charInt := hout
    rw [hout', chars_append, chars_charInt]
  have hcnt' : user.cnt = BitVec.ofNat 32 S.length := by
    rw [← BitVec.zero_add (BitVec.ofNat 32 S.length)]
    exact hcnt
  have hiff : chars user.console = chars (console ++ S) ↔ 0 ∉ chars S := by
    rw [huser, chars_append, List.append_cancel_left_eq]
    exact chunked_eq_self
  refine ⟨hkern, hiff, hcnt', fun h => ?_, fun h => ?_⟩
  · have hlen := h.kern_cnt
    rw [hkern] at hlen
    exact List.eq_nil_of_length_eq_zero hlen.symm
  · have hnul : 0 ∉ chars S := by simp [h, chars]
    exact ⟨by rw [hkern], hiff.mpr hnul, by rw [hkern, h]; rfl, by rw [hcnt', h]; rfl⟩

/-- One letter: the kernel's count of it is wrong. -/
theorem not_printing_agrees : ¬ ∀ (a : BufPlace) (buf : ℕ → BitVec 8) (console : List Word)
    (load : Word → BitVec 8) (fmt : List (BitVec 8)) (ap : List Word),
    PrintingAgrees console (vprintfmt load fmt ap) (kernVcprintf console load fmt ap)
      (userVcprintf a buf console load fmt ap) := by
  intro hall
  have hcnt := (hall ⟨0xEEBFD000, by decide, by decide⟩ (fun _ => 0) [] (fun _ => 0) (str "a")
    []).kern_cnt
  exact absurd hcnt (by decide)

end Jos
