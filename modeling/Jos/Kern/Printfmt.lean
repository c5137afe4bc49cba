import Jos.Kern.Pmap

/-!
The `%s` conversion of lib/printfmt.c as kern/syscall.c uses it, with the
directive `%.*s`: the period has set the width to 0, so that the loops that
pad with spaces do nothing, and the length has become the precision, an `int`.
The characters are read from user memory through the loaded directory, and a
byte that is not mapped there is a page fault in kernel mode.
-/

namespace Jos

variable {n : ℕ}

/-- Byte `va % 4` of a word. -/
def getByte (w : Word) (va : Word) : BitVec 8 :=
  (w >>> (8 * (va.toNat % 4))).truncate 8

/-- A kernel load of one byte through the loaded directory. -/
def loadByte (c : Fin n) (m : Mem n) (va : Word) : Option (BitVec 8) :=
  let pde := m.word (m.cr3 c) (pdx va)
  let pte := m.word (pteFrame pde) (ptx va)
  if Flag pde pteP ∧ Flag pte pteP then
    some (getByte (m.word (pteFrame pte) (Fin.ofNat _ (va.toNat % 4096 / 4))) va)
  else none

inductive PrintEnd where
  | done | fault | diverge
  deriving DecidableEq, Repr

/-- The addresses a conversion reads, in order, the characters it puts out,
and how it ends. -/
structure Printed where
  reads : List Word
  out : List (BitVec 8)
  ending : PrintEnd
  deriving DecidableEq, Repr

/-- Read `p`, put out `ch` and go on. -/
def Printed.char (p : Word) (ch : BitVec 8) (rest : Printed) : Printed :=
  ⟨p :: rest.reads, ch :: rest.out, rest.ending⟩

/-- `for (; (ch = *p++) != '\0' && (precision < 0 || --precision >= 0); width--)`,
at most so many times. -/
def printLoop (load : Word → Option (BitVec 8)) : ℕ → Word → Word → Printed
  | 0, _, _ => ⟨[], [], .diverge⟩
  | k + 1, p, precision =>
      match load p with
      | none => ⟨[p], [], .fault⟩
      | some ch =>
          if ch = 0 then ⟨[p], [], .done⟩
          else if precision.slt 0 then (printLoop load k (p + 1) precision).char p ch
          else if (precision - 1).slt 0 then ⟨[p], [], .done⟩
          else (printLoop load k (p + 1) (precision - 1)).char p ch

/-- The output for a null pointer, `(null)`, cut to the precision. The string
is in the kernel image. -/
def printNull (precision : Word) : Printed :=
  let null : List (BitVec 8) := [0x28, 0x6E, 0x75, 0x6C, 0x6C, 0x29]
  ⟨[], if precision.slt 0 then null else null.take precision.toNat, .done⟩

/-- `cprintf("%.*s", len, s)`. A loop that has gone through all of the address
space without reading a NUL never ends. -/
def printString (load : Word → Option (BitVec 8)) (s len : Word) : Printed :=
  if s = 0 then printNull len else printLoop load 4294967296 s len

/-! ### Arithmetic of the loop -/

theorem ofNat_succ (va : Word) (i : ℕ) :
    va + BitVec.ofNat 32 (i + 1) = va + 1 + BitVec.ofNat 32 i := by
  rw [BitVec.ofNat_add, BitVec.add_comm (BitVec.ofNat 32 i), ← BitVec.add_assoc]
  rfl

theorem slt_zero_iff (x : Word) : x.slt 0 = true ↔ 2147483648 ≤ x.toNat := by
  have hx : x.toNat < 4294967296 := x.isLt
  have hzero : (0 : Word).toInt = 0 := rfl
  rw [BitVec.slt, decide_eq_true_eq, hzero, BitVec.toInt]
  split <;> omega

theorem toNat_pred {x : Word} (h : 0 < x.toNat) : (x - 1).toNat = x.toNat - 1 := by
  have hone : (1 : Word).toNat = 1 := rfl
  have hlt : x.toNat < 4294967296 := x.isLt
  rw [BitVec.toNat_sub, hone]
  omega

end Jos
