import Mathlib.Tactic.IntervalCases
import Jos.Lib.RepString
import Jos.Inc.Mmu

/-!
`memset` and `memmove` of lib/string.c, in their two versions. The assembly
versions take words instead of bytes where everything is aligned, and the
copying ones go down where the destination begins inside the source.
-/

namespace Jos

open Jos.Lib

variable {m : ByteMem} {dst src s d n v c : Word} {k : ℕ}

/-! ### The plain versions -/

/-- `while (--m >= 0) *p++ = c`, where `m` is positive before `i` rounds. -/
def setLoop (p c : Word) : ℕ → ByteMem → ByteMem
  | 0, m => m
  | i + 1, m => setLoop (p + 1) c i (m.put p 1 fun _ => c.truncate 8)

/-- The count is an `int`. -/
def memset (v c n : Word) (m : ByteMem) : ByteMem := setLoop v c n.toInt.toNat m

/-- `while (n-- > 0) *--d = *--s` -/
def moveDown (d s : Word) : ℕ → ByteMem → ByteMem
  | 0, m => m
  | n + 1, m => moveDown (d - 1) (s - 1) n (m.copied (d - 1) (s - 1) 1)

/-- `while (n-- > 0) *d++ = *s++` -/
def moveUp (d s : Word) : ℕ → ByteMem → ByteMem
  | 0, m => m
  | n + 1, m => moveUp (d + 1) (s + 1) n (m.copied d s 1)

def memmove (dst src n : Word) (m : ByteMem) : ByteMem :=
  if src < dst ∧ src + n > dst then moveDown (dst + n) (src + n) n.toNat m
  else moveUp dst src n.toNat m

/-! ### The assembly versions -/

def memsetAsm (v c n : Word) (m : ByteMem) : ByteMem :=
  if n = 0 then m
  else if v.srem 4 = 0 ∧ n % 4 = 0 then
    let c := c &&& 0xFF
    let c := (c <<< 24) ||| (c <<< 16) ||| (c <<< 8) ||| c
    repStos false 4 v c (n / 4).toNat m
  else repStos false 1 v c n.toNat m

def memmoveAsm (dst src n : Word) (m : ByteMem) : ByteMem :=
  if src < dst ∧ src + n > dst then
    let s := src + n
    let d := dst + n
    if s.srem 4 = 0 ∧ d.srem 4 = 0 ∧ n % 4 = 0 then repMovs true 4 (d - 4) (s - 4) (n / 4).toNat m
    else repMovs true 1 (d - 1) (s - 1) n.toNat m
  else if src.srem 4 = 0 ∧ dst.srem 4 = 0 ∧ n % 4 = 0 then repMovs false 4 dst src (n / 4).toNat m
  else repMovs false 1 dst src n.toNat m

/-! ### What they do -/

theorem moveUp_eq : moveUp d s k m = repMovs false 1 d s k m := by
  induction k generalizing d s m with
  | zero => rfl
  | succ k ih => exact ih

theorem moveDown_eq : moveDown d s k m = repMovs true 1 (d - 1) (s - 1) k m := by
  induction k generalizing d s m with
  | zero => rfl
  | succ k ih => exact ih

theorem setLoop_eq (hv : v.toNat + k ≤ 2 ^ 32) : setLoop v c k m = m.filled v k (c.truncate 8) := by
  induction k generalizing v m with
  | zero => exact (ByteMem.put_zero _).symm
  | succ k ih =>
      rw [Nat.add_comm k] at hv
      rw [Nat.add_comm k, ← filled_up hv, Nat.add_comm 1 k]
      refine ih ?_
      rw [BitVec.toNat_add]
      simp
      omega

/-- The overlap test, where nothing wraps. -/
theorem backwards_iff (hdst : dst.toNat + n.toNat ≤ 2 ^ 32) :
    (src < dst ∧ src + n > dst) ↔
      src.toNat < dst.toNat ∧ dst.toNat < src.toNat + n.toNat := by
  rw [gt_iff_lt, BitVec.lt_def, BitVec.lt_def, BitVec.toNat_add]
  omega

theorem repMovs_back {w : ℕ} (hk : w * k = n.toNat) (hsrc : src.toNat + n.toNat ≤ 2 ^ 32)
    (hdst : dst.toNat + n.toNat ≤ 2 ^ 32) (hle : src.toNat ≤ dst.toNat) :
    repMovs true w (dst + n - BitVec.ofNat 32 w) (src + n - BitVec.ofNat 32 w) k m =
      m.copied dst src n.toNat := by
  have hn : BitVec.ofNat 32 (w * k) = n := by rw [hk, BitVec.ofNat_toNat, BitVec.setWidth_eq]
  rw [← hk] at hsrc hdst ⊢
  rw [← repMovs_down hsrc hdst hle, hn]

theorem repMovs_forth {w : ℕ} (hk : w * k = n.toNat) (hsrc : src.toNat + n.toNat ≤ 2 ^ 32)
    (hdst : dst.toNat + n.toNat ≤ 2 ^ 32)
    (hapart : dst.toNat ≤ src.toNat ∨ src.toNat + n.toNat ≤ dst.toNat) :
    repMovs false w dst src k m = m.copied dst src n.toNat := by
  rw [← hk] at hsrc hdst hapart ⊢
  exact repMovs_up hsrc hdst hapart

theorem memmove_spec (hsrc : src.toNat + n.toNat ≤ 2 ^ 32) (hdst : dst.toNat + n.toNat ≤ 2 ^ 32) :
    memmove dst src n m = m.copied dst src n.toNat := by
  unfold memmove
  split
  · rename_i hback
    rw [backwards_iff hdst] at hback
    rw [moveDown_eq]
    exact repMovs_back (Nat.one_mul _) hsrc hdst hback.1.le
  · rename_i hup
    rw [backwards_iff hdst] at hup
    rw [moveUp_eq]
    exact repMovs_forth (Nat.one_mul _) hsrc hdst (by omega)

/-- A count of words. -/
theorem four_mul_div (hn : n % 4 = 0) : 4 * (n / 4).toNat = n.toNat := by
  have hmod := congrArg BitVec.toNat hn
  rw [BitVec.toNat_umod] at hmod
  rw [BitVec.toNat_udiv]
  simp at hmod ⊢
  omega

theorem memmoveAsm_spec (hsrc : src.toNat + n.toNat ≤ 2 ^ 32)
    (hdst : dst.toNat + n.toNat ≤ 2 ^ 32) :
    memmoveAsm dst src n m = m.copied dst src n.toNat := by
  unfold memmoveAsm
  split
  · rename_i hback
    rw [backwards_iff hdst] at hback
    dsimp only
    split
    · rename_i haligned
      exact repMovs_back (four_mul_div haligned.2.2) hsrc hdst hback.1.le
    · exact repMovs_back (Nat.one_mul _) hsrc hdst hback.1.le
  · rename_i hup
    rw [backwards_iff hdst] at hup
    split
    · rename_i haligned
      exact repMovs_forth (four_mul_div haligned.2.2) hsrc hdst (by omega)
    · exact repMovs_forth (Nat.one_mul _) hsrc hdst (by omega)

theorem memset_spec (hv : v.toNat + n.toNat ≤ 2 ^ 32) (hn : n.toNat < 2 ^ 31) :
    memset v c n m = m.filled v n.toNat (c.truncate 8) := by
  have hint : n.toInt.toNat = n.toNat := by
    rw [BitVec.toInt_eq_toNat_of_lt (by omega), Int.toNat_natCast]
  rw [memset, hint]
  exact setLoop_eq hv

/-- Each byte of the word that is stored is the low byte of `c`. -/
theorem replicate_byte (c : Word) {i : ℕ} (hi : i < 4) :
    (((c &&& 0xFF) <<< 24 ||| (c &&& 0xFF) <<< 16 ||| (c &&& 0xFF) <<< 8 ||| (c &&& 0xFF)) >>>
      (8 * i)).truncate 8 = c.truncate 8 := by
  ext j hj
  have hmask (j : ℕ) : (0xFF#32 : Word).getLsbD j = decide (j < 8) := by
    rw [show (0xFF#32 : Word) = (BitVec.allOnes 8).setWidth 32 from rfl, BitVec.getLsbD_setWidth,
      BitVec.getLsbD_allOnes]
    grind
  have hbits : (c &&& 0xFF).getLsbD = fun j => c.getLsbD j && decide (j < 8) := by
    funext j
    rw [BitVec.getLsbD_and, ← hmask]
    rfl
  simp only [BitVec.getElem_setWidth, BitVec.getLsbD_ushiftRight, BitVec.getLsbD_or,
    BitVec.getLsbD_shiftLeft, BitVec.truncate_eq_setWidth, hbits]
  interval_cases i <;> grind

theorem memsetAsm_spec (hv : v.toNat + n.toNat ≤ 2 ^ 32) :
    memsetAsm v c n m = m.filled v n.toNat (c.truncate 8) := by
  unfold memsetAsm
  split
  · rename_i hzero
    rw [hzero]
    exact (ByteMem.put_zero _).symm
  · dsimp only
    split
    · rename_i haligned
      rw [← four_mul_div haligned.2] at hv ⊢
      exact repStos_up hv fun i hi => replicate_byte c hi
    · have hbytes : 1 * n.toNat = n.toNat := Nat.one_mul _
      rw [← hbytes] at hv
      conv_rhs => rw [← hbytes]
      refine repStos_up hv fun i hi => ?_
      obtain rfl : i = 0 := by omega
      rfl

/-- The assembly versions and the plain ones do the same: they move `n` bytes
that may overlap in any way, and they set `n` bytes. -/
theorem memory_routines_agree (m : ByteMem) :
    (∀ dst src n : Word, src.toNat + n.toNat ≤ 2 ^ 32 → dst.toNat + n.toNat ≤ 2 ^ 32 →
      memmoveAsm dst src n m = memmove dst src n m ∧
      ∀ a, memmoveAsm dst src n m a =
        if InBytes dst n.toNat a then m (src + (a - dst)) else m a) ∧
    (∀ v c n : Word, v.toNat + n.toNat ≤ 2 ^ 32 →
      (∀ a, memsetAsm v c n m a = if InBytes v n.toNat a then c.truncate 8 else m a) ∧
      (n.toNat < 2 ^ 31 → memset v c n m = memsetAsm v c n m)) := by
  constructor
  · intro dst src n hsrc hdst
    rw [memmoveAsm_spec hsrc hdst, memmove_spec hsrc hdst]
    exact ⟨rfl, fun a => rfl⟩
  · intro v c n hv
    rw [memsetAsm_spec hv]
    exact ⟨fun a => rfl, fun hn => memset_spec hv hn⟩

/-- Two words moved up by one, which goes down, and three bytes set. -/
theorem memory_routines_agree_overlap :
    memmoveAsm 0x1004 0x1000 8 (BitVec.truncate 8) 0x1008 = 4 ∧
    memset 0x1001 0x107 3 (BitVec.truncate 8) 0x1003 = 7 := by
  obtain ⟨hmove, hset⟩ := memory_routines_agree (BitVec.truncate 8)
  constructor
  · exact ((hmove 0x1004 0x1000 8 (by decide) (by decide)).2 0x1008).trans (by decide)
  · rw [(hset 0x1001 0x107 3 (by decide)).2 (by decide)]
    exact ((hset 0x1001 0x107 3 (by decide)).1 0x1003).trans (by decide)

end Jos
