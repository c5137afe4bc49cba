import Mathlib.Data.BitVec
import Mathlib.Data.Fin.Basic
import Mathlib.Algebra.GroupWithZero.Nat

/-!
The paging macros of inc/mmu.h, the address-space layout of inc/memlayout.h
and the error codes of inc/error.h, over 32-bit words. A linear address is
taken apart into directory index, table index and offset; a page-table entry
holds a frame number above twelve flag bits.
-/

namespace Jos

abbrev Word := BitVec 32

/-! ### Page tables -/

/-- An index into a page directory or a page table, which have 1024 entries
(`NPDENTRIES`, `NPTENTRIES`). -/
abbrev PtIdx := Fin 1024

-- All literals of an index type have the same proof, whether the indexes are
-- those of a table or of the processors of an example.
instance neZeroTable : NeZero 1024 := ⟨by decide⟩

instance neZeroOneCpu : NeZero 1 := ⟨by decide⟩

instance neZeroTwoCpus : NeZero 2 := ⟨by decide⟩

/-- Page number of an address. -/
def pgnum (la : Word) : ℕ := (la >>> 12).toNat

/-- Page-directory index. -/
def pdx (la : Word) : PtIdx := Fin.ofNat _ ((la >>> 22) &&& 0x3FF#32).toNat

/-- Page-table index. -/
def ptx (la : Word) : PtIdx := Fin.ofNat _ ((la >>> 12) &&& 0x3FF#32).toNat

/-- Offset in a page. -/
def pgoff (la : Word) : ℕ := (la &&& 0xFFF#32).toNat

/-- The linear address with the given indexes and offset. -/
def pgaddr (d t : PtIdx) (o : Word) : Word :=
  BitVec.ofNat 32 d <<< 22 ||| BitVec.ofNat 32 t <<< 12 ||| o

def pteP : Word := 0x001#32
def pteW : Word := 0x002#32
def pteU : Word := 0x004#32
def ptePWT : Word := 0x008#32
def ptePCD : Word := 0x010#32
def pteAvail : Word := 0xE00#32
def pteMapped : Word := 0x200#32
def pteSyscall : Word := pteAvail ||| pteP ||| pteW ||| pteU

/-- The address part of an entry. -/
def pteAddr (pte : Word) : Word := pte &&& ~~~0xFFF#32

/-- An entry has one of the bits of the mask. -/
def Flag (pte mask : Word) : Prop := pte &&& mask ≠ 0#32

instance (pte mask : Word) : Decidable (Flag pte mask) := by
  unfold Flag
  infer_instance

/-- The frame an entry refers to. -/
def pteFrame (pte : Word) : ℕ := pgnum (pteAddr pte)

/-- The physical address of a frame. -/
def frame2pa (i : ℕ) : Word := BitVec.ofNat 32 i <<< 12

/-! ### Memory layout -/

def kernbase : Word := 0xF0000000#32
def ulim : Word := 0xEF800000#32
def uvpt : Word := 0xEF400000#32
def upages : Word := 0xEF000000#32
def uenvs : Word := 0xEEC00000#32
def utop : Word := uenvs
def ustacktop : Word := utop - 0x2000#32
def utemp : Word := 0x00400000#32
def vgaUser : Word := utemp + 0x1000#32
def vgaPhysaddr : Word := 0x000B8000#32

/-! ### Error codes -/

def eBadEnv : Word := 2
def eInval : Word := 3
def eNoMem : Word := 4
def eNoFreeEnv : Word := 5
def eFault : Word := 6
def eIpcNotRecv : Word := 7

/-! ### Indexes of an address -/

theorem pgnum_eq (la : Word) : pgnum la = la.toNat / 4096 := by
  simp [pgnum, BitVec.toNat_ushiftRight, Nat.shiftRight_eq_div_pow]

theorem and_3ff (x : Word) : (x &&& 0x3FF#32).toNat = x.toNat % 1024 := by
  rw [BitVec.toNat_and]
  exact Nat.and_two_pow_sub_one_eq_mod x.toNat 10

/-- The low bits are cleared. -/
theorem and_not_low (k : ℕ) (x : Word) :
    (x &&& ~~~BitVec.ofNat 32 (2 ^ k - 1)).toNat = x.toNat / 2 ^ k * 2 ^ k := by
  have hshift : x &&& ~~~BitVec.ofNat 32 (2 ^ k - 1) = x >>> k <<< k := by
    apply BitVec.eq_of_getLsbD_eq
    intro j hj
    rw [BitVec.getLsbD_and, BitVec.getLsbD_shiftLeft, BitVec.getLsbD_ushiftRight,
      BitVec.getLsbD_not, BitVec.getLsbD_ofNat, Nat.testBit_two_pow_sub_one]
    by_cases hj' : j < k
    · simp [hj, hj']
    · simp [hj, hj', Nat.add_sub_cancel' (not_lt.mp hj')]
  have hle : x.toNat / 2 ^ k * 2 ^ k ≤ x.toNat := Nat.div_mul_le_self _ _
  rw [hshift, BitVec.toNat_shiftLeft, BitVec.toNat_ushiftRight, Nat.shiftRight_eq_div_pow,
    Nat.shiftLeft_eq]
  exact Nat.mod_eq_of_lt (lt_of_le_of_lt hle x.isLt)

theorem pdx_val (la : Word) : (pdx la : ℕ) = la.toNat / 4194304 := by
  have hlt : la.toNat < 4294967296 := la.isLt
  simp only [pdx, and_3ff, Fin.val_ofNat, BitVec.toNat_ushiftRight, Nat.shiftRight_eq_div_pow]
  omega

theorem ptx_val (la : Word) : (ptx la : ℕ) = la.toNat / 4096 % 1024 := by
  simp only [ptx, and_3ff, Fin.val_ofNat, BitVec.toNat_ushiftRight, Nat.shiftRight_eq_div_pow]
  omega

theorem pgoff_eq (la : Word) : pgoff la = la.toNat % 4096 := by
  unfold pgoff
  rw [BitVec.toNat_and]
  exact Nat.and_two_pow_sub_one_eq_mod la.toNat 12

/-- The two indexes of an address make up its page number. -/
theorem pgnum_indexes (la : Word) : pgnum la = (pdx la : ℕ) * 1024 + ptx la := by
  rw [pgnum_eq, pdx_val, ptx_val]
  omega

/-- `PDX(UTOP)` is 955. -/
theorem pdx_lt_of_lt_utop {va : Word} (h : va < utop) : (pdx va : ℕ) < 955 := by
  have hlt : va.toNat < 0xEEC00000 := h
  rw [pdx_val]
  omega

theorem pgaddr_toNat (d t : PtIdx) :
    (pgaddr d t 0#32).toNat = (d : ℕ) * 4194304 + t * 4096 := by
  have hd : (d : ℕ) < 1024 := d.isLt
  have ht : (t : ℕ) < 1024 := t.isLt
  have hdir : (BitVec.ofNat 32 d <<< 22).toNat = (d : ℕ) * 4194304 := by
    simp only [BitVec.toNat_shiftLeft, BitVec.toNat_ofNat, Nat.shiftLeft_eq]
    omega
  have htab : (BitVec.ofNat 32 t <<< 12).toNat = (t : ℕ) * 4096 := by
    simp only [BitVec.toNat_shiftLeft, BitVec.toNat_ofNat, Nat.shiftLeft_eq]
    omega
  have hor := Nat.shiftLeft_add_eq_or_of_lt (b := (t : ℕ) * 4096) (i := 22) (by omega) (d : ℕ)
  rw [pgaddr, BitVec.or_zero, BitVec.toNat_or, hdir, htab]
  rw [Nat.shiftLeft_eq] at hor
  exact hor.symm

@[simp] theorem pdx_pgaddr (d t : PtIdx) : pdx (pgaddr d t 0#32) = d := by
  apply Fin.ext
  rw [pdx_val, pgaddr_toNat]
  omega

@[simp] theorem ptx_pgaddr (d t : PtIdx) : ptx (pgaddr d t 0#32) = t := by
  apply Fin.ext
  rw [ptx_val, pgaddr_toNat]
  omega

/-! ### Flags -/

theorem flag_or (a b mask : Word) : Flag (a ||| b) mask ↔ Flag a mask ∨ Flag b mask := by
  unfold Flag
  rw [BitVec.and_comm, BitVec.and_or_distrib_left, BitVec.and_comm mask a,
    BitVec.and_comm mask b, Ne, BitVec.or_eq_zero_iff]
  tauto

@[simp] theorem not_flag_zero (mask : Word) : ¬ Flag 0#32 mask := by
  simp [Flag]

/-- The bits of `a` are set in `w`. -/
theorem flag_of_and_eq {w a mask : Word} (hsub : w &&& a = a) (h : Flag a mask) : Flag w mask := by
  intro hzero
  apply h
  rw [← hsub, BitVec.and_assoc, BitVec.and_comm a, ← BitVec.and_assoc, hzero, BitVec.zero_and]

theorem getLsbD_frame2pa {i j : ℕ} (hj : j < 12) : (frame2pa i).getLsbD j = false := by
  simp [frame2pa, hj]

theorem not_flag_frame2pa {mask : Word} (hmask : ∀ j, 12 ≤ j → mask.getLsbD j = false) (i : ℕ) :
    ¬ Flag (frame2pa i) mask := by
  unfold Flag
  rw [not_not]
  apply BitVec.eq_of_getLsbD_eq
  intro j _
  rw [BitVec.getLsbD_and]
  by_cases hj : j < 12
  · simp [getLsbD_frame2pa hj]
  · simp [hmask j (by omega)]

theorem low_bits_of_lt {mask : Word} (h : mask.toNat < 4096) (j : ℕ) (hj : 12 ≤ j) :
    mask.getLsbD j = false := by
  rw [BitVec.getLsbD]
  refine Nat.testBit_lt_two_pow (h.trans_le ?_)
  exact Nat.pow_le_pow_right (n := 2) (by omega) hj

/-! ### Entries -/

theorem pgnum_pteAddr (pte : Word) : pgnum (pteAddr pte) = pgnum pte := by
  have hmask : ∀ j, 12 ≤ j → j < 32 → (~~~0xFFF#32 : Word).getLsbD j = true := by decide
  unfold pgnum pteAddr
  congr 1
  apply BitVec.eq_of_getLsbD_eq
  intro j _
  simp only [BitVec.getLsbD_ushiftRight, BitVec.getLsbD_and]
  by_cases hj : 12 + j < 32
  · rw [hmask (12 + j) (by omega) hj, Bool.and_true]
  · rw [BitVec.getLsbD_of_ge pte _ (by omega), Bool.false_and]

/-- The frame of an entry made of a frame address and flag bits. -/
theorem pteFrame_or {i : ℕ} (hi : i < 1048576) {flags : Word} (hflags : flags.toNat < 4096) :
    pteFrame (frame2pa i ||| flags) = i := by
  have hzero : flags >>> 12 = 0#32 := by
    apply BitVec.eq_of_toNat_eq
    rw [BitVec.toNat_ushiftRight, Nat.shiftRight_eq_div_pow]
    simpa using Nat.div_eq_of_lt hflags
  unfold pteFrame
  rw [pgnum_pteAddr, pgnum, BitVec.ushiftRight_or_distrib, hzero, BitVec.or_zero]
  simp only [frame2pa, BitVec.toNat_ushiftRight, BitVec.toNat_shiftLeft, BitVec.toNat_ofNat,
    Nat.shiftRight_eq_div_pow, Nat.shiftLeft_eq]
  omega

theorem flags_lt {a b : Word} (ha : a.toNat < 4096) (hb : b.toNat < 4096) :
    (a ||| b).toNat < 4096 := by
  rw [BitVec.toNat_or]
  exact Nat.or_lt_two_pow (n := 12) ha hb

/-- The entry `page_insert` writes. -/
def mkPte (pa perm : Word) : Word := pa ||| perm ||| pteP

@[simp] theorem flag_mkPte_P (pa perm : Word) : Flag (mkPte pa perm) pteP := by
  rw [mkPte, flag_or]
  exact Or.inr (by decide)

theorem pteFrame_mkPte {i : ℕ} (hi : i < 1048576) {perm : Word} (hperm : perm.toNat < 4096) :
    pteFrame (mkPte (frame2pa i) perm) = i := by
  rw [mkPte, BitVec.or_assoc]
  exact pteFrame_or hi (flags_lt hperm (by decide))

theorem flag_mkPte_W (i : ℕ) (perm : Word) :
    Flag (mkPte (frame2pa i) perm) pteW ↔ Flag perm pteW := by
  have hpa : ¬ Flag (frame2pa i) pteW := not_flag_frame2pa (low_bits_of_lt (by decide)) i
  have hP : ¬ Flag pteP pteW := by decide
  rw [mkPte, flag_or, flag_or]
  tauto

end Jos
