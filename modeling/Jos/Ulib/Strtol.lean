import Jos.Ulib.Numeric
import Jos.Ulib.Printf

/-!
`strtol` of lib/string.c reads back the numbers that `vprintfmt` prints without
a width. A string is the list of its bytes before the NUL, a `long` a word.
`strtol` multiplies and adds with wraparound, so a numeral of any length gives
its value modulo 2^32 (`strtolDigits_numeral`).
-/

namespace Jos

open Jos.Lib

/-! ### `strtol` -/

/-- `dig`, if the character is a digit in some base. -/
def digitValue (ch : BitVec 8) : Option Word :=
  let c := charInt ch
  if (chr '0').sle c ∧ c.sle (chr '9') then some (c - chr '0')
  else if (chr 'a').sle c ∧ c.sle (chr 'z') then some (c - chr 'a' + 10)
  else if (chr 'A').sle c ∧ c.sle (chr 'Z') then some (c - chr 'A' + 10)
  else none

/-- The loop over the digits: `val` and where it stops. -/
def strtolDigits (base val : Word) : List (BitVec 8) → Word × List (BitVec 8)
  | [] => (val, [])
  | ch :: s =>
      match digitValue ch with
      | none => (val, ch :: s)
      | some dig => if base.sle dig then (val, ch :: s) else strtolDigits base (val * base + dig) s

/-- The sign and what follows it. -/
def strtolSign (s : List (BitVec 8)) : Bool × List (BitVec 8) :=
  if s.headD 0 = 0x2B then (false, s.tail)
  else if s.headD 0 = 0x2D then (true, s.tail)
  else (false, s)

/-- The base that is used, after the prefix of a hexadecimal or octal number. -/
def strtolBase (base : Word) (s : List (BitVec 8)) : Word × List (BitVec 8) :=
  if (base = 0 ∨ base = 16) ∧ s.headD 0 = 0x30 ∧ s.tail.headD 0 = 0x78 then (16, s.tail.tail)
  else if base = 0 ∧ s.headD 0 = 0x30 then (8, s.tail)
  else if base = 0 then (10, s)
  else (base, s)

/-- The value and what `endptr` is set to. -/
def strtol (s : List (BitVec 8)) (base : Word) : Word × List (BitVec 8) :=
  let s := s.dropWhile fun ch => ch = 0x20 ∨ ch = 0x09
  let (neg, s) := strtolSign s
  let (base, s) := strtolBase base s
  let (val, s) := strtolDigits base 0 s
  (if neg then -val else val, s)

/-! ### Reading a numeral -/

variable {base n : ℕ} {val : Word}

theorem digitValue_digitByte {d : ℕ} (h : d < 16) : digitValue (digitByte d) = some (d : Word) := by
  interval_cases d <;> rfl

theorem not_sle_of_lt {d : ℕ} (hbase : base ≤ 16) (h : d < base) :
    (base : Word).sle (d : Word) = false := by
  interval_cases base <;> interval_cases d <;> rfl

theorem strtolDigits_map (hbase : base ≤ 16) {ds : List ℕ} (hds : ∀ d ∈ ds, d < base) :
    strtolDigits (base : Word) val (ds.map digitByte) =
      (ds.foldl (fun (v : Word) (d : ℕ) => v * (base : Word) + (d : Word)) val, []) := by
  induction ds generalizing val with
  | nil => rfl
  | cons d ds ih =>
      have hd : d < base := hds d List.mem_cons_self
      rw [List.map_cons, strtolDigits, digitValue_digitByte (by omega)]
      simp only [not_sle_of_lt hbase hd]
      exact ih fun d' hd' => hds d' (List.mem_cons_of_mem d hd')

theorem strtolDigits_numeral (hlo : 1 < base) (hhi : base ≤ 16) :
    strtolDigits (base : Word) 0 ((numeral base n).map digitByte) = ((n : Word), []) := by
  rw [strtolDigits_map hhi fun d hd => lt_of_mem_numeral hlo hd]
  exact congrArg (·, []) (foldl_numeral hlo)

/-- No digit is a space, a sign or the letter of a prefix. -/
theorem digitByte_plain {d : ℕ} (h : d < 16) :
    digitByte d ≠ 0x20 ∧ digitByte d ≠ 0x09 ∧ digitByte d ≠ 0x2B ∧ digitByte d ≠ 0x2D ∧
      digitByte d ≠ 0x78 := by
  interval_cases d <;> decide

/-- The numeral is not taken for a prefix. -/
theorem strtolBase_numeral (hlo : 1 < base) (hhi : base ≤ 16) :
    strtolBase (base : Word) ((numeral base n).map digitByte) =
      ((base : Word), (numeral base n).map digitByte) := by
  have hzero : (base : Word) ≠ 0 := by interval_cases base <;> decide
  have hsecond : ((numeral base n).map digitByte).tail.headD 0 ≠ 0x78 := by
    cases htail : (numeral base n).tail with
    | nil =>
        rw [← List.map_tail, htail]
        decide
    | cons d ds =>
        have hmem : d ∈ numeral base n := List.mem_of_mem_tail (htail ▸ List.mem_cons_self)
        have hd := lt_of_mem_numeral hlo hmem
        rw [← List.map_tail, htail]
        exact (digitByte_plain (by omega)).2.2.2.2
  unfold strtolBase
  rw [if_neg fun h => hsecond h.2.2, if_neg fun h => hzero h.1, if_neg hzero]

theorem strtol_numeral (hlo : 1 < base) (hhi : base ≤ 16) :
    strtol ((numeral base n).map digitByte) (base : Word) = ((n : Word), []) := by
  obtain ⟨d, ds, hnum⟩ := List.exists_cons_of_ne_nil (@numeral_ne_nil base n)
  have hd := lt_of_mem_numeral hlo (hnum ▸ List.mem_cons_self)
  obtain ⟨hspace, htab, hplus, hminus, -⟩ := digitByte_plain (show d < 16 by omega)
  have hskip : ((numeral base n).map digitByte).dropWhile
      (fun ch => ch = 0x20 ∨ ch = 0x09) = (numeral base n).map digitByte := by
    rw [hnum, List.map_cons]
    exact List.dropWhile_cons_of_neg (by simpa using ⟨hspace, htab⟩)
  have hsign : strtolSign ((numeral base n).map digitByte) =
      (false, (numeral base n).map digitByte) := by
    rw [hnum]
    exact (if_neg hplus).trans (if_neg hminus)
  unfold strtol
  simp only [hskip, hsign, strtolBase_numeral hlo hhi, strtolDigits_numeral hlo hhi]
  rfl

theorem strtol_minus (hlo : 1 < base) (hhi : base ≤ 16) :
    strtol (0x2D :: (numeral base n).map digitByte) (base : Word) = (-(n : Word), []) := by
  have hskip : (0x2D :: (numeral base n).map digitByte).dropWhile
      (fun ch => ch = 0x20 ∨ ch = 0x09) = 0x2D :: (numeral base n).map digitByte :=
    List.dropWhile_cons_of_neg (by decide)
  have hsign : strtolSign (0x2D :: (numeral base n).map digitByte) =
      (true, (numeral base n).map digitByte) := rfl
  unfold strtol
  simp only [hskip, hsign, strtolBase_numeral hlo hhi, strtolDigits_numeral hlo hhi]
  rfl

/-- With base 0, the base is that of the prefix. -/
theorem strtol_hex :
    strtol (0x30 :: 0x78 :: (numeral 16 n).map digitByte) 0 = ((n : Word), []) := by
  have hdigits := @strtolDigits_numeral 16 n (by decide) (by decide)
  have hbase : strtol (0x30 :: 0x78 :: (numeral 16 n).map digitByte) 0 =
      strtolDigits ((16 : ℕ) : Word) 0 ((numeral 16 n).map digitByte) := rfl
  rw [hbase, hdigits]

/-! ### Reading what was printed -/

variable {load : Word → BitVec 8} {ap : List Word}

theorem map_digitChar (ds : List ℕ) : ds.map digitChar = (ds.map digitByte).map charInt := by
  rw [List.map_map]
  rfl

theorem strtol_printed_unsigned {conv : NumConv} {y : Word} (h : conv ≠ .d) :
    strtol (chars (vprintfmt load (numericFormat .none 0 0 conv) (y :: ap))) (conv.base : Word) =
      (y, []) := by
  obtain ⟨hlo, hhi⟩ := conv.base_bounds
  have hvalue : numericValue 0 conv (y :: ap) = (y.toNat : ℤ) := by
    have hunsigned := (@print_unsigned .init (y :: ap) 0 conv h).1
    have hwide : (getuint 0 (y :: ap)).1.toNat = y.toNat := by
      change (y.zeroExtend 64).toNat = y.toNat
      rw [BitVec.toNat_setWidth]
      exact Nat.mod_eq_of_lt (lt_trans y.isLt (by decide))
    rw [hunsigned, hwide]
  rw [vprintfmt_numeric_eq (by decide), hvalue, if_neg (not_lt.mpr (Int.natCast_nonneg _)),
    Int.natAbs_natCast, Nat.zero_sub, List.replicate_zero, List.nil_append, List.nil_append,
    map_digitChar, chars_charInt, strtol_numeral hlo hhi]
  exact congrArg (·, []) (BitVec.ofNat_toNat 32 y)

theorem natAbs_of_nonneg {x : Word} (h : 0 ≤ x.toInt) : (x.toInt.natAbs : Word) = x := by
  have hlt := x.isLt
  have habs : x.toInt.natAbs = x.toNat := by
    rw [BitVec.toInt_eq_toNat_cond] at h ⊢
    split at h
    · rw [if_pos (by assumption), Int.natAbs_natCast]
    · omega
  rw [habs]
  exact BitVec.ofNat_toNat 32 x

theorem natAbs_of_neg {x : Word} (h : x.toInt < 0) : -(x.toInt.natAbs : Word) = x := by
  have hlt := x.isLt
  have habs : x.toInt.natAbs = (-x).toNat := by
    rw [BitVec.toNat_neg]
    rw [BitVec.toInt_eq_toNat_cond] at h ⊢
    split at h
    · omega
    · rw [if_neg (by assumption)]
      omega
  have hneg : ((-x).toNat : Word) = -x := BitVec.ofNat_toNat 32 (-x)
  rw [habs, hneg, neg_neg]

theorem strtol_printed_signed {x : Word} :
    strtol (chars (vprintfmt load (numericFormat .none 0 0 .d) (x :: ap))) 10 = (x, []) := by
  have hvalue : numericValue 0 .d (x :: ap) = x.toInt := by
    change (x.signExtend 64).toInt = x.toInt
    exact BitVec.toInt_signExtend_of_le (by decide)
  rw [vprintfmt_numeric_eq (by decide), hvalue, Nat.zero_sub, List.replicate_zero, List.nil_append,
    map_digitChar, chars_append, chars_charInt]
  rcases lt_or_ge x.toInt 0 with hneg | hpos
  · have hminus := @strtol_minus 10 x.toInt.natAbs (by decide) (by decide)
    rw [if_pos hneg]
    exact hminus.trans (congrArg (·, []) (natAbs_of_neg hneg))
  · have hplain := @strtol_numeral 10 x.toInt.natAbs (by decide) (by decide)
    rw [if_neg (not_lt.mpr hpos)]
    exact hplain.trans (congrArg (·, []) (natAbs_of_nonneg hpos))

theorem vprintfmt_pointer {p : Word} :
    vprintfmt load (str "%p") (p :: ap) =
      ((0x30 :: 0x78 :: (numeral 16 p.toNat).map digitByte : List (BitVec 8))).map charInt := by
  have hprinted : vprintfmt load (str "%p") (p :: ap) =
      chr '0' :: chr 'x' :: (printnum 64 p.toNat 16 (-1) (chr ' ') ++ []) := rfl
  have hwide : (p.zeroExtend 64).toNat = p.toNat := by
    rw [BitVec.toNat_setWidth]
    exact Nat.mod_eq_of_lt (lt_trans p.isLt (by decide))
  have hnum := @printnum_text 16 (-1) (chr ' ') (p.zeroExtend 64) (by decide) (by decide)
  rw [hwide] at hnum
  have hpad : ((-1 : Word).toInt - ((numeral 16 p.toNat).length : ℤ)).toNat = 0 := by
    have hminus : (-1 : Word).toInt = -1 := by decide
    omega
  rw [hprinted, hnum, hpad, List.append_nil, map_digitChar]
  rfl

/-- The digits that `printnum` prints after the padding. -/
structure Digits (num base : ℕ) (ds : List Word) : Prop where
  /-- They are read back. -/
  value : strtol (chars ds) base = ((num : Word), [])
  leading : ds.head? = some (chr '0') → num = 0

theorem printnum_digits (hlo : 1 < base) (hhi : base ≤ 16) {num : BitVec 64} :
    Digits num.toNat base ((numeral base num.toNat).map digitChar) where
  value := by
    rw [map_digitChar, chars_charInt]
    exact strtol_numeral hlo hhi
  leading h := by
    obtain ⟨d, ds, hds⟩ := List.exists_cons_of_ne_nil (@numeral_ne_nil base num.toNat)
    have hd := lt_of_mem_numeral hlo (hds ▸ List.mem_cons_self)
    have hchar : digitChar d = chr '0' := Option.some.inj (by simpa [hds] using h)
    have hzero : d = 0 := by
      have hd16 : d < 16 := by omega
      interval_cases d <;> revert hchar <;> decide
    exact head_numeral (by rw [hds, hzero]; rfl)

/-- `printnum` prints the padding, of which there is none without a width, and
then the digits. -/
theorem printnum_output (hlo : 1 < base) (hhi : base ≤ 16) {num : BitVec 64} {width padc : Word} :
    ∃ pad ds, printnum 64 num.toNat base width padc = List.replicate pad padc ++ ds ∧
      (width = -1 → pad = 0) ∧ Digits num.toNat base ds := by
  by_cases hwidth : width = -1
  · have hminus : (-1 : Word).toInt = -1 := by decide
    have hpad : ((-1 : Word).toInt - ((numeral base num.toNat).length : ℤ)).toNat = 0 := by omega
    refine ⟨0, _, ?_, fun _ => rfl, printnum_digits hlo hhi⟩
    rw [hwidth, printnum_text hlo (by decide), hpad]
  · have hlt : num.toNat < base ^ 64 := lt_of_lt_of_le num.isLt (Nat.pow_le_pow_left hlo 64)
    exact ⟨_, _, printnum_eq hlo (by decide) hlt, fun h => absurd h hwidth,
      printnum_digits hlo hhi⟩

theorem strtol_vprintfmt (load : Word → BitVec 8) (ap : List Word) :
    (∀ x, strtol (chars (vprintfmt load (str "%d") (x :: ap))) 10 = (x, [])) ∧
      (∀ y, strtol (chars (vprintfmt load (str "%x") (y :: ap))) 16 = (y, [])) ∧
      (∀ y, strtol (chars (vprintfmt load (str "%o") (y :: ap))) 8 = (y, [])) ∧
      (∀ p, strtol (chars (vprintfmt load (str "%p") (p :: ap))) 0 = (p, [])) ∧
      ∀ (num : BitVec 64) (base : ℕ) (width padc : Word), base = 8 ∨ base = 10 ∨ base = 16 →
        ∃ pad ds, printnum 64 num.toNat base width padc = List.replicate pad padc ++ ds ∧
          (width = -1 → pad = 0) ∧ Digits num.toNat base ds := by
  refine ⟨fun x => strtol_printed_signed,
    fun y => @strtol_printed_unsigned load ap .x y (by decide),
    fun y => @strtol_printed_unsigned load ap .o y (by decide), fun p => ?_,
    fun num base width padc hbase => printnum_output (by omega) (by omega)⟩
  have hp : ((p.toNat : ℕ) : Word) = p := BitVec.ofNat_toNat 32 p
  rw [vprintfmt_pointer, chars_charInt, strtol_hex, hp]

theorem strtol_vprintfmt_octal : ∃ pad ds,
    printnum 64 (BitVec.toNat (8 : BitVec 64)) 8 (-1) (chr ' ') =
      List.replicate pad (chr ' ') ++ ds ∧ ((-1 : Word) = -1 → pad = 0) ∧
      Digits (BitVec.toNat (8 : BitVec 64)) 8 ds :=
  (strtol_vprintfmt (fun _ => 0) []).2.2.2.2 8 8 (-1) (chr ' ') (Or.inl rfl)

example : strtol (str "\t -0x1fZ") 16 = (-0x1F, str "Z") := by decide +kernel

end Jos
