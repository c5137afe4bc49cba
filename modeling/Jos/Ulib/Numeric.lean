import Mathlib.Data.BitVec
import Jos.Lib.Numeral
import Jos.Ulib.Printfmt

/-!
The numeric directives of `vprintfmt`, with a flag and a width. `printnum` pads
before the first digit, with the character of the flag and without regard to a
sign, which has been printed before. So a minus sign is not counted and comes
before the spaces, and for the flag `-` the number is padded on the left with
this character.
-/

namespace Jos

open Jos.Lib

/-! ### The directive -/

inductive NumFlag where
  | none | minus | zero
  deriving DecidableEq

def NumFlag.text : NumFlag → List (BitVec 8)
  | .none => []
  | .minus => str "-"
  | .zero => str "0"

/-- The pad character that `vprintfmt` takes for the flag. -/
def NumFlag.padc : NumFlag → Word
  | .none => chr ' '
  | .minus => chr '-'
  | .zero => chr '0'

inductive NumConv where
  | d | u | o | x
  deriving DecidableEq

def NumConv.byte : NumConv → BitVec 8
  | .d => 0x64
  | .u => 0x75
  | .o => 0x6F
  | .x => 0x78

def NumConv.base : NumConv → ℕ
  | .d => 10
  | .u => 10
  | .o => 8
  | .x => 16

def digitByte (d : ℕ) : BitVec 8 := (str "0123456789abcdef").getD d 0

def digitChar (d : ℕ) : Word := charInt (digitByte d)

/-- The width in the format, which is left out when it is zero. -/
def widthText (width : ℕ) : List (BitVec 8) :=
  if width = 0 then [] else (numeral 10 width).map digitByte

/-- `%[-|0][width]`, some `l` and the conversion. -/
def numericFormat (flag : NumFlag) (width l : ℕ) (conv : NumConv) : List (BitVec 8) :=
  str "%" ++ flag.text ++ widthText width ++ List.replicate l 0x6C ++ [conv.byte]

/-- The value of the argument. -/
def numericValue (l : ℕ) (conv : NumConv) (ap : List Word) : ℤ :=
  match conv with
  | .d => (getint l ap).1.toInt
  | _ => (getuint l ap).1.toNat

/-- What should be printed for a value. -/
def numericText (flag : NumFlag) (width base : ℕ) (value : ℤ) : List Word :=
  let sign := if value < 0 then [chr '-'] else []
  let digits := (numeral base value.natAbs).map digitChar
  let pad := width - (sign.length + digits.length)
  match flag with
  | .none => List.replicate pad (chr ' ') ++ sign ++ digits
  | .minus => sign ++ digits ++ List.replicate pad (chr ' ')
  | .zero => sign ++ List.replicate pad (chr '0') ++ digits

/-- The characters of the numeral with its sign. -/
def numericSize (base : ℕ) (value : ℤ) : ℕ :=
  (if value < 0 then 1 else 0) + (numeral base value.natAbs).length

/-! ### `printnum` -/

variable {k base num : ℕ} {width padc : Word}

theorem printnum_eq (hbase : 1 < base) (hk : 0 < k) (h : num < base ^ k) :
    printnum k num base width padc =
      padding (width - BitVec.ofNat 32 ((numeral base num).length - 1)) padc ++
        (numeral base num).map digitChar := by
  induction k generalizing num width with
  | zero => omega
  | succ k ih =>
      unfold printnum
      rcases lt_or_ge num base with hlt | hge
      · rw [if_neg (not_le.mpr hlt), numeral_of_lt hlt, Nat.mod_eq_of_lt hlt, List.length_singleton,
          Nat.sub_self, BitVec.sub_zero]
        rfl
      · have hk' : 0 < k := by
          by_contra hzero
          obtain rfl : k = 0 := by omega
          rw [zero_add, pow_one] at h
          omega
        have hdiv : num / base < base ^ k := by
          rw [Nat.div_lt_iff_lt_mul (by omega), ← pow_succ]
          exact h
        have hlen : (numeral base num).length - 1 =
            ((numeral base (num / base)).length - 1) + 1 := by
          have hpos := @length_numeral_pos base (num / base)
          rw [numeral_step hbase hge, List.length_append, List.length_singleton]
          omega
        have hwidth : width - BitVec.ofNat 32 ((numeral base num).length - 1) =
            width - 1 - BitVec.ofNat 32 ((numeral base (num / base)).length - 1) := by
          rw [hlen, BitVec.ofNat_add, sub_add_eq_sub_sub_swap]
          rfl
        rw [if_pos hge, ih hk' hdiv, hwidth, numeral_step hbase hge, List.map_append,
          List.append_assoc]
        rfl

theorem toInt_sub_ofNat {w : Word} {d : ℕ} (hw : -1 ≤ w.toInt) (hd : d ≤ 65) :
    (w - BitVec.ofNat 32 d).toInt = w.toInt - d := by
  have hlt := w.isLt
  rw [BitVec.toInt_eq_toNat_cond] at hw
  rw [BitVec.toInt_eq_toNat_cond, BitVec.toInt_eq_toNat_cond, BitVec.toNat_sub, BitVec.toNat_ofNat]
  split at hw <;> split <;> omega

/-- A 64-bit number with a width that is absent or not negative. -/
theorem printnum_text {num : BitVec 64} (hbase : 1 < base) (hwidth : -1 ≤ width.toInt) :
    printnum 64 num.toNat base width padc =
      List.replicate (width.toInt - (numeral base num.toNat).length).toNat padc ++
        (numeral base num.toNat).map digitChar := by
  have hlt : num.toNat < base ^ 64 :=
    lt_of_lt_of_le num.isLt (Nat.pow_le_pow_left hbase 64)
  have hpos := @length_numeral_pos base num.toNat
  have hlen := length_numeral_le hbase (by decide) hlt
  have hsub : width - BitVec.ofNat 32 ((numeral base num.toNat).length - 1) - 1 =
      width - BitVec.ofNat 32 (numeral base num.toNat).length := by
    obtain ⟨m, hm⟩ : ∃ m, (numeral base num.toNat).length = m + 1 :=
      ⟨(numeral base num.toNat).length - 1, by omega⟩
    rw [hm, Nat.add_sub_cancel, BitVec.ofNat_add, sub_add_eq_sub_sub]
    rfl
  rw [printnum_eq hbase (by decide) hlt, padding, hsub, toInt_sub_ofNat hwidth (by omega)]

/-! ### The parts of the directive -/

variable {load : Word → BitVec 8} {fmt : List (BitVec 8)} {v : Conv} {ap : List Word}

theorem digitByte_toNat {d : ℕ} (h : d < 10) : (digitByte d).toNat = 48 + d := by
  interval_cases d <;> rfl

theorem digits_text {ds : List ℕ} (hds : ∀ d ∈ ds, d < 10)
    (hstop : ¬ (48 ≤ (fmt.headD 0).toNat ∧ (fmt.headD 0).toNat ≤ 57)) {precision : Word} :
    digits precision (ds.map digitByte ++ fmt) =
      (ds.foldl (fun (v : Word) (d : ℕ) => v * ((10 : ℕ) : Word) + (d : Word)) precision, fmt) := by
  induction ds generalizing precision with
  | nil =>
      cases fmt with
      | nil => rfl
      | cons ch fmt => exact if_neg hstop
  | cons d ds ih =>
      have hd : d < 10 := hds d List.mem_cons_self
      have hnat := digitByte_toNat hd
      have hchar : precision * 10 + (digitByte d).zeroExtend 32 - chr '0' =
          precision * ((10 : ℕ) : Word) + (d : Word) := by
        have hz : (digitByte d).zeroExtend 32 - chr '0' = (d : Word) := by
          interval_cases d <;> rfl
        rw [add_sub_assoc, hz]
        rfl
      rw [List.map_cons, List.cons_append, digits, if_pos (by omega), hchar,
        ih fun d' hd' => hds d' (List.mem_cons_of_mem d hd')]
      rfl

theorem numeral_head {width : ℕ} (h : width ≠ 0) :
    ∃ d ds, numeral 10 width = d :: ds ∧ 0 < d ∧ d < 10 := by
  cases hn : numeral 10 width with
  | nil => exact absurd hn numeral_ne_nil
  | cons d ds =>
      refine ⟨d, ds, rfl, Nat.pos_of_ne_zero fun hd => h ?_, ?_⟩
      · exact @head_numeral 10 width (by rw [hn, hd]; rfl)
      · exact @lt_of_mem_numeral 10 width (by decide) d
          (by rw [hn]; exact List.mem_cons_self)

/-- A width in the format. -/
theorem directive_width {width : ℕ} (h : width ≠ 0)
    (hstop : ¬ (48 ≤ (fmt.headD 0).toNat ∧ (fmt.headD 0).toNat ≤ 57)) :
    directive load (k + 1) (widthText width ++ fmt) v ap =
      directive load k fmt (v.process (BitVec.ofNat 32 width)) ap := by
  obtain ⟨d, ds, hnum, hpos, hd⟩ := numeral_head h
  have hdigits : digits 0 (widthText width ++ fmt) = (BitVec.ofNat 32 width, fmt) := by
    rw [widthText, if_neg h, digits_text (fun d hd => lt_of_mem_numeral (by decide) hd) hstop]
    have hfold := @foldl_numeral 10 width Word _ (by decide)
    exact congrArg (·, fmt) hfold
  have hhead : (widthText width ++ fmt).headD 0 = digitByte d := by
    rw [widthText, if_neg h, hnum]
    rfl
  have htests : (digitByte d).zeroExtend 32 ≠ chr '-' ∧ (digitByte d).zeroExtend 32 ≠ chr '0' ∧
      (49 ≤ ((digitByte d).zeroExtend 32).toNat ∧ ((digitByte d).zeroExtend 32).toNat ≤ 57) := by
    interval_cases d <;> decide
  rw [directive, hhead]
  simp only [if_neg htests.1, if_neg htests.2.1, if_pos htests.2.2, hdigits]

theorem directive_long {l : ℕ} :
    directive load (k + l) (List.replicate l 0x6C ++ fmt) v ap =
      directive load k fmt { v with lflag := v.lflag + l } ap := by
  induction l generalizing v with
  | zero => rfl
  | succ l ih =>
      have hstep : directive load (k + l + 1) (0x6C :: (List.replicate l 0x6C ++ fmt)) v ap =
          directive load (k + l) (List.replicate l 0x6C ++ fmt)
            { v with lflag := v.lflag + 1 } ap := rfl
      rw [List.replicate_succ, List.cons_append, ← Nat.add_assoc, hstep, ih]
      simp only [Nat.add_assoc, Nat.add_comm 1 l]

/-! ### The output -/

/-- The width that `vprintfmt` has after the directive's. -/
def widthOf (width : ℕ) : Word := if width = 0 then -1 else BitVec.ofNat 32 width

theorem widthOf_toInt {width : ℕ} (h : width < 2147483648) :
    -1 ≤ (widthOf width).toInt ∧ (widthOf width).toInt.toNat = width := by
  unfold widthOf
  split
  · rename_i hzero
    rw [hzero]
    decide
  · rw [BitVec.toInt_eq_toNat_cond, BitVec.toNat_ofNat]
    split <;> omega

/-- The conversion that ends the directive. -/
def NumConv.print (conv : NumConv) (v : Conv) (num : BitVec 64) : List Word :=
  match conv with
  | .d => formatInt v num
  | _ => printnum 64 num.toNat conv.base v.width v.padc

def NumConv.arg (conv : NumConv) (l : ℕ) (ap : List Word) : BitVec 64 :=
  match conv with
  | .d => (getint l ap).1
  | _ => (getuint l ap).1

theorem directive_conv {conv : NumConv} : ∃ ap',
    directive load (k + 1) [conv.byte] v ap =
      .ok (conv.print v (conv.arg v.lflag ap), [], ap') := by
  cases conv
  · exact ⟨(getint v.lflag ap).2, rfl⟩
  · exact ⟨(getuint v.lflag ap).2, rfl⟩
  · exact ⟨(getuint v.lflag ap).2, rfl⟩
  · exact ⟨(getuint v.lflag ap).2, rfl⟩

theorem directive_flag {flag : NumFlag} : ∃ k', directive load (k + 1) (flag.text ++ fmt) .init ap =
    directive load (k' + k) fmt { Conv.init with padc := flag.padc } ap := by
  cases flag
  · exact ⟨1, by rw [Nat.add_comm]; rfl⟩
  · exact ⟨0, by rw [Nat.zero_add]; rfl⟩
  · exact ⟨0, by rw [Nat.zero_add]; rfl⟩

theorem widthText_length {width : ℕ} (h : width ≠ 0) : 0 < (widthText width).length := by
  rw [widthText, if_neg h, List.length_map]
  exact length_numeral_pos

/-- What the directive prints, for any arguments. -/
theorem vprintfmt_numeric {flag : NumFlag} {width l : ℕ} {conv : NumConv} :
    vprintfmt load (numericFormat flag width l conv) ap =
      conv.print ⟨flag.padc, widthOf width, -1, l, false⟩ (conv.arg l ap) := by
  set tail := List.replicate l 0x6C ++ [conv.byte] with htail
  have hformat : numericFormat flag width l conv =
      0x25 :: (flag.text ++ (widthText width ++ tail)) := by
    simp only [numericFormat, htail, List.append_assoc]
    rfl
  have hstop : ¬ (48 ≤ (tail.headD 0).toNat ∧ (tail.headD 0).toNat ≤ 57) := by
    cases l with
    | zero => cases conv <;> decide
    | succ l => exact (by decide : ¬ (48 ≤ (0x6C : BitVec 8).toNat ∧ (0x6C : BitVec 8).toNat ≤ 57))
  -- after the flag and the width
  have hlong {m : ℕ} (hm : 0 < m) {v : Conv} (hv : v.lflag = 0) : ∃ ap',
      directive load (m + l) tail v ap =
        .ok (conv.print { v with lflag := l } (conv.arg l ap), [], ap') := by
    obtain ⟨m', rfl⟩ : ∃ m', m = m' + 1 := ⟨m - 1, by omega⟩
    obtain ⟨ap', hconv⟩ := @directive_conv m' load { v with lflag := v.lflag + l } ap conv
    refine ⟨ap', ?_⟩
    rw [htail, directive_long, hconv]
    simp only [hv, Nat.zero_add]
  have hlength : tail.length = l + 1 := by simp [htail]
  set n := (flag.text ++ (widthText width ++ tail)).length with hn
  have hdirective : ∃ ap',
      directive load (n + 1) (flag.text ++ (widthText width ++ tail)) .init ap =
      .ok (conv.print ⟨flag.padc, widthOf width, -1, l, false⟩ (conv.arg l ap), [], ap') := by
    obtain ⟨k', hflag⟩ := @directive_flag n load (widthText width ++ tail) ap flag
    rw [hflag]
    rw [List.length_append, List.length_append, hlength] at hn
    by_cases hwidth : width = 0
    · subst hwidth
      obtain ⟨m, hm⟩ : ∃ m, k' + n = m + l := ⟨k' + n - l, by omega⟩
      rw [hm]
      exact hlong (by omega) rfl
    · have hpos := widthText_length hwidth
      obtain ⟨m, hm⟩ : ∃ m, k' + n = m + l + 1 := ⟨k' + n - l - 1, by omega⟩
      rw [hm, directive_width hwidth hstop, widthOf, if_neg hwidth]
      exact hlong (by omega) rfl
  obtain ⟨ap', hdirective⟩ := hdirective
  rw [hformat, vprintfmt, List.length_cons, vprintfmtLoop, if_neg (by decide), if_neg (by decide),
    hdirective]
  simp only [vprintfmtLoop_nil, List.append_nil]

theorem value_of_int (num : BitVec 64) :
    (num.toInt < 0 ∧ num.slt 0 = true ∧ (-num).toNat = num.toInt.natAbs) ∨
      (0 ≤ num.toInt ∧ num.slt 0 = false ∧ num.toNat = num.toInt.natAbs) := by
  have hlt := num.isLt
  have hzero : (0 : BitVec 64).toInt = 0 := rfl
  have hslt : num.slt 0 = decide (num.toInt < 0) := by rw [BitVec.slt, hzero]
  rcases lt_or_ge num.toInt 0 with hneg | hpos
  · refine Or.inl ⟨hneg, by rw [hslt, decide_eq_true hneg], ?_⟩
    rw [BitVec.toNat_neg]
    rw [BitVec.toInt_eq_toNat_cond] at hneg ⊢
    split at hneg
    · omega
    · rw [if_neg (by assumption)]
      omega
  · refine Or.inr ⟨hpos, by rw [hslt, decide_eq_false (not_lt.mpr hpos)], ?_⟩
    rw [BitVec.toInt_eq_toNat_cond] at hpos ⊢
    split at hpos
    · rw [if_pos (by assumption)]
      exact (Int.natAbs_natCast _).symm
    · omega

theorem NumConv.base_bounds (conv : NumConv) : 1 < conv.base ∧ conv.base ≤ 16 := by
  cases conv <;> decide

theorem print_unsigned {l : ℕ} {conv : NumConv} (h : conv ≠ .d) :
    numericValue l conv ap = ((getuint l ap).1.toNat : ℤ) ∧
      conv.print v (conv.arg l ap) =
        printnum 64 (getuint l ap).1.toNat conv.base v.width v.padc := by
  cases conv with
  | d => exact absurd rfl h
  | u => exact ⟨rfl, rfl⟩
  | o => exact ⟨rfl, rfl⟩
  | x => exact ⟨rfl, rfl⟩

/-- The characters that are printed: after the sign, the pad characters as if
there were no sign. -/
theorem vprintfmt_numeric_eq {flag : NumFlag} {width l : ℕ} {conv : NumConv}
    (hwidth : width < 2147483648) :
    vprintfmt load (numericFormat flag width l conv) ap =
      (if numericValue l conv ap < 0 then [chr '-'] else []) ++
        (List.replicate (width - (numeral conv.base (numericValue l conv ap).natAbs).length)
          flag.padc ++
        (numeral conv.base (numericValue l conv ap).natAbs).map digitChar) := by
  obtain ⟨hmin, hnat⟩ := widthOf_toInt hwidth
  have hpad (n : ℕ) : ((widthOf width).toInt - n).toNat = width - n := by omega
  have hprint (num : BitVec 64) (base : ℕ) (hbase : 1 < base) :
      printnum 64 num.toNat base (widthOf width) flag.padc =
        List.replicate (width - (numeral base num.toNat).length) flag.padc ++
          (numeral base num.toNat).map digitChar := by
    rw [printnum_text hbase hmin, hpad]
  rw [vprintfmt_numeric]
  by_cases hconv : conv = .d
  · subst hconv
    change formatInt _ (getint l ap).1 = (if (getint l ap).1.toInt < 0 then _ else _) ++
      (List.replicate (width - (numeral 10 (getint l ap).1.toInt.natAbs).length) _ ++
        (numeral 10 (getint l ap).1.toInt.natAbs).map digitChar)
    rcases value_of_int (getint l ap).1 with ⟨hneg, hslt, habs⟩ | ⟨hpos, hslt, habs⟩
    · rw [formatInt, if_pos hslt, if_pos hneg, hprint _ 10 (by decide), habs]
      rfl
    · rw [formatInt, if_neg (by rw [hslt]; decide), if_neg (not_lt.mpr hpos),
        hprint _ 10 (by decide), habs]
      rfl
  · obtain ⟨hvalue, hunsigned⟩ :=
      @print_unsigned ⟨flag.padc, widthOf width, -1, l, false⟩ ap l conv hconv
    rw [hunsigned, hvalue, if_neg (not_lt.mpr (Int.natCast_nonneg _)), Int.natAbs_natCast,
      hprint _ _ conv.base_bounds.1]
    rfl

theorem numericText_length (flag : NumFlag) (width base : ℕ) (value : ℤ) :
    (numericText flag width base value).length = max width (numericSize base value) := by
  unfold numericText numericSize
  cases flag <;> split <;> simp <;> omega

/-- The directive prints what it should, in as many characters. -/
structure NumericOk (load : Word → BitVec 8) (flag : NumFlag) (width l : ℕ) (conv : NumConv)
    (ap : List Word) : Prop where
  text : vprintfmt load (numericFormat flag width l conv) ap =
    numericText flag width conv.base (numericValue l conv ap)
  length : (vprintfmt load (numericFormat flag width l conv) ap).length =
    max width (numericSize conv.base (numericValue l conv ap))

theorem digitChar_ne_minus {d : ℕ} (h : d < 16) : digitChar d ≠ chr '-' := by
  interval_cases d <;> decide

/-- It does if there is nothing to pad, or if the number has no sign and the
flag is not `-`. -/
theorem numeric_directive_iff (flag : NumFlag) {width : ℕ} (hwidth : width < 2147483648) (l : ℕ)
    (conv : NumConv) (lo hi : Word) (ap : List Word) :
    NumericOk load flag width l conv (lo :: hi :: ap) ↔
      width ≤ (numeral conv.base (numericValue l conv (lo :: hi :: ap)).natAbs).length ∨
        flag ≠ .minus ∧ 0 ≤ numericValue l conv (lo :: hi :: ap) := by
  have hprinted := @vprintfmt_numeric_eq load (lo :: hi :: ap) flag width l conv hwidth
  have hlength := numericText_length flag width conv.base (numericValue l conv (lo :: hi :: ap))
  have hiff : NumericOk load flag width l conv (lo :: hi :: ap) ↔
      vprintfmt load (numericFormat flag width l conv) (lo :: hi :: ap) =
        numericText flag width conv.base (numericValue l conv (lo :: hi :: ap)) :=
    ⟨fun h => h.text, fun h => ⟨h, h ▸ hlength⟩⟩
  rw [hiff, hprinted]
  set value := numericValue l conv (lo :: hi :: ap)
  have hdigit := @lt_of_mem_numeral conv.base value.natAbs conv.base_bounds.1
  have hbase := conv.base_bounds.2
  set digits := numeral conv.base value.natAbs with hdigits
  rcases le_or_gt width digits.length with hle | hgt
  · -- nothing is padded
    refine iff_of_true ?_ (Or.inl hle)
    have hpad : width - digits.length = 0 := by omega
    have hpad' (n : ℕ) : width - (n + digits.length) = 0 := by omega
    unfold numericText
    simp only [← hdigits, List.length_map, hpad, hpad', List.replicate_zero]
    cases flag <;> simp
  · rcases lt_or_ge value 0 with hneg | hpos
    · -- one character more than there should be
      refine iff_of_false (fun heq => ?_) (by omega)
      have hlen := congrArg List.length heq
      rw [hlength] at hlen
      unfold numericSize at hlen
      simp only [if_pos hneg, ← hdigits, List.length_append, List.length_singleton,
        List.length_replicate, List.length_map] at hlen
      omega
    · rw [if_neg (not_lt.mpr hpos), List.nil_append]
      unfold numericText
      simp only [if_neg (not_lt.mpr hpos), ← hdigits, List.length_nil, List.length_map, zero_add,
        List.nil_append, List.append_nil]
      cases flag with
      | none => exact iff_of_true rfl (Or.inr ⟨by decide, hpos⟩)
      | zero => exact iff_of_true rfl (Or.inr ⟨by decide, hpos⟩)
      | minus =>
          -- the first character is a pad character, and should be a digit
          refine iff_of_false (fun heq => ?_) (by simp [not_le.mpr hgt])
          obtain ⟨m, hm⟩ : ∃ m, width - digits.length = m + 1 :=
            ⟨width - digits.length - 1, by omega⟩
          obtain ⟨d, ds, hds⟩ := List.exists_cons_of_ne_nil (@numeral_ne_nil conv.base value.natAbs)
          rw [hm, hdigits, hds] at heq
          have hhead : chr '-' = digitChar d := List.head_eq_of_cons_eq heq
          have hd := hdigit (hdigits ▸ hds ▸ List.mem_cons_self)
          exact digitChar_ne_minus (by omega) hhead.symm

theorem numeric_directive_zeros : NumericOk (fun _ => 0) .zero 8 0 .x [0xBEEF, 0] :=
  (numeric_directive_iff .zero (by decide) 0 .x 0xBEEF 0 []).mpr (Or.inr ⟨by decide, by decide⟩)

/-- `%5d` prints -7 in six characters, the sign before the spaces. -/
theorem not_numeric_directive : ¬ ∀ (load : Word → BitVec 8) (flag : NumFlag) (width l : ℕ)
    (conv : NumConv) (lo hi : Word) (ap : List Word), width < 2147483648 →
      NumericOk load flag width l conv (lo :: hi :: ap) := by
  intro h
  have hlength := (h (fun _ => 0) .none 5 0 .d (-7) 0 [] (by decide)).length
  exact absurd hlength (by decide +kernel)

example : vprintfmt (fun _ => 0) (numericFormat .none 5 0 .d) [-7, 0] =
    (str "-    7").map charInt := by
  decide +kernel

example : vprintfmt (fun _ => 0) (numericFormat .minus 5 0 .u) [7, 0] =
    (str "----7").map charInt := by
  decide +kernel

end Jos
