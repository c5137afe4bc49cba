import Mathlib.Logic.Relation
import Jos.Ulib.Printfmt

/-!
`vprintfmt` of lib/printfmt.c with its pointer into the format, step by step.
After a directive that it does not know, the pointer goes back to the `%`. So
what is left of the format is no measure of the run, and every read is kept to
see that none is outside of the format. The run prints what the list function
`vprintfmt` computes from the bytes of the format.
-/

namespace Jos

/-! ### The steps -/

inductive FmtPc where
  | text
  | reswitch (v : Conv)
  | number (v : Conv) (precision ch : Word)
  | back
  | ret

/-- The pointer is relative to the start of the format. -/
structure FmtState where
  pc : FmtPc
  fmt : ℤ
  ap : List Word
  out : List Word
  reads : List ℤ

section

variable (load : Word → BitVec 8) (format : Word)

/-- The byte `fmt[i]`, for the `fmt` that `vprintfmt` is called with. -/
def fmtByte (i : ℤ) : BitVec 8 := load (format + BitVec.ofInt 32 i)

/-- The loop over a string argument ends. -/
def StrEnds (p precision : Word) : Prop :=
  p = 0 ∨ (printLoop (fun va => some (load va)) 4294967296 p precision).ending = .done

instance (p precision : Word) : Decidable (StrEnds load p precision) := instDecidableOr

/-- The cases of the `switch` that end a directive: the characters and the
arguments left. -/
def conversion (ch : Word) (v : Conv) (ap : List Word) : Option (List Word × List Word) :=
  if ch = chr 'c' then some ([ap.headD 0], ap.tail)
  else if ch = chr 'e' then some (formatError (ap.headD 0), ap.tail)
  else if ch = chr 's' then some (formatString load v (ap.headD 0), ap.tail)
  else if ch = chr 'd' then
    let (num, ap) := getint v.lflag ap
    some (formatInt v num, ap)
  else if ch = chr 'u' then
    let (num, ap) := getuint v.lflag ap
    some (printnum 64 num.toNat 10 v.width v.padc, ap)
  else if ch = chr 'o' then
    let (num, ap) := getuint v.lflag ap
    some (printnum 64 num.toNat 8 v.width v.padc, ap)
  else if ch = chr 'p' then
    some (chr '0' :: chr 'x' :: printnum 64 (ap.headD 0).toNat 16 v.width v.padc, ap.tail)
  else if ch = chr 'x' then
    let (num, ap) := getuint v.lflag ap
    some (printnum 64 num.toNat 16 v.width v.padc, ap)
  else if ch = chr '%' then some ([ch], ap)
  else none

/-- One step of `vprintfmt`, up to the next turn of one of its loops or the next
`goto`. A string without an end is read for ever. -/
def fmtStep (s : FmtState) : FmtState :=
  match s.pc with
  | .text =>
      let ch := fmtByte load format s.fmt
      let s := { s with fmt := s.fmt + 1, reads := s.reads ++ [s.fmt] }
      if ch.zeroExtend 32 = chr '%' then { s with pc := .reswitch .init }
      else if ch = 0 then { s with pc := .ret }
      else { s with out := s.out ++ [ch.zeroExtend 32] }
  | .reswitch v =>
      let ch := (fmtByte load format s.fmt).zeroExtend 32
      let s' := { s with fmt := s.fmt + 1, reads := s.reads ++ [s.fmt] }
      if ch = chr '-' then { s' with pc := .reswitch { v with padc := chr '-' } }
      else if ch = chr '0' then { s' with pc := .reswitch { v with padc := chr '0' } }
      else if 49 ≤ ch.toNat ∧ ch.toNat ≤ 57 then { s' with pc := .number v 0 ch }
      else if ch = chr '*' then
        { s' with pc := .reswitch (v.process (s.ap.headD 0)), ap := s.ap.tail }
      else if ch = chr '.' then
        { s' with pc := .reswitch (if v.width.slt 0 then { v with width := 0 } else v) }
      else if ch = chr '#' then { s' with pc := .reswitch { v with altflag := true } }
      else if ch = chr 'l' then { s' with pc := .reswitch { v with lflag := v.lflag + 1 } }
      else if ch = chr 's' ∧ ¬ StrEnds load (s.ap.headD 0) v.precision then s
      else
        match conversion load ch v s.ap with
        | some (out, ap) => { s' with pc := .text, ap := ap, out := s.out ++ out }
        | none => { s' with pc := .back, fmt := s.fmt, out := s.out ++ [chr '%'] }
  | .number v precision ch =>
      let precision := precision * 10 + ch - chr '0'
      let ch := fmtByte load format s.fmt
      let s := { s with reads := s.reads ++ [s.fmt] }
      if 48 ≤ ch.toNat ∧ ch.toNat ≤ 57 then
        { s with pc := .number v precision (ch.zeroExtend 32), fmt := s.fmt + 1 }
      else { s with pc := .reswitch (v.process precision) }
  | .back =>
      let ch := fmtByte load format (s.fmt - 1)
      let s := { s with reads := s.reads ++ [s.fmt - 1] }
      if ch.zeroExtend 32 = chr '%' then { s with pc := .text }
      else { s with fmt := s.fmt - 1 }
  | .ret => s

/-- The call of `vprintfmt`. -/
def fmtStart (ap : List Word) : FmtState := ⟨.text, 0, ap, [], []⟩

/-- Any number of steps. -/
def FmtRun : FmtState → FmtState → Prop :=
  Relation.ReflTransGen fun s t => fmtStep load format s = t

/-- The format from index `i` on, `len` being the index of its terminator. -/
def fmtRest (len i : ℕ) : List (BitVec 8) :=
  (List.range' i (len - i)).map fun j : ℕ => fmtByte load format j

end

variable {load : Word → BitVec 8} {format : Word} {len i j : ℕ} {ap out : List Word}
  {reads : List ℤ} {v : Conv}

/-! ### The list function -/

theorem fmtRest_succ (h : i < len) :
    fmtRest load format len i = fmtByte load format i :: fmtRest load format len (i + 1) := by
  unfold fmtRest
  obtain ⟨k, hk⟩ : ∃ k, len - i = k + 1 := ⟨len - i - 1, by omega⟩
  have hk' : len - (i + 1) = k := by omega
  rw [hk, hk', List.range'_succ, List.map_cons]

theorem fmtRest_of_le (h : len ≤ i) : fmtRest load format len i = [] := by
  unfold fmtRest
  rw [Nat.sub_eq_zero_of_le h]
  rfl

theorem fmtRest_tail : (fmtRest load format len i).tail = fmtRest load format len (i + 1) := by
  rcases lt_or_ge i len with h | h
  · rw [fmtRest_succ h]
    rfl
  · rw [fmtRest_of_le h, fmtRest_of_le (by omega)]
    rfl

theorem fmtRest_headD (hend : fmtByte load format len = 0) (h : i ≤ len) :
    (fmtRest load format len i).headD 0 = fmtByte load format i := by
  rcases lt_or_eq_of_le h with h | rfl
  · rw [fmtRest_succ h]
    rfl
  · rw [fmtRest_of_le le_rfl, hend]
    rfl

/-- A character that belongs to a directive and does not end it. -/
def IsFlag (b : BitVec 8) : Prop := b ∈ str "-0123456789*.#l"

/-- A character that ends a directive `vprintfmt` knows. -/
def IsConversion (b : BitVec 8) : Prop := b ∈ str "cesduopx%"

instance (b : BitVec 8) : Decidable (IsFlag b) := List.instDecidableMemOfLawfulBEq _ _

instance (b : BitVec 8) : Decidable (IsConversion b) := List.instDecidableMemOfLawfulBEq _ _

theorem flag_cases {b : BitVec 8} (h : IsFlag b) : b = 0x2D ∨ b = 0x30 ∨
    (49 ≤ (b.zeroExtend 32).toNat ∧ (b.zeroExtend 32).toNat ≤ 57) ∨
      b = 0x2A ∨ b = 0x2E ∨ b = 0x23 ∨ b = 0x6C := by
  revert b
  decide +kernel

/-- None of the tests for a flag holds of the end of a directive. -/
theorem not_flag {b : BitVec 8} (h : ¬ IsFlag b) : b.zeroExtend 32 ≠ chr '-' ∧
    b.zeroExtend 32 ≠ chr '0' ∧
      ¬ (49 ≤ (b.zeroExtend 32).toNat ∧ (b.zeroExtend 32).toNat ≤ 57) ∧
        b.zeroExtend 32 ≠ chr '*' ∧ b.zeroExtend 32 ≠ chr '.' ∧ b.zeroExtend 32 ≠ chr '#' ∧
          b.zeroExtend 32 ≠ chr 'l' := by
  revert b
  decide +kernel

theorem conversion_none {b : BitVec 8} (h : ¬ IsConversion b) :
    conversion load (b.zeroExtend 32) v ap = none := by
  have hne : ∀ b : BitVec 8, ¬ IsConversion b → b.zeroExtend 32 ≠ chr 'c' ∧
      b.zeroExtend 32 ≠ chr 'e' ∧ b.zeroExtend 32 ≠ chr 's' ∧ b.zeroExtend 32 ≠ chr 'd' ∧
        b.zeroExtend 32 ≠ chr 'u' ∧ b.zeroExtend 32 ≠ chr 'o' ∧ b.zeroExtend 32 ≠ chr 'p' ∧
          b.zeroExtend 32 ≠ chr 'x' ∧ b.zeroExtend 32 ≠ chr '%' := by
    decide +kernel
  obtain ⟨hc, he, hs, hd, hu, ho, hp, hx, hpercent⟩ := hne b h
  simp only [conversion, if_neg hc, if_neg he, if_neg hs, if_neg hd, if_neg hu, if_neg ho,
    if_neg hp, if_neg hx, if_neg hpercent]

/-- The end of a directive, as the list function returns it. -/
def ended (fmt : List (BitVec 8)) (ap : List Word) : Option (List Word × List Word) →
    Except (List Word) (List Word × List (BitVec 8) × List Word)
  | some (out, ap) => .ok (out, fmt.tail, ap)
  | none => .error ap

theorem directive_end {k : ℕ} {fmt : List (BitVec 8)} {b : BitVec 8} (hb : fmt.headD 0 = b)
    (h : ¬ IsFlag b) :
    directive load (k + 1) fmt v ap = ended fmt ap (conversion load (b.zeroExtend 32) v ap) := by
  obtain ⟨hminus, hzero, hdigit, hstar, hdot, hhash, hl⟩ := not_flag h
  simp only [directive, hb, if_neg hminus, if_neg hzero, if_neg hdigit, if_neg hstar, if_neg hdot,
    if_neg hhash, if_neg hl, conversion, apply_ite (ended fmt ap)]
  rfl

/-! ### Strings end -/

theorem printLoop_done {k d : ℕ} {p precision : Word} (hd : d < k)
    (hnul : load (p + BitVec.ofNat 32 d) = 0) :
    (printLoop (fun va => some (load va)) k p precision).ending = .done := by
  induction k generalizing p d precision with
  | zero => omega
  | succ k ih =>
      unfold printLoop
      simp only
      split
      · rfl
      · rename_i hch
        cases d with
        | zero =>
            rw [BitVec.add_zero] at hnul
            exact absurd hnul hch
        | succ d =>
            rw [ofNat_succ] at hnul
            split
            · exact ih (by omega) hnul
            · split
              · rfl
              · exact ih (by omega) hnul

/-- A string ends at the terminator of the format at the latest. -/
theorem strEnds_of_nul {a p precision : Word} (ha : load a = 0) : StrEnds load p precision := by
  refine Or.inr (printLoop_done (a - p).isLt ?_)
  rw [BitVec.ofNat_toNat, BitVec.setWidth_eq, BitVec.add_comm, BitVec.sub_add_cancel]
  exact ha

/-! ### Runs -/

def ReadsIn (len : ℕ) (reads : List ℤ) : Prop := ∀ i ∈ reads, 0 ≤ i ∧ i ≤ len

/-- Some steps lead from `s` to index `i`, and do not read outside of the format. -/
def Runs (load : Word → BitVec 8) (format : Word) (len : ℕ) (s : FmtState) (pc : FmtPc) (i : ℕ)
    (ap out : List Word) : Prop :=
  ∃ reads, FmtRun load format s ⟨pc, i, ap, out, reads⟩ ∧ (ReadsIn len s.reads → ReadsIn len reads)

variable {s : FmtState} {pc pc' : FmtPc} {ap' out' : List Word}

theorem Runs.refl : Runs load format len ⟨pc, i, ap, out, reads⟩ pc i ap out :=
  ⟨reads, Relation.ReflTransGen.refl, id⟩

theorem Runs.trans (h : Runs load format len s pc i ap out)
    (h' : ∀ reads, Runs load format len ⟨pc, i, ap, out, reads⟩ pc' j ap' out') :
    Runs load format len s pc' j ap' out' := by
  obtain ⟨reads, hrun, hreads⟩ := h
  obtain ⟨reads', hrun', hreads'⟩ := h' reads
  exact ⟨reads', hrun.trans hrun', hreads' ∘ hreads⟩

/-- A step that reads byte `q`. -/
theorem Runs.step {q : ℕ} (hq : q ≤ len)
    (h : fmtStep load format s = ⟨pc, i, ap, out, s.reads ++ [(q : ℤ)]⟩) :
    Runs load format len s pc i ap out := by
  refine ⟨_, Relation.ReflTransGen.single h, fun hreads a ha => ?_⟩
  rcases List.mem_append.mp ha with ha | ha
  · exact hreads a ha
  · obtain rfl := List.mem_singleton.mp ha
    exact ⟨Int.natCast_nonneg q, by exact_mod_cast hq⟩

/-! ### The flags of a directive -/

theorem zeroExtend_toNat (b : BitVec 8) : (b.zeroExtend 32).toNat = b.toNat :=
  BitVec.toNat_setWidth_of_le (by decide)

theorem not_isFlag_nul : ¬ IsFlag 0 := by decide

theorem isFlag_of_digit {b : BitVec 8} (h : 48 ≤ b.toNat ∧ b.toNat ≤ 57) : IsFlag b := by
  revert b
  decide +kernel

theorem lt_of_isFlag (hend : fmtByte load format len = 0) (hi : i ≤ len)
    (h : IsFlag (fmtByte load format i)) : i < len := by
  rcases lt_or_eq_of_le hi with hlt | rfl
  · exact hlt
  · rw [hend] at h
    exact absurd h not_isFlag_nul

/-- The loop over the digits of a number. -/
theorem number_run (hend : fmtByte load format len = 0) {precision ch : Word} (hi : i ≤ len) :
    ∃ j, i ≤ j ∧ j ≤ len ∧ (∀ q, i ≤ q → q < j → IsFlag (fmtByte load format q)) ∧
      ∃ precision', digits (precision * 10 + ch - chr '0') (fmtRest load format len i) =
          (precision', fmtRest load format len j) ∧
        ∀ out reads, Runs load format len ⟨.number v precision ch, i, ap, out, reads⟩
          (.reswitch (v.process precision')) j ap out := by
  obtain ⟨k, hk⟩ : ∃ k, len - i = k := ⟨_, rfl⟩
  induction k generalizing i precision ch with
  | zero =>
      obtain rfl : i = len := by omega
      refine ⟨i, le_rfl, le_rfl, fun q hq hq' => by omega,
        precision * 10 + ch - chr '0', ?_, fun out reads => ?_⟩
      · rw [fmtRest_of_le le_rfl]
        rfl
      · refine Runs.step le_rfl ?_
        simp only [fmtStep, hend]
        rfl
  | succ k ih =>
      by_cases hdigit : 48 ≤ (fmtByte load format i).toNat ∧ (fmtByte load format i).toNat ≤ 57
      · obtain ⟨j, hij, hj, hflags, precision', hdigits, hrun⟩ :=
          @ih (i + 1) (precision * 10 + ch - chr '0') ((fmtByte load format i).zeroExtend 32)
            (by omega) (by omega)
        refine ⟨j, by omega, hj, fun q hq hq' => ?_, precision', ?_, fun out reads => ?_⟩
        · rcases eq_or_lt_of_le hq with rfl | hlt
          · exact isFlag_of_digit hdigit
          · exact hflags q hlt hq'
        · rw [fmtRest_succ (by omega), digits, if_pos hdigit]
          exact hdigits
        · refine (Runs.step hi ?_).trans fun reads => hrun out reads
          simp only [fmtStep, if_pos hdigit]
          rfl
      · refine ⟨i, le_rfl, hi, fun q hq hq' => by omega,
          precision * 10 + ch - chr '0', ?_, fun out reads => ?_⟩
        · rw [fmtRest_succ (by omega), digits, if_neg hdigit]
        · refine Runs.step hi ?_
          simp only [fmtStep, if_neg hdigit]

/-- One flag, or all the digits of a number. -/
theorem flag_step (hend : fmtByte load format len = 0) (hi : i ≤ len)
    (hflag : IsFlag (fmtByte load format i)) : ∃ v' ap' j, i < j ∧ j ≤ len ∧
      (∀ q, i ≤ q → q < j → IsFlag (fmtByte load format q)) ∧
      (∀ k, directive load (k + 1) (fmtRest load format len i) v ap =
        directive load k (fmtRest load format len j) v' ap') ∧
      ∀ out reads,
        Runs load format len ⟨.reswitch v, i, ap, out, reads⟩ (.reswitch v') j ap' out := by
  have hlt := lt_of_isFlag hend hi hflag
  have hself (q : ℕ) (hq : i ≤ q) (hq' : q < i + 1) : IsFlag (fmtByte load format q) := by
    obtain rfl : q = i := by omega
    exact hflag
  have hhead := fmtRest_headD hend hi
  have hone (v' : Conv) (ap' : List Word)
      (hlist : ∀ k, directive load (k + 1) (fmtRest load format len i) v ap =
        directive load k (fmtRest load format len i).tail v' ap')
      (hstep : ∀ out reads, fmtStep load format ⟨.reswitch v, i, ap, out, reads⟩ =
        ⟨.reswitch v', (i : ℤ) + 1, ap', out, reads ++ [(i : ℤ)]⟩) :
      ∃ v' ap' j, i < j ∧ j ≤ len ∧ (∀ q, i ≤ q → q < j → IsFlag (fmtByte load format q)) ∧
        (∀ k, directive load (k + 1) (fmtRest load format len i) v ap =
          directive load k (fmtRest load format len j) v' ap') ∧
        ∀ out reads,
          Runs load format len ⟨.reswitch v, i, ap, out, reads⟩ (.reswitch v') j ap' out := by
    rw [fmtRest_tail] at hlist
    exact ⟨v', ap', i + 1, by omega, hlt, hself, hlist,
      fun out reads => Runs.step hi ((hstep out reads).trans (by push_cast; rfl))⟩
  rcases flag_cases hflag with hb | hb | hdigit | hb | hb | hb | hb
  · exact hone _ _ (fun k => by rw [directive, hhead, hb]; rfl)
      fun out reads => by simp only [fmtStep, hb]; rfl
  · exact hone _ _ (fun k => by rw [directive, hhead, hb]; rfl)
      fun out reads => by simp only [fmtStep, hb]; rfl
  · have hminus : (fmtByte load format i).zeroExtend 32 ≠ chr '-' := fun h => by
      rw [h] at hdigit
      exact absurd hdigit (by decide)
    have hzero : (fmtByte load format i).zeroExtend 32 ≠ chr '0' := fun h => by
      rw [h] at hdigit
      exact absurd hdigit (by decide)
    have hdigit' : 48 ≤ (fmtByte load format i).toNat ∧ (fmtByte load format i).toNat ≤ 57 := by
      rw [zeroExtend_toNat] at hdigit
      omega
    obtain ⟨j, hij, hj, hflags, precision', hdigits, hrun⟩ :=
      @number_run load format len (i + 1) ap v hend 0 ((fmtByte load format i).zeroExtend 32) hlt
    refine ⟨v.process precision', ap, j, by omega, hj, fun q hq hq' => ?_, fun k => ?_,
      fun out reads => ?_⟩
    · rcases eq_or_lt_of_le hq with rfl | hq
      · exact hflag
      · exact hflags q hq hq'
    · have hlist :
          digits 0 (fmtRest load format len i) = (precision', fmtRest load format len j) := by
        rw [fmtRest_succ hlt, digits, if_pos hdigit']
        exact hdigits
      rw [directive, hhead]
      simp only [if_neg hminus, if_neg hzero, if_pos hdigit, hlist]
    · refine (Runs.step hi ?_).trans fun reads => hrun out reads
      simp only [fmtStep, if_neg hminus, if_neg hzero, if_pos hdigit]
      rfl
  · exact hone _ _ (fun k => by rw [directive, hhead, hb]; rfl)
      fun out reads => by simp only [fmtStep, hb]; rfl
  · exact hone _ _ (fun k => by rw [directive, hhead, hb]; rfl)
      fun out reads => by simp only [fmtStep, hb]; rfl
  · exact hone _ _ (fun k => by rw [directive, hhead, hb]; rfl)
      fun out reads => by simp only [fmtStep, hb]; rfl
  · exact hone _ _ (fun k => by rw [directive, hhead, hb]; rfl)
      fun out reads => by simp only [fmtStep, hb]; rfl

/-- The flags of a directive. -/
theorem flags_run (hend : fmtByte load format len = 0) (hij : i ≤ j) (hj : j ≤ len)
    (hflags : ∀ q, i ≤ q → q < j → IsFlag (fmtByte load format q))
    (hstop : ¬ IsFlag (fmtByte load format j)) : ∃ v' ap',
      (∀ k, len - i ≤ k → ∃ k', directive load (k + 1) (fmtRest load format len i) v ap =
        directive load (k' + 1) (fmtRest load format len j) v' ap') ∧
      ∀ out reads,
        Runs load format len ⟨.reswitch v, i, ap, out, reads⟩ (.reswitch v') j ap' out := by
  obtain ⟨d, hd⟩ : ∃ d, j - i ≤ d := ⟨_, le_rfl⟩
  induction d generalizing i v ap with
  | zero =>
      obtain rfl : i = j := by omega
      exact ⟨v, ap, fun k _ => ⟨k, rfl⟩, fun out reads => Runs.refl⟩
  | succ d ih =>
      rcases eq_or_lt_of_le hij with rfl | hlt
      · exact ⟨v, ap, fun k _ => ⟨k, rfl⟩, fun out reads => Runs.refl⟩
      · obtain ⟨v₁, ap₁, i₁, hi₁, hlen₁, hflags₁, hlist₁, hrun₁⟩ :=
          @flag_step load format len i ap v hend (by omega) (hflags i le_rfl hlt)
        have hle : i₁ ≤ j := by
          by_contra hgt
          exact hstop (hflags₁ j hij (by omega))
        obtain ⟨v₂, ap₂, hlist₂, hrun₂⟩ := @ih i₁ ap₁ v₁ hle
          (fun q hq hq' => hflags q (by omega) hq') (by omega)
        refine ⟨v₂, ap₂, fun k hk => ?_, fun out reads => (hrun₁ out reads).trans (hrun₂ out)⟩
        obtain ⟨k, rfl⟩ : ∃ k', k = k' + 1 := ⟨k - 1, by omega⟩
        obtain ⟨k', hk'⟩ := hlist₂ k (by omega)
        exact ⟨k', (hlist₁ (k + 1)).trans hk'⟩

/-- Where the flags stop. -/
theorem flags_stop (hend : fmtByte load format len = 0) (hi : i ≤ len) : ∃ j, i ≤ j ∧ j ≤ len ∧
    (∀ q, i ≤ q → q < j → IsFlag (fmtByte load format q)) ∧ ¬ IsFlag (fmtByte load format j) := by
  obtain ⟨d, hd⟩ : ∃ d, len - i = d := ⟨_, rfl⟩
  induction d generalizing i with
  | zero =>
      obtain rfl : i = len := by omega
      exact ⟨i, le_rfl, le_rfl, fun q hq hq' => by omega, hend ▸ not_isFlag_nul⟩
  | succ d ih =>
      by_cases hflag : IsFlag (fmtByte load format i)
      · obtain ⟨j, hij, hj, hflags, hstop⟩ := ih (i := i + 1) (by omega) (by omega)
        refine ⟨j, by omega, hj, fun q hq hq' => ?_, hstop⟩
        rcases eq_or_lt_of_le hq with rfl | hq
        · exact hflag
        · exact hflags q hq hq'
      · exact ⟨i, le_rfl, hi, fun q hq hq' => by omega, hflag⟩

/-! ### The end of a directive -/

theorem end_step (hend : fmtByte load format len = 0) (hj : j ≤ len)
    (hstop : ¬ IsFlag (fmtByte load format j)) :
    match conversion load ((fmtByte load format j).zeroExtend 32) v ap with
    | some (out', ap') => ∀ out reads,
        Runs load format len ⟨.reswitch v, j, ap, out, reads⟩ .text (j + 1) ap' (out ++ out')
    | none => ∀ out reads,
        Runs load format len ⟨.reswitch v, j, ap, out, reads⟩ .back j ap (out ++ [chr '%']) := by
  obtain ⟨hminus, hzero, hdigit, hstar, hdot, hhash, hl⟩ := not_flag hstop
  have hends : ¬ ((fmtByte load format j).zeroExtend 32 = chr 's' ∧
      ¬ StrEnds load (ap.headD 0) v.precision) := fun h => h.2 (strEnds_of_nul hend)
  cases hconv : conversion load ((fmtByte load format j).zeroExtend 32) v ap with
  | none =>
      intro out reads
      refine Runs.step hj ?_
      simp only [fmtStep, if_neg hminus, if_neg hzero, if_neg hdigit, if_neg hstar, if_neg hdot,
        if_neg hhash, if_neg hl, if_neg hends, hconv]
  | some r =>
      obtain ⟨out', ap'⟩ := r
      intro out reads
      refine Runs.step hj ?_
      simp only [fmtStep, if_neg hminus, if_neg hzero, if_neg hdigit, if_neg hstar, if_neg hdot,
        if_neg hhash, if_neg hl, if_neg hends, hconv]
      push_cast
      rfl

/-- The way back to the `%`. -/
theorem back_run {p : ℕ} (hp : (fmtByte load format p).zeroExtend 32 = chr '%') (hpj : p < j)
    (hj : j ≤ len) (hne : ∀ q, p < q → q < j → (fmtByte load format q).zeroExtend 32 ≠ chr '%') :
    Runs load format len ⟨.back, j, ap, out, reads⟩ .text (p + 1) ap out := by
  obtain ⟨d, hd⟩ : ∃ d, j = p + 1 + d := ⟨j - (p + 1), by omega⟩
  induction d generalizing j reads with
  | zero =>
      obtain rfl : j = p + 1 := hd
      have hprev : ((p + 1 : ℕ) : ℤ) - 1 = p := by push_cast; omega
      refine Runs.step (by omega : p ≤ len) ?_
      simp only [fmtStep, hprev, if_pos hp]
  | succ d ih =>
      obtain ⟨j', rfl⟩ : ∃ j', j = j' + 1 := ⟨j - 1, by omega⟩
      have hprev : ((j' + 1 : ℕ) : ℤ) - 1 = j' := by push_cast; omega
      have hstep : Runs load format len ⟨.back, (j' + 1 : ℕ), ap, out, reads⟩ .back j' ap out := by
        refine Runs.step (by omega : j' ≤ len) ?_
        simp only [fmtStep, hprev, if_neg (hne j' (by omega) (by omega))]
      exact hstep.trans fun reads =>
        ih (by omega) (by omega) (fun q hq hq' => hne q hq (by omega)) (by omega)

/-! ### The text -/

/-- The bytes of the format from `i` up to `j`, as they are passed to `putch`. -/
def literal (load : Word → BitVec 8) (format : Word) (i j : ℕ) : List Word :=
  (List.range' i (j - i)).map fun q : ℕ => (fmtByte load format q).zeroExtend 32

theorem literal_succ (h : i < j) : literal load format i j =
    (fmtByte load format i).zeroExtend 32 :: literal load format (i + 1) j := by
  unfold literal
  obtain ⟨k, hk⟩ : ∃ k, j - i = k + 1 := ⟨j - i - 1, by omega⟩
  have hk' : j - (i + 1) = k := by omega
  rw [hk, hk', List.range'_succ, List.map_cons]

theorem append_literal (h : i < j) : out ++ literal load format i j =
    out ++ [(fmtByte load format i).zeroExtend 32] ++ literal load format (i + 1) j := by
  rw [literal_succ h, List.append_cons]

theorem literal_self : literal load format i i = [] := by
  unfold literal
  rw [Nat.sub_self]
  rfl

theorem text_step (hi : i ≤ len) (hpercent : (fmtByte load format i).zeroExtend 32 ≠ chr '%')
    (hnul : fmtByte load format i ≠ 0) : Runs load format len ⟨.text, i, ap, out, reads⟩ .text
      (i + 1) ap (out ++ [(fmtByte load format i).zeroExtend 32]) := by
  refine Runs.step hi ?_
  simp only [fmtStep, if_neg hpercent, if_neg hnul]
  push_cast
  rfl

theorem percent_step (hi : i ≤ len) (hpercent : (fmtByte load format i).zeroExtend 32 = chr '%') :
    Runs load format len ⟨.text, i, ap, out, reads⟩ (.reswitch .init) (i + 1) ap out := by
  refine Runs.step hi ?_
  simp only [fmtStep, if_pos hpercent]
  push_cast
  rfl

theorem ret_step (hend : fmtByte load format len = 0) :
    Runs load format len ⟨.text, len, ap, out, reads⟩ .ret (len + 1) ap out := by
  refine Runs.step le_rfl ?_
  simp only [fmtStep, hend]
  push_cast
  rfl

theorem text_run (hij : i ≤ j) (hj : j ≤ len)
    (hplain : ∀ q, i ≤ q → q < j →
      (fmtByte load format q).zeroExtend 32 ≠ chr '%' ∧ fmtByte load format q ≠ 0) :
    Runs load format len ⟨.text, i, ap, out, reads⟩ .text j ap
      (out ++ literal load format i j) := by
  obtain ⟨d, hd⟩ : ∃ d, j = i + d := ⟨j - i, by omega⟩
  induction d generalizing i out reads with
  | zero =>
      obtain rfl : j = i := hd
      rw [literal_self, List.append_nil]
      exact Runs.refl
  | succ d ih =>
      obtain ⟨hpercent, hnul⟩ := hplain i le_rfl (by omega)
      rw [append_literal (by omega)]
      exact (text_step (by omega) hpercent hnul).trans fun reads =>
        ih (by omega) (fun q hq hq' => hplain q (by omega) hq') (by omega)

theorem not_percent_of_flag {b : BitVec 8} (h : IsFlag b) : b.zeroExtend 32 ≠ chr '%' := by
  revert b
  decide +kernel

theorem not_percent_of_unknown {b : BitVec 8} (h : ¬ IsConversion b) :
    b.zeroExtend 32 ≠ chr '%' := by
  revert b
  decide +kernel

/-- A directive that ends at a character which is no conversion: the `%` is
printed, and the pointer goes back to the next character. -/
theorem malformed_run {p : ℕ} (hend : fmtByte load format len = 0) (hpj : p < j) (hj : j ≤ len)
    (hp : (fmtByte load format p).zeroExtend 32 = chr '%')
    (hflags : ∀ q, p < q → q < j → IsFlag (fmtByte load format q))
    (hstop : ¬ IsFlag (fmtByte load format j)) {v' : Conv}
    (hrun : ∀ out reads, Runs load format len ⟨.reswitch .init, (p + 1 : ℕ), ap, out, reads⟩
      (.reswitch v') j ap' out)
    (hconv : conversion load ((fmtByte load format j).zeroExtend 32) v' ap' = none) :
    Runs load format len ⟨.text, p, ap, out, reads⟩ .text (p + 1) ap' (out ++ [chr '%']) := by
  have hback := @end_step load format len j ap' v' hend hj hstop
  rw [hconv] at hback
  refine (percent_step (by omega) hp).trans fun reads => (hrun out reads).trans fun reads =>
    (hback out reads).trans fun reads => back_run hp hpj hj fun q hq hq' => ?_
  exact not_percent_of_flag (hflags q hq hq')

/-- The output of such a directive is its text. -/
theorem literal_run {p : ℕ} (hend : fmtByte load format len = 0)
    (hbytes : ∀ q < len, fmtByte load format q ≠ 0) (hpj : p < j) (hj : j ≤ len)
    (hp : (fmtByte load format p).zeroExtend 32 = chr '%')
    (hflags : ∀ q, p < q → q < j → IsFlag (fmtByte load format q))
    (hstop : ¬ IsFlag (fmtByte load format j)) (hunknown : ¬ IsConversion (fmtByte load format j)) :
    ∃ ap', Runs load format len ⟨.text, p, ap, out, reads⟩
      (if j = len then .ret else .text) (j + 1) ap'
        (out ++ literal load format p (min (j + 1) len)) := by
  obtain ⟨v', ap', -, hrun⟩ := @flags_run load format len (p + 1) j ap .init hend hpj hj
    (fun q hq hq' => hflags q hq hq') hstop
  refine ⟨ap', (malformed_run hend hpj hj hp hflags hstop hrun
    (conversion_none hunknown)).trans fun reads => ?_⟩
  rw [append_literal (by omega), hp]
  have hplain (q : ℕ) (hq : p + 1 ≤ q) (hq' : q < min (j + 1) len) :
      (fmtByte load format q).zeroExtend 32 ≠ chr '%' ∧ fmtByte load format q ≠ 0 := by
    refine ⟨?_, hbytes q (by omega)⟩
    rcases lt_or_eq_of_le (show q ≤ j by omega) with hlt | rfl
    · exact not_percent_of_flag (hflags q hq hlt)
    · exact not_percent_of_unknown hunknown
  rcases eq_or_lt_of_le hj with rfl | hlt
  · rw [if_pos rfl, Nat.min_eq_right (Nat.le_succ j)] at *
    exact (text_run hpj le_rfl hplain).trans fun reads => ret_step hend
  · rw [if_neg hlt.ne, Nat.min_eq_left hlt] at *
    exact text_run (by omega) hlt hplain

/-! ### The whole run -/

theorem loop_nil (hend : fmtByte load format len = 0) {k : ℕ} : ∃ ap', ∀ reads,
    Runs load format len ⟨.text, len, ap, out, reads⟩ .ret (len + 1) ap'
      (out ++ vprintfmtLoop load k (fmtRest load format len len) ap) := by
  refine ⟨ap, fun reads => ?_⟩
  rw [fmtRest_of_le le_rfl, vprintfmtLoop_nil, List.append_nil]
  exact ret_step hend

/-- The loop prints what the list function computes from the rest of the format. -/
theorem loop_run (hend : fmtByte load format len = 0)
    (hbytes : ∀ q < len, fmtByte load format q ≠ 0) {k : ℕ} (hi : i ≤ len) (hk : len - i ≤ k) :
    ∃ ap', ∀ reads, Runs load format len ⟨.text, i, ap, out, reads⟩ .ret (len + 1) ap'
      (out ++ vprintfmtLoop load k (fmtRest load format len i) ap) := by
  induction k generalizing i ap out with
  | zero =>
      obtain rfl : i = len := by omega
      exact loop_nil hend
  | succ k ih =>
      rcases eq_or_lt_of_le hi with rfl | hlt
      · exact loop_nil hend
      have hnul := hbytes i hlt
      -- the loop from a later index
      have hrest {i' : ℕ} (hi' : i < i') (hle : i' ≤ len) (ap₁ out₁ : List Word) : ∃ ap', ∀ reads,
          Runs load format len ⟨.text, i', ap₁, out₁, reads⟩ .ret (len + 1) ap'
            (out₁ ++ vprintfmtLoop load k (fmtRest load format len i') ap₁) := ih hle (by omega)
      rw [fmtRest_succ hlt, vprintfmtLoop, if_neg hnul]
      by_cases hpercent : (fmtByte load format i).zeroExtend 32 = chr '%'
      · rw [if_neg (not_not.mpr hpercent)]
        obtain ⟨j, hij, hj, hflags, hstop⟩ := flags_stop hend (show i + 1 ≤ len by omega)
        obtain ⟨v', ap', hlist, hrun⟩ := @flags_run load format len (i + 1) j ap .init hend hij hj
          hflags hstop
        have hlen : (fmtRest load format len (i + 1)).length = len - (i + 1) := by
          simp [fmtRest]
        obtain ⟨k', hk'⟩ := hlist (len - (i + 1)) (le_refl _)
        rw [hlen, hk', directive_end (fmtRest_headD hend hj) hstop]
        have hlast := @end_step load format len j ap' v' hend hj hstop
        cases hconv : conversion load ((fmtByte load format j).zeroExtend 32) v' ap' with
        | none =>
            -- the directive is not known
            obtain ⟨ap'', hrest⟩ := hrest (Nat.lt_succ_self i) hlt ap' (out ++ [chr '%'])
            refine ⟨ap'', fun reads => ?_⟩
            rw [ended, List.append_cons]
            exact (malformed_run hend hij hj hpercent hflags hstop hrun hconv).trans hrest
        | some r =>
            obtain ⟨out', ap₁⟩ := r
            rw [hconv] at hlast
            have hjlen : j < len := by
              rcases lt_or_eq_of_le hj with hlt | rfl
              · exact hlt
              · rw [hend, conversion_none (by decide)] at hconv
                cases hconv
            obtain ⟨ap'', hrest⟩ := hrest (show i < j + 1 by omega) hjlen ap₁ (out ++ out')
            refine ⟨ap'', fun reads => ?_⟩
            rw [ended, fmtRest_tail, ← List.append_assoc]
            exact (percent_step hi hpercent).trans fun reads => (hrun out reads).trans fun reads =>
              (hlast out reads).trans hrest
      · rw [if_pos hpercent]
        obtain ⟨ap'', hrest⟩ := hrest (Nat.lt_succ_self i) hlt ap
          (out ++ [(fmtByte load format i).zeroExtend 32])
        refine ⟨ap'', fun reads => ?_⟩
        rw [List.append_cons]
        exact (text_step hi hpercent hnul).trans hrest

/-- `vprintfmt` returns, after it has printed what the list function computes,
and reads no byte after the terminator of the format or before its start. When
it comes to a directive that ends at a character which is no conversion (the
terminator is none), it prints the directive as it stands and goes on after it. -/
theorem vprintfmt_runs (hend : fmtByte load format len = 0)
    (hbytes : ∀ q < len, fmtByte load format q ≠ 0) (ap : List Word) :
    (∃ t, FmtRun load format (fmtStart ap) t ∧ t.pc = .ret ∧
      t.out = vprintfmt load (fmtRest load format len 0) ap ∧ ReadsIn len t.reads) ∧
    ∀ (s : FmtState) (p j : ℕ), FmtRun load format (fmtStart ap) s → s.pc = .text → s.fmt = p →
      (fmtByte load format p).zeroExtend 32 = chr '%' → p < j → j ≤ len →
      (∀ q : ℕ, p < q → q < j → IsFlag (fmtByte load format q)) →
      ¬ IsFlag (fmtByte load format j) → ¬ IsConversion (fmtByte load format j) →
        ∃ s', FmtRun load format s s' ∧ s'.pc = (if j = len then .ret else .text) ∧
          s'.fmt = (j : ℤ) + 1 ∧ s'.out = s.out ++ literal load format p (min (j + 1) len) := by
  constructor
  · have hlen : (fmtRest load format len 0).length = len := by simp [fmtRest]
    obtain ⟨ap', hloop⟩ := @loop_run load format len 0 ap [] hend hbytes len (Nat.zero_le _) le_rfl
    obtain ⟨reads, hrun, hreads⟩ := hloop []
    refine ⟨_, hrun, rfl, ?_, hreads nofun⟩
    rw [vprintfmt, hlen]
    rfl
  · rintro ⟨pc, fmt, ap₁, out, reads⟩ p j - rfl rfl hp hpj hj hflags hstop hunknown
    obtain ⟨ap', reads', hrun, -⟩ := @literal_run load format len j ap₁ out reads p hend hbytes
      hpj hj hp hflags hstop hunknown
    exact ⟨_, hrun, rfl, by push_cast; rfl, rfl⟩

/-- The terminator in the place of a conversion, after a flag and a width. -/
theorem vprintfmt_runs_truncated : ∃ t,
    FmtRun (fun a => (str "ab%-5").getD a.toNat 0) 0 (fmtStart []) t ∧ t.pc = .ret ∧
      t.out = (str "ab%-5").map charInt ∧ ReadsIn 5 t.reads := by
  obtain ⟨⟨t, hrun, hpc, hout, hreads⟩, -⟩ :=
    @vprintfmt_runs (fun a => (str "ab%-5").getD a.toNat 0) 0 5 (by decide) (by decide) []
  exact ⟨t, hrun, hpc, hout.trans (by decide +kernel), hreads⟩

end Jos
