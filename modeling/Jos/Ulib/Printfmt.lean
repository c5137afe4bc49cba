import Jos.Kern.Printfmt

/-!
lib/printfmt.c, which the kernel and user programs share: the characters that
`vprintfmt` passes to `putch`, in order, as the `int` values it passes. It
never reads what `putch` has done, so they depend on the format, the
arguments and the memory the strings are in. A format is the list of its bytes
before the NUL, an argument list the words that `va_arg` takes from it.
-/

namespace Jos

/-- A character constant, as an `int`. -/
def chr (c : Char) : Word := BitVec.ofNat 32 c.toNat

/-- The bytes of a string constant. -/
def str (s : String) : List (BitVec 8) := s.toList.map fun c => BitVec.ofNat 8 c.toNat

/-- A `char`, which is signed, as an `int`. -/
def charInt (b : BitVec 8) : Word := b.signExtend 32

/-- A `long long` as it is passed, the low word first. -/
def longLong (lo hi : Word) : BitVec 64 := hi ++ lo

/-- `while (--width > 0) putch(padc, putdat)`. -/
def padding (width padc : Word) : List Word := List.replicate (width - 1).toInt.toNat padc

/-- `printnum`; a 64-bit number has at most 64 digits. -/
def printnum : ℕ → ℕ → ℕ → Word → Word → List Word
  | 0, _, _, _, _ => []
  | k + 1, num, base, width, padc =>
      (if base ≤ num then printnum k (num / base) base (width - 1) padc
        else padding width padc) ++
        [charInt ((str "0123456789abcdef").getD (num % base) 0)]

/-- The flags of one directive. -/
structure Conv where
  padc : Word
  width : Word
  precision : Word
  lflag : ℕ
  altflag : Bool

def Conv.init : Conv := ⟨chr ' ', -1, -1, 0, false⟩

/-- `process_precision`. -/
def Conv.process (v : Conv) (precision : Word) : Conv :=
  if v.width.slt 0 then { v with width := precision, precision := -1 }
  else { v with precision := precision }

/-- The rest of a number in the format. -/
def digits (precision : Word) : List (BitVec 8) → Word × List (BitVec 8)
  | [] => (precision, [])
  | ch :: fmt =>
      if 48 ≤ ch.toNat ∧ ch.toNat ≤ 57 then
        digits (precision * 10 + ch.zeroExtend 32 - chr '0') fmt
      else (precision, ch :: fmt)

def getuint (lflag : ℕ) (ap : List Word) : BitVec 64 × List Word :=
  if 2 ≤ lflag then (longLong (ap.headD 0) (ap.tail.headD 0), ap.tail.tail)
  else ((ap.headD 0).zeroExtend 64, ap.tail)

def getint (lflag : ℕ) (ap : List Word) : BitVec 64 × List Word :=
  if 2 ≤ lflag then (longLong (ap.headD 0) (ap.tail.headD 0), ap.tail.tail)
  else ((ap.headD 0).signExtend 64, ap.tail)

def errorString : List String :=
  ["", "unspecified error", "bad environment", "invalid parameter", "out of memory",
    "out of environments", "segmentation fault", "env is not recving", "unexpected end of file"]

/-- The characters of a string up to the precision. -/
def strChars (load : Word → BitVec 8) (p precision : Word) : List (BitVec 8) :=
  if p = 0 then (printNull precision).out
  else (printLoop (fun va => some (load va)) 4294967296 p precision).out

/-- The `%s` conversion. `strnlen` takes its limit as a `size_t` and counts the
same characters. -/
def formatString (load : Word → BitVec 8) (v : Conv) (p : Word) : List Word :=
  let chars := strChars load p v.precision
  let len := BitVec.ofNat 32 chars.length
  let left := if (0 : Word).slt v.width ∧ v.padc ≠ chr '-' then (v.width - len).toInt.toNat else 0
  let width := if (0 : Word).slt v.width ∧ v.padc ≠ chr '-' then
      (if (0 : Word).slt (v.width - len) then 0 else v.width - len) - len
    else v.width - len
  let shown := chars.map fun ch =>
    let ch := charInt ch
    if v.altflag ∧ (ch.slt (chr ' ') ∨ (chr '~').slt ch) then chr '?' else ch
  List.replicate left v.padc ++ shown ++ List.replicate width.toInt.toNat (chr ' ')

/-- The `%d` conversion. -/
def formatInt (v : Conv) (num : BitVec 64) : List Word :=
  if num.slt 0 then chr '-' :: printnum 64 (-num).toNat 10 v.width v.padc
  else printnum 64 num.toNat 10 v.width v.padc

/-- The `%e` conversion. The most negative error code, whose negation is
itself, would be read outside of the table. -/
def formatError (err : Word) : List Word :=
  let err := if err.slt 0 then -err else err
  match errorString[err.toNat]? with
  | some text =>
      if err = 0 then (str "error ").map charInt ++ formatInt .init (err.signExtend 64)
      else (str text).map charInt
  | none => (str "error ").map charInt ++ formatInt .init (err.signExtend 64)

/-- One directive, from `reswitch` on: the characters, the rest of the format
and the arguments left. It is an error where the directive is not recognized,
whose text is then printed literally; the arguments of its stars are gone. -/
def directive (load : Word → BitVec 8) : ℕ → List (BitVec 8) → Conv → List Word →
    Except (List Word) (List Word × List (BitVec 8) × List Word)
  | 0, _, _, ap => .error ap
  | k + 1, fmt, v, ap =>
      let ch := (fmt.headD 0).zeroExtend 32
      let rest := fmt.tail
      if ch = chr '-' then directive load k rest { v with padc := chr '-' } ap
      else if ch = chr '0' then directive load k rest { v with padc := chr '0' } ap
      else if 49 ≤ ch.toNat ∧ ch.toNat ≤ 57 then
        let (precision, rest) := digits 0 fmt
        directive load k rest (v.process precision) ap
      else if ch = chr '*' then directive load k rest (v.process (ap.headD 0)) ap.tail
      else if ch = chr '.' then
        directive load k rest (if v.width.slt 0 then { v with width := 0 } else v) ap
      else if ch = chr '#' then directive load k rest { v with altflag := true } ap
      else if ch = chr 'l' then directive load k rest { v with lflag := v.lflag + 1 } ap
      else if ch = chr 'c' then .ok ([ap.headD 0], rest, ap.tail)
      else if ch = chr 'e' then .ok (formatError (ap.headD 0), rest, ap.tail)
      else if ch = chr 's' then .ok (formatString load v (ap.headD 0), rest, ap.tail)
      else if ch = chr 'd' then
        let (num, ap) := getint v.lflag ap
        .ok (formatInt v num, rest, ap)
      else if ch = chr 'u' then
        let (num, ap) := getuint v.lflag ap
        .ok (printnum 64 num.toNat 10 v.width v.padc, rest, ap)
      else if ch = chr 'o' then
        let (num, ap) := getuint v.lflag ap
        .ok (printnum 64 num.toNat 8 v.width v.padc, rest, ap)
      else if ch = chr 'p' then
        .ok (chr '0' :: chr 'x' :: printnum 64 (ap.headD 0).toNat 16 v.width v.padc, rest, ap.tail)
      else if ch = chr 'x' then
        let (num, ap) := getuint v.lflag ap
        .ok (printnum 64 num.toNat 16 v.width v.padc, rest, ap)
      else if ch = chr '%' then .ok ([ch], rest, ap)
      else .error ap

/-- `vprintfmt`: the values passed to `putch`. Each turn of the loop uses up a
character of the format. -/
def vprintfmtLoop (load : Word → BitVec 8) : ℕ → List (BitVec 8) → List Word → List Word
  | 0, _, _ => []
  | _, [], _ => []
  | k + 1, ch :: fmt, ap =>
      if ch = 0 then []
      else if ch.zeroExtend 32 ≠ chr '%' then ch.zeroExtend 32 :: vprintfmtLoop load k fmt ap
      else
        match directive load (fmt.length + 1) fmt .init ap with
        | .ok (out, rest, ap) => out ++ vprintfmtLoop load k rest ap
        | .error ap => chr '%' :: vprintfmtLoop load k fmt ap

theorem vprintfmtLoop_nil {load : Word → BitVec 8} {k : ℕ} {ap : List Word} :
    vprintfmtLoop load k [] ap = [] := by
  cases k <;> rfl

def vprintfmt (load : Word → BitVec 8) (fmt : List (BitVec 8)) (ap : List Word) : List Word :=
  vprintfmtLoop load fmt.length fmt ap

example : vprintfmt (fun _ => 0) (str "%d,%5x|%%") [-7, 0xBEEF] =
    (str "-7, beef|%").map charInt := by
  decide +kernel

end Jos
