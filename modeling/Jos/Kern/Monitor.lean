import Mathlib.Logic.Function.Basic
import Jos.Lib.Words
import Jos.Ulib.Printfmt

/-!
`runcmd` of kern/monitor.c. A line is the bytes from its start to the first NUL;
pointers into it are offsets, and `NULL` is `none`. `runcmd` overwrites the
whitespace before the argument it looks for next, so the arguments found so far
end in a NUL when the one behind them is looked for (`nulled`).
-/

namespace Jos

open Jos.Lib

/-! ### The parser -/

def whitespace : List (BitVec 8) := str "\t\r\n "

def maxArgs : ℕ := 16

/-- `strchr`, in a string constant. -/
def strchr (c : BitVec 8) : List (BitVec 8) → Option ℕ
  | [] => none
  | ch :: s => if ch = c then some 0 else (strchr c s).map (· + 1)

structure Cmdline where
  mem : ℕ → BitVec 8
  buf : ℕ
  argc : ℕ
  argv : ℕ → Option ℕ
  reads : List ℕ
  writes : List ℕ
  argvWrites : List ℕ

/-- `argv[argc] = arg`. -/
def Cmdline.setArg (s : Cmdline) (arg : Option ℕ) : Cmdline :=
  { s with argv := Function.update s.argv s.argc arg, argvWrites := s.argvWrites ++ [s.argc] }

/-- `while (*buf && strchr(WHITESPACE, *buf)) *buf++ = 0` -/
def gobble : ℕ → Cmdline → Option Cmdline
  | 0, _ => none
  | k + 1, s =>
      let ch := s.mem s.buf
      let s := { s with reads := s.reads ++ [s.buf] }
      if ch ≠ 0 ∧ (strchr ch whitespace).isSome then
        gobble k { s with
          mem := Function.update s.mem s.buf 0, buf := s.buf + 1, writes := s.writes ++ [s.buf] }
      else some s

/-- `while (*buf && !strchr(WHITESPACE, *buf)) buf++` -/
def scanArg : ℕ → Cmdline → Option Cmdline
  | 0, _ => none
  | k + 1, s =>
      let ch := s.mem s.buf
      let s := { s with reads := s.reads ++ [s.buf] }
      if ch ≠ 0 ∧ ¬ (strchr ch whitespace).isSome then scanArg k { s with buf := s.buf + 1 }
      else some s

/-- The loop that fills `argv`, until the end of the line (`true`) or until
there are too many arguments. -/
def parseArgs (fuel : ℕ) : ℕ → Cmdline → Option (Bool × Cmdline)
  | 0, _ => none
  | k + 1, s => do
      let s ← gobble fuel s
      if s.mem s.buf = 0 then some (true, s)
      else if s.argc = maxArgs - 1 then some (false, s)
      else
        let s := { s.setArg (some s.buf) with argc := s.argc + 1 }
        let s ← scanArg fuel s
        parseArgs fuel k s

/-! ### The commands -/

inductive Command where
  | help | kerninfo | backtrace
  deriving DecidableEq

def Command.name : Command → List (BitVec 8)
  | .help => str "help"
  | .kerninfo => str "kerninfo"
  | .backtrace => str "backtrace"

def commands : List Command := [.help, .kerninfo, .backtrace]

/-- `strcmp(p, q)` for a string constant `q`, and what it reads at `p`. -/
def strcmp (mem : ℕ → BitVec 8) (p : ℕ) : List (BitVec 8) → ℤ × List ℕ
  | [] => ((mem p).toNat, [p])
  | ch :: q =>
      if mem p ≠ 0 ∧ mem p = ch then
        let (diff, reads) := strcmp mem (p + 1) q
        (diff, p :: reads)
      else ((mem p).toNat - ch.toNat, [p])

/-- The first command of the table with this name. -/
def findCommand (mem : ℕ → BitVec 8) (p : ℕ) : List Command → Option Command × List ℕ
  | [] => (none, [])
  | c :: cs =>
      let (diff, reads) := strcmp mem p c.name
      if diff = 0 then (some c, reads)
      else
        let (found, reads') := findCommand mem p cs
        (found, reads ++ reads')

/-- The characters of `%s`, and what it reads. -/
def shown (mem : ℕ → BitVec 8) : ℕ → ℕ → Option (List (BitVec 8) × List ℕ)
  | 0, _ => none
  | k + 1, p =>
      if mem p = 0 then some ([], [p])
      else do
        let (chars, reads) ← shown mem k (p + 1)
        some (mem p :: chars, p :: reads)

inductive CmdOutcome where
  | nothing
  /-- Too many arguments (max 16) -/
  | tooMany
  /-- Unknown command -/
  | unknown (name : List (BitVec 8))
  /-- The command is called with `argc`, and `argv` as it is then. -/
  | call (c : Command) (argc : ℕ)
  deriving DecidableEq

/-- `runcmd`, on a stack where `argv` is. -/
def runcmd (fuel : ℕ) (line : ℕ → BitVec 8) (stack : ℕ → Option ℕ) :
    Option (CmdOutcome × Cmdline) := do
  let s : Cmdline := ⟨line, 0, 0, stack, [], [], []⟩
  let (parsed, s) ← parseArgs fuel fuel (s.setArg none)
  if ¬ parsed then some (.tooMany, s)
  else
    let s := s.setArg none
    if s.argc = 0 then some (.nothing, s)
    else
      let arg0 := (s.argv 0).getD 0
      let (found, reads) := findCommand s.mem arg0 commands
      let s := { s with reads := s.reads ++ reads }
      match found with
      | some c => some (.call c s.argc, s)
      | none => do
          let (name, reads) ← shown s.mem fuel arg0
          some (.unknown name, { s with reads := s.reads ++ reads })

/-! ### Whitespace and arguments -/

variable {line mem : ℕ → BitVec 8} {len k p e : ℕ} {s s' : Cmdline} {l : List (ℕ × ℕ)}

def IsWhite (ch : BitVec 8) : Prop := ch ∈ whitespace

theorem strchr_isSome {c : BitVec 8} {s : List (BitVec 8)} : (strchr c s).isSome ↔ c ∈ s := by
  induction s with
  | nil => exact iff_of_false Bool.false_ne_true List.not_mem_nil
  | cons ch s ih =>
      rw [strchr, List.mem_cons]
      by_cases h : ch = c
      · rw [if_pos h]
        exact iff_of_true rfl (Or.inl h.symm)
      · rw [if_neg h, Option.isSome_map, ih]
        exact ⟨Or.inr, fun hmem => hmem.resolve_left fun heq => h heq.symm⟩

instance (ch : BitVec 8) : Decidable (IsWhite ch) := decidable_of_iff _ strchr_isSome

/-- The line with the whitespace before `p` overwritten. -/
def nulled (line : ℕ → BitVec 8) (p q : ℕ) : BitVec 8 :=
  if q < p ∧ IsWhite (line q) then 0 else line q

theorem nulled_of_le {q : ℕ} (h : p ≤ q) : nulled line p q = line q := if_neg (by omega)

theorem nulled_white (h : IsWhite (line p)) :
    Function.update (nulled line p) p 0 = nulled line (p + 1) := by
  funext q
  rcases lt_trichotomy q p with hlt | rfl | hgt
  · rw [Function.update_of_ne (by omega)]
    unfold nulled
    simp only [hlt, show q < p + 1 by omega]
  · rw [Function.update_self]
    exact (if_pos ⟨by omega, h⟩).symm
  · rw [Function.update_of_ne (by omega), nulled_of_le (by omega), nulled_of_le (by omega)]

theorem nulled_char (h : ¬ IsWhite (line p)) : nulled line p = nulled line (p + 1) := by
  funext q
  rcases lt_trichotomy q p with hlt | rfl | hgt
  · unfold nulled
    simp only [hlt, show q < p + 1 by omega]
  · rw [nulled_of_le le_rfl]
    exact (if_neg fun hwhite => h hwhite.2).symm
  · rw [nulled_of_le (by omega), nulled_of_le (by omega)]

/-- What has been done to the line of length `len`. -/
structure InLine (line : ℕ → BitVec 8) (len : ℕ) (s : Cmdline) : Prop where
  mem : s.mem = nulled line s.buf
  le : s.buf ≤ len
  reads : ∀ q ∈ s.reads, q ≤ len
  writes : ∀ q ∈ s.writes, q < len ∧ IsWhite (line q)
  frame : ∀ q, q ∉ s.writes → s.mem q = line q

/-- A loop has gone from one place to another over characters of one kind. -/
structure Passed (line : ℕ → BitVec 8) (len : ℕ) (P : BitVec 8 → Prop) (s s' : Cmdline) : Prop where
  inLine : InLine line len s'
  le : s.buf ≤ s'.buf
  all : ∀ q, s.buf ≤ q → q < s'.buf → P (line q)
  last : s'.buf = len ∨ ¬ P (line s'.buf)
  argc : s'.argc = s.argc
  argv : s'.argv = s.argv
  argvWrites : s'.argvWrites = s.argvWrites

theorem InLine.read (h : InLine line len s) :
    InLine line len { s with reads := s.reads ++ [s.buf] } where
  mem := h.mem
  le := h.le
  reads q hq := by
    rcases List.mem_append.mp hq with hq | hq
    · exact h.reads q hq
    · rw [List.mem_singleton.mp hq]
      exact h.le
  writes := h.writes
  frame := h.frame

/-- The loop stops where it is. -/
theorem InLine.stays {P : BitVec 8 → Prop} (h : InLine line len s)
    (hlast : s.buf = len ∨ ¬ P (line s.buf)) :
    Passed line len P s { s with reads := s.reads ++ [s.buf] } where
  inLine := h.read
  le := le_rfl
  all _ hle hlt := absurd hlt (not_lt.mpr hle)
  last := hlast
  argc := rfl
  argv := rfl
  argvWrites := rfl

/-- The loop goes on from the next character. -/
theorem Passed.next {P : BitVec 8 → Prop} {t : Cmdline} (h : Passed line len P t s')
    (hbuf : t.buf = s.buf + 1) (hP : P (line s.buf)) (hargc : t.argc = s.argc)
    (hargv : t.argv = s.argv) (hwrites : t.argvWrites = s.argvWrites) :
    Passed line len P s s' where
  inLine := h.inLine
  le := by
    have hle := h.le
    omega
  all q hle hlt := by
    rcases Nat.eq_or_lt_of_le hle with rfl | hgt
    · exact hP
    · exact h.all q (by omega) hlt
  last := h.last
  argc := h.argc.trans hargc
  argv := h.argv.trans hargv
  argvWrites := h.argvWrites.trans hwrites

variable (hend : line len = 0) (hline : ∀ q < len, line q ≠ 0)

include hend hline in
theorem gobble_passed (hs : InLine line len s) (hk : len - s.buf < k) :
    ∃ s', gobble k s = some s' ∧ Passed line len IsWhite s s' := by
  induction k generalizing s with
  | zero => omega
  | succ k ih =>
      have hch : s.mem s.buf = line s.buf := by rw [hs.mem, nulled_of_le le_rfl]
      unfold gobble
      simp only [hch, strchr_isSome]
      by_cases hwhite : line s.buf ≠ 0 ∧ line s.buf ∈ whitespace
      · rw [if_pos hwhite]
        have hlt : s.buf < len := lt_of_le_of_ne hs.le fun heq => hwhite.1 (heq ▸ hend)
        have hnext : InLine line len { s with
            mem := Function.update s.mem s.buf 0, buf := s.buf + 1, reads := s.reads ++ [s.buf],
            writes := s.writes ++ [s.buf] } :=
          { mem := by
              change Function.update s.mem s.buf 0 = _
              rw [hs.mem, nulled_white hwhite.2]
            le := hlt
            reads := hs.read.reads
            writes := fun q hq => by
              rcases List.mem_append.mp hq with hq | hq
              · exact hs.writes q hq
              · rw [List.mem_singleton.mp hq]
                exact ⟨hlt, hwhite.2⟩
            frame := fun q hq => by
              have hne : q ≠ s.buf := fun heq =>
                hq (List.mem_append_right _ (List.mem_singleton.mpr heq))
              exact (Function.update_of_ne hne _ _).trans
                (hs.frame q fun hmem => hq (List.mem_append_left _ hmem)) }
        obtain ⟨s', hrun, hpassed⟩ := ih hnext (by change len - (s.buf + 1) < k; omega)
        exact ⟨s', hrun, hpassed.next rfl hwhite.2 rfl rfl rfl⟩
      · rw [if_neg hwhite]
        refine ⟨_, rfl, hs.stays ?_⟩
        rcases Nat.eq_or_lt_of_le hs.le with heq | hlt
        · exact Or.inl heq
        · exact Or.inr fun hmem => hwhite ⟨hline _ hlt, hmem⟩

include hend hline in
theorem scanArg_passed (hs : InLine line len s) (hk : len - s.buf < k) :
    ∃ s', scanArg k s = some s' ∧ Passed line len (fun ch => ¬ IsWhite ch) s s' := by
  induction k generalizing s with
  | zero => omega
  | succ k ih =>
      have hch : s.mem s.buf = line s.buf := by rw [hs.mem, nulled_of_le le_rfl]
      unfold scanArg
      simp only [hch, strchr_isSome]
      by_cases hchar : line s.buf ≠ 0 ∧ line s.buf ∉ whitespace
      · rw [if_pos hchar]
        have hlt : s.buf < len := lt_of_le_of_ne hs.le fun heq => hchar.1 (heq ▸ hend)
        have hnext : InLine line len { s with
            buf := s.buf + 1, reads := s.reads ++ [s.buf] } :=
          { mem := hs.mem.trans (nulled_char hchar.2)
            le := hlt
            reads := hs.read.reads
            writes := hs.writes
            frame := hs.frame }
        obtain ⟨s', hrun, hpassed⟩ := ih hnext (by change len - (s.buf + 1) < k; omega)
        exact ⟨s', hrun, hpassed.next rfl hchar.2 rfl rfl rfl⟩
      · rw [if_neg hchar]
        refine ⟨_, rfl, hs.stays ?_⟩
        rcases Nat.eq_or_lt_of_le hs.le with heq | hlt
        · exact Or.inl heq
        · exact Or.inr fun hnot => hchar ⟨hline _ hlt, hnot⟩

/-! ### The arguments -/

/-- The arguments `l` have been found. No argument goes on at the place where
the parser is. -/
structure Parsed (line : ℕ → BitVec 8) (len : ℕ) (l : List (ℕ × ℕ)) (s : Cmdline) : Prop where
  inLine : InLine line len s
  words : WordsTo (fun q => ¬ IsWhite (line q)) len s.buf l
  gap : s.buf = 0 ∨ ¬ ¬ IsWhite (line (s.buf - 1)) ∨ s.buf = len ∨ ¬ ¬ IsWhite (line s.buf)
  argc : s.argc = l.length
  few : l.length ≤ maxArgs - 1
  argv : ∀ i w, l[i]? = some w → s.argv i = some w.1
  argvWrites : ∀ i ∈ s.argvWrites, i ≤ maxArgs - 1

theorem Parsed.gobble (h : Parsed line len l s) (hpassed : Passed line len IsWhite s s') :
    Parsed line len l s' where
  inLine := hpassed.inLine
  words := h.words.skip hpassed.le fun q hle hlt hnot => hnot (hpassed.all q hle hlt)
  gap := by
    rcases Nat.eq_or_lt_of_le hpassed.le with heq | hlt
    · rw [← heq]
      exact h.gap
    · exact Or.inr (Or.inl (not_not.mpr (hpassed.all _ (by omega) (by omega))))
  argc := hpassed.argc.trans h.argc
  few := h.few
  argv i w hw := by
    rw [hpassed.argv]
    exact h.argv i w hw
  argvWrites := by
    rw [hpassed.argvWrites]
    exact h.argvWrites

/-- There is an argument at this place. -/
theorem Parsed.first (h : Parsed line len l s) (hne : s.buf ≠ len)
    (hchar : ¬ IsWhite (line s.buf)) : s.buf = 0 ∨ ¬ ¬ IsWhite (line (s.buf - 1)) := by
  rcases h.gap with hzero | hbefore | hlast | hwhite
  · exact Or.inl hzero
  · exact Or.inr hbefore
  · exact absurd hlast hne
  · exact absurd hchar hwhite

/-- The argument is saved and scanned past. -/
theorem Parsed.arg (h : Parsed line len l s) (hne : s.buf ≠ len) (hchar : ¬ IsWhite (line s.buf))
    (hfew : l.length ≠ maxArgs - 1)
    (hpassed : Passed line len (fun ch => ¬ IsWhite ch)
      { s.setArg (some s.buf) with argc := s.argc + 1 } s') :
    s.buf < s'.buf ∧ Parsed line len (l ++ [(s.buf, s'.buf)]) s' := by
  have hle : s.buf ≤ s'.buf := hpassed.le
  have hlt : s.buf < s'.buf := by
    refine lt_of_le_of_ne hle fun heq => ?_
    rcases hpassed.last with hlast | hlast
    · exact hne (heq.trans hlast)
    · exact hlast (heq ▸ hchar)
  have hword : IsWord (fun q => ¬ IsWhite (line q)) len s.buf s'.buf :=
    { lt := hlt
      le := hpassed.inLine.le
      all := hpassed.all
      first := h.first hne hchar
      last := hpassed.last }
  have hargv : s'.argv = Function.update s.argv l.length (some s.buf) := by
    rw [hpassed.argv, ← h.argc]
    rfl
  refine ⟨hlt, ?_⟩
  exact {
    inLine := hpassed.inLine
    words := h.words.word hword
    gap := Or.inr (Or.inr hpassed.last)
    argc := by
      rw [hpassed.argc, List.length_append, ← h.argc]
      rfl
    few := by
      have hle := h.few
      rw [List.length_append, List.length_singleton]
      omega
    argv := fun i w hw => by
      rw [hargv]
      rcases lt_trichotomy i l.length with hi | rfl | hi
      · rw [Function.update_of_ne (by omega)]
        rw [List.getElem?_append_left hi] at hw
        exact h.argv i w hw
      · rw [List.getElem?_concat_length] at hw
        rw [Function.update_self, ← Option.some.inj hw]
      · rw [List.getElem?_eq_none (by rw [List.length_append, List.length_singleton]; omega)] at hw
        cases hw
    argvWrites := fun i hi => by
      rw [hpassed.argvWrites] at hi
      rcases List.mem_append.mp hi with hi | hi
      · exact h.argvWrites i hi
      · have hle := h.few
        rw [List.mem_singleton.mp hi, h.argc]
        exact hle }

include hend hline in
/-- The loop ends at the end of the line, or at one argument too many. -/
theorem parseArgs_parsed {fuel : ℕ} (h : Parsed line len l s) (hfuel : len < fuel)
    (hk : len - s.buf < k) : ∃ parsed s' l', parseArgs fuel k s = some (parsed, s') ∧
      Parsed line len l' s' ∧ (parsed = true → s'.buf = len) ∧
      (parsed = false → l'.length = maxArgs - 1 ∧ s'.buf < len ∧ ¬ IsWhite (line s'.buf)) := by
  induction k generalizing s l with
  | zero => omega
  | succ k ih =>
      obtain ⟨t, hgobble, hpassed⟩ := gobble_passed hend hline h.inLine (k := fuel) (by omega)
      have ht := h.gobble hpassed
      have hch : t.mem t.buf = line t.buf := by rw [ht.inLine.mem, nulled_of_le le_rfl]
      unfold parseArgs
      simp only [hgobble, Option.bind_eq_bind, Option.bind_some, hch]
      by_cases hnul : line t.buf = 0
      · have hlast : t.buf = len := by
          by_contra hne
          exact hline _ (lt_of_le_of_ne ht.inLine.le hne) hnul
        rw [if_pos hnul]
        exact ⟨true, t, l, rfl, ht, fun _ => hlast, nofun⟩
      · have hne : t.buf ≠ len := fun heq => hnul (heq ▸ hend)
        have hlt : t.buf < len := lt_of_le_of_ne ht.inLine.le hne
        have hchar : ¬ IsWhite (line t.buf) := hpassed.last.resolve_left hne
        rw [if_neg hnul, ht.argc]
        by_cases hmany : l.length = maxArgs - 1
        · rw [if_pos hmany]
          exact ⟨false, t, l, rfl, ht, nofun, fun _ => ⟨hmany, hlt, hchar⟩⟩
        · rw [if_neg hmany, ← ht.argc]
          have hsaved : InLine line len { t.setArg (some t.buf) with argc := t.argc + 1 } :=
            ⟨ht.inLine.mem, ht.inLine.le, ht.inLine.reads, ht.inLine.writes, ht.inLine.frame⟩
          obtain ⟨s', hscan, hpassed'⟩ := scanArg_passed hend hline hsaved (k := fuel)
            (by change len - t.buf < fuel; omega)
          obtain ⟨hgt, hnext⟩ := ht.arg hne hchar hmany hpassed'
          have hle : s.buf ≤ t.buf := hpassed.le
          simp only [hscan, Option.bind_some]
          exact ih hnext (by omega)

/-! ### The lookup -/

/-- The bytes from `p` to before `e`. -/
def textAt (mem : ℕ → BitVec 8) (p e : ℕ) : List (BitVec 8) := (List.range' p (e - p)).map mem

/-- There is a string at `p`, with its NUL at `e`. -/
structure StringAt (mem : ℕ → BitVec 8) (p e : ℕ) : Prop where
  le : p ≤ e
  nonzero : ∀ q, p ≤ q → q < e → mem q ≠ 0
  nul : mem e = 0

theorem textAt_self : textAt mem p p = [] := by
  unfold textAt
  rw [Nat.sub_self]
  rfl

theorem textAt_succ (h : p < e) : textAt mem p e = mem p :: textAt mem (p + 1) e := by
  unfold textAt
  obtain ⟨d, hd⟩ : ∃ d, e - p = d + 1 := ⟨e - p - 1, by omega⟩
  rw [hd, show e - (p + 1) = d by omega, List.range'_succ, List.map_cons]

/-- A string is empty, or it has a first character. -/
theorem StringAt.cases (h : StringAt mem p e) :
    (p = e ∧ mem p = 0) ∨ (p < e ∧ mem p ≠ 0 ∧ StringAt mem (p + 1) e) := by
  rcases Nat.eq_or_lt_of_le h.le with rfl | hlt
  · exact Or.inl ⟨rfl, h.nul⟩
  · exact Or.inr ⟨hlt, h.nonzero p le_rfl hlt, hlt, fun q hq => h.nonzero q (by omega), h.nul⟩

theorem strcmp_spec {q : List (BitVec 8)} (h : StringAt mem p e) (hq : 0 ∉ q) :
    ((strcmp mem p q).1 = 0 ↔ textAt mem p e = q) ∧ ∀ r ∈ (strcmp mem p q).2, r ≤ e := by
  induction q generalizing p with
  | nil =>
      have hreads : ∀ r ∈ [p], r ≤ e := fun r hr => by
        rw [List.mem_singleton.mp hr]
        exact h.le
      rcases h.cases with ⟨rfl, hzero⟩ | ⟨hlt, hne, -⟩
      · exact ⟨iff_of_true (by rw [strcmp, hzero]; rfl) textAt_self, hreads⟩
      · refine ⟨iff_of_false (fun hdiff => hne ?_) ?_, hreads⟩
        · exact BitVec.eq_of_toNat_eq (Int.natCast_eq_zero.mp hdiff)
        · rw [textAt_succ hlt]
          exact List.cons_ne_nil _ _
  | cons ch q ih =>
      have hch : ch ≠ 0 := fun hzero => hq (hzero ▸ List.mem_cons_self)
      rcases h.cases with ⟨rfl, hzero⟩ | ⟨hlt, hne, hnext⟩
      · unfold strcmp
        rw [if_neg fun hboth => hboth.1 hzero, hzero]
        refine ⟨iff_of_false (fun hdiff => hch ?_) ?_, fun r hr => (List.mem_singleton.mp hr).le⟩
        · have hnat : ch.toNat = 0 := by
            have hzero' : (0 : BitVec 8).toNat = 0 := rfl
            simp only at hdiff
            omega
          exact BitVec.eq_of_toNat_eq hnat
        · rw [textAt_self]
          exact (List.cons_ne_nil _ _).symm
      · obtain ⟨hiff, hreads⟩ := ih hnext fun hmem => hq (List.mem_cons_of_mem _ hmem)
        unfold strcmp
        rw [textAt_succ hlt]
        by_cases heq : mem p = ch
        · rw [if_pos ⟨hne, heq⟩]
          refine ⟨hiff.trans ⟨fun htext => by rw [heq, htext], fun htext => ?_⟩, fun r hr => ?_⟩
          · exact List.tail_eq_of_cons_eq htext
          · rcases List.mem_cons.mp hr with rfl | hr
            · exact hlt.le
            · exact hreads r hr
        · rw [if_neg fun hboth => heq hboth.2]
          refine ⟨iff_of_false (fun hdiff => heq ?_) fun htext => heq ?_, fun r hr => ?_⟩
          · exact BitVec.eq_of_toNat_eq (Int.ofNat_inj.mp (sub_eq_zero.mp hdiff))
          · exact List.head_eq_of_cons_eq htext
          · rw [List.mem_singleton.mp hr]
            exact hlt.le

theorem Command.name_nonzero (c : Command) : 0 ∉ c.name := by
  cases c <;> decide

theorem findCommand_spec (h : StringAt mem p e) (cs : List Command) :
    (findCommand mem p cs).1 = cs.find? (fun c => textAt mem p e = c.name) ∧
      ∀ r ∈ (findCommand mem p cs).2, r ≤ e := by
  induction cs with
  | nil => exact ⟨rfl, nofun⟩
  | cons c cs ih =>
      obtain ⟨hiff, hreads⟩ := strcmp_spec h c.name_nonzero
      unfold findCommand
      by_cases hname : textAt mem p e = c.name
      · simp only [if_pos (hiff.mpr hname)]
        rw [List.find?_cons_of_pos (by simpa using hname)]
        exact ⟨rfl, hreads⟩
      · simp only [if_neg fun hdiff => hname (hiff.mp hdiff)]
        refine ⟨?_, fun r hr => ?_⟩
        · rw [List.find?_cons_of_neg (by simpa using hname)]
          exact ih.1
        · rcases List.mem_append.mp hr with hr | hr
          · exact hreads r hr
          · exact ih.2 r hr

theorem shown_spec (h : StringAt mem p e) (hk : e - p < k) :
    ∃ reads, shown mem k p = some (textAt mem p e, reads) ∧ ∀ r ∈ reads, r ≤ e := by
  induction k generalizing p with
  | zero => omega
  | succ k ih =>
      unfold shown
      rcases h.cases with ⟨rfl, hzero⟩ | ⟨hlt, hne, hnext⟩
      · rw [if_pos hzero, textAt_self]
        exact ⟨[p], rfl, fun r hr => (List.mem_singleton.mp hr).le⟩
      · obtain ⟨reads, hshown, hreads⟩ := ih hnext (by omega)
        rw [if_neg hne, hshown, textAt_succ hlt]
        refine ⟨p :: reads, rfl, fun r hr => ?_⟩
        rcases List.mem_cons.mp hr with rfl | hr
        · exact hlt.le
        · exact hreads r hr

/-! ### The whole line -/

/-- What should be done with a line that has the arguments `ws`. -/
def dispatched (line : ℕ → BitVec 8) : List (ℕ × ℕ) → CmdOutcome
  | [] => .nothing
  | w :: ws =>
      if maxArgs ≤ (w :: ws).length then .tooMany
      else
        match commands.find? fun c => textAt line w.1 w.2 = c.name with
        | some c => .call c (w :: ws).length
        | none => .unknown (textAt line w.1 w.2)

/-- `argc` and `argv` are the arguments, as strings. -/
structure ArgsOk (line : ℕ → BitVec 8) (ws : List (ℕ × ℕ)) (s : Cmdline) : Prop where
  argc : s.argc = ws.length
  argv : ∀ i w, ws[i]? = some w → s.argv i = some w.1
  string : ∀ w ∈ ws, StringAt s.mem w.1 w.2
  text : ∀ w ∈ ws, textAt s.mem w.1 w.2 = textAt line w.1 w.2
  null : s.argv ws.length = none

/-- Nothing behind the terminator is read or written, nor behind `argv`. -/
structure LineBounds (line : ℕ → BitVec 8) (len : ℕ) (s : Cmdline) : Prop where
  reads : ∀ q ∈ s.reads, q ≤ len
  writes : ∀ q ∈ s.writes, q < len ∧ IsWhite (line q)
  frame : ∀ q, q ∉ s.writes → s.mem q = line q
  argvWrites : ∀ i ∈ s.argvWrites, i ≤ maxArgs - 1

theorem Parsed.bounded (h : Parsed line len l s) : LineBounds line len s :=
  ⟨h.inLine.reads, h.inLine.writes, h.inLine.frame, h.argvWrites⟩

theorem LineBounds.setNull (h : LineBounds line len s) (hargc : s.argc ≤ maxArgs - 1) :
    LineBounds line len (s.setArg none) where
  reads := h.reads
  writes := h.writes
  frame := h.frame
  argvWrites i hi := by
    rcases List.mem_append.mp hi with hi | hi
    · exact h.argvWrites i hi
    · rw [List.mem_singleton.mp hi]
      exact hargc

theorem LineBounds.reading (h : LineBounds line len s) {reads : List ℕ}
    (hreads : ∀ q ∈ reads, q ≤ len) :
    LineBounds line len { s with reads := s.reads ++ reads } where
  reads q hq := (List.mem_append.mp hq).elim (h.reads q) (hreads q)
  writes := h.writes
  frame := h.frame
  argvWrites := h.argvWrites

include hend hline in
/-- At the end of the line the arguments are strings. -/
theorem Parsed.string (h : Parsed line len l s) (hbuf : s.buf = len) {w : ℕ × ℕ} (hw : w ∈ l) :
    StringAt s.mem w.1 w.2 ∧ textAt s.mem w.1 w.2 = textAt line w.1 w.2 := by
  obtain ⟨hword, hle⟩ := (h.words.mem w.1 w.2).mp hw
  have hmem := h.inLine.mem
  rw [hbuf] at hle hmem
  have hin (q : ℕ) (hfrom : w.1 ≤ q) (hto : q < w.2) : s.mem q = line q := by
    rw [hmem]
    exact if_neg fun hnot => hword.all q hfrom hto hnot.2
  refine ⟨⟨hword.lt.le, fun q hfrom hto => ?_, ?_⟩, ?_⟩
  · rw [hin q hfrom hto]
    exact hline q (by omega)
  · rw [hmem]
    rcases hword.last with hlast | hlast
    · rw [hlast, nulled_of_le le_rfl]
      exact hend
    · rcases Nat.eq_or_lt_of_le hle with heq | hlt
      · rw [heq, nulled_of_le le_rfl]
        exact hend
      · exact if_pos ⟨hlt, not_not.mp hlast⟩
  · unfold textAt
    apply List.map_congr_left
    intro q hq
    obtain ⟨hfrom, hto⟩ := List.mem_range'_1.mp hq
    exact hin q hfrom (by omega)

include hend hline in
theorem Parsed.args (h : Parsed line len l s) (hbuf : s.buf = len) :
    ArgsOk line l (s.setArg none) where
  argc := h.argc
  argv i w hw := by
    have hi : i < l.length := (List.getElem?_eq_some_iff.mp hw).1
    change Function.update s.argv s.argc none i = _
    rw [h.argc, Function.update_of_ne (by omega)]
    exact h.argv i w hw
  string w hw := (h.string hend hline hbuf hw).1
  text w hw := (h.string hend hline hbuf hw).2
  null := by
    change Function.update s.argv s.argc none l.length = none
    rw [h.argc, Function.update_self]

/-- Where there are too many arguments, one more begins at least. -/
theorem Parsed.tooMany (h : Parsed line len l s) (hlength : l.length = maxArgs - 1)
    (hlt : s.buf < len) (hchar : ¬ IsWhite (line s.buf)) :
    ∃ ws, WordsTo (fun q => ¬ IsWhite (line q)) len len ws ∧ maxArgs ≤ ws.length ∧
      dispatched line ws = .tooMany := by
  obtain ⟨e, hword⟩ :=
    @exists_word (fun q => ¬ IsWhite (line q)) len s.buf (h.first hlt.ne hchar) hchar hlt
  obtain ⟨ws, hfirsts, hws⟩ := (h.words.word hword).complete hword.le (Or.inr (Or.inr hword.last))
  have hle := hfirsts.length_le
  rw [List.length_append, List.length_singleton, hlength] at hle
  refine ⟨ws, hws, hle, ?_⟩
  cases ws with
  | nil => exact absurd hle (by decide)
  | cons w ws => exact if_pos hle

/-- The line is divided into its words. If there are from 1 to 15 of them, the
command named by the first one is looked up and called with all of them. -/
theorem runcmd_dispatches {fuel : ℕ} (hend : line len = 0) (hline : ∀ q < len, line q ≠ 0)
    (hfuel : len < fuel) (stack : ℕ → Option ℕ) : ∃ ws s,
      WordsTo (fun q => ¬ IsWhite (line q)) len len ws ∧
      runcmd fuel line stack = some (dispatched line ws, s) ∧ LineBounds line len s ∧
      (ws.length < maxArgs → ArgsOk line ws s) := by
  have hstart : Parsed line len [] (Cmdline.setArg ⟨line, 0, 0, stack, [], [], []⟩ none) :=
    { inLine := ⟨funext fun q => (nulled_of_le (Nat.zero_le q)).symm, Nat.zero_le _, nofun, nofun,
        fun _ _ => rfl⟩
      words := WordsTo.zero
      gap := Or.inl rfl
      argc := rfl
      few := Nat.zero_le _
      argv := nofun
      argvWrites := fun i hi => by
        rw [List.mem_singleton.mp hi]
        exact Nat.zero_le _ }
  obtain ⟨parsed, s, l, hparse, hparsed, hdone, hmany⟩ :=
    parseArgs_parsed hend hline hstart hfuel (k := fuel) (by change len - 0 < fuel; omega)
  unfold runcmd
  simp only [hparse, Option.bind_eq_bind, Option.bind_some]
  cases parsed with
  | false =>
      obtain ⟨hlength, hlt, hchar⟩ := hmany rfl
      obtain ⟨ws, hws, hle, hdispatch⟩ := hparsed.tooMany hlength hlt hchar
      exact ⟨ws, s, hws, by rw [hdispatch]; rfl, hparsed.bounded, fun hfew => by omega⟩
  | true =>
      have hbuf := hdone rfl
      have hargs := hparsed.args hend hline hbuf
      have hfew := hparsed.few
      have hbounded := hparsed.bounded.setNull (hparsed.argc ▸ hfew)
      have hwords := hparsed.words
      rw [hbuf] at hwords
      simp only [not_true_eq_false, if_false]
      cases l with
      | nil =>
          have hzero : (s.setArg none).argc = 0 := hargs.argc
          rw [if_pos hzero]
          exact ⟨[], s.setArg none, hwords, rfl, hbounded, fun _ => hargs⟩
      | cons w ws =>
          have harg0 : (s.setArg none).argv 0 = some w.1 := hargs.argv 0 w rfl
          have hstring := hargs.string w List.mem_cons_self
          have htext := hargs.text w List.mem_cons_self
          have hle : w.2 ≤ len := ((hwords.mem w.1 w.2).mp List.mem_cons_self).2
          have hdispatch : dispatched line (w :: ws) =
              match commands.find? fun c => textAt line w.1 w.2 = c.name with
              | some c => .call c (w :: ws).length
              | none => .unknown (textAt line w.1 w.2) :=
            if_neg (by unfold maxArgs at hfew ⊢; omega)
          obtain ⟨hfind, hreads⟩ := findCommand_spec hstring commands
          rw [htext] at hfind
          have hread := hbounded.reading fun q hq => (hreads q hq).trans hle
          have hne : (s.setArg none).argc ≠ 0 := by
            rw [hargs.argc]
            exact Nat.succ_ne_zero _
          rw [if_neg hne]
          simp only [harg0, Option.getD_some]
          refine ⟨w :: ws, ?_⟩
          rw [hdispatch, ← hfind, ← hargs.argc]
          generalize findCommand (s.setArg none).mem w.1 commands = found at hread
          obtain ⟨found, reads⟩ := found
          cases found with
          | some c =>
              exact ⟨_, hwords, rfl, hread,
                fun _ => ⟨hargs.argc, hargs.argv, hargs.string, hargs.text, hargs.null⟩⟩
          | none =>
              obtain ⟨reads', hshown, hreads'⟩ := shown_spec hstring (k := fuel) (by omega)
              simp only [hshown, Option.bind_some, htext]
              exact ⟨_, hwords, rfl, hread.reading fun q hq => (hreads' q hq).trans hle,
                fun _ => ⟨hargs.argc, hargs.argv, hargs.string, hargs.text, hargs.null⟩⟩

theorem runcmd_dispatches_help : ∃ ws s,
    WordsTo (fun q => ¬ IsWhite ((str " help me").getD q 0)) 8 8 ws ∧
      runcmd 9 (fun q => (str " help me").getD q 0) (fun _ => none) =
        some (dispatched (fun q => (str " help me").getD q 0) ws, s) ∧
      LineBounds (fun q => (str " help me").getD q 0) 8 s ∧
      (ws.length < maxArgs → ArgsOk (fun q => (str " help me").getD q 0) ws s) :=
  runcmd_dispatches (by decide) (by decide) (by decide) fun _ => none

example : (runcmd 20 (fun q => (str "  kerninfo\t-v ").getD q 0) fun _ => none).map
    (fun r => (r.1, (List.range 3).map r.2.argv)) =
      some (.call .kerninfo 2, [some 2, some 11, none]) := by
  decide +kernel

end Jos
