import Jos.Kern.Console
import Jos.Lib.Since
import Jos.Ulib.Printfmt

/-!
The keyboard in kern/console.c. The controller sends scan codes, and
`kbd_proc_data` makes characters of them. What it keeps of the keys that are
held is seven bits in its static `shift`; they agree with the keys as long as of
two keys for one modifier the one that moved last counts.
-/

namespace Jos

open Jos.Lib

/-! ### The function -/

def kbdShift : Word := BitVec.twoPow 32 0
def kbdCtl : Word := BitVec.twoPow 32 1
def kbdAlt : Word := BitVec.twoPow 32 2
def kbdCapslock : Word := BitVec.twoPow 32 3
def kbdNumlock : Word := BitVec.twoPow 32 4
def kbdScrolllock : Word := BitVec.twoPow 32 5
def kbdE0esc : Word := BitVec.twoPow 32 6

def shiftcode (data : BitVec 8) : Word :=
  if data = 0x1D ∨ data = 0x9D then kbdCtl
  else if data = 0x2A ∨ data = 0x36 then kbdShift
  else if data = 0x38 ∨ data = 0xB8 then kbdAlt
  else 0

def togglecode (data : BitVec 8) : Word :=
  if data = 0x3A then kbdCapslock
  else if data = 0x45 then kbdNumlock
  else if data = 0x46 then kbdScrolllock
  else 0

def keyHome : BitVec 8 := 0xE0
def keyDel : BitVec 8 := 0xE9

/-- `KEY_UP` to `KEY_DEL`, where they are in every table. -/
def cursorKeys : List (BitVec 8 × BitVec 8) :=
  [(0xC8, 0xE2), (0xC9, 0xE6), (0xCB, 0xE4), (0xCD, 0xE5), (0xCF, 0xE1), (0xD0, 0xE3), (0xD1, 0xE7),
    (0xD2, 0xE8), (0xD3, keyDel)]

/-- A table that is given by its first entries and by some others. -/
def kbdTable (rows : List (BitVec 8)) (keys : List (BitVec 8 × BitVec 8)) (data : BitVec 8) :
    BitVec 8 :=
  (keys.lookup data).getD (rows.getD data.toNat 0)

/-- `NO` from 0x3A to 0x46, then the keypad. -/
def keypadRows : List (BitVec 8) :=
  [0] ++ str "*" ++ [0] ++ str " " ++ List.replicate 13 0 ++ str "789-456+1230."

def normalmap : BitVec 8 → BitVec 8 :=
  kbdTable ([0, 0x1B] ++ str "1234567890-=" ++ [0x08] ++ str "\tqwertyuiop[]\n" ++ [0] ++
      str "asdfghjkl;" ++ [0x27, 0x60, 0] ++ str "\\zxcvbnm,./" ++ keypadRows)
    ([(0xC7, keyHome), (0x9C, 0x0A), (0xB5, 0x2F)] ++ cursorKeys)

def shiftmap : BitVec 8 → BitVec 8 :=
  kbdTable ([0, 0x1B] ++ str "!@#$%^&*()_+" ++ [0x08] ++ str "\tQWERTYUIOP" ++ [0x7B, 0x7D] ++
      str "\n" ++ [0] ++ str "ASDFGHJKL:" ++ [0x22, 0x7E, 0] ++ str "|ZXCVBNM<>?" ++ keypadRows)
    ([(0xC7, keyHome), (0x9C, 0x0A), (0xB5, 0x2F)] ++ cursorKeys)

/-- `C(x)` -/
def ctlChars (s : String) : List (BitVec 8) := (str s).map (· - 0x40)

def ctlmap : BitVec 8 → BitVec 8 :=
  kbdTable (List.replicate 16 0 ++ ctlChars "QWERTYUIOP" ++ [0, 0, 0x0D, 0] ++
      ctlChars "ASDFGHJKL" ++ List.replicate 4 0 ++ ctlChars "\\ZXCVBNM" ++ [0, 0] ++
      ctlChars "/" ++ [0, 0])
    ([(0x97, keyHome), (0xB5, 0x2F - 0x40)] ++ cursorKeys)

def charcode : List (BitVec 8 → BitVec 8) := [normalmap, shiftmap, ctlmap, ctlmap]

/-- `charcode[shift & (CTL | SHIFT)][data]` -/
def kbdChar (shift : Word) (data : BitVec 8) : BitVec 8 :=
  charcode.getD (shift &&& (kbdCtl ||| kbdShift)).toNat normalmap data

/-- What `CAPSLOCK` does to a character. -/
def capslock (c : BitVec 8) : BitVec 8 :=
  if 0x61 ≤ c ∧ c ≤ 0x7A then c - 0x20 else if 0x41 ≤ c ∧ c ≤ 0x5A then c + 0x20 else c

/-- What a byte from the controller makes of `shift`, what `kbd_proc_data` then
returns, and whether it reboots. -/
def kbdByte (shift : Word) (data : BitVec 8) : Word × BitVec 8 × Bool :=
  if data = 0xE0 then (shift ||| kbdE0esc, 0, false)
  else if data &&& 0x80 ≠ 0 then
    -- Key released
    let data := if shift &&& kbdE0esc ≠ 0 then data else data &&& 0x7F
    (shift &&& ~~~(shiftcode data ||| kbdE0esc), 0, false)
  else
    let data' := if shift &&& kbdE0esc ≠ 0 then data ||| 0x80 else data
    let shift := if shift &&& kbdE0esc ≠ 0 then shift &&& ~~~kbdE0esc else shift
    let shift := (shift ||| shiftcode data') ^^^ togglecode data'
    let c := kbdChar shift data'
    let c := if shift &&& kbdCapslock ≠ 0 then capslock c else c
    -- Ctrl-Alt-Del: reboot
    (shift, c, ~~~shift &&& (kbdCtl ||| kbdAlt) = 0 ∧ c = keyDel)

/-- `kbd_proc_data`, which returns -1 if there is no byte, or one of the
mouse. -/
def kbdProcData (shift : Word) (stat data : BitVec 8) : Option (Word × BitVec 8 × Bool) :=
  if stat &&& 0x01 = 0 then none
  else if stat &&& 0x20 ≠ 0 then none
  else some (kbdByte shift data)

/-- What `kbd_proc_data` returns in a call of `cons_intr` that finds `ports`
in the controller, and whether it reboots. -/
def kbdBurst (shift : Word) : List (BitVec 8 × BitVec 8) → Word × Burst × Bool
  | [] => (shift, [], false)
  | (stat, data) :: ports =>
      match kbdProcData shift stat data with
      | none => (shift, [], false)
      | some (shift, c, reboot) =>
        let (shift, proc, reboots) := kbdBurst shift ports
        (shift, c :: proc, reboot || reboots)

/-! ### Runs -/

/-- An event of the console with the ports of the keyboard instead of what is
made of them. -/
inductive KbdEvent where
  | serial (data : Burst)
  | kbd (ports : List (BitVec 8 × BitVec 8))
  | getc (serial : Burst) (ports : List (BitVec 8 × BitVec 8))

def KbdEvent.ports : KbdEvent → List (BitVec 8 × BitVec 8)
  | .serial _ => []
  | .kbd ports => ports
  | .getc _ ports => ports

def KbdEvent.event (kbd : Burst) : KbdEvent → ConsEvent
  | .serial data => .serial data
  | .kbd _ => .kbd kbd
  | .getc s _ => .getc s kbd

/-- The events as the console sees them. -/
def kbdRun (shift : Word) : List KbdEvent → Word × List ConsEvent × Bool
  | [] => (shift, [], false)
  | e :: es =>
      let (shift, kbd, reboot) := kbdBurst shift e.ports
      let (shift, events, reboots) := kbdRun shift es
      (shift, e.event kbd :: events, reboot || reboots)

/-! ### The keys -/

/-- A key that is pressed, or that repeats, or is released. The high bit of the
code tells the keys whose codes follow an 0xE0. -/
structure KeyEvent where
  key : BitVec 8
  press : Bool
  deriving DecidableEq

/-- The bytes that are taken from the controller. -/
def kbdBytes : List (BitVec 8 × BitVec 8) → List (BitVec 8)
  | [] => []
  | (stat, data) :: ports =>
      if stat &&& 0x01 = 0 ∨ stat &&& 0x20 ≠ 0 then [] else data :: kbdBytes ports

def KeyEvent.ofByte (esc : Bool) (data : BitVec 8) : KeyEvent where
  key := if esc then data ||| 0x80 else data &&& 0x7F
  press := data &&& 0x80 = 0

/-- The events in the bytes of the controller; `esc` tells that an 0xE0 came
before them. -/
def keyEvents (esc : Bool) : List (BitVec 8) → List KeyEvent
  | [] => []
  | data :: l =>
      if data = 0xE0 then keyEvents true l else .ofByte esc data :: keyEvents false l

/-- Whether the bytes end in an 0xE0. -/
def endsEsc (esc : Bool) : List (BitVec 8) → Bool
  | [] => esc
  | data :: l => endsEsc (data = 0xE0) l

/-- Of the keys, the one that moved last is down. The log has the last event
first. -/
def KeyHeld (keys : List (BitVec 8)) : List KeyEvent → Prop :=
  Since (fun e => e.key ∈ keys ∧ e.press = true) (fun e => e.key ∈ keys ∧ e.press = false)

instance (keys : List (BitVec 8)) : DecidablePred (KeyHeld keys) := fun log =>
  inferInstanceAs (Decidable (Since _ _ log))

/-- The key has been pressed an odd number of times. -/
def Toggled (key : BitVec 8) (log : List KeyEvent) : Bool :=
  log.countP (fun e => e.key = key ∧ e.press = true) % 2 = 1

def ctlKeys : List (BitVec 8) := [0x1D, 0x9D]
def shiftKeys : List (BitVec 8) := [0x2A, 0x36]
def altKeys : List (BitVec 8) := [0x38, 0xB8]
def capslockKey : BitVec 8 := 0x3A
def numlockKey : BitVec 8 := 0x45
def scrolllockKey : BitVec 8 := 0x46

/-- The character of a key that has just been pressed. -/
def keyChar (log : List KeyEvent) (key : BitVec 8) : BitVec 8 :=
  let c :=
    if KeyHeld ctlKeys log then ctlmap key
    else if KeyHeld shiftKeys log then shiftmap key
    else normalmap key
  if Toggled capslockKey log then capslock c else c

/-- The character of an event, 0 if it has none, after the events of `log`. -/
def KeyEvent.char (log : List KeyEvent) (e : KeyEvent) : BitVec 8 :=
  if e.press then keyChar (e :: log) e.key else 0

/-- The event completes Ctrl-Alt-Del. -/
def KeyEvent.reboots (log : List KeyEvent) (e : KeyEvent) : Bool :=
  e.press ∧ KeyHeld ctlKeys (e :: log) ∧ KeyHeld altKeys (e :: log) ∧
    keyChar (e :: log) e.key = keyDel

def keyChars (log : List KeyEvent) : List KeyEvent → List (BitVec 8)
  | [] => []
  | e :: es => e.char log :: keyChars (e :: log) es

def keyReboots (log : List KeyEvent) : List KeyEvent → Bool
  | [] => false
  | e :: es => e.reboots log || keyReboots (e :: log) es

/-- The bytes that a run takes from the controller. -/
def kbdSent (es : List KbdEvent) : List (BitVec 8) := es.flatMap fun e => kbdBytes e.ports

/-- `shift` tells what has happened to the keys. -/
structure KbdAgrees (shift : Word) (log : List KeyEvent) (esc : Bool) : Prop where
  shifts : shift.getLsbD 0 = decide (KeyHeld shiftKeys log)
  ctl : shift.getLsbD 1 = decide (KeyHeld ctlKeys log)
  alt : shift.getLsbD 2 = decide (KeyHeld altKeys log)
  capslock : shift.getLsbD 3 = Toggled capslockKey log
  numlock : shift.getLsbD 4 = Toggled numlockKey log
  scrolllock : shift.getLsbD 5 = Toggled scrolllockKey log
  esc : shift.getLsbD 6 = esc

variable {shift : Word} {log : List KeyEvent} {esc : Bool} {key data c : BitVec 8} {i : ℕ}
  {keys l l' : List (BitVec 8)} {es₁ es₂ : List KeyEvent}

theorem held_press : KeyHeld keys (⟨key, true⟩ :: log) ↔ key ∈ keys ∨ KeyHeld keys log := by
  simp [KeyHeld, since_cons]

theorem held_release : KeyHeld keys (⟨key, false⟩ :: log) ↔ key ∉ keys ∧ KeyHeld keys log := by
  simp [KeyHeld, since_cons]

theorem toggled_release (k : BitVec 8) : Toggled k (⟨key, false⟩ :: log) = Toggled k log := by
  simp [Toggled]

theorem toggled_press (k : BitVec 8) :
    Toggled k (⟨key, true⟩ :: log) = (Toggled k log ^^ decide (key = k)) := by
  by_cases hk : key = k
  · simp only [Toggled, hk, List.countP_cons_of_pos, and_self, decide_true]
    generalize log.countP (fun e => decide (e.key = k ∧ e.press = true)) = n
    rcases Nat.mod_two_eq_zero_or_one n with heven | hodd
    · have hsucc : (n + 1) % 2 = 1 := by omega
      simp [heven, hsucc]
    · have hsucc : (n + 1) % 2 = 0 := by omega
      simp [hodd, hsucc]
  · simp [Toggled, hk]

/-! ### One byte -/

theorem and_twoPow_ne_zero (hi : i < 32) :
    shift &&& BitVec.twoPow 32 i ≠ 0 ↔ shift.getLsbD i = true := by
  rw [BitVec.and_twoPow]
  split
  · rename_i hbit
    refine iff_of_true (fun hzero => ?_) hbit
    have hself := congrArg (fun w => w.getLsbD i) hzero
    simp [hi] at hself
  · rename_i hbit
    simpa using hbit

theorem shiftcode_bits : ∀ d : BitVec 8,
    (shiftcode d).getLsbD 0 = decide (d ∈ shiftKeys) ∧
      (shiftcode d).getLsbD 1 = decide (d ∈ ctlKeys) ∧
      (shiftcode d).getLsbD 2 = decide (d ∈ altKeys) ∧ (shiftcode d).getLsbD 3 = false ∧
      (shiftcode d).getLsbD 4 = false ∧ (shiftcode d).getLsbD 5 = false ∧
      (shiftcode d).getLsbD 6 = false := by
  decide +kernel

theorem togglecode_bits : ∀ d : BitVec 8,
    (togglecode d).getLsbD 0 = false ∧ (togglecode d).getLsbD 1 = false ∧
      (togglecode d).getLsbD 2 = false ∧ (togglecode d).getLsbD 3 = decide (d = capslockKey) ∧
      (togglecode d).getLsbD 4 = decide (d = numlockKey) ∧
      (togglecode d).getLsbD 5 = decide (d = scrolllockKey) ∧
      (togglecode d).getLsbD 6 = false := by
  decide +kernel

theorem kbdE0esc_bit : kbdE0esc.getLsbD i = decide (6 = i) := by
  simp [kbdE0esc, BitVec.getLsbD_twoPow]

theorem clear_bit (w : Word) (hi : i < 32) :
    (shift &&& ~~~w).getLsbD i = (shift.getLsbD i && !w.getLsbD i) := by
  rw [BitVec.getLsbD_and, BitVec.getLsbD_not, decide_eq_true hi, Bool.true_and]

/-- An 0xE0. -/
theorem KbdAgrees.escape (h : KbdAgrees shift log esc) :
    KbdAgrees (shift ||| kbdE0esc) log true := by
  constructor <;>
    simp only [BitVec.getLsbD_or, kbdE0esc_bit, h.shifts, h.ctl, h.alt, h.capslock, h.numlock,
      h.scrolllock, h.esc] <;> simp

theorem KbdAgrees.unescape (h : KbdAgrees shift log esc) :
    KbdAgrees (shift &&& ~~~kbdE0esc) log false := by
  constructor <;> rw [clear_bit _ (by decide)] <;>
    simp only [kbdE0esc_bit, h.shifts, h.ctl, h.alt, h.capslock, h.numlock, h.scrolllock, h.esc] <;>
    simp

theorem KbdAgrees.release (h : KbdAgrees shift log esc) (key : BitVec 8) :
    KbdAgrees (shift &&& ~~~(shiftcode key ||| kbdE0esc)) (⟨key, false⟩ :: log) false := by
  obtain ⟨h0, h1, h2, h3, h4, h5, h6⟩ := shiftcode_bits key
  constructor <;> rw [clear_bit _ (by decide), BitVec.getLsbD_or] <;>
    simp only [kbdE0esc_bit, h.shifts, h.ctl, h.alt, h.capslock, h.numlock, h.scrolllock, h.esc,
      held_release, toggled_release, h0, h1, h2, h3, h4, h5, h6] <;>
    simp [Bool.and_comm]

theorem KbdAgrees.press (h : KbdAgrees shift log false) (key : BitVec 8) :
    KbdAgrees ((shift ||| shiftcode key) ^^^ togglecode key) (⟨key, true⟩ :: log) false := by
  obtain ⟨h0, h1, h2, h3, h4, h5, h6⟩ := shiftcode_bits key
  obtain ⟨t0, t1, t2, t3, t4, t5, t6⟩ := togglecode_bits key
  constructor <;> rw [BitVec.getLsbD_xor, BitVec.getLsbD_or] <;>
    simp only [h.shifts, h.ctl, h.alt, h.capslock, h.numlock, h.scrolllock, h.esc, held_press,
      toggled_press, h0, h1, h2, h3, h4, h5, h6, t0, t1, t2, t3, t4, t5, t6] <;>
    simp [Bool.or_comm]

theorem and_three (n : ℕ) : n &&& 3 = 2 * (n.testBit 1).toNat + (n.testBit 0).toNat := by
  rw [Nat.and_two_pow_sub_one_eq_mod n 2, Nat.toNat_testBit, Nat.toNat_testBit]
  omega

/-- The table is that of `CTL` if it is on, else that of `SHIFT`. -/
theorem kbdChar_eq (key : BitVec 8) : kbdChar shift key =
    if shift.getLsbD 1 then ctlmap key
    else if shift.getLsbD 0 then shiftmap key
    else normalmap key := by
  have hindex : (shift &&& (kbdCtl ||| kbdShift)).toNat =
      2 * (shift.getLsbD 1).toNat + (shift.getLsbD 0).toNat := by
    rw [BitVec.toNat_and]
    exact and_three shift.toNat
  rw [kbdChar, hindex]
  cases shift.getLsbD 1 <;> cases shift.getLsbD 0 <;> rfl

theorem ctl_alt_iff : ~~~shift &&& (kbdCtl ||| kbdAlt) = 0 ↔
    shift.getLsbD 1 = true ∧ shift.getLsbD 2 = true := by
  have hbit (i : ℕ) (hi : i < 32) :
      ~~~shift &&& BitVec.twoPow 32 i = 0 ↔ shift.getLsbD i = true := by
    rw [← not_iff_not, ← ne_eq, and_twoPow_ne_zero hi, BitVec.getLsbD_not, decide_eq_true hi,
      Bool.true_and, Bool.not_eq_true', Bool.not_eq_true]
  rw [← hbit 1 (by decide), ← hbit 2 (by decide), BitVec.and_or_distrib_left]
  exact BitVec.or_eq_zero_iff

theorem kbdProcData_eq (stat : BitVec 8) : kbdProcData shift stat data =
    if stat &&& 0x01 = 0 ∨ stat &&& 0x20 ≠ 0 then none else some (kbdByte shift data) := by
  rw [kbdProcData]
  split_ifs <;> grind

theorem or_high : ∀ d : BitVec 8, d &&& 0x80 ≠ 0 → d ||| 0x80 = d := by
  decide +kernel

theorem and_low : ∀ d : BitVec 8, d &&& 0x80 = 0 → d &&& 0x7F = d := by
  decide +kernel

theorem KbdAgrees.esc_iff (h : KbdAgrees shift log esc) :
    shift &&& kbdE0esc ≠ 0 ↔ esc = true := by
  rw [kbdE0esc, and_twoPow_ne_zero (by decide), h.esc]

/-- The character that is made of the bits of `shift` is that of the keys. -/
theorem keyChar_of_agrees (h : KbdAgrees shift log esc) (key : BitVec 8) :
    (if shift &&& kbdCapslock ≠ 0 then capslock (kbdChar shift key) else kbdChar shift key) =
      keyChar log key := by
  have hcaps : shift &&& kbdCapslock ≠ 0 ↔ Toggled capslockKey log = true := by
    rw [kbdCapslock, and_twoPow_ne_zero (by decide), h.capslock]
  have hchar : kbdChar shift key =
      if KeyHeld ctlKeys log then ctlmap key
      else if KeyHeld shiftKeys log then shiftmap key
      else normalmap key := by
    simp only [kbdChar_eq, h.ctl, h.shifts, decide_eq_true_eq]
  simp only [hcaps, hchar, keyChar]

theorem kbdByte_release (h : KbdAgrees shift log esc) (hdata : data ≠ 0xE0)
    (hhigh : data &&& 0x80 ≠ 0) : ∃ shift',
    kbdByte shift data = (shift', 0, false) ∧
      KbdAgrees shift' (.ofByte esc data :: log) false := by
  have hevent : KeyEvent.ofByte esc data =
      ⟨if shift &&& kbdE0esc ≠ 0 then data else data &&& 0x7F, false⟩ := by
    simp only [KeyEvent.ofByte, h.esc_iff, or_high data hhigh, hhigh, decide_false]
  rw [kbdByte, if_neg hdata, if_pos hhigh, hevent]
  exact ⟨_, rfl, h.release _⟩

theorem kbdByte_press (h : KbdAgrees shift log esc) (hdata : data ≠ 0xE0)
    (hlow : data &&& 0x80 = 0) : ∃ shift',
    kbdByte shift data = (shift', KeyEvent.char log (.ofByte esc data),
        KeyEvent.reboots log (.ofByte esc data)) ∧
      KbdAgrees shift' (.ofByte esc data :: log) false := by
  have hevent : KeyEvent.ofByte esc data =
      ⟨if shift &&& kbdE0esc ≠ 0 then data ||| 0x80 else data, true⟩ := by
    simp only [KeyEvent.ofByte, h.esc_iff, and_low data hlow, hlow, decide_true]
  have hesc : KbdAgrees (if shift &&& kbdE0esc ≠ 0 then shift &&& ~~~kbdE0esc else shift) log
      false := by
    split
    · exact h.unescape
    · rename_i hzero
      rw [h.esc_iff, Bool.not_eq_true] at hzero
      exact hzero ▸ h
  rw [hevent]
  generalize hkey : (if shift &&& kbdE0esc ≠ 0 then data ||| 0x80 else data) = key
  have hpress := hesc.press key
  refine ⟨_, ?_, hpress⟩
  -- the character and the reboot are those of the bits as the press leaves them
  rw [kbdByte, if_neg hdata, if_neg (not_not_intro hlow), hkey]
  simp only [keyChar_of_agrees hpress, KeyEvent.char, KeyEvent.reboots, ctl_alt_iff, hpress.ctl,
    hpress.alt, decide_eq_true_eq, and_assoc, if_true, true_and]

/-- A byte that is no 0xE0 is an event of a key. -/
theorem kbdByte_event (h : KbdAgrees shift log esc) (hdata : data ≠ 0xE0) : ∃ shift',
    kbdByte shift data = (shift', KeyEvent.char log (.ofByte esc data),
        KeyEvent.reboots log (.ofByte esc data)) ∧
      KbdAgrees shift' (.ofByte esc data :: log) false := by
  by_cases hlow : data &&& 0x80 = 0
  · exact kbdByte_press h hdata hlow
  · obtain ⟨shift', hbyte, h'⟩ := kbdByte_release h hdata hlow
    have hpress : ¬ (KeyEvent.ofByte esc data).press = true := by
      rwa [KeyEvent.ofByte, decide_eq_true_eq]
    refine ⟨shift', ?_, h'⟩
    rw [hbyte, KeyEvent.char, if_neg hpress, KeyEvent.reboots, decide_eq_false (hpress ·.1)]

/-! ### Runs of the keyboard -/

theorem endsEsc_append : endsEsc esc (l ++ l') = endsEsc (endsEsc esc l) l' := by
  induction l generalizing esc with
  | nil => rfl
  | cons data l ih => exact ih

theorem keyEvents_append :
    keyEvents esc (l ++ l') = keyEvents esc l ++ keyEvents (endsEsc esc l) l' := by
  induction l generalizing esc with
  | nil => rfl
  | cons data l ih =>
      rw [List.cons_append, keyEvents, keyEvents, endsEsc]
      split
      · rename_i hdata
        rw [ih, decide_eq_true hdata]
      · rename_i hdata
        rw [ih, decide_eq_false hdata, List.cons_append]

theorem keyChars_append :
    keyChars log (es₁ ++ es₂) = keyChars log es₁ ++ keyChars (es₁.reverse ++ log) es₂ := by
  induction es₁ generalizing log with
  | nil => rfl
  | cons e es₁ ih => simp [keyChars, ih]

theorem keyReboots_append : keyReboots log (es₁ ++ es₂) =
    (keyReboots log es₁ || keyReboots (es₁.reverse ++ log) es₂) := by
  induction es₁ generalizing log with
  | nil => rfl
  | cons e es₁ ih => simp [keyReboots, ih, Bool.or_assoc]

/-- An interrupt decodes what it takes from the controller. -/
theorem kbdBurst_decodes (h : KbdAgrees shift log esc) (ports : List (BitVec 8 × BitVec 8)) :
    KbdAgrees (kbdBurst shift ports).1 ((keyEvents esc (kbdBytes ports)).reverse ++ log)
        (endsEsc esc (kbdBytes ports)) ∧
      nonzero (kbdBurst shift ports).2.1 =
        nonzero (keyChars log (keyEvents esc (kbdBytes ports))) ∧
      (kbdBurst shift ports).2.2 = keyReboots log (keyEvents esc (kbdBytes ports)) := by
  induction ports generalizing shift log esc with
  | nil => exact ⟨h, rfl, rfl⟩
  | cons port ports ih =>
      obtain ⟨stat, data⟩ := port
      rw [kbdBurst, kbdProcData_eq, kbdBytes]
      by_cases hnone : stat &&& 0x01 = 0 ∨ stat &&& 0x20 ≠ 0
      · simp only [if_pos hnone]
        exact ⟨h, rfl, rfl⟩
      · simp only [if_neg hnone]
        -- an 0xE0 is no event: only `esc` is another in the rest
        by_cases hdata : data = 0xE0
        · have hbyte : kbdByte shift data = (shift ||| kbdE0esc, 0, false) := by
            rw [kbdByte, if_pos hdata]
          obtain ⟨hshift, hchars, hreboots⟩ := ih h.escape
          simp only [hbyte, keyEvents, if_pos hdata, endsEsc, decide_eq_true hdata, nonzero_zero,
            Bool.false_or]
          exact ⟨hshift, hchars, hreboots⟩
        · obtain ⟨shift', hbyte, h'⟩ := kbdByte_event h hdata
          obtain ⟨hshift, hchars, hreboots⟩ := ih h'
          simp only [hbyte, keyEvents, if_neg hdata, endsEsc, decide_eq_false hdata, keyChars,
            keyReboots, hreboots, List.reverse_cons, List.append_assoc, List.singleton_append]
          refine ⟨hshift, ?_, trivial⟩
          rw [← List.singleton_append, nonzero_append, hchars, ← nonzero_append,
            List.singleton_append]

theorem kbdAgrees_zero : KbdAgrees 0 [] false := by
  constructor <;> rfl

theorem consFed_event (kbd : Burst) (e : KbdEvent) (hkbd : e.ports = [] → nonzero kbd = []) :
    (e.event kbd).fed false = nonzero kbd := by
  cases e with
  | serial data => exact (hkbd rfl).symm
  | kbd ports => rfl
  | getc s ports => rfl

theorem kbdRun_decodes (h : KbdAgrees shift log esc) (es : List KbdEvent) :
    KbdAgrees (kbdRun shift es).1 ((keyEvents esc (kbdSent es)).reverse ++ log)
        (endsEsc esc (kbdSent es)) ∧
      consFed false (kbdRun shift es).2.1 = nonzero (keyChars log (keyEvents esc (kbdSent es))) ∧
      (kbdRun shift es).2.2 = keyReboots log (keyEvents esc (kbdSent es)) := by
  induction es generalizing shift log esc with
  | nil => exact ⟨h, rfl, rfl⟩
  | cons e es ih =>
      obtain ⟨hshift, hchars, hreboots⟩ := kbdBurst_decodes h e.ports
      obtain ⟨ihshift, ihchars, ihreboots⟩ := ih hshift
      have hsent : kbdSent (e :: es) = kbdBytes e.ports ++ kbdSent es := List.flatMap_cons
      have hfed : (e.event (kbdBurst shift e.ports).2.1).fed false =
          nonzero (kbdBurst shift e.ports).2.1 :=
        consFed_event _ e fun hports => by rw [hports]; rfl
      rw [hsent, keyEvents_append, endsEsc_append, keyChars_append, keyReboots_append,
        List.reverse_append, List.append_assoc]
      refine ⟨ihshift, ?_, ?_⟩
      · rw [nonzero_append]
        exact congrArg₂ (· ++ ·) (hfed.trans hchars) ihchars
      · exact congrArg₂ or hreboots ihreboots

/-- However the bytes of the keyboard are split into interrupts and reads,
`shift` agrees with the keys after each of them, and the characters and the
reboots are those of the keys. -/
theorem kbd_decodes (es : List KbdEvent) :
    KbdAgrees (kbdRun 0 es).1 (keyEvents false (kbdSent es)).reverse
        (endsEsc false (kbdSent es)) ∧
      consFed false (kbdRun 0 es).2.1 = nonzero (keyChars [] (keyEvents false (kbdSent es))) ∧
      (kbdRun 0 es).2.2 = keyReboots [] (keyEvents false (kbdSent es)) := by
  have hrun := kbdRun_decodes kbdAgrees_zero es
  rwa [List.append_nil] at hrun

/-! ### Typing -/

theorem char_plain : ∀ (b : Bool) (k : BitVec 8), k < 0x80 →
    (if b then shiftmap k else normalmap k) ≠ 0 →
      (k ∉ ctlKeys ∧ k ∉ shiftKeys ∧ k ≠ capslockKey) ∧ k ≠ 0xE0 ∧ k ||| 0x80 ≠ 0xE0 := by
  decide +kernel

theorem low_event : ∀ k : BitVec 8, k < 0x80 →
    KeyEvent.ofByte false k = ⟨k, true⟩ ∧ KeyEvent.ofByte false (k ||| 0x80) = ⟨k, false⟩ := by
  decide +kernel

/-- The key of a character, with the left shift key or without. -/
structure Stroke where
  shift : Bool
  key : BitVec 8
  low : key < 0x80
  typable : (if shift then shiftmap key else normalmap key) ≠ 0

def Stroke.char (s : Stroke) : BitVec 8 := if s.shift then shiftmap s.key else normalmap s.key

def Stroke.bytes (s : Stroke) : List (BitVec 8) :=
  if s.shift then [0x2A, s.key, s.key ||| 0x80, 0xAA] else [s.key, s.key ||| 0x80]

def Stroke.events (s : Stroke) : List KeyEvent :=
  if s.shift then [⟨0x2A, true⟩, ⟨s.key, true⟩, ⟨s.key, false⟩, ⟨0x2A, false⟩]
  else [⟨s.key, true⟩, ⟨s.key, false⟩]

/-- A shift key is held, or none, and no other modifier changes the characters. -/
structure Typing (b : Bool) (log : List KeyEvent) : Prop where
  shift : KeyHeld shiftKeys log ↔ b = true
  ctl : ¬ KeyHeld ctlKeys log
  capslock : Toggled capslockKey log = false

variable {s : Stroke} {strokes : List Stroke} {cons : Cons} {b : Bool}

theorem Typing.press (h : Typing b log) (hctl : key ∉ ctlKeys) (hshift : key ∉ shiftKeys)
    (hcaps : key ≠ capslockKey) : Typing b (⟨key, true⟩ :: log) where
  shift := by rw [held_press, or_iff_right hshift, h.shift]
  ctl hheld := (held_press.mp hheld).elim hctl h.ctl
  capslock := by rw [toggled_press, h.capslock, decide_eq_false hcaps, Bool.false_xor]

theorem Typing.release (h : Typing b log) (hshift : key ∉ shiftKeys) :
    Typing b (⟨key, false⟩ :: log) where
  shift := by rw [held_release, and_iff_right hshift, h.shift]
  ctl hheld := h.ctl (held_release.mp hheld).2
  capslock := by rw [toggled_release, h.capslock]

theorem Typing.shiftDown (h : Typing b log) : Typing true (⟨0x2A, true⟩ :: log) where
  shift := iff_of_true (held_press.mpr (Or.inl (by decide))) rfl
  ctl hheld := (held_press.mp hheld).elim (by decide) h.ctl
  capslock := by rw [toggled_press, h.capslock]; rfl

theorem Typing.shiftUp (h : Typing b log) : Typing false (⟨0x2A, false⟩ :: log) where
  shift := iff_of_false (fun hheld => (held_release.mp hheld).1 (by decide)) Bool.false_ne_true
  ctl hheld := h.ctl (held_release.mp hheld).2
  capslock := by rw [toggled_release, h.capslock]

theorem Typing.char (h : Typing b log) (key : BitVec 8) :
    keyChar log key = if b then shiftmap key else normalmap key := by
  simp only [keyChar, if_neg h.ctl, h.shift, h.capslock, Bool.false_eq_true, if_false]

theorem Stroke.keyEvents_bytes (s : Stroke) : keyEvents false s.bytes = s.events := by
  obtain ⟨-, hkey, hup⟩ := char_plain s.shift s.key s.low s.typable
  obtain ⟨hpress, hrelease⟩ := low_event s.key s.low
  rw [Stroke.bytes, Stroke.events]
  split
  · simp only [keyEvents, if_neg hkey, if_neg hup, hpress, hrelease]
    rfl
  · simp only [keyEvents, if_neg hkey, if_neg hup, hpress, hrelease]

theorem Stroke.endsEsc_bytes (s : Stroke) : endsEsc false s.bytes = false := by
  obtain ⟨-, -, hup⟩ := char_plain s.shift s.key s.low s.typable
  rw [Stroke.bytes]
  split
  · rfl
  · exact decide_eq_false hup

/-- A stroke gives its character, and the keys are as before. -/
theorem Stroke.keyChars_events (h : Typing false log) (s : Stroke) :
    nonzero (keyChars log s.events) = [s.char] ∧ Typing false (s.events.reverse ++ log) := by
  obtain ⟨⟨hctl, hshift, hcaps⟩, -⟩ := char_plain s.shift s.key s.low s.typable
  have htyp := s.typable
  rw [Stroke.events, Stroke.char]
  by_cases hs : s.shift = true
  · rw [if_pos hs] at htyp
    have hdown := h.shiftDown
    have hpress := hdown.press hctl hshift hcaps
    have hshiftchar : keyChar (⟨0x2A, true⟩ :: log) 0x2A = 0 := hdown.char 0x2A
    have hchar : keyChar (⟨s.key, true⟩ :: ⟨0x2A, true⟩ :: log) s.key = shiftmap s.key :=
      hpress.char s.key
    simp only [if_pos hs]
    refine ⟨?_, (hpress.release hshift).shiftUp⟩
    simp only [keyChars, KeyEvent.char, hshiftchar, hchar, if_true, Bool.false_eq_true, if_false,
      nonzero_zero, nonzero_cons htyp, nonzero_nil]
  · rw [if_neg hs] at htyp
    have hpress := h.press hctl hshift hcaps
    have hchar : keyChar (⟨s.key, true⟩ :: log) s.key = normalmap s.key := hpress.char s.key
    simp only [if_neg hs]
    refine ⟨?_, hpress.release hshift⟩
    simp only [keyChars, KeyEvent.char, hchar, if_true, Bool.false_eq_true, if_false,
      nonzero_zero, nonzero_cons htyp, nonzero_nil]

theorem keyChars_strokes (h : Typing false log) (strokes : List Stroke) :
    nonzero (keyChars log (keyEvents false (strokes.flatMap Stroke.bytes))) =
      strokes.map Stroke.char := by
  induction strokes generalizing log with
  | nil => rfl
  | cons s strokes ih =>
      obtain ⟨hchar, hrest⟩ := s.keyChars_events h
      rw [List.flatMap_cons, keyEvents_append, s.endsEsc_bytes, s.keyEvents_bytes, keyChars_append,
        nonzero_append, hchar, ih hrest, List.map_cons, List.singleton_append]

theorem typing_nil : Typing false [] := ⟨iff_of_false id Bool.false_ne_true, id, rfl⟩

theorem printable_typable : ∀ c : BitVec 8, 0x20 ≤ c → c < 0x7F →
    c ∈ (List.range 0x54).map (fun k => normalmap (BitVec.ofNat 8 k)) ∨
      c ∈ (List.range 0x54).map (fun k => shiftmap (BitVec.ofNat 8 k)) := by
  decide +kernel

/-- Every printable character can be typed. -/
theorem exists_stroke (hge : 0x20 ≤ c) (hlt : c < 0x7F) : ∃ s : Stroke, s.char = c := by
  have hne : c ≠ 0 := by
    rintro rfl
    exact absurd hge (by decide)
  have hlow (k : ℕ) (hk : k ∈ List.range 0x54) : BitVec.ofNat 8 k < 0x80 := by
    rw [List.mem_range] at hk
    rw [BitVec.lt_def, BitVec.toNat_ofNat]
    exact Nat.lt_of_le_of_lt (Nat.mod_le _ _) (Nat.lt_trans hk (by decide))
  rcases printable_typable c hge hlt with hmem | hmem
  · obtain ⟨k, hk, hchar⟩ := List.mem_map.mp hmem
    exact ⟨⟨false, _, hlow k hk, fun hzero => hne (hchar.symm.trans hzero)⟩, hchar⟩
  · obtain ⟨k, hk, hchar⟩ := List.mem_map.mp hmem
    exact ⟨⟨true, _, hlow k hk, fun hzero => hne (hchar.symm.trans hzero)⟩, hchar⟩

/-- The text that is typed is what `cons_getc` returns, up to what it has still
to return, however the bytes of the keyboard are split into interrupts and
reads; the machine has no serial port. -/
theorem kbd_types (es : List KbdEvent) (strokes : List Stroke) (hrpos : cons.rpos = 0)
    (hwpos : cons.wpos = 0) (hsent : kbdSent es = strokes.flatMap Stroke.bytes)
    (hfits : ConsFits false [] (kbdRun 0 es).2.1) :
    ∃ cons' results, consRun false cons (kbdRun 0 es).2.1 = some (cons', results) ∧
      strokes.map Stroke.char = nonzero results ++ consUnread false [] (kbdRun 0 es).2.1 := by
  obtain ⟨cons', results, hrun, -, hsplit⟩ := consRun_holds (holds_start hrpos hwpos) hfits
  have hrun' := kbdRun_decodes kbdAgrees_zero es
  refine ⟨cons', results, hrun, ?_⟩
  rw [← hsplit, List.nil_append, hrun'.2.1, hsent, keyChars_strokes typing_nil]

/-- "aB" from four polls. -/
theorem kbd_types_two : ∃ cons' results,
    consRun false ⟨fun _ => 0, 0, 0⟩
        [.kbd [97], .getc [] [0, 0], .kbd [66, 0], .getc [] [0]] = some (cons', results) ∧
      str "aB" = nonzero results ++ [] :=
  kbd_types
    [.kbd [(1, 0x1E)], .getc [] [(1, 0x9E), (1, 0x2A)], .kbd [(1, 0x30), (1, 0xB0), (0, 0)],
      .getc [] [(1, 0xAA), (0x21, 0)]]
    [⟨false, 0x1E, by decide, by decide⟩, ⟨true, 0x30, by decide, by decide⟩] rfl rfl rfl
    ⟨by decide, by decide, by decide, by decide, trivial⟩

end Jos
