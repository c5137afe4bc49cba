import Mathlib.Data.BitVec
import Jos.Lib.Ring

/-!
The input buffer of the console in kern/console.c. The devices put characters
into a circular buffer when they interrupt and when a read polls them, and
`cons_getc` takes them out again. As long as the buffer never has to hold more
than 511 characters it is a queue.
-/

namespace Jos

open Jos.Lib

def consbufsize : ℕ := 512

structure Cons where
  buf : ℕ → BitVec 8
  rpos : ℕ
  wpos : ℕ

/-- What a device yields up to the next -1: `serial_proc_data` a byte it has
read, `kbd_proc_data` an entry of a table of bytes, or 0 within a character. -/
abbrev Burst := List (BitVec 8)

/-! ### The functions -/

/-- `cons.buf[cons.wpos++] = c`, where `none` is an access outside of `buf`. -/
def Cons.store (cons : Cons) (c : BitVec 8) : Option Cons :=
  if cons.wpos < consbufsize then
    some { cons with
      buf := Function.update cons.buf cons.wpos c
      wpos := if cons.wpos + 1 = consbufsize then 0 else cons.wpos + 1 }
  else none

/-- `c = cons.buf[cons.rpos++]` -/
def Cons.fetch (cons : Cons) : Option (BitVec 8 × Cons) :=
  if cons.rpos < consbufsize then
    some (cons.buf cons.rpos,
      { cons with rpos := if cons.rpos + 1 = consbufsize then 0 else cons.rpos + 1 })
  else none

def consIntr (cons : Cons) : Burst → Option Cons
  | [] => some cons
  | c :: proc => if c = 0 then consIntr cons proc else (cons.store c).bind (consIntr · proc)

def serialIntr (serialExists : Bool) (cons : Cons) (serial : Burst) : Option Cons :=
  if serialExists then consIntr cons serial else some cons

def kbdIntr (cons : Cons) (kbd : Burst) : Option Cons := consIntr cons kbd

/-- `cons_getc`, with what the devices have when it polls them. -/
def consGetc (serialExists : Bool) (cons : Cons) (serial kbd : Burst) :
    Option (BitVec 8 × Cons) := do
  let cons ← serialIntr serialExists cons serial
  let cons ← kbdIntr cons kbd
  if cons.rpos ≠ cons.wpos then cons.fetch else some (0, cons)

/-! ### Runs -/

inductive ConsEvent where
  | serial (data : Burst)
  | kbd (data : Burst)
  | getc (serial kbd : Burst)

/-- The new state and what `cons_getc` has returned. -/
def ConsEvent.run (serialExists : Bool) (cons : Cons) :
    ConsEvent → Option (Cons × List (BitVec 8))
  | .serial data => (serialIntr serialExists cons data).map (·, [])
  | .kbd data => (kbdIntr cons data).map (·, [])
  | .getc s k => (consGetc serialExists cons s k).map fun (c, cons) => (cons, [c])

def consRun (serialExists : Bool) (cons : Cons) :
    List ConsEvent → Option (Cons × List (BitVec 8))
  | [] => some (cons, [])
  | e :: es => do
      let (cons, results) ← e.run serialExists cons
      let (cons, more) ← consRun serialExists cons es
      some (cons, results ++ more)

/-! ### The queue -/

/-- The characters among the values. -/
def nonzero (l : List (BitVec 8)) : List (BitVec 8) := l.filter (· ≠ 0)

/-- The characters that the devices feed; a serial port that does not exist is
not read. -/
def ConsEvent.fed (serialExists : Bool) : ConsEvent → List (BitVec 8)
  | .serial data => if serialExists then nonzero data else []
  | .kbd data => nonzero data
  | .getc s k => (if serialExists then nonzero s else []) ++ nonzero k

def consFed (serialExists : Bool) (es : List ConsEvent) : List (BitVec 8) :=
  es.flatMap (ConsEvent.fed serialExists)

/-- A read takes one of the unread characters. -/
def ConsEvent.taken : ConsEvent → ℕ
  | .getc _ _ => 1
  | _ => 0

/-- The characters that are unread after an event, where `q` were before. -/
def ConsEvent.unread (serialExists : Bool) (q : List (BitVec 8)) (e : ConsEvent) :
    List (BitVec 8) :=
  (q ++ e.fed serialExists).drop e.taken

def consUnread (serialExists : Bool) (q : List (BitVec 8)) (es : List ConsEvent) :
    List (BitVec 8) :=
  es.foldl (ConsEvent.unread serialExists) q

/-- From `q` unread characters on there are never more than the buffer holds. -/
def ConsFits (serialExists : Bool) (q : List (BitVec 8)) : List ConsEvent → Prop
  | [] => True
  | e :: es =>
      (q ++ e.fed serialExists).length ≤ consbufsize - 1 ∧
        ConsFits serialExists (e.unread serialExists q) es

/-- The unread characters are `q`. -/
structure Cons.Holds (cons : Cons) (q : List (BitVec 8)) : Prop where
  ring : RingHolds consbufsize cons.buf cons.rpos cons.wpos q
  characters : ∀ c ∈ q, c ≠ 0

variable {cons : Cons} {q : List (BitVec 8)} {c : BitVec 8} {l s k : Burst} {x : Bool}
  {e : ConsEvent} {es : List ConsEvent}

@[simp] theorem nonzero_nil : nonzero [] = [] := rfl

@[simp] theorem nonzero_zero : nonzero (0 :: l) = nonzero l := rfl

theorem nonzero_cons (hc : c ≠ 0) : nonzero (c :: l) = c :: nonzero l :=
  List.filter_cons_of_pos (decide_eq_true hc)

theorem nonzero_append : nonzero (l ++ s) = nonzero l ++ nonzero s := List.filter_append ..

/-! ### The buffer is a queue -/

theorem store_holds (h : cons.Holds q) (hc : c ≠ 0) (hroom : q.length + 1 < consbufsize) :
    ∃ cons', cons.store c = some cons' ∧ cons'.Holds (q ++ [c]) := by
  refine ⟨_, if_pos h.ring.write_lt, h.ring.store hroom, ?_⟩
  intro d hd
  rcases List.mem_append.mp hd with hold | hnew
  · exact h.characters d hold
  · exact List.mem_singleton.mp hnew ▸ hc

theorem fetch_holds (h : cons.Holds (c :: q)) :
    ∃ cons', cons.fetch = some (c, cons') ∧ cons'.Holds q := by
  obtain ⟨hcell, hring⟩ := h.ring.fetch
  have hfetch : cons.fetch = some (cons.buf cons.rpos, _) := if_pos h.ring.read_lt
  rw [hcell] at hfetch
  exact ⟨_, hfetch, hring, fun d hd => h.characters d (List.mem_cons_of_mem c hd)⟩

/-- By induction on the burst: a zero is skipped, a character is stored. -/
theorem consIntr_holds (h : cons.Holds q) (hroom : (q ++ nonzero l).length ≤ consbufsize - 1) :
    ∃ cons', consIntr cons l = some cons' ∧ cons'.Holds (q ++ nonzero l) := by
  induction l generalizing cons q with
  | nil => exact ⟨cons, rfl, by rwa [nonzero_nil, List.append_nil]⟩
  | cons c l ih =>
      by_cases hc : c = 0
      · subst hc
        rw [nonzero_zero] at hroom ⊢
        exact ih h hroom
      · rw [nonzero_cons hc, List.append_cons] at hroom ⊢
        have hstored : q.length + 1 < consbufsize := by
          simp only [List.length_append, List.length_singleton, consbufsize] at hroom ⊢
          omega
        obtain ⟨cons', hstore, h'⟩ := store_holds h hc hstored
        obtain ⟨cons'', hintr, h''⟩ := ih h' hroom
        refine ⟨cons'', ?_, h''⟩
        rw [consIntr, if_neg hc, hstore]
        exact hintr

theorem serialIntr_holds (h : cons.Holds q)
    (hroom : (q ++ if x then nonzero l else []).length ≤ consbufsize - 1) :
    ∃ cons', serialIntr x cons l = some cons' ∧ cons'.Holds (q ++ if x then nonzero l else []) := by
  cases x with
  | false => exact ⟨cons, rfl, (List.append_nil q).symm ▸ h⟩
  | true => exact consIntr_holds h hroom

/-- A read polls the devices and takes the first of the unread characters. -/
theorem consGetc_holds (h : cons.Holds q)
    (hroom : (q ++ (ConsEvent.getc s k).fed x).length ≤ consbufsize - 1) :
    ∃ c cons', consGetc x cons s k = some (c, cons') ∧
      cons'.Holds ((ConsEvent.getc s k).unread x q) ∧
      q ++ (ConsEvent.getc s k).fed x = nonzero [c] ++ (ConsEvent.getc s k).unread x q ∧
      (c = 0 ↔ q ++ (ConsEvent.getc s k).fed x = []) := by
  have hfed : q ++ (ConsEvent.getc s k).fed x =
      q ++ (if x then nonzero s else []) ++ nonzero k := (List.append_assoc ..).symm
  rw [ConsEvent.unread, hfed]
  rw [hfed] at hroom
  obtain ⟨cons₁, hserial, h₁⟩ := serialIntr_holds (l := s) (x := x) h (by
    rw [List.length_append] at hroom
    omega)
  obtain ⟨cons₂, hkbd, h₂⟩ := consIntr_holds h₁ hroom
  have hgetc : consGetc x cons s k =
      if cons₂.rpos ≠ cons₂.wpos then cons₂.fetch else some (0, cons₂) := by
    simp only [consGetc, kbdIntr, hserial, hkbd, Option.bind_eq_bind, Option.bind_some]
  rw [hgetc]
  generalize q ++ (if x then nonzero s else []) ++ nonzero k = arrived at h₂
  cases arrived with
  | nil =>
      refine ⟨0, cons₂, if_neg (not_not.mpr (h₂.ring.eq_iff.mpr rfl)), h₂, rfl, ?_⟩
      exact iff_of_true rfl rfl
  | cons c rest =>
      obtain ⟨cons', hfetch, h'⟩ := fetch_holds h₂
      have hc : c ≠ 0 := h₂.characters c List.mem_cons_self
      have hwaiting : cons₂.rpos ≠ cons₂.wpos := fun heq =>
        List.cons_ne_nil c rest (h₂.ring.eq_iff.mp heq)
      refine ⟨c, cons', (if_pos hwaiting).trans hfetch, h', ?_, ?_⟩
      · rw [nonzero_cons hc]
        rfl
      · exact iff_of_false hc (List.cons_ne_nil c rest)

theorem ConsEvent.run_holds (h : cons.Holds q)
    (hroom : (q ++ e.fed x).length ≤ consbufsize - 1) :
    ∃ cons' results, e.run x cons = some (cons', results) ∧ cons'.Holds (e.unread x q) ∧
      q ++ e.fed x = nonzero results ++ e.unread x q := by
  cases e with
  | serial data =>
      obtain ⟨cons', hintr, h'⟩ := serialIntr_holds h hroom
      exact ⟨cons', [], congrArg (Option.map (·, [])) hintr, h', rfl⟩
  | kbd data =>
      obtain ⟨cons', hintr, h'⟩ := consIntr_holds h hroom
      exact ⟨cons', [], congrArg (Option.map (·, [])) hintr, h', rfl⟩
  | getc s k =>
      obtain ⟨c, cons', hgetc, h', hsplit, -⟩ := consGetc_holds h hroom
      exact ⟨cons', [c], congrArg (Option.map _) hgetc, h', hsplit⟩

/-- What was unread at the start and what is fed is what the run returns and
what is unread at the end. -/
theorem consRun_holds (h : cons.Holds q) (hfits : ConsFits x q es) :
    ∃ cons' results, consRun x cons es = some (cons', results) ∧
      cons'.Holds (consUnread x q es) ∧
      q ++ consFed x es = nonzero results ++ consUnread x q es := by
  induction es generalizing cons q with
  | nil => exact ⟨cons, [], rfl, h, List.append_nil q⟩
  | cons e es ih =>
      obtain ⟨cons₁, results, hrun, h₁, hsplit⟩ := ConsEvent.run_holds h hfits.1
      obtain ⟨cons₂, more, hruns, h₂, hrest⟩ := ih h₁ hfits.2
      refine ⟨cons₂, results ++ more, ?_, h₂, ?_⟩
      · simp only [consRun, hrun, hruns, Option.bind_eq_bind, Option.bind_some]
      · calc
          q ++ consFed x (e :: es) = q ++ e.fed x ++ consFed x es := by
            rw [consFed, List.flatMap_cons, List.append_assoc]
            rfl
          _ = nonzero results ++ (e.unread x q ++ consFed x es) := by
            rw [hsplit, List.append_assoc]
          _ = nonzero (results ++ more) ++ consUnread x q (e :: es) := by
            rw [hrest, nonzero_append, List.append_assoc]
            rfl

theorem ConsFits.append {es' : List ConsEvent} (h : ConsFits x q (es ++ es')) :
    ConsFits x q es ∧ ConsFits x (consUnread x q es) es' := by
  induction es generalizing q with
  | nil => exact ⟨trivial, h⟩
  | cons e es ih =>
      obtain ⟨hrest, hfits⟩ := ih h.2
      exact ⟨⟨h.1, hrest⟩, hfits⟩

theorem holds_start (hrpos : cons.rpos = 0) (hwpos : cons.wpos = 0) : cons.Holds [] where
  ring := by
    rw [hrpos, hwpos]
    exact .empty (by decide)
  characters _ hc := absurd hc List.not_mem_nil

/-- Every run whose characters fit into the buffer stays within it. What has
been returned are the characters that were fed, in order, up to those that are
unread, and a read returns 0 where there are none. -/
theorem cons_fifo (hrpos : cons.rpos = 0) (hwpos : cons.wpos = 0) (hfits : ConsFits x [] es) :
    (∃ cons' results, consRun x cons es = some (cons', results) ∧
      cons'.rpos < consbufsize ∧ cons'.wpos < consbufsize ∧
      consFed x es = nonzero results ++ consUnread x [] es) ∧
    ∀ before s k after, es = before ++ .getc s k :: after →
      ∃ cons₁ results c cons₂, consRun x cons before = some (cons₁, results) ∧
        consGetc x cons₁ s k = some (c, cons₂) ∧
        (c = 0 ↔ consFed x (before ++ [.getc s k]) = nonzero results) := by
  have hstart := holds_start hrpos hwpos
  constructor
  · obtain ⟨cons', results, hrun, h, hsplit⟩ := consRun_holds hstart hfits
    exact ⟨cons', results, hrun, h.ring.read_lt, h.ring.write_lt, hsplit⟩
  · intro before s k after hes
    rw [hes] at hfits
    obtain ⟨hbefore, hread⟩ := hfits.append
    obtain ⟨cons₁, results, hrun, h, hsplit⟩ := consRun_holds hstart hbefore
    obtain ⟨c, cons₂, hgetc, -, -, hzero⟩ := consGetc_holds h hread.1
    refine ⟨cons₁, results, c, cons₂, hrun, hgetc, hzero.trans ?_⟩
    have hfed : consFed x (before ++ [.getc s k]) =
        nonzero results ++ (consUnread x [] before ++ (ConsEvent.getc s k).fed x) := by
      rw [← List.append_assoc, ← hsplit]
      simp [consFed]
    rw [hfed, List.append_right_eq_self]

/-- Two characters with a zero between them, read by two of three reads. -/
theorem cons_fifo_two :
    ∃ cons' results, consRun true ⟨fun _ => 0, 0, 0⟩
        [.kbd [97, 0, 98], .getc [] [], .getc [] [0], .getc [] []] = some (cons', results) ∧
      cons'.rpos < consbufsize ∧ cons'.wpos < consbufsize ∧ [97, 98] = nonzero results ++ [] :=
  (cons_fifo rfl rfl (by simp [ConsFits, ConsEvent.fed, ConsEvent.unread, ConsEvent.taken,
    consbufsize, nonzero])).1

end Jos
