import Jos.Lib.Run
import Jos.Ulib.Ipc

/-!
user/primes.c: a chain of processes, each of which prints the first number it
receives and passes on those of the others that this one does not divide. The
processes take their steps in any order, each up to the next system call; a
send to a process that does not wait is tried again. An `int` is a number here,
so nothing overflows, and a `fork` finds an id that is not in use.
-/

namespace Jos

open Jos.Lib

/-- What a process does next. A call of `fork` is made of `sys_exofork` and of
the rest of it, in `umainCopy` and `copy`; a process at `topRet` or `loopRet` is
in `ipc_recv` after the system call. -/
inductive PrimesPc where
  | umainFork | umainCopy | feed
  | top | topRet | print | fork | copy | loop | loopRet | send
  | trapped | panicked
  deriving DecidableEq, Repr

/-- A process: its variables, where a null `id` is 0, its fields of `struct
Env`, and what its calls of `ipc_recv` have returned. -/
structure Proc (ι : Type) where
  pc : PrimesPc
  i : ℕ
  id : Option ι
  p : ℕ
  ipc : Ipc ℕ
  received : List ℕ

/-- A new process, before its memory is copied. It is not ready, and when it is
it goes on at `top`, since its call of `sys_exofork` returns 0. -/
def Proc.new {ι : Type} : Proc ι := ⟨.top, 0, none, 0, ⟨false, 0, false⟩, []⟩

/-- The return of `ipc_recv`. -/
def Proc.ret {ι : Type} (r : Proc ι) : Proc ι :=
  { r with received := r.received ++ [r.ipc.value] }

/-- The processes, the calls of `fork` as pairs of parent and child, and what
has been printed by whom, both in order. -/
structure Primes (ι : Type) where
  procs : ι → Option (Proc ι)
  forks : List (ι × ι)
  printed : List (ι × ℕ)

namespace Primes

variable {ι : Type} [DecidableEq ι]

def set (s : Primes ι) (q : ι) (r : Proc ι) : Primes ι :=
  { s with procs := Function.update s.procs q (some r) }

/-- `sys_exofork`. -/
def exofork (s : Primes ι) (q new : ι) (r : Proc ι) (pc : PrimesPc) : Option (Primes ι) :=
  if (s.procs new).isSome then none
  else some
    { (s.set q { r with pc := pc, id := some new }).set new .new with
      forks := s.forks ++ [(q, new)] }

/-- The rest of `fork`: the child gets a copy of the memory and becomes
runnable. -/
def finishFork (s : Primes ι) (q : ι) (r r' : Proc ι) : Primes ι :=
  let child := r.id.getD q
  match s.procs child with
  | none => s.set q { r with pc := .panicked }
  | some t =>
      (s.set child { t with i := r.i, p := r.p, ipc := { t.ipc with ready := true } }).set q r'

/-- `ipc_send(id, i, 0, 0)`, one turn of its loop: a process goes on as `r'`
after a send that succeeds. -/
def ipcSend (s : Primes ι) (q : ι) (r r' : Proc ι) : Primes ι :=
  let toEnv := r.id.getD q
  match s.procs toEnv with
  | none => s.set q { r with pc := .panicked }
  | some t =>
      if t.ipc.recving then (s.set toEnv { t with ipc := t.ipc.deliver r.i }).set q r' else s

/-- The step of process `q`, and of its child `new` where it forks. -/
def step (s : Primes ι) : ι × ι → Option (Primes ι)
  | (q, new) =>
    match s.procs q with
    | none => none
    | some r =>
      if ¬ r.ipc.ready then none
      else
        match r.pc with
        | .umainFork => s.exofork q new r .umainCopy
        | .umainCopy => some (s.finishFork q r { r with pc := .feed, i := 2 })
        | .feed => some (s.ipcSend q r { r with i := r.i + 1 })
        | .top => some (s.set q { r with pc := .topRet, ipc := r.ipc.recv })
        | .topRet => some (s.set q { r.ret with pc := .print, p := r.ipc.value })
        | .print => some
            { s.set q { r with pc := .fork } with printed := s.printed ++ [(q, r.p)] }
        | .fork => s.exofork q new r .copy
        | .copy => some (s.finishFork q r { r with pc := .loop })
        | .loop => some (s.set q { r with pc := .loopRet, ipc := r.ipc.recv })
        | .loopRet =>
            let i := r.ipc.value
            let pc : PrimesPc :=
              if r.p = 0 then .trapped else if i % r.p ≠ 0 then .send else .loop
            some (s.set q { r.ret with pc := pc, i := i })
        | .send => some (s.ipcSend q r { r with pc := .loop })
        | .trapped | .panicked => none

/-- The first process at the start of `umain`. -/
def init (g : ι) : Primes ι :=
  ⟨Function.update (fun _ => none) g (some ⟨.umainFork, 0, none, 0, ⟨false, 0, true⟩, []⟩), [], []⟩

/-- The states of a run under any schedule. -/
def Reach (g : ι) (s : Primes ι) : Prop :=
  Run (fun s l t => step s l = some t) (fun _ _ => True) (init g) s

/-- The processes after the first, in the order in which they were created. -/
def children (s : Primes ι) : List ι := s.forks.map Prod.snd

end Primes

/-! ### Neighbours -/

section

variable {ι : Type} {r t : Proc ι} {b : ι} {first : Prop}

namespace Proc

/-- What has been delivered to the process and not yet been returned. -/
def pending (r : Proc ι) : List ℕ :=
  if (r.pc = .topRet ∨ r.pc = .loopRet) ∧ r.ipc.ready then [r.ipc.value] else []

/-- What has been sent to the process. -/
def arrived (r : Proc ι) : List ℕ := r.received ++ r.pending

/-- The numbers received that the process passes on. -/
def passed (r : Proc ι) : List ℕ := r.received.filter fun x => ¬ r.p ∣ x

/-- What the process has sent. -/
def sent (r : Proc ι) : List ℕ :=
  match r.pc with
  | .feed => (List.range r.i).filter fun x => 2 ≤ x
  | .loop | .loopRet => r.passed
  | .send => r.passed.dropLast
  | _ => []

/-- Between `sys_exofork` and the end of `fork`. -/
def Forking (r : Proc ι) : Prop := r.pc = .umainCopy ∨ r.pc = .copy

/-- Created, and never runnable so far. -/
def Unborn (r : Proc ι) : Prop := r.pc = .top ∧ r.ipc.ready = false

/-- The process is the last of the chain. -/
def Alone (r : Proc ι) : Prop :=
  r.pc = .umainFork ∨ r.pc = .top ∨ r.pc = .topRet ∨ r.pc = .print ∨ r.pc = .fork

/-- The prime that the process has printed. -/
def shown (r : Proc ι) : Option ℕ :=
  match r.pc with
  | .fork | .copy | .loop | .loopRet | .send => some r.p
  | _ => none

/-- What holds of a process by itself. -/
structure Ok (first : Prop) (r : Proc ι) : Prop where
  umain : first ↔ r.pc = .umainFork ∨ r.pc = .umainCopy ∨ r.pc = .feed
  alone : r.id = none ↔ r.Alone
  silent : r.pc = .top ∨ r.pc = .topRet → r.received = []
  prime : r.pc = .print ∨ r.pc = .fork ∨ r.pc = .copy → r.received = [r.p]
  sieving : r.pc = .loop ∨ r.pc = .loopRet ∨ r.pc = .send → r.received.head? = some r.p
  holding : r.pc = .send → r.passed.getLast? = some r.i
  feeding : r.pc = .feed → 2 ≤ r.i
  waiting : r.ipc.recving = true → (r.pc = .topRet ∨ r.pc = .loopRet) ∧ r.ipc.ready = false
  running : r.pc ≠ .trapped ∧ r.pc ≠ .panicked

/-- What holds of a process and its right neighbour `b`: all that has been sent
has arrived. -/
structure Link (r : Proc ι) (b : ι) (t : Proc ι) : Prop where
  id : r.id = some b
  flow : t.arrived = r.sent
  forking : r.Forking ↔ t.Unborn

/-- The left neighbour sees no difference. -/
structure SameIn (r r' : Proc ι) : Prop where
  arrived : r'.arrived = r.arrived
  unborn : r'.Unborn ↔ r.Unborn

/-- The right neighbour sees no difference. -/
structure SameOut (r r' : Proc ι) : Prop where
  id : r'.id = r.id
  sent : r'.sent = r.sent
  forking : r'.Forking ↔ r.Forking

theorem Link.left {r' : Proc ι} (h : Link r b t) (hr : SameOut r r') : Link r' b t :=
  ⟨hr.id.trans h.id, h.flow.trans hr.sent.symm, hr.forking.trans h.forking⟩

theorem Link.right {t' : Proc ι} (h : Link r b t) (ht : SameIn t t') : Link r b t' :=
  ⟨h.id, ht.arrived.trans h.flow, h.forking.trans ht.unborn.symm⟩

end Proc

end

namespace Primes

section

variable {ι : Type} {g : ι} {s t : Primes ι}

open Proc

/-- What a process has printed. -/
def shown (s : Primes ι) (q : ι) : Option (ι × ℕ) :=
  (s.procs q).bind fun r => r.shown.map fun p => (q, p)

/-- The processes are a chain in which neighbours agree. -/
structure Chain (g : ι) (s : Primes ι) : Prop where
  nodup : (g :: s.children).Nodup
  forks : s.forks = (g :: s.children).zip s.children
  dom : ∀ q, (s.procs q).isSome ↔ q ∈ g :: s.children
  ok : ∀ q r, s.procs q = some r → Ok (q = g) r
  right : ∀ q r, s.procs q = some r → ¬ r.Alone → ∃ b, (q, b) ∈ s.forks
  link : ∀ a b r u, (a, b) ∈ s.forks → s.procs a = some r → s.procs b = some u → Link r b u

/-- A chain, of which every process that has a prime has printed it, in
order. -/
structure Inv (g : ι) (s : Primes ι) : Prop where
  chain : Chain g s
  printed : s.printed = s.children.filterMap s.shown

/-! ### Chains -/

theorem zip_concat (g x : ι) (cs : List ι) :
    (g :: (cs ++ [x])).zip (cs ++ [x]) =
      (g :: cs).zip cs ++ [((g :: cs).getLast (by simp), x)] := by
  induction cs generalizing g with
  | nil => rfl
  | cons c cs ih =>
      simp only [List.cons_append, List.zip_cons_cons, ih c]
      simp

/-- All but the last have a right neighbour. -/
theorem right_or_last {q : ι} {cs : List ι} (hq : q ∈ g :: cs) :
    (∃ b, (q, b) ∈ (g :: cs).zip cs) ∨ (g :: cs).getLast (by simp) = q := by
  induction cs generalizing g with
  | nil => exact Or.inr (List.mem_singleton.mp hq).symm
  | cons c cs ih =>
      rcases List.mem_cons.mp hq with rfl | hmem
      · exact Or.inl ⟨c, by simp⟩
      · rcases ih hmem with ⟨b, hb⟩ | hlast
        · exact Or.inl ⟨b, List.mem_cons_of_mem _ hb⟩
        · exact Or.inr (by simpa using hlast)

theorem ne_of_mem_zip {a b : ι} {cs : List ι} (hcs : (g :: cs).Nodup)
    (hab : (a, b) ∈ (g :: cs).zip cs) : a ≠ b := by
  induction cs generalizing g with
  | nil => simp at hab
  | cons c cs ih =>
      rcases List.mem_cons.mp hab with heq | hmem
      · cases heq
        rintro rfl
        exact (List.nodup_cons.mp hcs).1 List.mem_cons_self
      · exact ih (List.nodup_cons.mp hcs).2 hmem

theorem mem_children {a b : ι} (h : (a, b) ∈ s.forks) : b ∈ s.children :=
  List.mem_map_of_mem (f := Prod.snd) h

theorem Chain.exists_child (h : Chain g s) {a b : ι} (hab : (a, b) ∈ s.forks) :
    ∃ u, s.procs b = some u :=
  Option.isSome_iff_exists.mp ((h.dom b).mpr (List.mem_cons_of_mem g (mem_children hab)))

theorem Chain.ne (h : Chain g s) {a b : ι} (hab : (a, b) ∈ s.forks) : a ≠ b :=
  ne_of_mem_zip h.nodup (h.forks ▸ hab)

/-- Nobody has two left neighbours. -/
theorem Chain.left_unique (h : Chain g s) {a a' b : ι} (hab : (a, b) ∈ s.forks)
    (hab' : (a', b) ∈ s.forks) : a = a' :=
  congrArg Prod.fst (List.inj_on_of_nodup_map (List.nodup_cons.mp h.nodup).2 hab hab' rfl)

theorem Chain.right_unique (h : Chain g s) {a b b' : ι} {r : Proc ι} (hr : s.procs a = some r)
    (hab : (a, b) ∈ s.forks) (hab' : (a, b') ∈ s.forks) : b = b' := by
  obtain ⟨u, hu⟩ := h.exists_child hab
  obtain ⟨u', hu'⟩ := h.exists_child hab'
  have hid := (h.link a b r u hab hr hu).id
  rw [(h.link a b' r u' hab' hr hu').id] at hid
  exact (Option.some.inj hid).symm

/-- A process that is alone is the last one. -/
theorem Chain.last (h : Chain g s) {q : ι} {r : Proc ι} (hr : s.procs q = some r)
    (halone : r.Alone) :
    (∀ b, (q, b) ∉ s.forks) ∧ (g :: s.children).getLast (by simp) = q := by
  have hright (b : ι) : (q, b) ∉ s.forks := by
    intro hb
    obtain ⟨u, hu⟩ := h.exists_child hb
    have hid := (h.link q b r u hb hr hu).id
    rw [((h.ok q r hr).alone).mpr halone] at hid
    cases hid
  refine ⟨hright, ?_⟩
  have hmem := (h.dom q).mp (by rw [hr]; rfl)
  rcases right_or_last hmem with ⟨b, hb⟩ | hlast
  · exact absurd (h.forks ▸ hb) (hright b)
  · exact hlast

end

/-! ### Steps in a chain -/

section

variable {ι : Type} [DecidableEq ι] {g q b new : ι} {s t : Primes ι} {r r' u u' : Proc ι}

open Proc

theorem isSome_set (hr : s.procs q = some r) (a : ι) :
    ((s.set q r').procs a).isSome = (s.procs a).isSome := by
  simp only [set]
  by_cases ha : a = q
  · subst ha
    rw [Function.update_self, hr]
    rfl
  · rw [Function.update_of_ne ha]

/-- A process changes, and its neighbours do not notice. -/
theorem Chain.update (h : Chain g s) (hr : s.procs q = some r) (hok : Ok (q = g) r')
    (hin : SameIn r r') (hout : SameOut r r') : Chain g (s.set q r') := by
  have hold {a : ι} {x : Proc ι} (hx : (s.set q r').procs a = some x) :
      ∃ x₀, s.procs a = some x₀ ∧ SameIn x₀ x ∧ SameOut x₀ x ∧ Ok (a = g) x := by
    simp only [set] at hx
    by_cases ha : a = q
    · subst ha
      rw [Function.update_self] at hx
      cases hx
      exact ⟨r, hr, hin, hout, hok⟩
    · rw [Function.update_of_ne ha] at hx
      exact ⟨x, hx, ⟨rfl, Iff.rfl⟩, ⟨rfl, rfl, Iff.rfl⟩, h.ok a x hx⟩
  refine ⟨h.nodup, h.forks, fun a => ?_, fun a x hx => ?_, fun a x hx halone => ?_,
    fun a b x y hab hx hy => ?_⟩
  · rw [isSome_set hr]
    exact h.dom a
  · obtain ⟨-, -, -, -, hx'⟩ := hold hx
    exact hx'
  · obtain ⟨x₀, hx₀, -, hout', hok'⟩ := hold hx
    refine h.right a x₀ hx₀ fun halone₀ => halone ?_
    rw [← hok'.alone, hout'.id, (h.ok a x₀ hx₀).alone]
    exact halone₀
  · obtain ⟨x₀, hx₀, -, hout', -⟩ := hold hx
    obtain ⟨y₀, hy₀, hin', -, -⟩ := hold hy
    exact ((h.link a b x₀ y₀ hab hx₀ hy₀).left hout').right hin'

/-- A process and its right neighbour change together. -/
theorem Chain.update₂ (h : Chain g s) (hqb : (q, b) ∈ s.forks) (hr : s.procs q = some r)
    (hu : s.procs b = some u) (hok : Ok (q = g) r') (hok' : Ok (b = g) u') (hin : SameIn r r')
    (hout : SameOut u u') (hlink : Link r' b u') : Chain g ((s.set b u').set q r') := by
  have hne := h.ne hqb
  have hprocs (a : ι) : ((s.set b u').set q r').procs a =
      if a = q then some r' else if a = b then some u' else s.procs a := by
    simp only [set, Function.update_apply]
  -- whoever is not `q` looks the same to its right neighbour
  have hleft {a : ι} {x : Proc ι} (ha : a ≠ q) (hx : ((s.set b u').set q r').procs a = some x) :
      ∃ x₀, s.procs a = some x₀ ∧ SameOut x₀ x := by
    rw [hprocs, if_neg ha] at hx
    split at hx
    · rename_i hab
      cases hx
      exact ⟨u, hab ▸ hu, hout⟩
    · exact ⟨x, hx, ⟨rfl, rfl, Iff.rfl⟩⟩
  -- whoever is not `b` looks the same to its left neighbour
  have hright {a : ι} {x : Proc ι} (ha : a ≠ b) (hx : ((s.set b u').set q r').procs a = some x) :
      ∃ x₀, s.procs a = some x₀ ∧ SameIn x₀ x := by
    rw [hprocs] at hx
    split at hx
    · rename_i haq
      cases hx
      exact ⟨r, haq ▸ hr, hin⟩
    · exact ⟨x, hx, ⟨rfl, Iff.rfl⟩⟩
  have hall {a : ι} {x : Proc ι} (hx : ((s.set b u').set q r').procs a = some x) :
      Ok (a = g) x := by
    rw [hprocs] at hx
    split at hx
    · rename_i haq
      cases hx
      exact haq ▸ hok
    · split at hx
      · rename_i hab
        cases hx
        exact hab ▸ hok'
      · exact h.ok a x hx
  refine ⟨h.nodup, h.forks, fun a => ?_, fun a x hx => hall hx, fun a x hx halone => ?_,
    fun a c x y hac hx hy => ?_⟩
  · have hq : (s.set b u').procs q = some r := by
      simp only [set, Function.update_of_ne hne, hr]
    rw [isSome_set hq, isSome_set hu]
    exact h.dom a
  · by_cases haq : a = q
    · exact ⟨b, haq ▸ hqb⟩
    · obtain ⟨x₀, hx₀, hout'⟩ := hleft haq hx
      refine h.right a x₀ hx₀ fun halone₀ => halone ?_
      rw [← (hall hx).alone, hout'.id, (h.ok a x₀ hx₀).alone]
      exact halone₀
  · by_cases hcb : c = b
    · subst hcb
      obtain rfl := h.left_unique hac hqb
      rw [hprocs, if_pos rfl] at hx
      rw [hprocs, if_neg (Ne.symm hne), if_pos rfl] at hy
      cases hx
      cases hy
      exact hlink
    · have haq : a ≠ q := by
        rintro rfl
        exact hcb (h.right_unique hr hac hqb)
      obtain ⟨x₀, hx₀, hout'⟩ := hleft haq hx
      obtain ⟨y₀, hy₀, hin'⟩ := hright hcb hy
      exact ((h.link a c x₀ y₀ hac hx₀ hy₀).left hout').right hin'

/-- The last process creates its right neighbour. -/
theorem Chain.fork (h : Chain g s) (hr : s.procs q = some r) (halone : r.Alone)
    (hnew : s.procs new = none) (hok : Ok (q = g) r') (hok' : Ok (new = g) u') (hin : SameIn r r')
    (halone' : u'.Alone) (hlink : Link r' new u') :
    Chain g { (s.set q r').set new u' with forks := s.forks ++ [(q, new)] } := by
  obtain ⟨hright, hlast⟩ := h.last hr halone
  have hchildren : ({ (s.set q r').set new u' with forks := s.forks ++ [(q, new)] } :
      Primes ι).children = s.children ++ [new] := by simp [children]
  -- the new process was in no pair so far
  have hfresh : new ∉ g :: s.children := by
    rw [← h.dom, hnew]
    exact Bool.false_ne_true
  have hne : q ≠ new := by
    rintro rfl
    rw [hnew] at hr
    cases hr
  have hprocs (a : ι) : ((s.set q r').set new u').procs a =
      if a = new then some u' else if a = q then some r' else s.procs a := by
    simp only [set, Function.update_apply]
  refine ⟨?_, ?_, fun a => ?_, fun a x hx => ?_, fun a x hx hax => ?_, fun a c x y hac hx hy => ?_⟩
  · rw [hchildren, ← List.cons_append]
    exact List.nodup_append.mpr ⟨h.nodup, List.nodup_singleton new, by
      intro a ha b hb hab
      rw [List.mem_singleton.mp hb] at hab
      exact hfresh (hab ▸ ha)⟩
  · rw [hchildren, zip_concat, hlast, ← h.forks]
  · rw [hchildren, ← List.cons_append, List.mem_append, ← h.dom, List.mem_singleton]
    show (((s.set q r').set new u').procs a).isSome ↔ _
    rw [hprocs]
    by_cases han : a = new
    · simp [han]
    · by_cases haq : a = q
      · simp [haq, hr, hne]
      · simp [han, haq]
  · rw [hprocs] at hx
    split at hx
    · rename_i han
      cases hx
      exact han ▸ hok'
    · split at hx
      · rename_i haq
        cases hx
        exact haq ▸ hok
      · exact h.ok a x hx
  · rw [hprocs] at hx
    split at hx
    · cases hx
      exact absurd halone' hax
    · split at hx
      · rename_i haq
        exact ⟨new, List.mem_append_right _ (by simp [haq])⟩
      · obtain ⟨c, hc⟩ := h.right a x hx hax
        exact ⟨c, List.mem_append_left _ hc⟩
  · rcases List.mem_append.mp hac with hold | hlast'
    · -- an old pair: its left process is not the one that forks
      have haq : a ≠ q := by
        rintro rfl
        exact hright c hold
      have ha : a ∈ g :: s.children := (List.of_mem_zip (h.forks ▸ hold)).1
      have han : a ≠ new := by
        rintro rfl
        exact hfresh ha
      have hcn : c ≠ new := by
        rintro rfl
        exact hfresh (List.mem_cons_of_mem g (mem_children hold))
      rw [hprocs, if_neg han, if_neg haq] at hx
      rw [hprocs, if_neg hcn] at hy
      split at hy
      · rename_i hcq
        cases hy
        exact (h.link a c x r hold hx (hcq ▸ hr)).right hin
      · exact h.link a c x y hold hx hy
    · cases List.mem_singleton.mp hlast'
      rw [hprocs, if_neg hne, if_pos rfl] at hx
      rw [hprocs, if_pos rfl] at hy
      cases hx
      cases hy
      exact hlink

end

end Primes

end Jos
