import Jos.Lib.Sieve
import Jos.User.Primes

/-!
The prime sieve is correct. What has arrived at a process is determined by its
place in the chain: by induction from left to right it is an initial part of
what the primes to its left leave over. No schedule has a part in this.
-/

namespace Jos

open Jos.Lib

namespace Primes

/-! ### The sieve -/

section

variable {ι : Type} {g q : ι} {s : Primes ι} {r : Proc ι} {k : ℕ}

open Proc

/-- A filter process: it has printed the next prime, if any, and passes on what
survives this one too. -/
theorem filter_stage (hok : Ok False r) (h : Initial (Survives k) r.arrived) :
    Initial (Survives (k + 1)) r.sent ∧ ∀ p, r.shown = some p → p = Nat.nth Nat.Prime k := by
  have hreceived : Initial (Survives k) r.received := h.shorten (List.prefix_append _ _)
  have hhead (hp : r.received.head? = some r.p) : r.p = Nat.nth Nat.Prime k := by
    obtain ⟨l, hl⟩ := List.head?_eq_some_iff.mp hp
    exact (hl ▸ hreceived).head_prime
  have hsingle (hp : r.received = [r.p]) : r.p = Nat.nth Nat.Prime k := hhead (by rw [hp]; rfl)
  cases hpc : r.pc with
  | umainFork | umainCopy | feed => exact absurd hok.umain (by simp [hpc])
  | top | topRet | print | trapped | panicked => simp [sent, Proc.shown, hpc, Initial.nil]
  | fork | copy =>
      have hp := hsingle (hok.prime (by simp [hpc]))
      simp [sent, Proc.shown, hpc, Initial.nil, hp]
  | loop | loopRet =>
      have hp := hhead (hok.sieving (by simp [hpc]))
      have hsent : r.sent = r.passed := by simp only [sent, hpc]
      exact ⟨hsent ▸ hreceived.next hp, by simp [Proc.shown, hpc, hp]⟩
  | send =>
      have hp := hhead (hok.sieving (by simp [hpc]))
      have hsent : r.sent = r.passed.dropLast := by simp only [sent, hpc]
      exact ⟨hsent ▸ (hreceived.next hp).shorten ( List.dropLast_prefix _),
        by simp [Proc.shown, hpc, hp]⟩

theorem feed_stage (hok : Ok True r) : Initial (Survives 0) r.sent := by
  cases hpc : r.pc with
  | feed =>
      simpa only [sent, hpc] using (Initial.range r.i).congr fun x => (survives_zero x).symm
  | umainFork | umainCopy => simp [sent, hpc, Initial.nil]
  | _ => exact absurd (hok.umain.mp trivial) (by simp [hpc])

theorem Chain.left (h : Chain g s) {b : ι} (hb : s.children[k]? = some b) :
    ∃ a, (g :: s.children)[k]? = some a ∧ (a, b) ∈ s.forks := by
  have hk : k < (g :: s.children).length := by
    have := (List.getElem?_eq_some_iff.mp hb).1
    simp only [List.length_cons]
    omega
  refine ⟨_, List.getElem?_eq_getElem hk, ?_⟩
  rw [h.forks]
  apply List.mem_of_getElem?
  exact List.getElem?_zip_eq_some.mpr ⟨List.getElem?_eq_getElem hk, hb⟩

/-- What has arrived at a process is an initial part of what survives the
primes to its left. -/
theorem Chain.stage (h : Chain g s) (hq : s.children[k]? = some q) (hr : s.procs q = some r) :
    Initial (Survives k) r.arrived := by
  induction k generalizing q r with
  | zero =>
      obtain ⟨a, ha, hpair⟩ := h.left hq
      obtain rfl : g = a := by simpa using ha
      obtain ⟨x, hx⟩ := Option.isSome_iff_exists.mp ((h.dom g).mpr List.mem_cons_self)
      have hok : Ok True x := by simpa using h.ok g x hx
      exact (h.link g q x r hpair hx hr).flow ▸ feed_stage hok
  | succ k ih =>
      obtain ⟨a, ha, hpair⟩ := h.left hq
      have ha' : s.children[k]? = some a := by simpa using ha
      have hmem := List.mem_of_getElem? ha'
      have hag : a ≠ g := by
        rintro rfl
        exact (List.nodup_cons.mp h.nodup).1 hmem
      obtain ⟨x, hx⟩ := Option.isSome_iff_exists.mp ((h.dom a).mpr (List.mem_cons_of_mem g hmem))
      have hok : Ok False x := by simpa [hag] using h.ok a x hx
      exact (h.link a q x r hpair hx hr).flow ▸ (filter_stage hok (ih ha' hx)).1

/-- A process that filters has a prime. -/
theorem Chain.prime_ne_zero (h : Chain g s) (hr : s.procs q = some r) (hpc : r.pc = .loopRet) :
    r.p ≠ 0 := by
  have hok := h.ok q r hr
  have hqg : q ≠ g := fun hqg => absurd (hok.umain.mp hqg) (by simp [hpc])
  have hmem : q ∈ s.children := (List.mem_cons.mp ((h.dom q).mp (by simp [hr]))).resolve_left hqg
  obtain ⟨k, hk⟩ := List.getElem?_of_mem hmem
  have hok' : Ok False r := by simpa [hqg] using hok
  have hp := (filter_stage hok' (h.stage hk hr)).2 r.p (by simp [Proc.shown, hpc])
  have htwo := (survives_prime k).1
  rw [hp]
  omega

/-- All but the last process have printed. -/
theorem Chain.shown_dropLast (h : Chain g s) (hq : q ∈ s.children.dropLast) :
    (s.shown q).isSome := by
  have hmem := List.dropLast_subset _ hq
  obtain ⟨r, hr⟩ := Option.isSome_iff_exists.mp ((h.dom q).mpr (List.mem_cons_of_mem g hmem))
  have hok := h.ok q r hr
  obtain ⟨hg, hnodup⟩ := List.nodup_cons.mp h.nodup
  have hqg : q ≠ g := fun hqg => hg (hqg ▸ hmem)
  have hne : s.children ≠ [] := List.ne_nil_of_mem hmem
  have halone : ¬ r.Alone := by
    intro halone
    have hlast := (h.last hr halone).2
    rw [List.getLast_cons hne] at hlast
    rw [← List.dropLast_append_getLast hne, List.nodup_append] at hnodup
    exact hnodup.2.2 q hq _ (List.mem_singleton_self _) hlast.symm
  have humain := hok.umain
  have hrunning := hok.running
  simp only [shown, hr, Option.bind_some]
  cases hpc : r.pc <;> simp_all [Alone, Proc.shown]

theorem filterMap_getElem? {α β : Type} {f : α → Option β} {l : List α}
    (h : ∀ x ∈ l.dropLast, (f x).isSome) (k : ℕ) : (l.filterMap f)[k]? = l[k]?.bind f := by
  induction l generalizing k with
  | nil => rfl
  | cons x l ih =>
      cases l with
      | nil => cases hx : f x <;> cases k <;> simp [hx]
      | cons y l =>
          obtain ⟨b, hb⟩ := Option.isSome_iff_exists.mp (h x (by simp))
          rw [List.filterMap_cons_some hb]
          cases k with
          | zero => simp [hb]
          | succ k => exact ih (fun z hz => h z (List.mem_cons_of_mem x hz)) k

end

/-! ### Steps of a process -/

section

variable {ι : Type} {r : Proc ι} {first : Prop}

open Proc

/-- A process goes on as `r'`, and neither its neighbours notice nor has it
printed. -/
structure Quiet (first : Prop) (r r' : Proc ι) : Prop where
  ok : Ok first r'
  sameIn : SameIn r r'
  sameOut : SameOut r r'
  shown : r'.shown = r.shown

theorem quiet_top (h : Ok first r) (hpc : r.pc = .top) (hready : r.ipc.ready = true) :
    Quiet first r { r with pc := .topRet, ipc := r.ipc.recv } := by
  obtain ⟨humain, halone, hsilent, -, -, -, -, -, -⟩ := h
  simp only [hpc, Alone] at humain halone hsilent
  constructor
  · constructor <;> simp_all [Alone, Ipc.recv]
  · constructor <;> simp [arrived, pending, Unborn, hpc, hready, Ipc.recv]
  · constructor <;> simp [sent, Forking, hpc]
  · simp [Proc.shown, hpc]

theorem quiet_topRet (h : Ok first r) (hpc : r.pc = .topRet) (hready : r.ipc.ready = true) :
    Quiet first r { r.ret with pc := .print, p := r.ipc.value } := by
  obtain ⟨humain, halone, hsilent, -, -, -, -, hwaiting, -⟩ := h
  simp only [hpc, Alone] at humain halone hsilent hwaiting
  constructor
  · constructor <;> simp_all [Alone, Proc.ret]
  · constructor <;> simp [arrived, pending, Unborn, hpc, hready, Proc.ret]
  · constructor <;> simp [sent, Forking, hpc, Proc.ret]
  · simp [Proc.shown, hpc]

theorem quiet_loop (h : Ok first r) (hpc : r.pc = .loop) (hready : r.ipc.ready = true) :
    Quiet first r { r with pc := .loopRet, ipc := r.ipc.recv } := by
  obtain ⟨humain, halone, -, -, hsieving, -, -, -, -⟩ := h
  simp only [hpc, Alone] at humain halone hsieving
  constructor
  · constructor <;> simp_all [Alone, Ipc.recv]
  · constructor <;> simp [arrived, pending, Unborn, hpc, hready, Ipc.recv]
  · constructor <;> simp [sent, passed, Forking, hpc]
  · simp [Proc.shown, hpc]

/-- The next number: it is passed on or not. -/
theorem quiet_loopRet (h : Ok first r) (hpc : r.pc = .loopRet) (hready : r.ipc.ready = true)
    (hp : r.p ≠ 0) :
    Quiet first r { r.ret with
      pc := if r.p = 0 then .trapped else if r.ipc.value % r.p ≠ 0 then .send else .loop
      i := r.ipc.value } := by
  obtain ⟨humain, halone, -, -, hsieving, -, -, hwaiting, -⟩ := h
  simp only [hpc, Alone] at humain halone hsieving hwaiting
  have hhead : (r.received ++ [r.ipc.value]).head? = some r.p := by
    rw [List.head?_append, hsieving (by simp)]
    rfl
  rw [if_neg hp]
  by_cases hdvd : r.p ∣ r.ipc.value
  · rw [if_neg (not_not_intro (Nat.mod_eq_zero_of_dvd hdvd))]
    constructor
    · constructor <;> simp_all [Alone, Proc.ret]
    · constructor <;> simp [arrived, pending, Unborn, hpc, hready, Proc.ret]
    · constructor <;> simp [sent, passed, Forking, hpc, Proc.ret, hdvd]
    · simp [Proc.shown, hpc, Proc.ret]
  · rw [if_pos fun hmod => hdvd (Nat.dvd_of_mod_eq_zero hmod)]
    constructor
    · constructor <;> simp_all [Alone, Proc.ret, passed]
    · constructor <;> simp [arrived, pending, Unborn, hpc, hready, Proc.ret]
    · constructor <;> simp [sent, passed, Forking, hpc, Proc.ret, hdvd]
    · simp [Proc.shown, hpc, Proc.ret]

theorem ok_print (h : Ok first r) (hpc : r.pc = .print) :
    Ok first { r with pc := .fork } ∧ SameIn r { r with pc := .fork } ∧
      SameOut r { r with pc := .fork } := by
  obtain ⟨humain, halone, -, hprime, -, -, -, hwaiting, -⟩ := h
  simp only [hpc, Alone] at humain halone hprime hwaiting
  refine ⟨?_, ?_, ?_⟩
  · constructor <;> simp_all [Alone]
  · constructor <;> simp [arrived, pending, Unborn, hpc]
  · constructor <;> simp [sent, Forking, hpc]

/-- A process at a send. -/
def Sending (r : Proc ι) : Prop := r.pc = .feed ∨ r.pc = .send

/-- The process after a send that succeeded. -/
def afterSend (r : Proc ι) : Proc ι :=
  if r.pc = .feed then { r with i := r.i + 1 } else { r with pc := .loop }

theorem ok_afterSend (h : Ok first r) (hpc : Sending r) :
    Ok first (afterSend r) ∧ SameIn r (afterSend r) ∧ (afterSend r).id = r.id ∧
      (afterSend r).sent = r.sent ++ [r.i] ∧ ¬ (afterSend r).Forking ∧
      (afterSend r).shown = r.shown := by
  obtain ⟨humain, halone, -, -, hsieving, hholding, hi, hwaiting, -⟩ := h
  rcases hpc with hpc | hpc
  · have hafter : afterSend r = { r with i := r.i + 1 } := if_pos hpc
    simp only [hpc, Alone] at humain halone hwaiting
    rw [hafter]
    refine ⟨?_, ?_, rfl, ?_, by simp [Forking, hpc], by simp [Proc.shown, hpc]⟩
    · constructor <;> simp_all [Alone]
      omega
    · constructor <;> simp [arrived, pending, Unborn, hpc]
    · simp [sent, hpc, List.range_succ, List.filter_append, hi hpc]
  · have hafter : afterSend r = { r with pc := .loop } := if_neg (by simp [hpc])
    have hlast := hholding hpc
    simp only [hpc, Alone] at humain halone hsieving hwaiting
    rw [hafter]
    refine ⟨?_, ?_, rfl, ?_, by simp [Forking], by simp [Proc.shown, hpc]⟩
    · constructor <;> simp_all [Alone]
    · constructor <;> simp [arrived, pending, Unborn, hpc]
    · simp only [sent, hpc, passed] at hlast ⊢
      exact (List.dropLast_append_getLast? _ hlast).symm

/-- The receiver of a send. -/
theorem ok_deliver (h : Ok first r) (hrecv : r.ipc.recving = true) (value : ℕ) :
    Ok first { r with ipc := r.ipc.deliver value } ∧
      SameOut r { r with ipc := r.ipc.deliver value } ∧
      ({ r with ipc := r.ipc.deliver value } : Proc ι).arrived = r.arrived ++ [value] ∧
      ¬ ({ r with ipc := r.ipc.deliver value } : Proc ι).Unborn := by
  obtain ⟨hwait, hblocked⟩ := h.waiting hrecv
  obtain ⟨humain, halone, hsilent, -, hsieving, -, -, -, hrunning⟩ := h
  refine ⟨?_, ⟨rfl, rfl, Iff.rfl⟩, ?_, ?_⟩
  · rcases hwait with hpc | hpc <;> simp only [hpc, Alone] at humain halone hsilent hsieving <;>
      constructor <;> simp_all [Alone, Ipc.deliver]
  · simp [arrived, pending, hwait, hblocked, Ipc.deliver]
  · simp [Unborn, Ipc.deliver]

/-- A process in `fork`. -/
def afterFork (r : Proc ι) : Proc ι :=
  if r.pc = .umainCopy then { r with pc := .feed, i := 2 } else { r with pc := .loop }

theorem ok_afterFork (h : Ok first r) (hpc : r.Forking) :
    Ok first (afterFork r) ∧ SameIn r (afterFork r) ∧ (afterFork r).id = r.id ∧
      (afterFork r).sent = r.sent ∧ ¬ (afterFork r).Forking ∧ (afterFork r).shown = r.shown := by
  obtain ⟨humain, halone, -, hprime, -, -, -, hwaiting, -⟩ := h
  rcases hpc with hpc | hpc
  · have hafter : afterFork r = { r with pc := .feed, i := 2 } := if_pos hpc
    simp only [hpc, Alone] at humain halone hwaiting
    rw [hafter]
    refine ⟨?_, ?_, rfl, by simp [sent, hpc], by simp [Forking], by simp [Proc.shown, hpc]⟩
    · constructor <;> simp_all [Alone]
    · constructor <;> simp [arrived, pending, Unborn, hpc]
  · have hafter : afterFork r = { r with pc := .loop } := if_neg (by simp [hpc])
    have hsingle := hprime (by simp [hpc])
    simp only [hpc, Alone] at humain halone hwaiting
    rw [hafter]
    refine ⟨?_, ?_, rfl, by simp [sent, hpc, passed, hsingle], by simp [Forking],
      by simp [Proc.shown, hpc]⟩
    · constructor <;> simp_all [Alone]
    · constructor <;> simp [arrived, pending, Unborn, hpc]

/-- The child at the end of `fork`. -/
theorem ok_born (h : Ok first r) (hborn : r.Unborn) (i p : ℕ) :
    Ok first { r with i := i, p := p, ipc := { r.ipc with ready := true } } ∧
      SameOut r { r with i := i, p := p, ipc := { r.ipc with ready := true } } ∧
      ({ r with i := i, p := p, ipc := { r.ipc with ready := true } } : Proc ι).arrived =
        r.arrived ∧
      ¬ ({ r with i := i, p := p, ipc := { r.ipc with ready := true } } : Proc ι).Unborn := by
  obtain ⟨hpc, -⟩ := hborn
  obtain ⟨humain, halone, hsilent, -, -, -, -, hwaiting, -⟩ := h
  simp only [hpc, Alone] at humain halone hsilent hwaiting
  refine ⟨?_, ?_, ?_, by simp [Unborn]⟩
  · constructor <;> simp_all [Alone]
  · constructor <;> simp [sent, Forking, hpc]
  · simp [arrived, pending, hpc]

/-- A process after `sys_exofork`. -/
theorem ok_exofork (h : Ok first r) (new : ι) {pc : PrimesPc}
    (hpc : r.pc = .umainFork ∧ pc = .umainCopy ∨ r.pc = .fork ∧ pc = .copy) :
    Ok first { r with pc := pc, id := some new } ∧
      SameIn r { r with pc := pc, id := some new } ∧
      ({ r with pc := pc, id := some new } : Proc ι).sent = [] ∧
      ({ r with pc := pc, id := some new } : Proc ι).Forking ∧
      ({ r with pc := pc, id := some new } : Proc ι).shown = r.shown := by
  obtain ⟨humain, halone, -, hprime, -, -, -, hwaiting, -⟩ := h
  rcases hpc with ⟨hpc, rfl⟩ | ⟨hpc, rfl⟩
  · simp only [hpc, Alone] at humain halone hwaiting
    refine ⟨?_, ?_, by simp [sent], by simp [Forking], by simp [Proc.shown, hpc]⟩
    · constructor <;> simp_all [Alone]
    · constructor <;> simp [arrived, pending, Unborn, hpc]
  · simp only [hpc, Alone] at humain halone hwaiting hprime
    refine ⟨?_, ?_, by simp [sent], by simp [Forking], by simp [Proc.shown, hpc]⟩
    · constructor <;> simp_all [Alone]
    · constructor <;> simp [arrived, pending, Unborn, hpc]

end

/-! ### Steps -/

section

variable {ι : Type} [DecidableEq ι] {g q b new : ι} {s t : Primes ι} {r r' u u' : Proc ι}

open Proc

theorem shown_set (hr : s.procs q = some r) (hshown : r'.shown = r.shown) :
    (s.set q r').shown = s.shown := by
  funext a
  simp only [shown, set]
  by_cases ha : a = q
  · subst ha
    rw [Function.update_self, hr, Option.bind_some, Option.bind_some, hshown]
  · rw [Function.update_of_ne ha]

theorem Inv.quiet (h : Inv g s) (hr : s.procs q = some r) (hq : Quiet (q = g) r r') :
    Inv g (s.set q r') :=
  ⟨h.chain.update hr hq.ok hq.sameIn hq.sameOut, by
    rw [shown_set hr hq.shown]
    exact h.printed⟩

theorem Inv.pair (h : Inv g s) (hqb : (q, b) ∈ s.forks) (hr : s.procs q = some r)
    (hu : s.procs b = some u) (hchain : Chain g ((s.set b u').set q r'))
    (hshown : r'.shown = r.shown) (hshown' : u'.shown = u.shown) :
    Inv g ((s.set b u').set q r') := by
  have hr' : (s.set b u').procs q = some r := by
    simp only [set, Function.update_of_ne (h.chain.ne hqb), hr]
  refine ⟨hchain, ?_⟩
  rw [shown_set hr' hshown, shown_set hu hshown']
  exact h.printed

/-- A process that is not alone sends to its neighbour. -/
theorem Inv.ipcSend (h : Inv g s) (hr : s.procs q = some r) (hpc : Sending r) :
    Inv g (s.ipcSend q r (afterSend r)) := by
  have hok := h.chain.ok q r hr
  have halone : ¬ r.Alone := by rcases hpc with hpc | hpc <;> simp [Alone, hpc]
  obtain ⟨b, hqb⟩ := h.chain.right q r hr halone
  obtain ⟨u, hu⟩ := h.chain.exists_child hqb
  have hlink := h.chain.link q b r u hqb hr hu
  have hsend : s.ipcSend q r (afterSend r) =
      if u.ipc.recving then (s.set b { u with ipc := u.ipc.deliver r.i }).set q (afterSend r)
      else s := by
    simp only [Primes.ipcSend, hlink.id, Option.getD_some, hu]
  rw [hsend]
  split
  · rename_i hrecv
    obtain ⟨hok', hin, hid, hsent, hforking, hshown⟩ := ok_afterSend hok hpc
    obtain ⟨hoku, hout, harrived, hunborn⟩ := ok_deliver (h.chain.ok b u hu) hrecv r.i
    refine h.pair hqb hr hu (h.chain.update₂ hqb hr hu hok' hoku hin hout ⟨?_, ?_, ?_⟩) hshown rfl
    · exact hid.trans hlink.id
    · rw [harrived, hsent, hlink.flow]
    · exact iff_of_false hforking hunborn
  · exact h

theorem Inv.finishFork (h : Inv g s) (hr : s.procs q = some r) (hpc : r.Forking) :
    Inv g (s.finishFork q r (afterFork r)) := by
  have hok := h.chain.ok q r hr
  have halone : ¬ r.Alone := by rcases hpc with hpc | hpc <;> simp [Alone, hpc]
  obtain ⟨b, hqb⟩ := h.chain.right q r hr halone
  obtain ⟨u, hu⟩ := h.chain.exists_child hqb
  have hlink := h.chain.link q b r u hqb hr hu
  have hfinish : s.finishFork q r (afterFork r) =
      (s.set b { u with i := r.i, p := r.p, ipc := { u.ipc with ready := true } }).set q
        (afterFork r) := by
    simp only [Primes.finishFork, hlink.id, Option.getD_some, hu]
  have hborn := hlink.forking.mp hpc
  obtain ⟨hok', hin, hid, hsent, hforking, hshown⟩ := ok_afterFork hok hpc
  obtain ⟨hoku, hout, harrived, hunborn⟩ := ok_born (h.chain.ok b u hu) hborn r.i r.p
  rw [hfinish]
  refine h.pair hqb hr hu (h.chain.update₂ hqb hr hu hok' hoku hin hout ⟨?_, ?_, ?_⟩) hshown ?_
  · exact hid.trans hlink.id
  · rw [harrived, hsent, hlink.flow]
  · exact iff_of_false hforking hunborn
  · simp [Proc.shown, hborn.1]

/-- The last process prints. -/
theorem Inv.print (h : Inv g s) (hr : s.procs q = some r) (hpc : r.pc = .print) :
    Inv g { s.set q { r with pc := .fork } with printed := s.printed ++ [(q, r.p)] } := by
  have hok := h.chain.ok q r hr
  obtain ⟨hok', hin, hout⟩ := ok_print hok hpc
  have hchain := h.chain.update hr hok' hin hout
  refine ⟨⟨hchain.nodup, hchain.forks, hchain.dom, hchain.ok, hchain.right, hchain.link⟩, ?_⟩
  have hqg : q ≠ g := fun hqg => absurd (hok.umain.mp hqg) (by simp [hpc])
  have hlast := (h.chain.last hr (by simp [Alone, hpc])).2
  obtain ⟨cs, hcs⟩ : ∃ cs, s.children = cs ++ [q] := by
    rcases List.eq_nil_or_concat s.children with hnil | ⟨cs, x, hcs⟩
    · simp only [hnil, List.getLast_singleton] at hlast
      exact absurd hlast.symm hqg
    · refine ⟨cs, ?_⟩
      have hx : x = q := by simpa [hcs] using hlast
      rw [hcs, hx]
      simp
  have hmem : q ∉ cs := by
    have hnodup := (List.nodup_cons.mp h.chain.nodup).2
    rw [hcs] at hnodup
    exact fun hq => (List.nodup_append.mp hnodup).2.2 q hq q (List.mem_singleton_self q) rfl
  have hold (a : ι) (ha : a ∈ cs) : (s.set q { r with pc := .fork }).shown a = s.shown a := by
    simp only [shown, set, Function.update_of_ne (ne_of_mem_of_not_mem ha hmem)]
  have hnow : (s.set q { r with pc := .fork }).shown q = some (q, r.p) := by
    simp [shown, set, Proc.shown]
  have hbefore : s.shown q = none := by simp [shown, hr, Proc.shown, hpc]
  show s.printed ++ [(q, r.p)] = s.children.filterMap (s.set q { r with pc := .fork }).shown
  rw [h.printed, hcs, List.filterMap_append, List.filterMap_append,
    List.filterMap_congr hold]
  simp [hnow, hbefore]

/-- The last process creates a new one. -/
theorem Inv.fork (h : Inv g s) (hr : s.procs q = some r) {pc : PrimesPc}
    (hpc : r.pc = .umainFork ∧ pc = .umainCopy ∨ r.pc = .fork ∧ pc = .copy)
    (hstep : s.exofork q new r pc = some t) : Inv g t := by
  simp only [exofork] at hstep
  split at hstep
  · cases hstep
  · rename_i hnew
    cases hstep
    have hnew : s.procs new = none := Option.not_isSome_iff_eq_none.mp hnew
    have halone : r.Alone := by rcases hpc with ⟨hpc, -⟩ | ⟨hpc, -⟩ <;> simp [Alone, hpc]
    have hng : new ≠ g := by
      rintro rfl
      have hdom := (h.chain.dom new).mpr List.mem_cons_self
      rw [hnew] at hdom
      cases hdom
    obtain ⟨hok, hin, hsent, hforking, hshown⟩ :=
      ok_exofork (h.chain.ok q r hr) new hpc
    have hok' : Ok (new = g) (.new : Proc ι) := by constructor <;> simp [Proc.new, Alone, hng]
    have hlink : Link { r with pc := pc, id := some new } new .new :=
      ⟨rfl, by simp [arrived, pending, hsent, Proc.new],
        iff_of_true hforking (by simp [Unborn, Proc.new])⟩
    refine ⟨h.chain.fork hr halone hnew hok hok' hin (by simp [Alone, Proc.new]) hlink, ?_⟩
    have hold (a : ι) (ha : a ∈ s.children) :
        ((s.set q { r with pc := pc, id := some new }).set new .new).shown a = s.shown a := by
      have han : a ≠ new := by
        rintro rfl
        have hdom := (h.chain.dom a).mpr (List.mem_cons_of_mem g ha)
        rw [hnew] at hdom
        cases hdom
      rw [← shown_set hr hshown]
      simp only [shown, set, Function.update_of_ne han]
    have hchild :
        ((s.set q { r with pc := pc, id := some new }).set new .new).shown new = none := by
      simp [shown, set, Proc.shown, Proc.new]
    show s.printed = ((s.forks ++ [(q, new)]).map Prod.snd).filterMap
      ((s.set q { r with pc := pc, id := some new }).set new .new).shown
    rw [h.printed, List.map_append, List.filterMap_append]
    show s.children.filterMap s.shown = s.children.filterMap _ ++ _
    rw [List.filterMap_congr hold]
    simp [hchild]

theorem Inv.step (h : Inv g s) (hstep : s.step (q, new) = some t) : Inv g t := by
  simp only [Primes.step] at hstep
  cases hr : s.procs q with
  | none => simp [hr] at hstep
  | some r =>
      simp only [hr] at hstep
      split at hstep
      · cases hstep
      · rename_i hready
        have hready : r.ipc.ready = true := not_not.mp hready
        have hok := h.chain.ok q r hr
        cases hpc : r.pc with
        | umainFork =>
            rw [hpc] at hstep
            exact h.fork hr (Or.inl ⟨hpc, rfl⟩) hstep
        | fork =>
            rw [hpc] at hstep
            exact h.fork hr (Or.inr ⟨hpc, rfl⟩) hstep
        | umainCopy =>
            rw [hpc] at hstep
            cases hstep
            have hafter : afterFork r = { r with pc := .feed, i := 2 } := if_pos hpc
            exact hafter ▸ h.finishFork hr (Or.inl hpc)
        | copy =>
            rw [hpc] at hstep
            cases hstep
            have hafter : afterFork r = { r with pc := .loop } := if_neg (by simp [hpc])
            exact hafter ▸ h.finishFork hr (Or.inr hpc)
        | feed =>
            rw [hpc] at hstep
            cases hstep
            have hafter : afterSend r = { r with pc := .feed, i := r.i + 1 } := by
              rw [afterSend, if_pos hpc, hpc]
            exact hafter ▸ h.ipcSend hr (Or.inl hpc)
        | send =>
            rw [hpc] at hstep
            cases hstep
            have hafter : afterSend r = { r with pc := .loop } := if_neg (by simp [hpc])
            exact hafter ▸ h.ipcSend hr (Or.inr hpc)
        | top =>
            rw [hpc] at hstep
            cases hstep
            exact h.quiet hr (quiet_top hok hpc hready)
        | topRet =>
            rw [hpc] at hstep
            cases hstep
            exact h.quiet hr (quiet_topRet hok hpc hready)
        | print =>
            rw [hpc] at hstep
            cases hstep
            exact h.print hr hpc
        | loop =>
            rw [hpc] at hstep
            cases hstep
            exact h.quiet hr (quiet_loop hok hpc hready)
        | loopRet =>
            rw [hpc] at hstep
            cases hstep
            exact h.quiet hr (quiet_loopRet hok hpc hready (h.chain.prime_ne_zero hr hpc))
        | trapped => exact absurd hpc hok.running.1
        | panicked => exact absurd hpc hok.running.2

theorem inv_init (g : ι) : Inv g (init g) := by
  have hprocs (a : ι) (x : Proc ι) (hx : (init g).procs a = some x) :
      a = g ∧ x = ⟨.umainFork, 0, none, 0, ⟨false, 0, true⟩, []⟩ := by
    simp only [init, Function.update_apply] at hx
    split at hx
    · rename_i hag
      cases hx
      exact ⟨hag, rfl⟩
    · cases hx
  refine ⟨⟨by simp [children, init], rfl, fun a => ?_, fun a x hx => ?_, fun a x hx halone => ?_,
    fun a b x y hab => by simp [init] at hab⟩, rfl⟩
  · simp only [init, children, Function.update_apply]
    split <;> simp_all
  · obtain ⟨hag, rfl⟩ := hprocs a x hx
    constructor <;> simp [Alone, hag]
  · obtain ⟨-, rfl⟩ := hprocs a x hx
    exact absurd (Or.inl rfl) halone

theorem Reach.inv (h : Reach g s) : Inv g s :=
  Run.invariant (fun hinv _ hstep => hinv.step hstep) h (inv_init g)

/-- Under every schedule: the processes form a chain, each one but the first
created by its left neighbour; the `k`-th that prints is the `k`-th of the
chain and prints the `k`-th prime; each process receives an initial part of the
increasing sequence of the numbers that no prime to its left divides; and none
fails. -/
theorem sieve_correct (h : Reach g s) :
    (s.forks = (g :: s.children).zip s.children ∧ (g :: s.children).Nodup) ∧
      (∀ k q p, s.printed[k]? = some (q, p) →
        s.children[k]? = some q ∧ p = Nat.nth Nat.Prime k) ∧
      s.children.length ≤ s.printed.length + 1 ∧
      (∀ k q r, s.children[k]? = some q → s.procs q = some r →
        Initial (fun x => 2 ≤ x ∧ ∀ j < k, ¬ Nat.nth Nat.Prime j ∣ x) r.received) ∧
      ∀ q r, s.procs q = some r → r.pc ≠ .trapped ∧ r.pc ≠ .panicked := by
  have hinv := h.inv
  have hchain := hinv.chain
  have hprinted (k : ℕ) : s.printed[k]? = s.children[k]?.bind s.shown := by
    rw [hinv.printed]
    exact filterMap_getElem? (fun x hx => hchain.shown_dropLast hx) k
  refine ⟨⟨hchain.forks, hchain.nodup⟩, fun k q p hk => ?_, ?_, fun k q r hq hr => ?_,
    fun q r hr => (hchain.ok q r hr).running⟩
  · rw [hprinted] at hk
    obtain ⟨q', hq', hshown⟩ := Option.bind_eq_some_iff.mp hk
    obtain ⟨r, hr, hp⟩ := Option.bind_eq_some_iff.mp hshown
    obtain ⟨p', hp', heq⟩ := Option.map_eq_some_iff.mp hp
    cases heq
    have hqg : q ≠ g := by
      rintro rfl
      exact (List.nodup_cons.mp hchain.nodup).1 (List.mem_of_getElem? hq')
    have hok : Ok False r := by simpa [hqg] using hchain.ok q r hr
    exact ⟨hq', (filter_stage hok (hchain.stage hq' hr)).2 p hp'⟩
  · by_contra hlt
    have hlen : s.printed.length < s.children.dropLast.length := by
      rw [List.length_dropLast]
      omega
    have hshown := hchain.shown_dropLast (List.getElem_mem hlen)
    have hnone := hprinted s.printed.length
    rw [List.getElem?_eq_none le_rfl, List.getElem?_eq_getElem (by omega), Option.bind_some]
      at hnone
    rw [List.getElem_dropLast, ← hnone] at hshown
    cases hshown
  · exact (hchain.stage hq hr).shorten (List.prefix_append _ _)

/-- A schedule in which two processes print. -/
def schedule : List (ℕ × ℕ) :=
  [(0, 1), (0, 0), (1, 0), (0, 0), (1, 0), (1, 0), (1, 2), (1, 0), (1, 0), (0, 0), (1, 0), (2, 0),
    (1, 0), (2, 0), (2, 0)]

theorem sieve_correct_schedule : ∃ s : Primes ℕ, s.printed = [(1, 2), (2, 3)] ∧
    ∀ k q p, s.printed[k]? = some (q, p) → s.children[k]? = some q ∧ p = Nat.nth Nat.Prime k := by
  have hrun :
      (schedule.foldlM step (init 0)).any (fun s => s.printed = [(1, 2), (2, 3)]) = true := by
    decide
  obtain ⟨s, hs, hprinted⟩ := (Option.any_eq_true _ _).mp hrun
  have hreach : Reach 0 s := Run.of_foldlM (fun h => ⟨trivial, h⟩) hs
  exact ⟨s, of_decide_eq_true hprinted, (sieve_correct hreach).2.1⟩

end

end Primes

end Jos
