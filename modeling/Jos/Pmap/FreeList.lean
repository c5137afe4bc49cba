import Jos.Lib.Run
import Jos.Lib.Since
import Jos.Pmap.Ops

/-!
The free list by itself, under any use of the allocator. A page is known to be
free by two signs only, a count of zero and a link that is not null, and the
link of the last free page is null too: `page_free` does not notice when that
page is freed a second time, and the list becomes a cycle.
-/

namespace Jos

open Jos.Lib

variable {n : ℕ} {M : Machine}

/-! ### Runs of the allocator -/

inductive PageOp where
  | alloc (allocZero : Bool)
  | free (pp : ℕ)
  | incref (pp : ℕ)
  | decref (pp : ℕ)

/-- A page that `page_alloc` returned, or that went on the free list. -/
inductive PageEvent where
  | alloc (pp : ℕ)
  | free (pp : ℕ)

/-- Memory, and what has happened to the pages, the latest first. -/
structure Allocator (n : ℕ) where
  mem : Mem n
  log : List PageEvent

namespace Allocator

/-- The page was returned to a caller and has not been freed since. -/
def Handed (s : Allocator n) (pp : ℕ) : Prop :=
  Since (· = PageEvent.alloc pp) (· = PageEvent.free pp) s.log

/-- The calls the allocator's users may make: `pp_ref` grows on pages they have
been given and shrinks where it is positive, and `page_free` gets any page but
page 0. -/
def Legal (M : Machine) (s : Allocator n) : PageOp → Prop
  | .alloc _ => True
  | .free pp => 0 < pp ∧ pp < M.npages
  | .incref pp => s.Handed pp
  | .decref pp => pp < M.npages ∧ (s.mem.pages pp).ppRef ≠ 0

def run (M : Machine) (s : Allocator n) : PageOp → Except String (Allocator n)
  | .alloc allocZero => do
      let (r, m) ← pageAlloc M allocZero s.mem
      .ok ⟨m, (r.map PageEvent.alloc).toList ++ s.log⟩
  | .free pp => do
      let m ← pageFree pp s.mem
      .ok ⟨m, .free pp :: s.log⟩
  | .incref pp => .ok ⟨s.mem.setRef pp ((s.mem.pages pp).ppRef + 1), s.log⟩
  | .decref pp => do
      let m ← pageDecref pp s.mem
      .ok ⟨m, (if (s.mem.pages pp).ppRef = 1 then [.free pp] else []) ++ s.log⟩

/-- A legal call that does not panic. -/
def Step (M : Machine) (s : Allocator n) (op : PageOp) (t : Allocator n) : Prop :=
  s.Legal M op ∧ s.run M op = .ok t

/-- `page_free` does not get the page at the end of the free list. -/
def NotLast (s : Allocator n) : PageOp → Prop
  | .free pp => ¬ (s.mem.pool.On pp ∧ (s.mem.pages pp).ppLink = none)
  | _ => True

/-- The state `page_init` leaves. -/
def init (M : Machine) (limSupKernmem : ℕ) (m : Mem n) : Allocator n :=
  ⟨pageInit M limSupKernmem m.cleared, []⟩

/-- The free list is as it should be. -/
structure Intact (M : Machine) (s : Allocator n) : Prop where
  list : ∃ l, Linked (fun p => (s.mem.pages p).ppLink) s.mem.pageFreeList l ∧ l.Nodup ∧
    ∀ p ∈ l, 0 < p ∧ p < M.npages ∧ (s.mem.pages p).ppRef = 0
  link : ∀ p, ¬ s.mem.pool.On p → (s.mem.pages p).ppLink = none
  once : ∀ {p l₁ l₂ l₃}, s.log = l₁ ++ .alloc p :: l₂ ++ .alloc p :: l₃ → .free p ∈ l₂

/-! ### What each call preserves -/

/-- The allocator's part of memory, every page being counted by what its count
says. -/
def Listed (M : Machine) (m : Mem n) : Prop :=
  m.pool.Counts (fun p => 0 < p ∧ p < M.npages) (fun _ => True) fun p => (m.pool.ref p).toNat

/-- The free list in order, and no page on it in the hands of a caller. -/
structure Inv (M : Machine) (s : Allocator n) : Prop where
  listed : Listed M s.mem
  link : ∀ p, ¬ s.mem.pool.On p → (s.mem.pages p).ppLink = none
  handed : ∀ p, s.mem.pool.On p → ¬ s.Handed p
  pos : ∀ {p}, .alloc p ∈ s.log → 0 < p
  zero : (s.mem.pages 0).ppRef = 0
  once : ∀ {p l₁ l₂ l₃}, s.log = l₁ ++ .alloc p :: l₂ ++ .alloc p :: l₃ → .free p ∈ l₂

variable {s t : Allocator n} {op : PageOp} {m : Mem n} {p : ℕ}

theorem listed_iff : Listed M m ↔ ∃ l, Linked (fun p => (m.pages p).ppLink) m.pageFreeList l ∧
    l.Nodup ∧ ∀ p ∈ l, 0 < p ∧ p < M.npages ∧ (m.pages p).ppRef = 0 := by
  constructor
  · rintro ⟨⟨l, hl, hnodup, hmem⟩, -⟩
    refine ⟨l, hl, hnodup, fun p hp => ?_⟩
    obtain ⟨⟨hpos, hlt⟩, hzero⟩ := hmem p hp
    exact ⟨hpos, hlt, BitVec.eq_of_toNat_eq hzero⟩
  · rintro ⟨l, hl, hnodup, hmem⟩
    refine ⟨⟨l, hl, hnodup, fun p hp => ?_⟩, fun p _ => by simp [Mem.pool]⟩
    obtain ⟨hpos, hlt, hzero⟩ := hmem p hp
    exact ⟨⟨hpos, hlt⟩, congrArg BitVec.toNat hzero⟩

theorem Inv.intact (h : s.Inv M) : s.Intact M where
  list := listed_iff.mp h.listed
  link := h.link
  once := h.once

/-- The count of a page that is not free may take any value. -/
theorem Listed.setRef (h : Listed M m) (hp : ¬ m.pool.On p) (v : BitVec 16) :
    Listed M (m.setRef p v) := by
  rw [listed_iff] at h ⊢
  obtain ⟨l, hl, hnodup, hmem⟩ := h
  have hne (q : ℕ) (hq : q ∈ l) : q ≠ p := by
    rintro rfl
    exact hp ⟨l, hl, hq⟩
  refine ⟨l, (linked_congr fun q hq => ?_).mpr hl, hnodup, fun q hq => ?_⟩
  · simp [Mem.setRef, hne q hq]
  · simpa [Mem.setRef, hne q hq] using hmem q hq

/-- A page goes on the list. -/
theorem Listed.push (h : Listed M m) (hp : ¬ m.pool.On p) (hpos : 0 < p) (hlt : p < M.npages)
    (href : (m.pages p).ppRef = 0) {m' : Mem n}
    (hm' : m' = (m.setLink p m.pageFreeList).setFreeList (some p)) :
    Listed M m' ∧ (∀ q, m'.pool.On q ↔ m.pool.On q ∨ q = p) ∧
      ∀ q, q ≠ p → m'.pages q = m.pages q := by
  have hpool : m'.pool = m.pool.push p := by rw [hm', pool_push]
  refine ⟨?_, fun q => ?_, fun q hq => ?_⟩
  · unfold Listed
    rw [hpool]
    exact Pool.Counts.push h hp ⟨hpos, hlt⟩ (congrArg BitVec.toNat href)
  · rw [hpool]
    exact Pool.Counts.on_push h hp
  · simp [hm', Mem.setLink, Mem.setFreeList, hq]

theorem Listed.pop (h : Listed M m) (hhead : m.pageFreeList = some p) : Listed M (m.pop p) := by
  unfold Listed
  rw [pool_pop]
  exact Pool.Counts.pop h hhead

theorem Listed.on (h : Listed M m) (hp : m.pool.On p) :
    0 < p ∧ p < M.npages ∧ (m.pages p).ppRef = 0 := by
  obtain ⟨l, hl, -, hmem⟩ := listed_iff.mp h
  obtain ⟨l', hl', hp⟩ := hp
  exact hmem p (hl'.unique hl ▸ hp)

theorem pageFree_eq_ok {m' : Mem n} (h : pageFree p m = .ok m') :
    (m.pages p).ppRef = 0 ∧ (m.pages p).ppLink = none ∧
      m' = (m.setLink p m.pageFreeList).setFreeList (some p) := by
  unfold pageFree at h
  split at h
  · cases h
  · split at h
    · cases h
    · exact ⟨not_not.mp ‹_›, not_not.mp ‹_›, (Except.ok.inj h).symm⟩

/-- A page on the list that is freed again: `page_free` panics unless the page
is the last one, and then the links form a cycle. -/
theorem Listed.free_again (h : Listed M m) (hp : m.pool.On p) :
    if (m.pages p).ppLink = none then
      ∃ m', pageFree p m = .ok m' ∧
        ¬ ∃ l, Linked (fun q => (m'.pages q).ppLink) m'.pageFreeList l
    else ∃ why, pageFree p m = .error why := by
  obtain ⟨-, -, href⟩ := h.on hp
  split
  · rename_i hlink
    refine ⟨_, by simp [pageFree, href, hlink]; rfl, ?_⟩
    obtain ⟨l, hl, hnodup, -⟩ := listed_iff.mp h
    obtain ⟨l', hl', hmem⟩ := hp
    rw [hl'.unique hl] at hmem
    obtain ⟨t, rfl⟩ := hl.last hmem hlink
    have hfirst : p ∉ t := fun ht =>
      (List.nodup_append.mp hnodup).2.2 p ht p (by simp) rfl
    have hcycle := hl.push_last hfirst
    have hlinks := congrArg Pool.link (pool_push m p)
    change ¬ ∃ l, Linked (Pool.link (Mem.pool _)) (some p) l
    rw [hlinks]
    exact hcycle
  · rename_i hlink
    exact ⟨_, by simp [pageFree, href, hlink]; rfl⟩

/-! ### The start -/

theorem listed_cleared (m : Mem n) : Listed M m.cleared :=
  listed_iff.mpr ⟨[], rfl, List.nodup_nil, by simp⟩

theorem not_on_cleared (m : Mem n) : ¬ m.cleared.pool.On p :=
  fun hon => hon.head_ne_none rfl

/-- `page_init` from page `start` on, the pages from there on being untouched. -/
theorem listed_pageInit {limSupKernmem start len : ℕ} (h : Listed M m) (hpos : 0 < start)
    (hle : 0 < len → start + len ≤ M.npages)
    (hfresh : ∀ q, start ≤ q → ¬ m.pool.On q ∧ (m.pages q).ppLink = none)
    (hlink : ∀ q, ¬ m.pool.On q → (m.pages q).ppLink = none) :
    let m' := (List.range' start len).foldl (pageInitStep limSupKernmem) m
    Listed M m' ∧ (∀ q, ¬ m'.pool.On q → (m'.pages q).ppLink = none) ∧
      (∀ q, m.pool.On q → m'.pool.On q) ∧ ∀ q, q < start → m'.pages q = m.pages q := by
  induction len generalizing start m with
  | zero => exact ⟨h, hlink, fun _ => id, fun _ _ => rfl⟩
  | succ len ih =>
      rw [List.range'_succ, List.foldl_cons]
      obtain ⟨hoff, hnone⟩ := hfresh start le_rfl
      have hle' : 0 < len → start + 1 + len ≤ M.npages := fun _ => by
        have := hle (Nat.succ_pos len)
        omega
      have hset (v : BitVec 16) : Listed M (m.setRef start v) := h.setRef hoff v
      have hsetLink (v : BitVec 16) (q : ℕ) :
          ((m.setRef start v).pages q).ppLink = (m.pages q).ppLink := by
        by_cases hq : q = start <;> simp [Mem.setRef, hq]
      have hsetOn (v : BitVec 16) (q : ℕ) : (m.setRef start v).pool.On q ↔ m.pool.On q := by
        rw [pool_setRef, Pool.on_setRef]
      by_cases hused : pgnum iophysmem ≤ start ∧ start < limSupKernmem ∨ start = pgnum mpentryPaddr
      · rw [pageInitStep, if_pos hused]
        have hsetFresh (q : ℕ) (hq : start + 1 ≤ q) :
            ¬ (m.setRef start 1).pool.On q ∧ ((m.setRef start 1).pages q).ppLink = none := by
          rw [hsetOn, hsetLink]
          exact hfresh q (by omega)
        have hsetNone (q : ℕ) (hq : ¬ (m.setRef start 1).pool.On q) :
            ((m.setRef start 1).pages q).ppLink = none := by
          rw [hsetOn] at hq
          rw [hsetLink]
          exact hlink q hq
        obtain ⟨hl, hn, hmono, hbelow⟩ :=
          ih (hset 1) (Nat.succ_pos _) hle' hsetFresh hsetNone
        refine ⟨hl, hn, fun q hq => hmono q ((hsetOn 1 q).mpr hq), fun q hq => ?_⟩
        rw [hbelow q (by omega)]
        simp [Mem.setRef, hq.ne]
      · rw [pageInitStep, if_neg hused]
        have hlt : start < M.npages := by
          have := hle (Nat.succ_pos len)
          omega
        have hoff' : ¬ (m.setRef start 0).pool.On start := by rwa [hsetOn]
        obtain ⟨hpush, hon, hpages⟩ :=
          (hset 0).push hoff' hpos hlt (by simp [Mem.setRef]) rfl
        have hkeep (q : ℕ) (hq : q ≠ start) := (congrArg PageInfo.ppLink (hpages q hq)).trans
          (hsetLink 0 q)
        have hpushFresh (q : ℕ) (hq : start + 1 ≤ q) :
            ¬ (((m.setRef start 0).setLink start m.pageFreeList).setFreeList
              (some start)).pool.On q ∧
            ((((m.setRef start 0).setLink start m.pageFreeList).setFreeList
              (some start)).pages q).ppLink = none := by
          obtain ⟨hoffq, hnoneq⟩ := hfresh q (by omega)
          refine ⟨fun honq => ?_, (hkeep q (by omega)).trans hnoneq⟩
          rcases (hon q).mp honq with honq | heq
          · exact hoffq ((hsetOn 0 q).mp honq)
          · omega
        obtain ⟨hl, hn, hmono, hbelow⟩ :=
          ih hpush (Nat.succ_pos _) hle' hpushFresh fun q hq => by
            obtain ⟨hoffq, hne⟩ := not_or.mp fun h => hq ((hon q).mpr h)
            exact (hkeep q hne).trans (hlink q fun honq => hoffq ((hsetOn 0 q).mpr honq))
        refine ⟨hl, hn, fun q hq => ?_, fun q hq => ?_⟩
        · exact hmono q ((hon q).mpr (Or.inl ((hsetOn 0 q).mpr hq)))
        · refine (hbelow q (by omega)).trans ?_
          simp [Mem.setRef, Mem.setLink, Mem.setFreeList, hq.ne]

/-- The free list is in order when `page_init` is done. -/
theorem inv_init (limSupKernmem : ℕ) (m : Mem n) : (init M limSupKernmem m).Inv M := by
  have hle : 0 < M.npages - 1 → 1 + (M.npages - 1) ≤ M.npages := by omega
  obtain ⟨hlisted, hlink, -, hbelow⟩ := @listed_pageInit _ M _ limSupKernmem _ _
    (listed_cleared m) one_pos hle (fun q _ => ⟨not_on_cleared m, rfl⟩) fun q _ => rfl
  have hzero := congrArg PageInfo.ppRef (hbelow 0 one_pos)
  exact ⟨hlisted, hlink, fun p _ => by simp [Handed, init], by simp [init], hzero, by simp [init]⟩

/-- Page 1 is at the end of the list `page_init` makes. -/
theorem one_last (limSupKernmem : ℕ) (m : Mem n) (h : 1 < M.npages) :
    (init M limSupKernmem m).mem.pool.On 1 ∧
      ((init M limSupKernmem m).mem.pages 1).ppLink = none := by
  set m₁ := ((m.cleared.setRef 1 0).setLink 1 m.cleared.pageFreeList).setFreeList (some 1)
    with hm₁
  have hinit : (init M limSupKernmem m).mem =
      (List.range' 2 (M.npages - 2)).foldl (pageInitStep limSupKernmem) m₁ := by
    have hlen : M.npages - 1 = M.npages - 2 + 1 := by omega
    have hfree : ¬ (pgnum iophysmem ≤ 1 ∧ 1 < limSupKernmem ∨ 1 = pgnum mpentryPaddr) := by
      have hio : pgnum iophysmem = 160 := rfl
      have hmp : pgnum mpentryPaddr = 7 := rfl
      omega
    simp only [init, pageInit, hlen, List.range'_succ, List.foldl_cons]
    rw [pageInitStep, if_neg hfree]
  have hset : Listed M (m.cleared.setRef 1 0) := (listed_cleared m).setRef (not_on_cleared m) 0
  have hoff : ¬ (m.cleared.setRef 1 0).pool.On 1 := by
    rw [pool_setRef, Pool.on_setRef]
    exact not_on_cleared m
  obtain ⟨hpush, hon, hpages⟩ := hset.push hoff one_pos h (by simp [Mem.setRef]) hm₁
  have hlinks (q : ℕ) : (m₁.pages q).ppLink = none := by
    by_cases hq : q = 1 <;>
      simp [hm₁, Mem.setFreeList, Mem.setLink, Mem.setRef, Mem.cleared, hq]
  have hfresh (q : ℕ) (hq : 2 ≤ q) : ¬ m₁.pool.On q ∧ (m₁.pages q).ppLink = none := by
    refine ⟨fun honq => ?_, hlinks q⟩
    rcases (hon q).mp honq with honq | heq
    · rw [pool_setRef, Pool.on_setRef] at honq
      exact not_on_cleared m honq
    · omega
  obtain ⟨-, -, hmono, hbelow⟩ := @listed_pageInit _ M m₁ limSupKernmem 2 (M.npages - 2) hpush
    two_pos (by omega) hfresh fun q _ => hlinks q
  rw [hinit]
  refine ⟨hmono 1 ((hon 1).mpr (Or.inr rfl)), ?_⟩
  rw [hbelow 1 (by omega)]
  exact hlinks 1

/-! ### The steps -/

/-- A page that is handed out was not in the hands of anybody. -/
theorem once_alloc {log : List PageEvent}
    (honce : ∀ {q l₁ l₂ l₃}, log = l₁ ++ .alloc q :: l₂ ++ .alloc q :: l₃ → .free q ∈ l₂)
    (hp : ¬ Since (· = PageEvent.alloc p) (· = PageEvent.free p) log) {q : ℕ}
    {l₁ l₂ l₃ : List PageEvent}
    (h : .alloc p :: log = l₁ ++ .alloc q :: l₂ ++ .alloc q :: l₃) : .free q ∈ l₂ := by
  cases l₁ with
  | nil =>
      obtain ⟨hpq, hlog⟩ := List.cons.inj h
      obtain rfl := PageEvent.alloc.inj hpq
      by_contra hnot
      exact hp (since_iff.mpr ⟨l₂, _, l₃, hlog, rfl, fun y hy hfree => hnot (hfree ▸ hy)⟩)
  | cons x l₁ => exact honce (List.cons.inj h).2

theorem once_free {log : List PageEvent}
    (honce : ∀ {q l₁ l₂ l₃}, log = l₁ ++ .alloc q :: l₂ ++ .alloc q :: l₃ → .free q ∈ l₂)
    {q : ℕ} {l₁ l₂ l₃ : List PageEvent}
    (h : .free p :: log = l₁ ++ .alloc q :: l₂ ++ .alloc q :: l₃) : .free q ∈ l₂ := by
  cases l₁ with
  | nil => cases (List.cons.inj h).1
  | cons x l₁ => exact honce (List.cons.inj h).2

theorem Inv.alloc (h : s.Inv M) {z : Bool} {r : Option ℕ} {m' : Mem n}
    (hrun : pageAlloc M z s.mem = .ok (r, m')) :
    Inv M ⟨m', (r.map PageEvent.alloc).toList ++ s.log⟩ := by
  cases r with
  | none =>
      obtain ⟨-, rfl⟩ := pageAlloc_none hrun
      exact h
  | some p =>
      obtain ⟨hhead, hm'⟩ := pageAlloc_some hrun
      have hpool : m'.pool = s.mem.pool.pop p := by
        rw [hm', ← pool_pop]
        split <;> rfl
      have hon (q : ℕ) : m'.pool.On q ↔ s.mem.pool.On q ∧ q ≠ p := by
        rw [hpool]
        exact Pool.Counts.on_pop h.listed hhead
      have hlink (q : ℕ) : (m'.pages q).ppLink =
          if q = p then none else (s.mem.pages q).ppLink := by
        change m'.pool.link q = _
        rw [hpool]
        exact Function.update_apply ..
      have hfree : s.mem.pool.On p := Pool.Counts.on_head hhead h.listed
      have hzero : (m'.pages 0).ppRef = (s.mem.pages 0).ppRef := by
        change m'.pool.ref 0 = _
        rw [hpool]
        rfl
      refine ⟨?_, fun q hq => ?_, fun q hq => ?_, fun {q} hq => ?_, hzero.trans h.zero,
        once_alloc h.once (h.handed p hfree)⟩
      · unfold Listed
        rw [hpool]
        exact Pool.Counts.pop h.listed hhead
      · rw [hlink]
        split
        · rfl
        · rename_i hne
          exact h.link q fun honq => hq ((hon q).mpr ⟨honq, hne⟩)
      · obtain ⟨honq, hne⟩ := (hon q).mp hq
        have hnot := h.handed q honq
        simpa [Handed, Ne.symm hne] using hnot
      · rcases List.mem_cons.mp hq with heq | hq
        · obtain rfl := PageEvent.alloc.inj heq
          exact (h.listed.on hfree).1
        · exact h.pos hq

theorem Inv.setRef (h : s.Inv M) (hp : ¬ s.mem.pool.On p) (hpos : 0 < p) (v : BitVec 16) :
    Inv M ⟨s.mem.setRef p v, s.log⟩ := by
  have hon (q : ℕ) : (s.mem.setRef p v).pool.On q ↔ s.mem.pool.On q := by
    rw [pool_setRef, Pool.on_setRef]
  have hzero : ((s.mem.setRef p v).pages 0).ppRef = (s.mem.pages 0).ppRef := by
    simp [Mem.setRef, hpos.ne]
  refine ⟨h.listed.setRef hp v, fun q hq => ?_, fun q hq => h.handed q ((hon q).mp hq), h.pos,
    hzero.trans h.zero, h.once⟩
  have hlink := h.link q fun honq => hq ((hon q).mpr honq)
  by_cases hqp : q = p
  · subst hqp
    simpa [Mem.setRef] using hlink
  · simpa [Mem.setRef, hqp] using hlink

/-- A page that is not free is put on the list. -/
theorem Inv.free (h : s.Inv M) {m' : Mem n} (hpos : 0 < p) (hlt : p < M.npages)
    (hoff : ¬ s.mem.pool.On p) (href : (s.mem.pages p).ppRef = 0)
    (hm' : m' = (s.mem.setLink p s.mem.pageFreeList).setFreeList (some p)) :
    Inv M ⟨m', .free p :: s.log⟩ := by
  obtain ⟨hpush, hon, hpages⟩ := h.listed.push hoff hpos hlt href hm'
  refine ⟨hpush, fun q hq => ?_, fun q hq => ?_, fun hq => h.pos (by simpa using hq), ?_,
    once_free h.once⟩
  · obtain ⟨hoffq, hne⟩ := not_or.mp fun h => hq ((hon q).mpr h)
    change (m'.pages q).ppLink = none
    rw [hpages q hne]
    exact h.link q hoffq
  · rcases (hon q).mp hq with honq | rfl
    · have hnot := h.handed q honq
      simp only [Handed, since_cons, not_or]
      exact ⟨by simp, fun hin => hnot hin.2⟩
    · simp [Handed]
  · change (m'.pages 0).ppRef = 0
    rw [hpages 0 hpos.ne, h.zero]

theorem Inv.step (h : s.Inv M) (hok : s.NotLast op) (hstep : s.Step M op t) : t.Inv M := by
  obtain ⟨hlegal, hrun⟩ := hstep
  cases op with
  | alloc z =>
      simp only [run, bind_eq_ok] at hrun
      obtain ⟨⟨r, m'⟩, halloc, hrun⟩ := hrun
      cases hrun
      exact h.alloc halloc
  | free p =>
      simp only [run, bind_eq_ok] at hrun
      obtain ⟨m', hfree, hrun⟩ := hrun
      cases hrun
      obtain ⟨href, hlink, hm'⟩ := pageFree_eq_ok hfree
      have hoff : ¬ s.mem.pool.On p := fun hon => hok ⟨hon, hlink⟩
      exact h.free hlegal.1 hlegal.2 hoff href hm'
  | incref p =>
      cases hrun
      obtain ⟨l₁, x, l₂, hlog, rfl, -⟩ := since_iff.mp hlegal
      exact h.setRef (fun hon => h.handed p hon hlegal) (h.pos (by simp [hlog])) _
  | decref p =>
      obtain ⟨hlt, hne⟩ := hlegal
      simp only [run, bind_eq_ok] at hrun
      obtain ⟨m', hdecref, hrun⟩ := hrun
      cases hrun
      have hoff : ¬ s.mem.pool.On p := fun hon => hne (h.listed.on hon).2.2
      have hpos : 0 < p := Nat.pos_of_ne_zero fun h0 => hne (h0 ▸ h.zero)
      have hset := h.setRef hoff hpos ((s.mem.pages p).ppRef - 1)
      rcases pageDecref_eq_ok hdecref with ⟨hone, hm'⟩ | ⟨hone, rfl⟩
      · rw [if_pos hone]
        refine hset.free hpos hlt ?_ (by simp [Mem.setRef, hone]) hm'
        rwa [pool_setRef, Pool.on_setRef]
      · rw [if_neg hone]
        exact hset

/-- Freeing a page of the list panics except at its end, where it makes the
list a cycle. -/
theorem Inv.free_again (h : s.Inv M) (hp : s.mem.pool.On p) :
    if (s.mem.pages p).ppLink = none then ∃ t, s.run M (.free p) = .ok t ∧ ¬ t.Intact M
    else ∃ why, s.run M (.free p) = .error why := by
  have hagain := h.listed.free_again hp
  split at hagain
  · rename_i hlink
    obtain ⟨m', hfree, hcycle⟩ := hagain
    rw [if_pos hlink]
    refine ⟨⟨m', .free p :: s.log⟩, by simp [Allocator.run, hfree], fun hintact => ?_⟩
    obtain ⟨l, hl, -⟩ := hintact.list
    exact hcycle ⟨l, hl⟩
  · rename_i hlink
    obtain ⟨why, hfree⟩ := hagain
    rw [if_neg hlink]
    exact ⟨why, by simp only [Allocator.run, hfree]; rfl⟩

theorem inv_run {limSupKernmem : ℕ} (h : Run (Step M) NotLast (init M limSupKernmem m) s) :
    s.Inv M :=
  h.invariant (fun h hok hstep => h.step hok hstep) (inv_init limSupKernmem m)

end Allocator

/-! ### Every run of the allocator -/

/-- The free list is a finite list without repetitions of pages whose count is
zero, all other links are null, and no page is handed out twice without having
been freed in between. Freeing a page of the list panics unless the page is at
its end, and there it breaks the list. -/
theorem freeList_intact (M : Machine) (limSupKernmem : ℕ) (m : Mem n) {s : Allocator n}
    (hrun : Run (Allocator.Step M) Allocator.NotLast (Allocator.init M limSupKernmem m) s) :
    s.Intact M ∧ ∀ p, s.mem.pool.On p →
      if (s.mem.pages p).ppLink = none then ∃ t, s.run M (.free p) = .ok t ∧ ¬ t.Intact M
      else ∃ why, s.run M (.free p) = .error why :=
  ⟨(Allocator.inv_run hrun).intact, fun _ hp => (Allocator.inv_run hrun).free_again hp⟩

/-- A small memory, in which page 6 is the first free page. -/
def eightPages : Machine where
  npages := 8
  pagesFrame := 1
  kernPgdir := 2
  npages_le := by decide
  pagesFrame_pos := by decide
  pagesFrame_lt := by decide

def zeroMem (n : ℕ) : Mem n := ⟨fun _ => ⟨none, 0⟩, none, fun _ _ => 0, fun _ => 0, fun _ => []⟩

theorem freeList_intact_reuse : ∃ s : Allocator 1,
    s.log = [.free 6, .alloc 6] ∧ s.mem.pageFreeList = some 6 ∧ s.Intact eightPages := by
  have hrun := ((Relation.ReflTransGen.refl
    (r := Admitted (Allocator.Step eightPages) Allocator.NotLast)
    (a := Allocator.init eightPages 0 (zeroMem 1))).tail
      ⟨.alloc false, trivial, trivial, rfl⟩).tail
      ⟨.incref 6, trivial, Or.inl rfl, rfl⟩ |>.tail
      ⟨.decref 6, trivial, ⟨by decide, by decide⟩, rfl⟩
  exact ⟨_, rfl, rfl, (freeList_intact eightPages 0 (zeroMem 1) hrun).1⟩

/-- Without the condition the list does not stay intact: after `page_init`,
`page_free` of page 1, which is free already, does not panic. -/
theorem not_freeList_intact : ¬ ∀ (M : Machine) (limSupKernmem : ℕ) (m : Mem 1)
    (s : Allocator 1),
    Run (Allocator.Step M) (fun _ _ => True) (Allocator.init M limSupKernmem m) s →
      s.Intact M := by
  intro hall
  obtain ⟨s, hs⟩ : ∃ s, s = Allocator.init sampleMachine 1024 (zeroMem 1) := ⟨_, rfl⟩
  have hinv : s.Inv sampleMachine := hs ▸ Allocator.inv_init 1024 (zeroMem 1)
  obtain ⟨hon, hlink⟩ := hs ▸ @Allocator.one_last 1 sampleMachine 1024 (zeroMem 1) (by decide)
  have hagain := hinv.free_again hon
  rw [if_pos hlink] at hagain
  obtain ⟨t, hfree, hbroken⟩ := hagain
  have hlegal : s.Legal sampleMachine (.free 1) := ⟨by decide, by decide⟩
  exact hbroken (hall sampleMachine 1024 (zeroMem 1) t
    (hs ▸ .single ⟨.free 1, trivial, hlegal, hfree⟩))

end Jos
