import Jos.Inc.Mmu
import Jos.Lib.Except
import Mathlib.Logic.Function.Basic

/-!
kern/pmap.c: the physical page allocator and the two-level page tables.

Page tables live in the frames the allocator hands out, so the state is one
record: the `struct PageInfo` array, the free list threaded through it, the
words of physical memory, and what each CPU has loaded (`%cr3` and its TLB).
A kernel virtual address above `KERNBASE` is written as the frame it maps to,
and a `struct PageInfo *` as the index of the page, `none` being `NULL`. A
function that may panic returns `Except String`.
-/

namespace Jos

open Jos.Lib

/-- What `mem_init` fixes for good: how much memory there is and where
`boot_alloc` put the arrays. `mem_init` does not get past
`check_page_free_list` with more than 256 MB, because the kernel addresses of
the pages above wrap around, and it clears the arrays through `entry_pgdir`,
which maps 4 MB only. -/
structure Machine where
  npages : ℕ
  pagesFrame : ℕ
  kernPgdir : ℕ
  npages_le : npages ≤ 65536
  pagesFrame_pos : 0 < pagesFrame
  pagesFrame_lt : pagesFrame < 1024

/-- A machine with 8 MB of memory. -/
def sampleMachine : Machine where
  npages := 2048
  pagesFrame := 281
  kernPgdir := 280
  npages_le := by decide
  pagesFrame_pos := by decide
  pagesFrame_lt := by decide

structure PageInfo where
  ppLink : Option ℕ
  ppRef : BitVec 16

structure Mem (n : ℕ) where
  pages : ℕ → PageInfo
  pageFreeList : Option ℕ
  word : ℕ → PtIdx → Word
  cr3 : Fin n → ℕ
  tlb : Fin n → List (ℕ × ℕ)

/-- The CPU a kernel function runs on, and `curenv->env_pgdir` of that CPU
when it has a `curenv`. -/
structure Ctx (n : ℕ) where
  cpu : Fin n
  curPgdir : Option (Option ℕ)

variable {n : ℕ}

namespace Mem

def setRef (m : Mem n) (pp : ℕ) (ref : BitVec 16) : Mem n :=
  { m with pages := Function.update m.pages pp { m.pages pp with ppRef := ref } }

def setLink (m : Mem n) (pp : ℕ) (link : Option ℕ) : Mem n :=
  { m with pages := Function.update m.pages pp { m.pages pp with ppLink := link } }

def setFreeList (m : Mem n) (head : Option ℕ) : Mem n := { m with pageFreeList := head }

/-- Store one word. -/
def store (m : Mem n) (frame : ℕ) (i : PtIdx) (w : Word) : Mem n :=
  { m with word := Function.update m.word frame (Function.update (m.word frame) i w) }

/-- Overwrite a whole frame. -/
def fill (m : Mem n) (frame : ℕ) (content : PtIdx → Word) : Mem n :=
  { m with word := Function.update m.word frame content }

/-- `lcr3`: load a directory, which empties the TLB of that CPU. -/
def lcr3 (m : Mem n) (c : Fin n) (pgdir : ℕ) : Mem n :=
  { m with cr3 := Function.update m.cr3 c pgdir, tlb := Function.update m.tlb c [] }

def invlpg (m : Mem n) (c : Fin n) (va : Word) : Mem n :=
  { m with tlb := Function.update m.tlb c ((m.tlb c).filter fun t => t.1 ≠ pgnum va) }

end Mem

variable (M : Machine)

/-- `PADDR(pages)` is a multiple of the page size. -/
def Machine.pagesKva : Word := kernbase + BitVec.ofNat 32 (4096 * M.pagesFrame)

/-- `KADDR`, as the frame of the address. -/
def kaddr (pa : Word) : Except String ℕ :=
  if M.npages ≤ pgnum pa then .error "KADDR called with invalid pa" else .ok (pgnum pa)

def pa2page (pa : Word) : Except String ℕ :=
  if M.npages ≤ pgnum pa then .error "pa2page called with invalid pa" else .ok (pgnum pa)

/-- `page2pa`, also of the null pointer: `(pp - pages) << PGSHIFT` divides a
difference of addresses by the eight bytes of a `struct PageInfo`. -/
def page2pa : Option ℕ → Word
  | some pp => frame2pa pp
  | none => (0#32 - M.pagesKva).sdiv 8#32 <<< 12

/-! ### The allocator -/

def mpentryPaddr : Word := 0x7000#32
def iophysmem : Word := 0x0A0000#32
def extphysmem : Word := 0x100000#32

/-- The `pages` array after its `memset`, and `page_free_list` as the loader
leaves it. -/
def Mem.cleared (m : Mem n) : Mem n :=
  { m with pages := fun _ => ⟨none, 0⟩, pageFreeList := none }

/-- One turn of the loop of `page_init`. -/
def pageInitStep (limSupKernmem : ℕ) (m : Mem n) (i : ℕ) : Mem n :=
  if pgnum iophysmem ≤ i ∧ i < limSupKernmem ∨ i = pgnum mpentryPaddr then m.setRef i 1
  else ((m.setRef i 0).setLink i m.pageFreeList).setFreeList (some i)

/-- `page_init`, with the first page that `boot_alloc` has left. -/
def pageInit (limSupKernmem : ℕ) (m : Mem n) : Mem n :=
  (List.range' 1 (M.npages - 1)).foldl (pageInitStep limSupKernmem) m

def pageAlloc (allocZero : Bool) (m : Mem n) : Except String (Option ℕ × Mem n) :=
  match m.pageFreeList with
  | none => .ok (none, m)
  | some pag =>
      let m := (m.setFreeList (m.pages pag).ppLink).setLink pag none
      if allocZero then do
        let frame ← kaddr M (frame2pa pag)
        .ok (some pag, m.fill frame fun _ => 0#32)
      else
        .ok (some pag, m)

def pageFree (pp : ℕ) (m : Mem n) : Except String (Mem n) :=
  if (m.pages pp).ppRef ≠ 0 then .error "page still in use!\n"
  else if (m.pages pp).ppLink ≠ none then
    .error "page has non-NULL pp_link (already freed?)\n"
  else .ok ((m.setLink pp m.pageFreeList).setFreeList (some pp))

def pageDecref (pp : ℕ) (m : Mem n) : Except String (Mem n) :=
  let m := m.setRef pp ((m.pages pp).ppRef - 1)
  if (m.pages pp).ppRef = 0 then pageFree pp m else .ok m

/-! ### Page tables -/

/-- The entry for `va`, as the frame of its page table and its index. The
entry's `KADDR` is taken before the present bit is looked at. -/
def pgdirWalk (pgdir : ℕ) (va : Word) (create : Bool) (m : Mem n) :
    Except String (Option (ℕ × PtIdx) × Mem n) := do
  let pde := m.word pgdir (pdx va)
  let pt ← kaddr M (pteAddr pde)
  if Flag pde pteP then .ok (some (pt, ptx va), m)
  else if !create then .ok (none, m)
  else
    let (page, m) ← pageAlloc M true m
    match page with
    | none => .ok (none, m)
    | some page =>
        let m := m.setRef page ((m.pages page).ppRef + 1)
        let m := m.store pgdir (pdx va) (frame2pa page ||| pteP ||| pteU ||| pteW)
        let pt ← kaddr M (frame2pa page)
        .ok (some (pt, ptx va), m)

/-- `page_lookup`: where the entry is, if there is a page table, and the page
it maps. -/
def pageLookup (pgdir : ℕ) (va : Word) (m : Mem n) :
    Except String (Option (ℕ × PtIdx) × Option ℕ) := do
  let (pteAddress, _) ← pgdirWalk M pgdir va false m
  match pteAddress with
  | none => .ok (none, none)
  | some (pt, i) =>
      if ¬ Flag (m.word pt i) pteP then .ok (some (pt, i), none)
      else
        let pp ← pa2page M (pteAddr (m.word pt i))
        .ok (some (pt, i), some pp)

def tlbInvalidate (x : Ctx n) (pgdir : ℕ) (va : Word) (m : Mem n) : Mem n :=
  match x.curPgdir with
  | none => m.invlpg x.cpu va
  | some d => if d = some pgdir then m.invlpg x.cpu va else m

def pageRemove (x : Ctx n) (pgdir : ℕ) (va : Word) (m : Mem n) : Except String (Mem n) := do
  match ← pageLookup M pgdir va m with
  | (some (pt, i), some pp) =>
      let m ← pageDecref pp m
      .ok (tlbInvalidate x pgdir va (m.store pt i 0#32))
  | _ => .ok m

/-- The frame and the index of the word at virtual address `va` when the
loaded directory lets the kernel write there; `CR0_WP` is set, so a read-only
entry does not. -/
def kernWritable (c : Fin n) (va : Word) (m : Mem n) : Option ℕ :=
  let pde := m.word (m.cr3 c) (pdx va)
  let pte := m.word (pteFrame pde) (ptx va)
  if Flag pde pteP ∧ Flag pde pteW ∧ Flag pte pteP ∧ Flag pte pteW then some (pteFrame pte)
  else none

/-- `pp->pp_ref++`. Through the null pointer this is the half-word at virtual
address 4, and a fault there is a kernel-mode page fault. -/
def incRef (x : Ctx n) (pp : Option ℕ) (m : Mem n) : Except String (Mem n) :=
  match pp with
  | some pp => .ok (m.setRef pp ((m.pages pp).ppRef + 1))
  | none =>
      match kernWritable x.cpu 0#32 m with
      | none => .error "Kernel-mode page fault!!\n"
      | some frame =>
          let w := m.word frame 1
          .ok (m.store frame 1 (w &&& 0xFFFF0000#32 ||| (w + 1#32) &&& 0xFFFF#32))

/-- Returns 0 or `-E_NO_MEM`. -/
def pageInsert (x : Ctx n) (pgdir : ℕ) (pp : Option ℕ) (va perm : Word) (m : Mem n) :
    Except String (Word × Mem n) := do
  let (pteAddress, m) ← pgdirWalk M pgdir va true m
  match pteAddress with
  | none => .ok (-eNoMem, m)
  | some (pt, i) =>
      let m ← incRef x pp m
      let m ← if Flag (m.word pt i) pteP then pageRemove M x pgdir va m else .ok m
      .ok (0, m.store pt i (mkPte (page2pa M pp) perm))

/-! ### Checking user memory -/

/-- The loop of `user_mem_check` over the addresses still to be checked. The
source rounds the incremented address up and throws the result away, so it
advances by one byte. -/
def userMemLoop (pgdir : ℕ) (perm : Word) (m : Mem n) : ℕ → Word → Except String (Option Word)
  | 0, _ => .ok none
  | k + 1, xva => do
      match ← pageLookup M pgdir xva m with
      | (some (pt, i), some _) =>
          if m.word pt i &&& perm ≠ perm then .ok (some xva)
          else userMemLoop pgdir perm m k (xva + 1)
      | _ => .ok (some xva)

/-- `user_mem_check`: `none` when it returns 0, and the value of
`user_mem_check_addr` when it returns `-E_FAULT`. -/
def userMemCheck (pgdir : ℕ) (va len perm : Word) (m : Mem n) : Except String (Option Word) :=
  let limVa := va + len
  if ulim ≤ va then .ok (some va)
  else if ulim ≤ limVa ∨ limVa < va then .ok (some ulim)
  else userMemLoop M pgdir perm m (limVa - va).toNat va

/-! ### What the functions return -/

variable {M}

theorem kaddr_eq_ok {pa : Word} {f : ℕ} :
    kaddr M pa = .ok f ↔ pgnum pa < M.npages ∧ f = pgnum pa := by
  unfold kaddr
  split <;> simp <;> omega

theorem pa2page_eq_ok {pa : Word} {f : ℕ} :
    pa2page M pa = .ok f ↔ pgnum pa < M.npages ∧ f = pgnum pa := by
  unfold pa2page
  split <;> simp <;> omega

/-- Unlink the first free page. -/
def Mem.pop (m : Mem n) (pag : ℕ) : Mem n :=
  (m.setFreeList (m.pages pag).ppLink).setLink pag none

theorem pageAlloc_none {z : Bool} {m m' : Mem n} (h : pageAlloc M z m = .ok (none, m')) :
    m.pageFreeList = none ∧ m' = m := by
  unfold pageAlloc at h
  cases hfree : m.pageFreeList with
  | none => simp_all
  | some pag => cases z <;> simp [hfree] at h

theorem pageAlloc_some {z : Bool} {m m' : Mem n} {pag : ℕ}
    (h : pageAlloc M z m = .ok (some pag, m')) :
    m.pageFreeList = some pag ∧
      m' = if z then (m.pop pag).fill (pgnum (frame2pa pag)) fun _ => 0#32 else m.pop pag := by
  unfold pageAlloc at h
  cases hfree : m.pageFreeList with
  | none => simp [hfree] at h
  | some q =>
      cases z with
      | false =>
          simp only [hfree, Bool.false_eq_true, if_false, Except.ok.injEq, Prod.mk.injEq,
            Option.some.injEq] at h
          obtain ⟨rfl, rfl⟩ := h
          exact ⟨rfl, rfl⟩
      | true =>
          simp only [hfree, if_true, bind_eq_ok, kaddr_eq_ok, Except.ok.injEq, Prod.mk.injEq,
            Option.some.injEq] at h
          obtain ⟨f, ⟨-, rfl⟩, rfl, rfl⟩ := h
          exact ⟨rfl, rfl⟩

/-- Decrementing the count of the last reference frees the page. -/
theorem pageDecref_eq_ok {pp : ℕ} {m m' : Mem n} (h : pageDecref pp m = .ok m') :
    ((m.pages pp).ppRef = 1 ∧
      m' = (((m.setRef pp ((m.pages pp).ppRef - 1)).setLink pp m.pageFreeList).setFreeList
        (some pp))) ∨
    ((m.pages pp).ppRef ≠ 1 ∧ m' = m.setRef pp ((m.pages pp).ppRef - 1)) := by
  have hzero (v : BitVec 16) : v - 1 = 0 ↔ v = 1 := by
    rw [sub_eq_zero]
  unfold pageDecref pageFree at h
  simp only [Mem.setRef, Function.update_self, hzero] at h
  split at h
  · rename_i hone
    split at h
    · cases h
    · split at h
      · cases h
      · exact Or.inl ⟨hone, (Except.ok.inj h).symm⟩
  · rename_i hone
    exact Or.inr ⟨hone, (Except.ok.inj h).symm⟩

/-- The new page table of `pgdir_walk`. -/
def Mem.newTable (m : Mem n) (pgdir : ℕ) (va : Word) (page : ℕ) : Mem n :=
  let m := (m.pop page).fill (pgnum (frame2pa page)) fun _ => 0#32
  let m := m.setRef page ((m.pages page).ppRef + 1)
  m.store pgdir (pdx va) (frame2pa page ||| pteP ||| pteU ||| pteW)

theorem pgdirWalk_false {pgdir : ℕ} {va : Word} {m m' : Mem n} {r : Option (ℕ × PtIdx)}
    (h : pgdirWalk M pgdir va false m = .ok (r, m')) :
    m' = m ∧ r = if Flag (m.word pgdir (pdx va)) pteP then
      some (pteFrame (m.word pgdir (pdx va)), ptx va) else none := by
  unfold pgdirWalk at h
  simp only [bind_eq_ok, kaddr_eq_ok] at h
  obtain ⟨pt, ⟨-, rfl⟩, h⟩ := h
  split at h
  · cases h
    exact ⟨rfl, by simp [pteFrame, *]⟩
  · cases h
    exact ⟨rfl, by simp [*]⟩

theorem pgdirWalk_true {pgdir : ℕ} {va : Word} {m m' : Mem n} {r : Option (ℕ × PtIdx)}
    (h : pgdirWalk M pgdir va true m = .ok (r, m')) :
    (Flag (m.word pgdir (pdx va)) pteP ∧ m' = m ∧
      r = some (pteFrame (m.word pgdir (pdx va)), ptx va)) ∨
    (¬ Flag (m.word pgdir (pdx va)) pteP ∧ m' = m ∧ r = none) ∨
    (¬ Flag (m.word pgdir (pdx va)) pteP ∧ ∃ page, m.pageFreeList = some page ∧
      m' = m.newTable pgdir va page ∧ r = some (pgnum (frame2pa page), ptx va)) := by
  unfold pgdirWalk at h
  simp only [bind_eq_ok, kaddr_eq_ok] at h
  obtain ⟨pt, ⟨-, rfl⟩, h⟩ := h
  split at h
  · cases h
    exact Or.inl ⟨by assumption, rfl, rfl⟩
  · rename_i hP
    simp only [Bool.not_true, Bool.false_eq_true, if_false, bind_eq_ok] at h
    obtain ⟨⟨page, m₁⟩, halloc, h⟩ := h
    cases page with
    | none =>
        cases h
        exact Or.inr (Or.inl ⟨hP, (pageAlloc_none halloc).2, rfl⟩)
    | some page =>
        obtain ⟨hfree, rfl⟩ := pageAlloc_some halloc
        simp only [if_true, bind_eq_ok, kaddr_eq_ok] at h
        obtain ⟨pt, ⟨-, rfl⟩, h⟩ := h
        cases h
        exact Or.inr (Or.inr ⟨hP, page, hfree, rfl, rfl⟩)

theorem pageLookup_ok {pgdir : ℕ} {va : Word} {m : Mem n} {r : Option (ℕ × PtIdx)}
    {page : Option ℕ} (h : pageLookup M pgdir va m = .ok (r, page)) :
    (¬ Flag (m.word pgdir (pdx va)) pteP ∧ r = none ∧ page = none) ∨
    (Flag (m.word pgdir (pdx va)) pteP ∧
      r = some (pteFrame (m.word pgdir (pdx va)), ptx va) ∧
      ((¬ Flag (m.word (pteFrame (m.word pgdir (pdx va))) (ptx va)) pteP ∧ page = none) ∨
        (Flag (m.word (pteFrame (m.word pgdir (pdx va))) (ptx va)) pteP ∧
          pteFrame (m.word (pteFrame (m.word pgdir (pdx va))) (ptx va)) < M.npages ∧
          page = some (pteFrame (m.word (pteFrame (m.word pgdir (pdx va))) (ptx va)))))) := by
  unfold pageLookup at h
  simp only [bind_eq_ok] at h
  obtain ⟨⟨r', m₁⟩, hwalk, h⟩ := h
  obtain ⟨-, rfl⟩ := pgdirWalk_false hwalk
  split at h
  · rename_i hnone
    cases h
    exact Or.inl ⟨by simpa using hnone, rfl, rfl⟩
  · rename_i pt i hsome
    split at hsome
    · rename_i hP
      obtain ⟨rfl, rfl⟩ := Prod.mk.inj (Option.some.inj hsome)
      split at h
      · cases h
        exact Or.inr ⟨hP, rfl, Or.inl ⟨by assumption, rfl⟩⟩
      · rename_i hpte
        simp only [bind_eq_ok, pa2page_eq_ok] at h
        obtain ⟨pp, ⟨hlt, rfl⟩, h⟩ := h
        cases h
        exact Or.inr ⟨hP, rfl, Or.inr ⟨not_not.mp hpte, hlt, rfl⟩⟩
    · cases hsome

/-- `page_insert` fails only for want of a page table, and then it has changed
nothing. -/
theorem pageInsert_ret {x : Ctx n} {pgdir : ℕ} {pp : Option ℕ} {va perm r : Word} {m m' : Mem n}
    (h : pageInsert M x pgdir pp va perm m = .ok (r, m')) :
    r = 0 ∨ r = -eNoMem ∧ m' = m := by
  unfold pageInsert at h
  simp only [bind_eq_ok] at h
  obtain ⟨⟨pte, m₁⟩, hwalk, h⟩ := h
  cases pte with
  | none =>
      cases h
      rcases pgdirWalk_true hwalk with ⟨-, -, hr⟩ | ⟨-, rfl, -⟩ | ⟨-, page, -, -, hr⟩
      · cases hr
      · exact Or.inr ⟨rfl, rfl⟩
      · cases hr
  | some a =>
      simp only [bind_eq_ok] at h
      obtain ⟨m₂, -, h⟩ := h
      split at h <;>
        (simp only [bind_eq_ok] at h
         obtain ⟨m₃, -, h⟩ := h
         cases h
         exact Or.inl rfl)

end Jos
