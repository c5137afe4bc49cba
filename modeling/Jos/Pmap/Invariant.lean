import Jos.Lib.Pool
import Jos.Pmap.Space

/-!
The invariant of physical memory. `Layout` is what `mem_init` leaves for good:
which pages the allocator manages and what the kernel's own frames hold.
`MemInv` relates the allocator's counts to the references that the address
spaces make, and says what those may refer to.
-/

namespace Jos

open Jos.Lib

variable {n : ℕ}

/-- The frame of the VGA buffer, which `env_setup_vm` maps in every
environment. `page_init` keeps it off the free list by a count of one. -/
def vgaFrame : ℕ := 0xB8

theorem pgnum_vgaPhysaddr : pgnum vgaPhysaddr = vgaFrame := by decide

/-- The allocator's part of the memory. -/
def Mem.pool (m : Mem n) : Pool ℕ 16 :=
  { ref := fun p => (m.pages p).ppRef
    link := fun p => (m.pages p).ppLink
    head := m.pageFreeList }

section

variable (m : Mem n) (p : ℕ)

@[simp] theorem pool_setRef (v : BitVec 16) : (m.setRef p v).pool = m.pool.setRef p v := by
  unfold Mem.pool Mem.setRef Pool.setRef
  congr 1 <;> (funext q; by_cases hq : q = p <;> simp [hq])

@[simp] theorem pool_pop : (m.pop p).pool = m.pool.pop p := by
  unfold Mem.pool Mem.pop Mem.setLink Mem.setFreeList Pool.pop
  congr 1 <;> (funext q; by_cases hq : q = p <;> simp [hq])

@[simp] theorem pool_push :
    ((m.setLink p m.pageFreeList).setFreeList (some p)).pool = m.pool.push p := by
  unfold Mem.pool Mem.setLink Mem.setFreeList Pool.push
  congr 1 <;> (funext q; by_cases hq : q = p <;> simp [hq])

@[simp] theorem pool_store (i : PtIdx) (w : Word) : (m.store p i w).pool = m.pool := rfl

@[simp] theorem pool_fill (content : PtIdx → Word) : (m.fill p content).pool = m.pool := rfl

@[simp] theorem word_store (i : PtIdx) (w : Word) :
    (m.store p i w).word = Function.update m.word p (Function.update (m.word p) i w) := rfl

@[simp] theorem word_fill (content : PtIdx → Word) :
    (m.fill p content).word = Function.update m.word p content := rfl

@[simp] theorem word_setRef (v : BitVec 16) : (m.setRef p v).word = m.word := rfl

@[simp] theorem pool_lcr3 (c : Fin n) : (m.lcr3 c p).pool = m.pool := rfl

@[simp] theorem pool_invlpg (c : Fin n) (va : Word) : (m.invlpg c va).pool = m.pool := rfl

end

/-- What memory looks like once `mem_init` is done, as far as it stays so: the
pages that `page_alloc` may hand out, and the contents of all other frames but
the VGA buffer. -/
structure Layout (M : Machine) where
  pool : ℕ → Prop
  kern : Words
  pool_lt : ∀ {p}, pool p → p < M.npages
  pool_ne_vga : ¬ pool vgaFrame
  pgdir_not_pool : ¬ pool M.kernPgdir
  pgdir_ne_vga : M.kernPgdir ≠ vgaFrame
  pgdir_user : ∀ {i : PtIdx}, (i : ℕ) < 955 → kern M.kernPgdir i = 0
  table_not_pool : ∀ {i : PtIdx}, 955 ≤ (i : ℕ) → i ≠ pdx uvpt →
    Flag (kern M.kernPgdir i) pteP →
    ¬ pool (pteFrame (kern M.kernPgdir i)) ∧ pteFrame (kern M.kernPgdir i) ≠ vgaFrame
  user_not_pool : ∀ {i j : PtIdx}, 955 ≤ (i : ℕ) → i ≠ pdx uvpt →
    Flag (kern M.kernPgdir i) pteP → Flag (kern (pteFrame (kern M.kernPgdir i)) j) pteP →
    Flag (kern (pteFrame (kern M.kernPgdir i)) j) pteU →
    ¬ pool (pteFrame (kern (pteFrame (kern M.kernPgdir i)) j))
  user_readonly : ∀ {i j : PtIdx}, 955 ≤ (i : ℕ) → i ≠ pdx uvpt →
    Flag (kern M.kernPgdir i) pteP → Flag (kern (pteFrame (kern M.kernPgdir i)) j) pteU →
    ¬ Flag (kern (pteFrame (kern M.kernPgdir i)) j) pteW

variable {M : Machine}

namespace Layout

variable (L : Layout M)

/-- The pages whose references are counted. -/
def counted (p : ℕ) : Prop := L.pool p ∨ p = vgaFrame

theorem pool_counted (p : ℕ) (h : L.pool p) : L.counted p := Or.inl h

end Layout

/-- What the count of a page should be, `held` being a page that is about to
be entered into a page table. -/
def pageLoad (held : Option ℕ) (word : Words) (dirs : Dirs) (p : ℕ) : ℕ :=
  (if p = vgaFrame then 1 else 0) + pageRefs word dirs p + hit held p

/-- The entry of a page directory for page table `t`. -/
def tablePde (t : ℕ) : Word := frame2pa t ||| pteP ||| pteU ||| pteW

/-- Where an entry may lead: to a page that is counted, or, for one made from
a null page, past the end of memory and read-only. -/
def PageTarget (L : Layout M) (nullOk : Prop) (w : Word) : Prop :=
  L.counted (pteFrame w) ∨ nullOk ∧ M.npages ≤ pteFrame w ∧ ¬ Flag w pteW

/-- The page tables, with the directories `dirs` in use. -/
structure TableInv (L : Layout M) (nullOk : Prop) (word : Words) (dirs : Dirs) : Prop where
  separate : Separate word dirs
  dir : ∀ {e d}, dirs e = some d → L.pool d
  dirKern : ∀ {e d}, dirs e = some d → ∀ {i : PtIdx}, 955 ≤ (i : ℕ) →
    word d i = if i = pdx uvpt then frame2pa d ||| pteP ||| pteU else L.kern M.kernPgdir i
  table : ∀ {e i t}, tableAt word dirs e i = some t → L.pool t
  pde : ∀ {e d i t}, dirs e = some d → tableAt word dirs e i = some t → word d i = tablePde t
  absent : ∀ {e i t}, tableAt word dirs e i = some t →
    ∀ j, ¬ Flag (word t j) pteP → word t j = 0
  page : ∀ {e i j w}, mapping word dirs e i j = some w → PageTarget L nullOk w
  kern : ∀ {f}, ¬ L.counted f → word f = L.kern f

/-- Memory in order: the counts agree with the references, and the page tables
are as they should be. -/
structure MemInv (L : Layout M) (nullOk : Prop) (held : Option ℕ) (dirs : Dirs) (m : Mem n) :
    Prop where
  counts : m.pool.Counts L.pool L.counted (pageLoad held m.word dirs)
  tables : TableInv L nullOk m.word dirs

/-- No page has more than `b` references. -/
def Bounded (L : Layout M) (b : ℕ) (dirs : Dirs) (m : Mem n) : Prop :=
  ∀ p, L.counted p → pageLoad none m.word dirs p ≤ b

variable {L : Layout M} {nullOk : Prop} {held : Option ℕ} {dirs : Dirs} {m : Mem n}
  {e : EnvIdx} {i j : PtIdx} {d t p : ℕ} {w : Word}

namespace MemInv

theorem not_on_of_ref (h : MemInv L nullOk held dirs m) (hp : 0 < pageRefs m.word dirs p) :
    ¬ m.pool.On p :=
  h.counts.not_on (by unfold pageLoad; omega)

/-- No page directory, page table or mapped page is free. -/
theorem not_on_of_slot (h : MemInv L nullOk held dirs m) {x : Slot}
    (hx : slotRef m.word dirs x = some p) : ¬ m.pool.On p :=
  h.not_on_of_ref (refs_pos hx)

theorem not_on_page (h : MemInv L nullOk held dirs m)
    (hw : mapping m.word dirs e i j = some w) : ¬ m.pool.On (pteFrame w) :=
  h.not_on_of_slot (x := .page e i j) (by simp [slotRef, hw])

/-- A free page has no reference. -/
theorem refs_of_on (h : MemInv L nullOk held dirs m) (hp : m.pool.On p) :
    L.pool p ∧ pageRefs m.word dirs p = 0 := by
  have hon := h.counts.of_on hp
  unfold pageLoad at hon
  exact ⟨hon.1, by omega⟩

end MemInv

end Jos
