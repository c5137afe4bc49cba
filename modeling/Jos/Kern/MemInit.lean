import Jos.Kern.Env

/-!
kern/pmap.c: `mem_init`, from the amount of memory that the NVRAM reports to the
static mappings above `UTOP`. The self-tests that it runs in between are left
out: of the memory below, they change no more than the order of the free list.
-/

namespace Jos

variable {n : ℕ}

def pgsize : Word := 0x1000#32
def kstacktop : Word := kernbase
def kstksize : Word := 8 * pgsize
def kstkgap : Word := 8 * pgsize

/-- `sizeof(struct PageInfo)`, and `NENV * sizeof(struct Env)`. -/
def sizeofPageInfo : Word := 8
def sizeofEnvs : Word := 1024 * 124

def ncpu : ℕ := 8

/-- `i386_detect_memory`: the number of pages, from what `nvram_read` returns
for the base, the extended and the high extended memory. -/
def i386DetectMemory (basemem extmem ext16 : BitVec 16) : ℕ :=
  let ext16mem := ext16.toNat * 64
  let totalmem :=
    if ext16mem ≠ 0 then 16 * 1024 + ext16mem
    else if extmem.toNat ≠ 0 then 1 * 1024 + extmem.toNat
    else basemem.toNat
  totalmem / 4

def paddr (kva : Word) : Except String Word :=
  if kva < kernbase then .error "PADDR called with invalid kva" else .ok (kva - kernbase)

/-! ### The arrays -/

/-- What the linker fixes: where the image of the kernel ends, and where in it
the stacks are, page-aligned. -/
structure Image where
  endAddr : Word
  bootstack : Word
  percpuKstacks : Word
  end_ge : kernbase + extphysmem ≤ endAddr
  bootstack_ge : kernbase ≤ bootstack
  bootstack_aligned : bootstack % pgsize = 0
  kstacks_ge : kernbase ≤ percpuKstacks
  kstacks_le : percpuKstacks.toNat + ncpu * kstksize.toNat ≤ endAddr.toNat
  kstacks_aligned : percpuKstacks % pgsize = 0

/-- `boot_alloc`: what it returns, and `nextfree` after it. -/
def bootAlloc (npages : ℕ) (size nextfree : Word) : Except String (Word × Word) :=
  if size = 0 then .ok (nextfree, nextfree)
  else do
    let result := nextfree
    let nextfree := nextfree + roundup size
    let pa ← paddr nextfree
    if BitVec.ofNat 32 npages * pgsize < pa then .error "not enough memory\n"
    else .ok (result, nextfree)

/-- `kern_pgdir`, `pages`, `envs` and what is left for `boot_alloc`. -/
structure Boot where
  kernPgdir : Word
  pages : Word
  envs : Word
  nextfree : Word

def bootArrays (img : Image) (npages : ℕ) : Except String Boot := do
  let (kernPgdir, nextfree) ← bootAlloc npages pgsize (roundup img.endAddr)
  let (pages, nextfree) ← bootAlloc npages (BitVec.ofNat 32 npages * sizeofPageInfo) nextfree
  let (envs, nextfree) ← bootAlloc npages sizeofEnvs nextfree
  .ok ⟨kernPgdir, pages, envs, nextfree⟩

variable (M : Machine) (img : Image) (b : Boot)

/-- The arrays of the machine are where `boot_alloc` has put them. -/
structure Boot.Describes : Prop where
  kernPgdir : M.kernPgdir = pgnum (b.kernPgdir - kernbase)
  pagesFrame : M.pagesFrame = pgnum (b.pages - kernbase)

/-- The page directory with its own entry, the array of pages and the list of
the free ones. -/
def memInitPages (m : Mem n) : Except String (Mem n) := do
  let m := m.fill M.kernPgdir fun _ => 0#32
  let pa ← paddr b.kernPgdir
  let m := (m.store M.kernPgdir (pdx uvpt) (pa ||| pteU ||| pteP)).cleared
  let (next, _) ← bootAlloc M.npages 0 b.nextfree
  let limSupKernmem ← paddr next
  .ok (pageInit M (pgnum limSupKernmem) m)

/-! ### The static mappings -/

/-- The loop of `boot_map_region`, as often as `PGSIZE` fits into the size. When
`pgdir_walk` returns the null pointer the entry is written through it. -/
def bootMapLoop (pgdir : ℕ) (perm : Word) : ℕ → Word → Word → Mem n → Except String (Mem n)
  | 0, _, _, m => .ok m
  | k + 1, va, pa, m => do
      match ← pgdirWalk M pgdir va true m with
      | (none, _) => .error "Kernel-mode page fault!!\n"
      | (some (pt, i), m) =>
          bootMapLoop pgdir perm k (va + pgsize) (pa + pgsize) (m.store pt i (mkPte pa perm))

def bootMapRegion (pgdir : ℕ) (va size pa perm : Word) (m : Mem n) : Except String (Mem n) :=
  if va % pgsize ≠ 0 then .error "assertion failed: va % PGSIZE == 0"
  else if pa % pgsize ≠ 0 then .error "assertion failed: pa % PGSIZE == 0"
  else if size % pgsize ≠ 0 then .error "assertion failed: size % PGSIZE == 0"
  else bootMapLoop M pgdir perm (size / pgsize).toNat va pa m

/-- The loop of `mem_init_mp` from CPU `i` on, `k` turns. -/
def memInitMpLoop : ℕ → ℕ → Word → Mem n → Except String (Mem n)
  | 0, _, _, m => .ok m
  | k + 1, i, kernelstackVa, m => do
      let kstacktopPa ← paddr (img.percpuKstacks + BitVec.ofNat 32 i * kstksize)
      let m ← bootMapRegion M M.kernPgdir kernelstackVa kstksize kstacktopPa (pteW ||| pteP) m
      memInitMpLoop k (i + 1) (kernelstackVa - (kstksize + kstkgap)) m

def memInitMp (m : Mem n) : Except String (Mem n) :=
  memInitMpLoop M img ncpu 0 (kstacktop - kstksize) m

/-- The calls of `boot_map_region` in `mem_init`. -/
def memInitMaps (m : Mem n) : Except String (Mem n) := do
  let m ← bootMapRegion M M.kernPgdir upages (BitVec.ofNat 32 M.npages * sizeofPageInfo)
    (← paddr b.pages) (pteU ||| pteP) m
  let m ← bootMapRegion M M.kernPgdir uenvs sizeofEnvs (← paddr b.envs) (pteU ||| pteP) m
  let m ← bootMapRegion M M.kernPgdir (kstacktop - kstksize) kstksize (← paddr img.bootstack)
    (pteP ||| pteW) m
  let m ← bootMapRegion M M.kernPgdir kernbase (~~~0x0 - kernbase + 1) 0 (pteP ||| pteW) m
  memInitMp M img m

/-- What the directory translates an address to. -/
def translate (m : Mem n) (pgdir : ℕ) (va : Word) : Option Word :=
  let pde := m.word pgdir (pdx va)
  let pte := m.word (pteFrame pde) (ptx va)
  if Flag pde pteP ∧ Flag pte pteP then some (pteAddr pte + (va &&& 0xFFF#32)) else none

end Jos
