import Jos.Kern.Kdebug
import Jos.Kern.Printfmt

/-!
kern/kdebug.c: `debuginfo_eip`. An address below `ULIM` is looked up in the
stabs of the program, which it describes itself in four words at `USTABDATA`.
What is read of the stab table and of the string table is kept, and so are the
ranges that `user_mem_check` has accepted. A byte that is not mapped, where the
kernel would fault, reads as zero here.
-/

namespace Jos

open Jos.Lib

/-! ### Tables -/

def ustabdata : Word := 0x200000#32

def nFun : ℤ := 0x24
def nSline : ℤ := 0x44
def nSo : ℤ := 0x64
def nSol : ℤ := 0x84
def nPsym : ℤ := 0xa0

structure UserStabData where
  stabs : Word
  stabEnd : Word
  stabstr : Word
  stabstrEnd : Word

/-- `stab_end - stabs`: the compiler shifts the difference of the addresses and
multiplies by the inverse of three, which is right for a multiple of twelve. -/
def UserStabData.count (usd : UserStabData) : Word :=
  (usd.stabEnd - usd.stabs).sshiftRight 2 * 0xAAAAAAAB#32

def UserStabData.strings (usd : UserStabData) : Word := usd.stabstrEnd - usd.stabstr

section

variable (load : Word → Option (BitVec 8))

def read8 (p : Word) : BitVec 8 := (load p).getD 0

def read16 (p : Word) : BitVec 16 := read8 load (p + 1) ++ read8 load p

def read32 (p : Word) : Word := read16 load (p + 2) ++ read16 load p

def readStabData (p : Word) : UserStabData where
  stabs := read32 load p
  stabEnd := read32 load (p + 4)
  stabstr := read32 load (p + 8)
  stabstrEnd := read32 load (p + 12)

/-- `&stabs[i]`. -/
def stabAddr (base : Word) (i : ℤ) : Word := base + BitVec.ofInt 32 (12 * i)

def stabAt (base : Word) (i : ℤ) : Stab where
  nStrx := read32 load (stabAddr base i)
  nType := read8 load (stabAddr base i + 4)
  nDesc := read16 load (stabAddr base i + 6)
  nValue := read32 load (stabAddr base i + 8)

/-- Where a field lies in a `struct Stab`. -/
def StabField.offset : StabField → ℕ
  | .strx => 0
  | .type => 4
  | .desc => 6
  | .value => 8

def StabField.size : StabField → ℕ
  | .strx => 4
  | .type => 1
  | .desc => 2
  | .value => 4

/-- The addresses of the bytes of an access. -/
def accessBytes (base : Word) (a : Access) : List Word :=
  (List.range a.2.size).map fun b => stabAddr base a.1 + BitVec.ofNat 32 (a.2.offset + b)

/-- `strfind`, for so many characters at most: where it stops and what it reads. -/
def strfindLoop (c : BitVec 8) : ℕ → Word → Word × List Word
  | 0, s => (s, [])
  | k + 1, s =>
      if read8 load s = 0 ∨ read8 load s = c then (s, [s])
      else
        let found := strfindLoop c k (s + 1)
        (found.1, s :: found.2)

def strfind (s : Word) (c : BitVec 8) : Word × List Word := strfindLoop load c 4294967296 s

end

/-! ### The information -/

/-- A string of the kernel image, `<unknown>`, or one in the string table. -/
inductive Name where
  | unknown
  | stabstr (s : Word)

structure Eipdebuginfo where
  eipFile : Name
  eipLine : ℤ
  eipFnName : Name
  eipFnNamelen : Word
  eipFnAddr : Word
  eipFnNarg : ℕ

/-- `*info` when nothing has been found. -/
def unknownInfo (addr : Word) : Eipdebuginfo where
  eipFile := .unknown
  eipLine := 0
  eipFnName := .unknown
  eipFnNamelen := 9
  eipFnAddr := addr
  eipFnNarg := 0

/-- What `debuginfo_eip` returns, what it has read of the two tables, and the
ranges that it has checked. -/
structure Debuginfo where
  ret : Word
  info : Eipdebuginfo
  stabReads : List Access
  strReads : List Word
  checked : List (Word × Word)

section

variable (load : Word → Option (BitVec 8)) (usd : UserStabData) (stabs : ℤ → Stab)

/-- The name of an entry, if its index is inside the string table. -/
def nameOf (i : ℤ) : Name :=
  if (stabs i).nStrx < usd.strings then .stabstr (usd.stabstr + (stabs i).nStrx) else .unknown

/-- `strfind(name, ':') - name`. -/
def nameLength : Name → Word × List Word
  | .unknown => (9, [])
  | .stabstr s => ((strfind load s 0x3a).1 - s, (strfind load s 0x3a).2)

/-- What the search for the line starts from. -/
structure FoundFun where
  name : Name
  fnAddr : Word
  addr : Word
  lline : ℤ
  rline : ℤ
  reads : List Access

def foundFun (file fn : StabRegion) (addr : Word) : FoundFun :=
  if fn.left ≤ fn.right then
    { name := nameOf usd stabs fn.left
      fnAddr := (stabs fn.left).nValue
      addr := addr - (stabs fn.left).nValue
      lline := fn.left
      rline := fn.right
      reads := [(fn.left, .strx), (fn.left, .value)] }
  else
    { name := .unknown
      fnAddr := addr
      addr := addr
      lline := file.left
      rline := file.right
      reads := [] }

/-- The entry names a source file. -/
def IsFile (i : ℤ) : Prop :=
  HasType stabs nSol i ∨ HasType stabs nSo i ∧ (stabs i).nValue ≠ 0

instance : DecidablePred (IsFile stabs) := fun _ => instDecidableOr

/-- The entries looked at on the way back to the name of the file. -/
def fileReads (k : ℕ) (i : ℤ) : List Access :=
  (scanned (IsFile stabs) k i).flatMap fun j =>
    if HasType stabs nSo j then [(j, .type), (j, .value)] else [(j, .type)]

/-- The loop that counts the arguments, at most so many. -/
def countArgs : ℕ → ℤ → ℕ × List Access
  | 0, _ => (0, [])
  | k + 1, i =>
      if HasType stabs nPsym i then
        let rest := countArgs k (i + 1)
        (rest.1 + 1, (i, .type) :: rest.2)
      else (0, [(i, .type)])

/-- The entry with the name of the file that line entry `i` is from. -/
def fileEntry (file : StabRegion) (i : ℤ) : ℤ :=
  scanDown (IsFile stabs) (i - file.left + 1).toNat i

/-- What is read of the stab table, in the order of the source. -/
def lookupReads (file fn : StabRegion) (found : FoundFun) (line : StabRegion) : List Access :=
  file.reads ++ fn.reads ++ found.reads ++ line.reads ++
    (if line.left ≤ line.right then [(line.left, .desc)] else []) ++
    fileReads stabs (line.left - file.left + 1).toNat line.left ++
    (if file.left ≤ fileEntry stabs file line.left then
      [(fileEntry stabs file line.left, .strx)] else []) ++
    (countArgs stabs (fn.right - fn.left - 1).toNat (fn.left + 1)).2

/-- `debuginfo_eip` once it has found the source file. -/
def lookupFile (stabs : ℤ → Stab) (checked : List (Word × Word)) (addr : Word) (file : StabRegion) :
    Debuginfo :=
  let fn := stabBinsearch stabs nFun file.left file.right addr
  let found := foundFun usd stabs file fn addr
  let length := nameLength load found.name
  let line := stabBinsearch stabs nSline found.lline found.rline found.addr
  let lline := fileEntry stabs file line.left
  { ret := 0
    info :=
      { eipFile := if file.left ≤ lline then nameOf usd stabs lline else .unknown
        eipLine := if line.left ≤ line.right then (stabs line.left).nDesc.toNat else 0
        eipFnName := found.name
        eipFnNamelen := length.1
        eipFnAddr := found.fnAddr
        eipFnNarg := (countArgs stabs (fn.right - fn.left - 1).toNat (fn.left + 1)).1 }
    stabReads := lookupReads stabs file fn found line
    strReads := (usd.stabstrEnd - 1) :: length.2
    checked := checked }

/-- `debuginfo_eip` once it has the tables. -/
def lookupStabs (checked : List (Word × Word)) (addr : Word) : Debuginfo :=
  let stabs := stabAt load usd.stabs
  if usd.stabstrEnd ≤ usd.stabstr then ⟨-1, unknownInfo addr, [], [], checked⟩
  else if read8 load (usd.stabstrEnd - 1) ≠ 0 then
    ⟨-1, unknownInfo addr, [], [usd.stabstrEnd - 1], checked⟩
  else
    let file := stabBinsearch stabs nSo 0 (usd.count - 1).toInt addr
    if file.left = 0 then ⟨-1, unknownInfo addr, file.reads, [usd.stabstrEnd - 1], checked⟩
    else lookupFile load usd stabs checked addr file

end

/-- `debuginfo_eip`. The kernel's own stabs are where the linker has put them. -/
def debuginfoEip {n : ℕ} (M : Machine) (kernelStabs : UserStabData) (c : Fin n) (pgdir : ℕ)
    (addr : Word) (m : Mem n) : Except String Debuginfo :=
  if ulim ≤ addr then .ok (lookupStabs (loadByte c m) kernelStabs [] addr)
  else do
    match ← userMemCheck M pgdir ustabdata 16 0 m with
    | some _ => .ok ⟨-1, unknownInfo addr, [], [], []⟩
    | none =>
        let usd := readStabData (loadByte c m) ustabdata
        match ← userMemCheck M pgdir usd.stabs usd.count 0 m with
        | some _ => .ok ⟨-1, unknownInfo addr, [], [], [(ustabdata, 16)]⟩
        | none =>
            match ← userMemCheck M pgdir usd.stabstr usd.strings 0 m with
            | some _ =>
                .ok ⟨-1, unknownInfo addr, [], [], [(ustabdata, 16), (usd.stabs, usd.count)]⟩
            | none =>
                .ok (lookupStabs (loadByte c m) usd
                  [(ustabdata, 16), (usd.stabs, usd.count), (usd.stabstr, usd.strings)] addr)

/-! ### What a search reads -/

variable {stabs : ℤ → Stab} {type L R : ℤ} {s : Search} {addr : Word}

theorem mem_typeReads {k : ℕ} {i : ℤ} {a : Access} (h : a ∈ typeReads stabs type k i) :
    i - k < a.1 ∧ a.1 ≤ i := by
  obtain ⟨j, hj, rfl⟩ := List.mem_map.mp h
  have hmem := mem_scanned hj
  exact ⟨hmem.1, hmem.2.2⟩

/-- A round reads inside the region that is left. -/
theorem mem_searchStep_reads (hle : s.l ≤ s.r) {a : Access}
    (h : a ∈ (searchStep stabs type s).reads) :
    a ∈ s.reads ∨ s.l ≤ a.1 ∧ a.1 ≤ s.r := by
  obtain ⟨hlo, hhi⟩ := mid_bounds hle
  have hk : ((mid s.l s.r - s.l + 1).toNat : ℤ) = mid s.l s.r - s.l + 1 :=
    Int.toNat_of_nonneg (by omega)
  set m := scanDown (HasType stabs type) (mid s.l s.r - s.l + 1).toNat (mid s.l s.r) with hm
  have hscan (ha : a ∈ s.reads ++
      typeReads stabs type (mid s.l s.r - s.l + 1).toNat (mid s.l s.r)) :
      a ∈ s.reads ∨ s.l ≤ a.1 ∧ a.1 ≤ s.r := by
    rcases List.mem_append.mp ha with ha | ha
    · exact Or.inl ha
    · have hmem := mem_typeReads ha
      exact Or.inr ⟨by omega, by omega⟩
  simp only [searchStep, ← hm] at h
  split at h
  · exact hscan h
  · rename_i hml
    have hmr : m ≤ mid s.l s.r := scanDown_le
    have hvalue (ha : a ∈ s.reads ++
        typeReads stabs type (mid s.l s.r - s.l + 1).toNat (mid s.l s.r) ++
          [(m, StabField.value)]) : a ∈ s.reads ∨ s.l ≤ a.1 ∧ a.1 ≤ s.r := by
      rcases List.mem_append.mp ha with ha | ha
      · exact hscan ha
      · obtain rfl := List.mem_singleton.mp ha
        exact Or.inr ⟨not_lt.mp hml, hmr.trans hhi⟩
    split at h
    · exact hvalue h
    · split at h
      · exact hvalue h
      · exact hvalue h

/-- A search of `[L, R]` has stayed inside. If entry `L` is of the type, the
right end can come to lie before it. -/
structure Within (stabs : ℤ → Stab) (type L R : ℤ) (s : Search) : Prop where
  lo : L ≤ s.l
  hi : s.r ≤ R
  left : L ≤ s.regionLeft
  right : s.regionRight = s.r
  before : L ≤ s.r ∨ HasType stabs type L ∧ s.r = L - 1
  any : s.anyMatches = false → s.regionLeft = L
  reads : ∀ a ∈ s.reads, L ≤ a.1 ∧ a.1 ≤ R

theorem Within.step (h : Within stabs type L R s) (hle : s.l ≤ s.r) :
    Within stabs type L R (searchStep stabs type s) := by
  obtain ⟨hlo, hhi⟩ := mid_bounds hle
  have hl := h.lo
  have hr := h.hi
  have hreads : ∀ a ∈ (searchStep stabs type s).reads, L ≤ a.1 ∧ a.1 ≤ R := fun a ha => by
    rcases mem_searchStep_reads hle ha with ha | ha
    · exact h.reads a ha
    · exact ⟨by omega, by omega⟩
  rcases @searchStep_cases stabs type s hle with
    ⟨-, -, reads, hstep⟩ | ⟨m, reads, hm, ⟨-, hstep⟩ | ⟨-, hstep⟩ | ⟨-, hstep⟩⟩
  · rw [hstep] at hreads ⊢
    exact ⟨(by omega : L ≤ mid s.l s.r + 1), hr, h.left, h.right, h.before, h.any, hreads⟩
  · have hml := hm.lo
    rw [hstep] at hreads ⊢
    exact ⟨(by omega : L ≤ mid s.l s.r + 1), hr, (by omega : L ≤ m), h.right, h.before, nofun,
      hreads⟩
  · have hml := hm.lo
    have hmr := hm.hi
    rw [hstep] at hreads ⊢
    refine ⟨hl, (by omega : m - 1 ≤ R), h.left, rfl, ?_, nofun, hreads⟩
    rcases eq_or_lt_of_le (hl.trans hml) with heq | hlt
    · exact Or.inr ⟨heq ▸ hm.holds, (by omega : m - 1 = L - 1)⟩
    · exact Or.inl (by omega : L ≤ m - 1)
  · have hml := hm.lo
    rw [hstep] at hreads ⊢
    exact ⟨(by omega : L ≤ m), hr, (by omega : L ≤ m), h.right, h.before, nofun, hreads⟩

theorem Within.loop {k : ℕ} (h : Within stabs type L R s) :
    Within stabs type L R (searchLoop stabs type k s) := by
  induction k generalizing s with
  | zero => exact h
  | succ k ih =>
      unfold searchLoop
      split
      · exact ih (h.step (by assumption))
      · exact h

/-- What a search of `[L, R]` leaves. -/
structure Confined (stabs : ℤ → Stab) (type L R : ℤ) (region : StabRegion) : Prop where
  reads : ∀ a ∈ region.reads, L ≤ a.1 ∧ a.1 ≤ R
  lo : L ≤ region.left ∨ HasType stabs type L ∧ region.left = L - 1
  hi : region.left ≤ R
  right : region.right ≤ R
  found : region.left ≤ region.right ∨ region.left = L ∧ region.right = L - 1

theorem stabBinsearch_confined (h : L ≤ R) :
    Confined stabs type L R (stabBinsearch stabs type L R addr) := by
  have hstart : Within stabs type L R (searchStart L R addr) :=
    ⟨le_rfl, le_rfl, le_rfl, rfl, Or.inl h, fun _ => rfl, nofun⟩
  have hend := hstart.loop (k := searchRounds L R)
  unfold stabBinsearch
  set s := searchLoop stabs type (searchRounds L R) (searchStart L R addr)
  have hleft := hend.left
  have hright := hend.right
  have hr := hend.hi
  unfold searchEnd
  split
  · set k := (s.regionRight - s.regionLeft).toNat with hk
    have hle : scanDown (HasType stabs type) k s.regionRight ≤ s.regionRight := scanDown_le
    have hge : s.regionRight - k ≤ scanDown (HasType stabs type) k s.regionRight := le_scanDown
    refine ⟨fun a ha => ?_, ?_, hle.trans (by omega), (by omega : s.regionRight ≤ R), Or.inl hle⟩
    · rcases List.mem_append.mp ha with ha | ha
      · exact hend.reads a ha
      · have hmem := mem_typeReads ha
        exact ⟨by omega, by omega⟩
    · rcases hend.before with hbefore | ⟨htype, hbefore⟩
      · exact Or.inl (by omega : L ≤ scanDown (HasType stabs type) k s.regionRight)
      · exact Or.inr ⟨htype, (by omega : scanDown (HasType stabs type) k s.regionRight = L - 1)⟩
  · rename_i hany
    have heq : s.regionLeft = L := hend.any (by simpa using hany)
    exact ⟨hend.reads, Or.inl hleft, (by omega : s.regionLeft ≤ R),
      (by omega : s.regionLeft - 1 ≤ R), Or.inr ⟨heq, (by omega : s.regionLeft - 1 = L - 1)⟩⟩

theorem searchStep_reads_subset : s.reads ⊆ (searchStep stabs type s).reads := by
  intro a ha
  unfold searchStep
  simp only
  split
  · exact List.mem_append_left _ ha
  · split
    · exact List.mem_append_left _ (List.mem_append_left _ ha)
    · split
      · exact List.mem_append_left _ (List.mem_append_left _ ha)
      · exact List.mem_append_left _ (List.mem_append_left _ ha)

theorem searchLoop_reads_subset {k : ℕ} : s.reads ⊆ (searchLoop stabs type k s).reads := by
  induction k generalizing s with
  | zero => exact List.Subset.refl _
  | succ k ih =>
      unfold searchLoop
      split
      · exact List.Subset.trans searchStep_reads_subset ih
      · exact List.Subset.refl _

theorem searchEnd_reads_subset : s.reads ⊆ (searchEnd stabs type s).reads := by
  unfold searchEnd
  split
  · exact List.subset_append_left _ _
  · exact List.Subset.refl _

/-- The first entry that is looked at is the one in the middle. -/
theorem mid_mem_reads (h : L ≤ R) :
    (mid L R, StabField.type) ∈ (stabBinsearch stabs type L R addr).reads := by
  obtain ⟨hlo, hhi⟩ := mid_bounds h
  have hstep : (mid L R, StabField.type) ∈
      (searchStep stabs type (searchStart L R addr)).reads := by
    obtain ⟨k, hk⟩ : ∃ k, (mid L R - L + 1).toNat = k + 1 :=
      ⟨(mid L R - L).toNat, by omega⟩
    have hmem : (mid L R, StabField.type) ∈ [] ++
        typeReads stabs type (mid L R - L + 1).toNat (mid L R) := by
      rw [hk]
      exact List.mem_map.mpr ⟨mid L R, List.mem_cons_self, rfl⟩
    unfold searchStep searchStart
    simp only
    split
    · exact hmem
    · split
      · exact List.mem_append_left _ hmem
      · split
        · exact List.mem_append_left _ hmem
        · exact List.mem_append_left _ hmem
  obtain ⟨k, hk⟩ : ∃ k, searchRounds L R = k + 1 :=
    ⟨(2 * (R - L + 1)).toNat, by unfold searchRounds; omega⟩
  have hloop : searchLoop stabs type (k + 1) (searchStart L R addr) =
      searchLoop stabs type k (searchStep stabs type (searchStart L R addr)) := if_pos h
  unfold stabBinsearch
  rw [hk, hloop]
  exact searchEnd_reads_subset (searchLoop_reads_subset hstep)

/-! ### The search for the file -/

/-- The search for a source file finds the first entry above the address every
time until it comes to entry 0. Its result then is entry -1. -/
def ComesDown (stabs : ℤ → Stab) (R : ℤ) (addr : Word) : Prop :=
  descends (HasType stabs nSo) (valueAt stabs) addr.toNat 0 (R + 1).toNat R

instance {addr : Word} : Decidable (ComesDown stabs R addr) :=
  inferInstanceAs (Decidable (descends _ _ _ _ _ _))

/-- The search for a source file, from entry 0 on, when it does not come down to
this entry. The address grows by one at an entry at most, so that it does not
wrap around close to entry 0. -/
structure FileSearch (stabs : ℤ → Stab) (addr : Word) (s : Search) : Prop where
  lo : 0 ≤ s.l
  left_le : s.regionLeft ≤ s.l
  left : s.regionLeft = 0 ∨ 0 < s.regionLeft ∧ HasType stabs nSo s.regionLeft
  right : s.regionRight = s.r
  order : s.regionLeft ≤ s.r ∨ 2 ≤ s.r
  addr : 3 ≤ s.l ∨
    (s.l = 0 ∧ s.addr = addr ∧ ∃ k : ℕ, s.r < k ∧
      ¬ descends (HasType stabs nSo) (valueAt stabs) addr.toNat 0 k s.r) ∨
    (valueAt stabs s.l < s.addr.toNat ∧ (s.addr.toNat : ℤ) ≤ addr.toNat + s.l + 1) ∨
    (s.regionLeft < s.l ∧ (s.addr.toNat : ℤ) ≤ addr.toNat + s.l)

theorem FileSearch.addr_le (h : FileSearch stabs addr s) :
    3 ≤ s.l ∨ (s.addr.toNat : ℤ) ≤ addr.toNat + s.l + 1 := by
  have hlo := h.lo
  rcases h.addr with hfar | ⟨-, heq, -⟩ | ⟨-, hle⟩ | ⟨-, hle⟩
  · exact Or.inl hfar
  · rw [heq]
    omega
  · exact Or.inr hle
  · exact Or.inr (by omega)

/-- The left end moves past the midpoint. -/
theorem FileSearch.past (h : FileSearch stabs addr s) {l' left' : ℤ} (hl : s.l < l')
    (hleft : left' = s.regionLeft ∨ s.l ≤ left' ∧ HasType stabs nSo left')
    (hlt : left' < l') (hr : left' ≤ s.r ∨ 2 ≤ s.r) {any : Bool} {reads : List Access} :
    FileSearch stabs addr { s with
      regionLeft := left', l := l', anyMatches := any, reads := reads } := by
  have hlo := h.lo
  refine ⟨(by omega : 0 ≤ l'), hlt.le, ?_, h.right, hr, ?_⟩
  · rcases hleft with rfl | ⟨hle, htype⟩
    · exact h.left
    · rcases eq_or_lt_of_le (hlo.trans hle) with heq | hpos
      · exact Or.inl heq.symm
      · exact Or.inr ⟨hpos, htype⟩
  · rcases h.addr_le with hfar | hle
    · exact Or.inl (by omega : 3 ≤ l')
    · exact Or.inr (Or.inr (Or.inr ⟨hlt, (by omega : (s.addr.toNat : ℤ) ≤ addr.toNat + l')⟩))

theorem FileSearch.step (haddr : addr < ulim) (h : FileSearch stabs addr s) (hle : s.l ≤ s.r) :
    FileSearch stabs addr (searchStep stabs nSo s) := by
  obtain ⟨hlo, hhi⟩ := mid_bounds hle
  have hl := h.lo
  have hleft := h.left_le
  have haddr' : addr.toNat < 4018143232 := haddr
  rcases @searchStep_cases stabs nSo s hle with
    ⟨-, -, reads, hstep⟩ | ⟨m, reads, hm, ⟨-, hstep⟩ | ⟨habove, hstep⟩ | ⟨heq, hstep⟩⟩
  · rw [hstep]
    exact h.past (by omega) (Or.inl rfl) (by omega) h.order
  · have hml := hm.lo
    have hmr := hm.hi
    rw [hstep]
    exact h.past (by omega) (Or.inr ⟨hml, hm.holds⟩) (by omega) (Or.inl (by omega))
  · have hml := hm.lo
    have hmr := hm.hi
    have hkey : s.addr.toNat < valueAt stabs m := habove
    rw [hstep]
    rcases h.addr with hfar | ⟨hstart, heq, k, hk, hdown⟩ | ⟨hlow, hbound⟩ | ⟨hlt, hbound⟩
    · exact ⟨hl, hleft, h.left, rfl, Or.inr (by omega : 2 ≤ m - 1), Or.inl hfar⟩
    · -- the entry is not the first, and the search does not come down from before it
      cases k with
      | zero => omega
      | succ k =>
          have hprobe : probe (HasType stabs nSo) 0 s.r = m := hstart ▸ hm.probe
          rw [heq] at hkey
          have hrest : ¬ (m = 0 ∨
              descends (HasType stabs nSo) (valueAt stabs) addr.toNat 0 k (m - 1)) := by
            intro hrest
            refine hdown ⟨by omega, ?_, ?_, ?_⟩
            · rw [hprobe]
              omega
            · rw [hprobe]
              exact hkey
            · rw [hprobe]
              exact hrest
          rw [not_or] at hrest
          have hm0 := hrest.1
          refine ⟨hl, hleft, h.left, rfl, Or.inl (by omega : s.regionLeft ≤ m - 1),
            Or.inr (Or.inl ⟨hstart, heq, k, (by omega : m - 1 < k), hrest.2⟩)⟩
    · have hne : s.l ≠ m := by
        rintro heq
        rw [heq] at hlow
        omega
      exact ⟨hl, hleft, h.left, rfl, Or.inl (by omega : s.regionLeft ≤ m - 1),
        Or.inr (Or.inr (Or.inl ⟨hlow, hbound⟩))⟩
    · exact ⟨hl, hleft, h.left, rfl, Or.inl (by omega : s.regionLeft ≤ m - 1),
        Or.inr (Or.inr (Or.inr ⟨hlt, hbound⟩))⟩
  · have hml := hm.lo
    have hmr := hm.hi
    have hkey : valueAt stabs m = s.addr.toNat := congrArg BitVec.toNat heq
    have hbound : 3 ≤ m ∨ (s.addr.toNat : ℤ) ≤ addr.toNat + m := by
      rcases h.addr with hfar | ⟨-, heq, -⟩ | ⟨hlow, hbound⟩ | ⟨-, hbound⟩
      · exact Or.inl (hfar.trans hml)
      · rw [heq]
        omega
      · -- the entry of the last exact match is not met again
        have hne : s.l ≠ m := by
          rintro heq
          rw [heq] at hlow
          omega
        exact Or.inr (by omega)
      · exact Or.inr (by omega)
    rw [hstep]
    refine ⟨(by omega : 0 ≤ m), le_rfl, ?_, h.right, Or.inl (by omega : m ≤ s.r), ?_⟩
    · rcases eq_or_lt_of_le (hl.trans hml) with heq | hpos
      · exact Or.inl heq.symm
      · exact Or.inr ⟨hpos, hm.holds⟩
    · by_cases hfar : 3 ≤ m
      · exact Or.inl hfar
      · have hnext : (s.addr + 1).toNat = s.addr.toNat + 1 := by
          rw [BitVec.toNat_add]
          change (s.addr.toNat + 1) % 4294967296 = _
          omega
        refine Or.inr (Or.inr (Or.inl ⟨?_, ?_⟩))
        · change valueAt stabs m < (s.addr + 1).toNat
          omega
        · change ((s.addr + 1).toNat : ℤ) ≤ addr.toNat + m + 1
          omega

theorem FileSearch.loop (haddr : addr < ulim) {k : ℕ} (h : FileSearch stabs addr s) :
    FileSearch stabs addr (searchLoop stabs nSo k s) := by
  induction k generalizing s with
  | zero => exact h
  | succ k ih =>
      unfold searchLoop
      split
      · exact ih (h.step haddr (by assumption))
      · exact h

/-- The entry that is found is not one before the table, and it is no function
unless it lies further on. -/
theorem file_left (haddr : addr < ulim) (hR : 0 ≤ R) (hdown : ¬ ComesDown stabs R addr) :
    let file := stabBinsearch stabs nSo 0 R addr
    file.left = 0 ∨ 0 < file.left ∧ HasType stabs nSo file.left ∨ 2 ≤ file.left := by
  have hstart : FileSearch stabs addr (searchStart 0 R addr) :=
    ⟨le_rfl, le_rfl, Or.inl rfl, rfl, Or.inl hR,
      Or.inr (Or.inl ⟨rfl, rfl, (R + 1).toNat, (by omega : R < (R + 1).toNat), hdown⟩)⟩
  have hend := hstart.loop haddr (k := searchRounds 0 R)
  unfold stabBinsearch
  set s := searchLoop stabs nSo (searchRounds 0 R) (searchStart 0 R addr)
  have hright := hend.right
  intro file
  by_cases hany : s.anyMatches
  · have hfile : file.left = scanDown (HasType stabs nSo)
        (s.regionRight - s.regionLeft).toNat s.regionRight := by
      change (searchEnd stabs nSo s).left = _
      unfold searchEnd
      rw [if_pos hany]
    set k := (s.regionRight - s.regionLeft).toNat with hk
    have hge : s.regionRight - k ≤ scanDown (HasType stabs nSo) k s.regionRight := le_scanDown
    have hle : scanDown (HasType stabs nSo) k s.regionRight ≤ s.regionRight := scanDown_le
    rw [hfile]
    rcases lt_or_ge s.regionRight s.regionLeft with hlt | hgt
    · rcases hend.order with horder | horder
      · omega
      · exact Or.inr (Or.inr (by omega))
    · rcases eq_or_lt_of_le hge with heq | hlt
      · rw [← heq]
        have hkz : s.regionRight - k = s.regionLeft := by omega
        rw [hkz]
        exact hend.left.imp_right Or.inl
      · have htype := scanDown_of_lt hlt
        have hpos : 0 ≤ s.regionLeft := by
          rcases hend.left with h0 | ⟨h0, -⟩ <;> omega
        exact Or.inr (Or.inl ⟨by omega, htype⟩)
  · have hfile : file.left = s.regionLeft := by
      change (searchEnd stabs nSo s).left = _
      unfold searchEnd
      rw [if_neg hany]
    rw [hfile]
    exact hend.left.imp_right Or.inl

theorem comesDown_loop {k K : ℕ} (hl : s.l = 0) (hleft : s.regionLeft = 0)
    (haddr : s.addr = addr)
    (hdown : descends (HasType stabs nSo) (valueAt stabs) addr.toNat 0 K s.r)
    (hover : (searchLoop stabs nSo k s).r < (searchLoop stabs nSo k s).l) :
    (searchEnd stabs nSo (searchLoop stabs nSo k s)).left = -1 ∧
      (searchEnd stabs nSo (searchLoop stabs nSo k s)).right = -1 := by
  induction k generalizing s K with
  | zero =>
      cases K with
      | zero => exact hdown.elim
      | succ K =>
          have hr : 0 ≤ s.r := hdown.1
          have hlt : s.r < s.l := hover
          omega
  | succ k ih =>
      cases K with
      | zero => exact hdown.elim
      | succ K =>
          obtain ⟨hr, hpos, habove, hrest⟩ := hdown
          have hle : s.l ≤ s.r := hl.le.trans hr
          have hloop : searchLoop stabs nSo (k + 1) s =
              searchLoop stabs nSo k (searchStep stabs nSo s) := if_pos hle
          rw [hloop] at hover ⊢
          rw [← hl] at hpos habove hrest
          rcases @searchStep_cases stabs nSo s hle with ⟨-, hlt, -⟩ | ⟨m, reads, hm, hcases⟩
          · exact absurd hpos (not_le.mpr hlt)
          · rw [hm.probe, ← haddr] at habove
            rw [hm.probe] at hrest
            rcases hcases with ⟨hbelow, -⟩ | ⟨-, hstep⟩ | ⟨heq, -⟩
            · exact absurd habove (lt_asymm hbelow)
            · rw [hstep] at hover ⊢
              rcases hrest with hzero | hrest
              · -- the end of the loop, at entry 0
                have hm0 : m = 0 := hzero.trans hl
                subst hm0
                have hdone : (0 : ℤ) - 1 < s.l := by omega
                rw [searchLoop_done hdone]
                unfold searchEnd
                rw [if_pos rfl, hleft]
                exact ⟨rfl, rfl⟩
              · rw [hl] at hrest
                exact ih hl hleft haddr hrest hover
            · rw [← heq] at habove
              exact absurd habove (lt_irrefl _)

theorem file_before (hdown : ComesDown stabs R addr) :
    let file := stabBinsearch stabs nSo 0 R addr
    file.left = -1 ∧ file.right = -1 :=
  comesDown_loop rfl rfl rfl hdown (stabBinsearch_over 0 R addr)

/-! ### What the lookup reads -/

theorem mem_fileReads {k : ℕ} {i : ℤ} {a : Access} (h : a ∈ fileReads stabs k i) :
    i - k < a.1 ∧ a.1 ≤ i := by
  obtain ⟨j, hj, ha⟩ := List.mem_flatMap.mp h
  have hmem := mem_scanned hj
  split at ha
  · rcases List.mem_cons.mp ha with rfl | ha
    · exact ⟨hmem.1, hmem.2.2⟩
    · obtain rfl := List.mem_singleton.mp ha
      exact ⟨hmem.1, hmem.2.2⟩
  · obtain rfl := List.mem_singleton.mp ha
    exact ⟨hmem.1, hmem.2.2⟩

theorem mem_countArgs {k : ℕ} {i : ℤ} {a : Access} (h : a ∈ (countArgs stabs k i).2) :
    i ≤ a.1 ∧ a.1 < i + k := by
  induction k generalizing i with
  | zero => cases h
  | succ k ih =>
      unfold countArgs at h
      split at h
      · rcases List.mem_cons.mp h with rfl | h
        · exact ⟨le_rfl, by push_cast; omega⟩
        · have hmem := ih h
          push_cast
          omega
      · obtain rfl := List.mem_singleton.mp h
        exact ⟨le_rfl, by push_cast; omega⟩

section

variable {load : Word → Option (BitVec 8)} {usd : UserStabData} {checked : List (Word × Word)}

/-- The last index of the table, as `debuginfo_eip` computes it. -/
def UserStabData.last (usd : UserStabData) : ℤ := (usd.count - 1).toInt

/-- The string table is not empty and ends in a NUL. -/
structure StringsOk (load : Word → Option (BitVec 8)) (usd : UserStabData) : Prop where
  order : usd.stabstr < usd.stabstrEnd
  nul : read8 load (usd.stabstrEnd - 1) = 0

theorem lookupStabs_of_not (h : ¬ StringsOk load usd) :
    (lookupStabs load usd checked addr).stabReads = [] ∧
      ∀ a ∈ (lookupStabs load usd checked addr).strReads,
        usd.stabstr < usd.stabstrEnd ∧ a = usd.stabstrEnd - 1 := by
  unfold lookupStabs
  simp only
  split
  · exact ⟨rfl, nofun⟩
  · rename_i horder
    have hlt : usd.stabstr < usd.stabstrEnd := BitVec.not_le.mp horder
    split
    · exact ⟨rfl, fun a ha => ⟨hlt, List.mem_singleton.mp ha⟩⟩
    · rename_i hnul
      exact absurd ⟨hlt, not_not.mp hnul⟩ h

/-- The search for the line starts inside the table, past entry 0. -/
structure LineRegion (R : ℤ) (found : FoundFun) : Prop where
  lo : 0 < found.lline
  le : found.lline ≤ found.rline
  hi : found.rline ≤ R
  reads : ∀ a ∈ found.reads, 0 ≤ a.1 ∧ a.1 ≤ R

theorem foundFun_region {file fn : StabRegion} (hfile : Confined stabs nSo 0 R file)
    (hpos : 0 < file.left) (hfn : Confined stabs nFun file.left file.right fn)
    (hleft : 0 < fn.left) : LineRegion R (foundFun usd stabs file fn addr) := by
  have hR := hfile.right
  have hfnR := hfn.right
  unfold foundFun
  split
  · rename_i hle
    refine ⟨hleft, hle, hfnR.trans hR, fun a ha => ?_⟩
    rcases List.mem_cons.mp ha with rfl | ha
    · exact ⟨hleft.le, (by omega : fn.left ≤ R)⟩
    · obtain rfl := List.mem_singleton.mp ha
      exact ⟨hleft.le, (by omega : fn.left ≤ R)⟩
  · refine ⟨hpos, ?_, hR, nofun⟩
    rcases hfile.found with hle | ⟨h0, -⟩
    · exact hle
    · omega

/-- What is read when nothing is found. Without the lemma the kernel would run
the search to compare the two sides. -/
theorem stabReads_mk {ret : Word} {info : Eipdebuginfo} {stabReads : List Access}
    {strReads : List Word} :
    (⟨ret, info, stabReads, strReads, checked⟩ : Debuginfo).stabReads = stabReads :=
  rfl

/-- The entry of the source file. -/
def fileRegion (load : Word → Option (BitVec 8)) (usd : UserStabData) (addr : Word) : StabRegion :=
  stabBinsearch (stabAt load usd.stabs) nSo 0 usd.last addr

theorem lookupStabs_none (hstr : StringsOk load usd) (h : (fileRegion load usd addr).left = 0) :
    lookupStabs load usd checked addr = ⟨-1, unknownInfo addr, (fileRegion load usd addr).reads,
      [usd.stabstrEnd - 1], checked⟩ := by
  unfold lookupStabs
  exact (if_neg (BitVec.not_le.mpr hstr.order)).trans
    ((if_neg (not_not.mpr hstr.nul)).trans (if_pos h))

theorem lookupStabs_some (hstr : StringsOk load usd) (h : (fileRegion load usd addr).left ≠ 0) :
    lookupStabs load usd checked addr =
      lookupFile load usd (stabAt load usd.stabs) checked addr (fileRegion load usd addr) := by
  unfold lookupStabs
  exact (if_neg (BitVec.not_le.mpr hstr.order)).trans
    ((if_neg (not_not.mpr hstr.nul)).trans (if_neg h))

theorem mem_lookupReads {file fn line : StabRegion} {found : FoundFun}
    (hfile : Confined stabs nSo 0 R file) (hfn : Confined stabs nFun file.left file.right fn)
    (hfnpos : 0 < fn.left) (hregion : LineRegion R found)
    (hline : Confined stabs nSline found.lline found.rline line) (hpos : 0 < file.left)
    {a : Access} (ha : a ∈ lookupReads stabs file fn found line) : 0 ≤ a.1 ∧ a.1 ≤ R := by
  have hfileR := hfile.right
  have hfnR := hfn.right
  have hlo := hregion.lo
  have hhi := hregion.hi
  have hlinelo : 0 ≤ line.left := by
    rcases hline.lo with hle | ⟨-, heq⟩ <;> omega
  have hlinehi := hline.hi
  have hscan : fileEntry stabs file line.left ≤ line.left := scanDown_le
  unfold lookupReads at ha
  simp only [List.mem_append] at ha
  rcases ha with ((((((ha | ha) | ha) | ha) | ha) | ha) | ha) | ha
  · exact hfile.reads a ha
  · have hmem := hfn.reads a ha
    exact ⟨by omega, by omega⟩
  · exact hregion.reads a ha
  · have hmem := hline.reads a ha
    exact ⟨by omega, by omega⟩
  · split at ha
    · obtain rfl := List.mem_singleton.mp ha
      exact ⟨hlinelo, by omega⟩
    · cases ha
  · have hmem := mem_fileReads ha
    exact ⟨by omega, by omega⟩
  · split at ha
    · obtain rfl := List.mem_singleton.mp ha
      exact ⟨by omega, by omega⟩
    · cases ha
  · have hmem := mem_countArgs ha
    exact ⟨by omega, by omega⟩

theorem lookupFile_index {file : StabRegion} (hfile : Confined stabs nSo 0 R file)
    (hpos : 0 < file.left) (hkind : HasType stabs nSo file.left ∨ 2 ≤ file.left) :
    ∀ a ∈ (lookupFile load usd stabs checked addr file).stabReads, 0 ≤ a.1 ∧ a.1 ≤ R := by
  have hfound : file.left ≤ file.right := by
    rcases hfile.found with hle | ⟨h0, -⟩
    · exact hle
    · omega
  have hfn : Confined stabs nFun file.left file.right
      (stabBinsearch stabs nFun file.left file.right addr) := stabBinsearch_confined hfound
  have hfnpos : 0 < (stabBinsearch stabs nFun file.left file.right addr).left := by
    rcases hfn.lo with hlo | ⟨htype, hlo⟩
    · omega
    · rcases hkind with hso | htwo
      · exact absurd (htype.symm.trans hso) (by decide)
      · omega
  have hregion : LineRegion R (foundFun usd stabs file
      (stabBinsearch stabs nFun file.left file.right addr) addr) :=
    foundFun_region hfile hpos hfn hfnpos
  intro a ha
  exact mem_lookupReads hfile hfn hfnpos hregion (stabBinsearch_confined hregion.le) hpos ha

/-- The entries that are read lie in the table, unless the search for the file
comes down to before it. -/
theorem lookupStabs_index (haddr : addr < ulim) (hstr : StringsOk load usd)
    (hlast : 0 ≤ usd.last) (hdown : ¬ ComesDown (stabAt load usd.stabs) usd.last addr) :
    ∀ a ∈ (lookupStabs load usd checked addr).stabReads, 0 ≤ a.1 ∧ a.1 ≤ usd.last := by
  have hfile : Confined (stabAt load usd.stabs) nSo 0 usd.last (fileRegion load usd addr) :=
    stabBinsearch_confined hlast
  have hleft := file_left haddr hlast hdown
  by_cases h0 : (fileRegion load usd addr).left = 0
  · rw [lookupStabs_none hstr h0, stabReads_mk]
    exact hfile.reads
  · rw [lookupStabs_some hstr h0]
    rcases hleft with hzero | ⟨hpos, hso⟩ | htwo
    · exact absurd hzero h0
    · exact lookupFile_index hfile hpos (Or.inl hso)
    · have hpos : 0 < (fileRegion load usd addr).left := lt_of_lt_of_le two_pos htwo
      exact lookupFile_index hfile hpos (Or.inr htwo)

/-- An empty table is not read. -/
theorem lookupStabs_empty (hstr : StringsOk load usd) (hlast : usd.last < 0) :
    (lookupStabs load usd checked addr).stabReads = [] := by
  have hstart : (searchStart 0 usd.last addr).r < (searchStart 0 usd.last addr).l := hlast
  have hregion : fileRegion load usd addr = ⟨0, -1, []⟩ := by
    unfold fileRegion stabBinsearch
    rw [searchLoop_done hstart]
    rfl
  have hreads : (fileRegion load usd addr).reads = [] := by rw [hregion]
  rw [lookupStabs_none hstr (by rw [hregion]), stabReads_mk, hreads]

theorem lookupStabs_checked : (lookupStabs load usd checked addr).checked = checked := by
  unfold lookupStabs
  simp only
  split
  · rfl
  · split
    · rfl
    · split
      · rfl
      · rfl

theorem file_reads_subset (hstr : StringsOk load usd) :
    (fileRegion load usd addr).reads ⊆ (lookupStabs load usd checked addr).stabReads := by
  by_cases h0 : (fileRegion load usd addr).left = 0
  · rw [lookupStabs_none hstr h0, stabReads_mk]
    exact List.Subset.refl _
  · rw [lookupStabs_some hstr h0]
    intro a ha
    simp only [lookupFile, lookupReads, List.append_assoc]
    exact List.mem_append_left _ ha

theorem probe_mem_reads (hstr : StringsOk load usd) (hlast : 0 ≤ usd.last) :
    (mid 0 usd.last, StabField.type) ∈ (lookupStabs load usd checked addr).stabReads :=
  file_reads_subset hstr (mid_mem_reads hlast)

/-- When the search for the file comes down to before the table, the next search
looks at the entry there. -/
theorem before_mem_reads (hstr : StringsOk load usd)
    (hdown : ComesDown (stabAt load usd.stabs) usd.last addr) :
    (-1, StabField.type) ∈ (lookupStabs load usd checked addr).stabReads := by
  obtain ⟨hleft, hright⟩ := file_before hdown
  have hleft' : (fileRegion load usd addr).left = -1 := hleft
  have hright' : (fileRegion load usd addr).right = -1 := hright
  have h0 : (fileRegion load usd addr).left ≠ 0 := by
    rw [hleft']
    decide
  have hmem : (mid (-1) (-1), StabField.type) ∈
      (stabBinsearch (stabAt load usd.stabs) nFun (-1) (-1) addr).reads := mid_mem_reads le_rfl
  rw [lookupStabs_some hstr h0]
  simp only [lookupFile, lookupReads, List.append_assoc, hleft', hright']
  exact List.mem_append_right _ (List.mem_append_left _ hmem)

/-! ### Strings -/

theorem mem_strfindLoop {c : BitVec 8} {k j : ℕ} {s a : Word} (hj : j < k)
    (hnul : read8 load (s + BitVec.ofNat 32 j) = 0) (h : a ∈ (strfindLoop load c k s).2) :
    ∃ i ≤ j, a = s + BitVec.ofNat 32 i := by
  induction k generalizing s j with
  | zero => omega
  | succ k ih =>
      have hfirst : s = s + BitVec.ofNat 32 0 := by simp
      unfold strfindLoop at h
      split at h
      · exact ⟨0, Nat.zero_le _, (List.mem_singleton.mp h).trans hfirst⟩
      · rename_i hgo
        cases j with
        | zero => exact absurd (Or.inl (hfirst ▸ hnul)) hgo
        | succ j =>
            rw [ofNat_succ] at hnul
            rcases List.mem_cons.mp h with heq | h
            · exact ⟨0, Nat.zero_le _, heq.trans hfirst⟩
            · obtain ⟨i, hi, ha⟩ := ih (by omega) hnul h
              exact ⟨i + 1, by omega, by rw [ofNat_succ, ha]⟩

theorem UserStabData.size (usd : UserStabData) (h : usd.stabstr < usd.stabstrEnd) :
    usd.stabstr.toNat + usd.strings.toNat = usd.stabstrEnd.toNat := by
  have horder : usd.stabstr.toNat < usd.stabstrEnd.toNat := h
  have hsub : usd.strings.toNat = usd.stabstrEnd.toNat - usd.stabstr.toNat :=
    BitVec.toNat_sub_of_le horder.le
  omega

theorem mem_nameLength (hstr : StringsOk load usd) {name : Name}
    (hname : ∀ s, name = .stabstr s → ∃ x < usd.strings, s = usd.stabstr + x) {a : Word}
    (h : a ∈ (nameLength load name).2) : usd.stabstr ≤ a ∧ a < usd.stabstrEnd := by
  cases name with
  | unknown => cases h
  | stabstr s =>
      obtain ⟨x, hx, rfl⟩ := hname s rfl
      have hsize := usd.size hstr.order
      have hx' : x.toNat < usd.strings.toNat := hx
      have hlt := usd.stabstrEnd.isLt
      have hnul : read8 load
          (usd.stabstr + x + BitVec.ofNat 32 (usd.strings.toNat - 1 - x.toNat)) = 0 := by
        rw [← hstr.nul]
        congr 1
        apply BitVec.eq_of_toNat_eq
        rw [toNat_pred (by omega), BitVec.toNat_add, BitVec.toNat_add, BitVec.toNat_ofNat]
        omega
      obtain ⟨i, hi, rfl⟩ := mem_strfindLoop (by omega) hnul h
      have ha : (usd.stabstr + x + BitVec.ofNat 32 i).toNat =
          usd.stabstr.toNat + x.toNat + i := by
        rw [BitVec.toNat_add, BitVec.toNat_add, BitVec.toNat_ofNat]
        omega
      rw [BitVec.le_def, BitVec.lt_def, ha]
      omega

theorem nameOf_stabstr {i : ℤ} {s : Word} (h : nameOf usd stabs i = .stabstr s) :
    ∃ x < usd.strings, s = usd.stabstr + x := by
  unfold nameOf at h
  split at h
  · rename_i hlt
    exact ⟨_, hlt, (Name.stabstr.inj h).symm⟩
  · cases h

/-- What is read of the string table lies in it. -/
theorem lookupStabs_strings {a : Word}
    (h : a ∈ (lookupStabs load usd checked addr).strReads) :
    usd.stabstr ≤ a ∧ a < usd.stabstrEnd := by
  have hlast (horder : usd.stabstr < usd.stabstrEnd) :
      usd.stabstr ≤ usd.stabstrEnd - 1 ∧ usd.stabstrEnd - 1 < usd.stabstrEnd := by
    have horder' : usd.stabstr.toNat < usd.stabstrEnd.toNat := horder
    rw [BitVec.le_def, BitVec.lt_def, toNat_pred (by omega)]
    omega
  by_cases hstr : StringsOk load usd
  · by_cases h0 : (fileRegion load usd addr).left = 0
    · rw [lookupStabs_none hstr h0] at h
      obtain rfl := List.mem_singleton.mp h
      exact hlast hstr.order
    · rw [lookupStabs_some hstr h0] at h
      rcases List.mem_cons.mp h with rfl | h
      · exact hlast hstr.order
      · refine mem_nameLength hstr (fun s hs => ?_) h
        unfold foundFun at hs
        split at hs
        · exact nameOf_stabstr hs
        · cases hs
  · obtain ⟨-, hreads⟩ := lookupStabs_of_not hstr
    obtain ⟨horder, rfl⟩ := hreads a h
    exact hlast horder

end

end Jos
