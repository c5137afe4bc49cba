import Jos.Kern.Spinlock
import Jos.Pmap.Addressable

/-!
kern/mpconfig.c: the search for the multiprocessor configuration table and
`mp_init`, which fills the table of CPUs from its entries. The boot CPU is noted
by the number of processors counted so far, before it is clear that there is
room for this one and that the count will stand.
-/

namespace Jos

open Jos.Lib

/-! ### The tables in memory -/

/-- Kernel memory, by virtual address. -/
def load16 (mem : ByteMem) (a : Word) : BitVec 16 := mem (a + 1) ++ mem a

def load32 (mem : ByteMem) (a : Word) : Word := load16 mem (a + 2) ++ load16 mem a

/-- The sum of `len` bytes, as a byte. -/
def sum (mem : ByteMem) (addr : Word) (len : ℕ) : BitVec 8 :=
  ((List.range len).map fun i => mem (addr + BitVec.ofNat 32 i)).sum

/-- `memcmp(addr, s, 4) == 0` -/
def signatureIs (mem : ByteMem) (addr : Word) (s : List (BitVec 8)) : Bool :=
  (List.range 4).map (fun i => mem (addr + BitVec.ofNat 32 i)) = s

/-- `"_MP_"` and `"PCMP"` -/
def mpSignature : List (BitVec 8) := [0x5f, 0x4d, 0x50, 0x5f]
def confSignature : List (BitVec 8) := [0x50, 0x43, 0x4d, 0x50]

/-- What can go wrong: a panic, or an access outside of `cpus`. -/
inductive MpFault where
  | panic (msg : String)
  | outside
  deriving DecidableEq

def kaddrMp (npages : ℕ) (pa : Word) : Except MpFault Word := (Kva.kaddr npages pa).mapError .panic

def mpsearch1Loop (mem : ByteMem) (last : Word) : ℕ → Word → Option Word
  | 0, _ => none
  | fuel + 1, mp =>
      if mp < last then
        if signatureIs mem mp mpSignature ∧ sum mem mp 16 = 0 then some mp
        else mpsearch1Loop mem last fuel (mp + 16)
      else none

/-- `mpsearch1`: at most `len / 16` places are looked at. -/
def mpsearch1 (npages : ℕ) (mem : ByteMem) (a : Word) (len : ℕ) :
    Except MpFault (Option Word) := do
  let mp ← kaddrMp npages a
  let last ← kaddrMp npages (a + BitVec.ofNat 32 len)
  .ok (mpsearch1Loop mem last (len / 16 + 1) mp)

def mpsearch (npages : ℕ) (mem : ByteMem) : Except MpFault (Option Word) := do
  let bda ← kaddrMp npages (0x40 <<< 4)
  let p := (load16 mem (bda + 0x0E)).zeroExtend 32
  let mp ←
    if p ≠ 0 then mpsearch1 npages mem (p <<< 4) 1024
    else mpsearch1 npages mem ((load16 mem (bda + 0x13)).zeroExtend 32 * 1024 - 1024) 1024
  match mp with
  | some mp => .ok (some mp)
  | none => mpsearch1 npages mem 0xF0000 0x10000

/-- `mpconfig`: the pointers that it stores and returns, and what it prints where
it returns `NULL`. -/
def mpconfig (npages : ℕ) (mem : ByteMem) :
    Except MpFault (Option (Word × Word) × List (String × List Word)) := do
  match ← mpsearch npages mem with
  | none => .ok (none, [])
  | some mp =>
      if load32 mem (mp + 4) = 0 ∨ mem (mp + 11) ≠ 0 then
        .ok (none, [("SMP: Default configurations not implemented\n", [])])
      else
        let conf ← kaddrMp npages (load32 mem (mp + 4))
        let length := load16 mem (conf + 4)
        let version := mem (conf + 6)
        if ¬ signatureIs mem conf confSignature then
          .ok (none, [("SMP: Incorrect MP configuration table signature\n", [])])
        else if sum mem conf length.toNat ≠ 0 then
          .ok (none, [("SMP: Bad MP configuration checksum\n", [])])
        else if version ≠ 1 ∧ version ≠ 4 then
          .ok (none, [("SMP: Unsupported MP version %d\n", [version.zeroExtend 32])])
        else if sum mem (conf + length.zeroExtend 32) (load16 mem (conf + 40)).toNat +
            mem (conf + 42) ≠ 0 then
          .ok (none, [("SMP: Bad MP configuration extended checksum\n", [])])
        else .ok (some (mp, conf), [])

/-! ### The table of CPUs -/

structure CpuInfo where
  cpuId : BitVec 8
  cpuStatus : CpuStatus

/-- The variables that `mp_init` writes, `bootcpu` as an index of `cpus`, what it
prints and what it writes to ports. -/
structure MpState where
  cpus : ℕ → CpuInfo
  bootcpu : ℕ
  ismp : Bool
  ncpu : ℕ
  lapicaddr : Word
  console : List (String × List Word)
  ports : List (Word × BitVec 8)

namespace MpState

def print (s : MpState) (fmt : String) (args : List Word) : MpState :=
  { s with console := s.console ++ [(fmt, args)] }

/-- The processor entry at `p`. -/
def mpproc (mem : ByteMem) (p : Word) (s : MpState) : MpState :=
  let apicid := mem (p + 1)
  let flags := mem (p + 3)
  let s := if flags &&& 0x02 ≠ 0 then { s with bootcpu := s.ncpu } else s
  if s.ncpu < Jos.ncpu then
    { s with
      cpus := Function.update s.cpus s.ncpu
        { s.cpus s.ncpu with cpuId := BitVec.ofNat 8 s.ncpu }
      ncpu := s.ncpu + 1 }
  else s.print "SMP: too many CPUs, CPU %d disabled\n" [apicid.zeroExtend 32]

/-- The loop of `mp_init` over the entries that are left, from `p` on. -/
def entries (mem : ByteMem) : ℕ → Word → MpState → MpState
  | 0, _, s => s
  | k + 1, p, s =>
      if mem p = 0 then entries mem k (p + 20) (s.mpproc mem p)
      else if (mem p).toNat ≤ 4 then entries mem k (p + 8) s
      else
        { s.print "mpinit: unknown config type %x\n" [(mem p).zeroExtend 32] with ismp := false }

end MpState

def MpState.start (s : MpState) : MpState :=
  { s with
    cpus := Function.update s.cpus s.bootcpu { s.cpus s.bootcpu with cpuStatus := .started } }

/-- `bootcpu->cpu_status = CPU_STARTED` -/
def startBootcpu (s : MpState) : Except MpFault MpState :=
  if s.bootcpu < ncpu then .ok s.start else .error .outside

/-- The end of `mp_init`, where `inb` is what a port yields. -/
def mpFinish (mem : ByteMem) (inb : Word → BitVec 8) (mp : Word) (s : MpState) : MpState :=
  if !s.ismp then
    { s with ncpu := 1, lapicaddr := 0 }.print "SMP: configuration not found, SMP disabled\n" []
  else
    let s := s.print "SMP: CPU %d found %d CPU(s)\n"
      [(s.cpus s.bootcpu).cpuId.zeroExtend 32, BitVec.ofNat 32 s.ncpu]
    if mem (mp + 12) ≠ 0 then
      let s := s.print "SMP: Setting IMCR to switch from PIC mode to symmetric I/O mode\n" []
      { s with ports := s.ports ++ [(0x22, 0x70), (0x23, inb 0x23 ||| 1)] }
    else s


/-- `mp_init` -/
def mpInit (npages : ℕ) (mem : ByteMem) (inb : Word → BitVec 8) (s : MpState) :
    Except MpFault MpState := do
  let s := { s with bootcpu := 0 }
  let (found, printed) ← mpconfig npages mem
  let s := { s with console := s.console ++ printed }
  match found with
  | none => .ok s
  | some (mp, conf) =>
      let s := { s with ismp := true, lapicaddr := load32 mem (conf + 36) }
      let s := s.entries mem (load16 mem (conf + 34)).toNat (conf + 44)
      let s ← startBootcpu s
      .ok (mpFinish mem inb mp s)

/-- The variables before `mp_init`, which are zero. -/
def mpStart (console : List (String × List Word)) (ports : List (Word × BitVec 8)) : MpState :=
  ⟨fun _ => ⟨0, .unused⟩, 0, false, 0, 0, console, ports⟩

/-! ### Entries -/

/-- What `mp_init` reads of an entry. -/
inductive MpEntry where
  | proc (boot : Bool)
  | other
  | unknown
  deriving DecidableEq

/-- The entries of a table up to the first unknown one, after which it is not
known where the next begins. -/
def mpEntries (mem : ByteMem) : ℕ → Word → List MpEntry
  | 0, _ => []
  | k + 1, p =>
      if mem p = 0 then .proc (mem (p + 3) &&& 0x02 ≠ 0) :: mpEntries mem k (p + 20)
      else if (mem p).toNat ≤ 4 then .other :: mpEntries mem k (p + 8)
      else [.unknown]

/-- The entries of the table at `conf`. -/
def confEntries (mem : ByteMem) (conf : Word) : List MpEntry :=
  mpEntries mem (load16 mem (conf + 34)).toNat (conf + 44)

def MpEntry.isProc : MpEntry → Bool
  | .proc _ => true
  | _ => false

def processors (es : List MpEntry) : ℕ := es.countP MpEntry.isProc

/-- The processors before the one with the boot flag, the last if there are
several. -/
def bootProcessor : List MpEntry → Option ℕ
  | [] => none
  | e :: es =>
      match bootProcessor es with
      | some k => some (if e.isProc then k + 1 else k)
      | none => if e = .proc true then some 0 else none

variable {npages : ℕ} {mem : ByteMem} {inb : Word → BitVec 8} {mp conf p : Word} {s s' : MpState}
  {es : List MpEntry} {k : ℕ}

@[simp] theorem processors_nil : processors [] = 0 := rfl

theorem processors_cons (e : MpEntry) :
    processors (e :: es) = processors es + if e.isProc then 1 else 0 := List.countP_cons ..

/-- The boot flag is on a processor entry with that many before it. -/
theorem bootProcessor_eq_some (h : bootProcessor es = some k) :
    ∃ before after, es = before ++ .proc true :: after ∧ processors before = k := by
  induction es generalizing k with
  | nil => cases h
  | cons e es ih =>
      rw [bootProcessor] at h
      cases hrest : bootProcessor es with
      | some j =>
          obtain ⟨before, after, rfl, hj⟩ := ih hrest
          rw [hrest] at h
          refine ⟨e :: before, after, rfl, ?_⟩
          rw [processors_cons, hj, ← Option.some.inj h]
          split <;> rfl
      | none =>
          rw [hrest] at h
          by_cases he : e = .proc true
          · subst he
            exact ⟨[], es, rfl, by simpa using h⟩
          · simp [he] at h

/-! ### The table that `mp_init` leaves -/

/-- The CPUs are numbered, and the boot CPU is one of them and runs. -/
structure CpuTable (s : MpState) : Prop where
  one_le : 1 ≤ s.ncpu
  le_ncpu : s.ncpu ≤ ncpu
  cpuId : ∀ i < s.ncpu, (s.cpus i).cpuId = BitVec.ofNat 8 i
  boot_lt : s.bootcpu < s.ncpu
  started : (s.cpus s.bootcpu).cpuStatus = .started

/-- What the loop has done, from `s` on, after the entries `es`. -/
structure MpScanned (s : MpState) (es : List MpEntry) (s' : MpState) : Prop where
  ncpu_eq : s'.ncpu = min (s.ncpu + processors es) ncpu
  ismp_eq : s'.ismp = (s.ismp && .unknown ∉ es)
  boot_eq : s'.bootcpu =
    match bootProcessor es with
    | some k => min (s.ncpu + k) ncpu
    | none => s.bootcpu
  cpuId : (∀ i < s.ncpu, (s.cpus i).cpuId = BitVec.ofNat 8 i) →
    ∀ i < s'.ncpu, (s'.cpus i).cpuId = BitVec.ofNat 8 i

theorem MpScanned.cons {e : MpEntry} {s₁ : MpState} (hle : s.ncpu ≤ ncpu)
    (h : MpScanned s [e] s₁) (h' : MpScanned s₁ es s') : MpScanned s (e :: es) s' := by
  have hcount : s₁.ncpu = min (s.ncpu + if e.isProc then 1 else 0) ncpu := by
    rw [h.ncpu_eq, processors_cons, processors_nil, Nat.zero_add]
  refine ⟨?_, ?_, ?_, fun hid => h'.cpuId (h.cpuId hid)⟩
  · rw [h'.ncpu_eq, hcount, processors_cons]
    omega
  · rw [h'.ismp_eq, h.ismp_eq]
    simp [Bool.and_assoc]
  · rw [h'.boot_eq, bootProcessor]
    cases bootProcessor es with
    | some k =>
        simp only [hcount]
        split <;> omega
    | none =>
        have hboot := h.boot_eq
        simp only [bootProcessor] at hboot
        exact hboot

theorem mpproc_ncpu (hle : s.ncpu ≤ ncpu) : (s.mpproc mem p).ncpu = min (s.ncpu + 1) ncpu := by
  unfold MpState.mpproc MpState.print
  dsimp only
  split <;> split
  all_goals
    rename_i hroom
    dsimp only at hroom ⊢
    omega

theorem mpproc_ismp : (s.mpproc mem p).ismp = s.ismp := by
  unfold MpState.mpproc MpState.print
  dsimp only
  split <;> split <;> rfl

theorem mpproc_bootcpu : (s.mpproc mem p).bootcpu =
    if mem (p + 3) &&& 0x02 ≠ 0 then s.ncpu else s.bootcpu := by
  unfold MpState.mpproc MpState.print
  dsimp only
  split <;> split <;> rfl

/-- A processor that finds room is the last of the table. -/
theorem mpproc_cpus : (s.mpproc mem p).cpus =
    if s.ncpu < ncpu then
      Function.update s.cpus s.ncpu { s.cpus s.ncpu with cpuId := BitVec.ofNat 8 s.ncpu }
    else s.cpus := by
  unfold MpState.mpproc MpState.print
  dsimp only
  split <;> split <;> rfl

theorem mpproc_scanned (mem : ByteMem) (p : Word) (hle : s.ncpu ≤ ncpu) :
    MpScanned s [.proc (mem (p + 3) &&& 0x02 ≠ 0)] (s.mpproc mem p) where
  ncpu_eq := mpproc_ncpu hle
  ismp_eq := by simp [mpproc_ismp]
  boot_eq := by
    rw [mpproc_bootcpu]
    split
    · rename_i hflag
      rw [decide_eq_true hflag]
      exact (Nat.min_eq_left hle).symm
    · rename_i hflag
      rw [decide_eq_false hflag]
      rfl
  cpuId hid i hi := by
    rw [mpproc_ncpu hle] at hi
    rw [mpproc_cpus]
    split
    · by_cases hlast : i = s.ncpu
      · rw [hlast, Function.update_self]
      · rw [Function.update_of_ne hlast]
        exact hid i (by omega)
    · exact hid i (by omega)

theorem MpScanned.other (hle : s.ncpu ≤ ncpu) : MpScanned s [.other] s :=
  ⟨(Nat.min_eq_left hle).symm, by simp, rfl, id⟩

/-- By induction on the entries that are left. -/
theorem entries_scanned (hle : s.ncpu ≤ ncpu) :
    MpScanned s (mpEntries mem k p) (s.entries mem k p) := by
  induction k generalizing p s with
  | zero => exact ⟨(Nat.min_eq_left hle).symm, by simp [mpEntries, MpState.entries], rfl, id⟩
  | succ k ih =>
      rw [mpEntries, MpState.entries]
      split
      · have hproc := mpproc_scanned mem p hle
        refine hproc.cons hle (ih ?_)
        rw [hproc.ncpu_eq]
        exact Nat.min_le_right _ _
      · split
        · exact (MpScanned.other hle).cons hle (ih hle)
        · exact ⟨(Nat.min_eq_left hle).symm, by simp, rfl, id⟩

theorem MpState.start_cpus : s.start.cpus =
    Function.update s.cpus s.bootcpu { s.cpus s.bootcpu with cpuStatus := .started } := rfl

theorem MpState.start_bootcpu : s.start.bootcpu = s.bootcpu := rfl

theorem mpFinish_table : (mpFinish mem inb mp s).bootcpu = s.bootcpu ∧
    (mpFinish mem inb mp s).cpus = s.cpus ∧
    (mpFinish mem inb mp s).ncpu = if s.ismp then s.ncpu else 1 := by
  unfold mpFinish MpState.print
  dsimp only
  cases hismp : s.ismp with
  | false => exact ⟨rfl, rfl, rfl⟩
  | true =>
      simp only [Bool.not_true, Bool.false_eq_true, if_false, if_true]
      split <;> exact ⟨rfl, rfl, rfl⟩

/-- What decides, after the loop, is whether the boot CPU is among the CPUs that
remain. -/
theorem mpFinish_cpuTable_iff (hone : 1 ≤ s.ncpu) (hle : s.ncpu ≤ ncpu)
    (hid : ∀ i < s.ncpu, (s.cpus i).cpuId = BitVec.ofNat 8 i) :
    CpuTable (mpFinish mem inb mp s.start) ↔ s.bootcpu < if s.ismp then s.ncpu else 1 := by
  obtain ⟨hboot, hcpus, hncpu⟩ := @mpFinish_table mem inb mp s.start
  have hcpu (i : ℕ) : (s.start.cpus i).cpuId = (s.cpus i).cpuId := by
    rw [MpState.start_cpus, Function.update_apply]
    split
    · rename_i hsame
      rw [hsame]
    · rfl
  constructor
  · intro htable
    have hlt := htable.boot_lt
    rwa [hboot, hncpu] at hlt
  · intro hlt
    have hremain : (if s.ismp then s.ncpu else 1) ≤ s.ncpu := by
      split
      · exact le_rfl
      · exact hone
    exact
      { one_le := by
          rw [hncpu]
          exact Nat.one_le_of_lt hlt
        le_ncpu := by
          rw [hncpu]
          exact hremain.trans hle
        cpuId := fun i hi => by
          rw [hncpu] at hi
          rw [hcpus, hcpu]
          exact hid i (hi.trans_le hremain)
        boot_lt := by
          rw [hboot, hncpu]
          exact hlt
        started := by
          rw [hboot, hcpus, MpState.start_cpus, MpState.start_bootcpu, Function.update_self] }

/-- After the loop the boot CPU is started, if it is one of the CPUs, and the table
is cut to one CPU where an entry was unknown. -/
theorem mpInit_accepted (console : List (String × List Word)) (ports : List (Word × BitVec 8))
    {printed : List (String × List Word)}
    (h : mpconfig npages mem = .ok (some (mp, conf), printed)) :
    ∃ s₀ s, (s₀.ncpu = 0 ∧ s₀.ismp = true ∧ s₀.bootcpu = 0) ∧
      MpScanned s₀ (confEntries mem conf) s ∧
      mpInit npages mem inb (mpStart console ports) =
        (startBootcpu s).map (mpFinish mem inb mp) := by
  let s₀ : MpState := { mpStart (console ++ printed) ports with
    ismp := true
    lapicaddr := load32 mem (conf + 36) }
  refine ⟨s₀, s₀.entries mem (load16 mem (conf + 34)).toNat (conf + 44), ⟨rfl, rfl, rfl⟩,
    entries_scanned (Nat.zero_le _), ?_⟩
  simp only [mpInit, h, bind, Except.bind]
  rfl

/-- `mp_init` leaves a consistent table if and only if the boot processor is among
the first eight, and the first if there is an unknown entry. -/
theorem mp_init_table_iff (console : List (String × List Word)) (ports : List (Word × BitVec 8))
    {printed : List (String × List Word)}
    (h : mpconfig npages mem = .ok (some (mp, conf), printed))
    (hproc : processors (confEntries mem conf) ≠ 0) :
    (∃ s, mpInit npages mem inb (mpStart console ports) = .ok s ∧ CpuTable s) ↔
      ∀ k, bootProcessor (confEntries mem conf) = some k →
        k < ncpu ∧ (.unknown ∈ confEntries mem conf → k = 0) := by
  obtain ⟨s₀, s, ⟨hncpu, hismp, hboot⟩, hscan, hinit⟩ :=
    mpInit_accepted console ports h
  have hcount : s.ncpu = min (processors (confEntries mem conf)) ncpu := by
    rw [hscan.ncpu_eq, hncpu, Nat.zero_add]
  have hid : ∀ i < s.ncpu, (s.cpus i).cpuId = BitVec.ofNat 8 i :=
    hscan.cpuId fun i hi => absurd hi (by omega)
  have hunknown : s.ismp = true ↔ .unknown ∉ confEntries mem conf := by
    rw [hscan.ismp_eq, hismp, Bool.true_and, decide_eq_true_iff]
  have hone : 1 ≤ s.ncpu := by
    unfold ncpu at hcount
    omega
  have hle : s.ncpu ≤ ncpu := hcount ▸ Nat.min_le_right _ _
  have htable : (∃ t, mpInit npages mem inb (mpStart console ports) = .ok t ∧ CpuTable t) ↔
      s.bootcpu < ncpu ∧ s.bootcpu < if s.ismp then s.ncpu else 1 := by
    rw [hinit, ← mpFinish_cpuTable_iff hone hle hid, startBootcpu]
    by_cases hlt : s.bootcpu < ncpu
    · rw [if_pos hlt]
      constructor
      · rintro ⟨t, ht, hok⟩
        obtain rfl := Except.ok.inj ht
        exact ⟨hlt, hok⟩
      · rintro ⟨-, hok⟩
        exact ⟨_, rfl, hok⟩
    · rw [if_neg hlt]
      refine iff_of_false ?_ fun hok => hlt hok.1
      rintro ⟨t, ht, -⟩
      cases ht
  have hbootcpu := hscan.boot_eq
  have height : ncpu = 8 := rfl
  rw [htable]
  cases hk : bootProcessor (confEntries mem conf) with
  | none =>
      have hzero : s.bootcpu = 0 := by rw [hbootcpu, hk, hboot]
      rw [hzero]
      refine iff_of_true ⟨by decide, ?_⟩ fun k hk => nomatch hk
      split
      · exact hone
      · exact Nat.one_pos
  | some k =>
      obtain ⟨before, after, hes, hbefore⟩ := bootProcessor_eq_some hk
      have hlast : k < processors (confEntries mem conf) := by
        rw [hes, ← hbefore, processors, processors, List.countP_append]
        exact Nat.lt_add_of_pos_right (List.countP_pos_iff.mpr ⟨_, List.mem_cons_self, rfl⟩)
      have hmin : s.bootcpu = min k ncpu := by simp only [hbootcpu, hk, hncpu, Nat.zero_add]
      simp only [Option.some.injEq, forall_eq']
      by_cases hin : .unknown ∈ confEntries mem conf
      · rw [if_neg (mt hunknown.mp (not_not.mpr hin))]
        simp only [hin, true_implies]
        omega
      · rw [if_pos (hunknown.mpr hin)]
        simp only [hin, false_implies, and_true]
        omega

/-! ### Tables of two processors -/

/-- The floating pointer, the header of a table of `entry` entries, which take up
`length` bytes with the header, and the entries of two processors of which the
second is the boot processor. -/
def mpSampleTable (length entry checksum : BitVec 8) (rest : List (BitVec 8)) : List (BitVec 8) :=
  mpSignature ++ [0x10, 0xFC, 0x09, 0, 1, 4, 0x8B, 0, 0, 0, 0, 0] ++
  confSignature ++ [length, 0, 4, checksum] ++ List.replicate 26 0 ++ [entry, 0] ++
  [0, 0, 0xE0, 0xFE, 0, 0, 0, 0] ++
  [0, 0, 0x14, 1] ++ List.replicate 16 0 ++ [0, 1, 0x14, 3] ++ List.replicate 16 0 ++ rest

/-- Memory with an extended BIOS data area at `0x9FC00`, where the table is. -/
def mpSampleMem (table : List (BitVec 8)) (a : Word) : BitVec 8 :=
  if a = 0xF000040E then 0xC0
  else if a = 0xF000040F then 0x9F
  else table.getD (a - 0xF009FC00).toNat 0

/-- Two processors and nothing else. -/
theorem mp_init_table_iff_two : ∃ s,
    mpInit 2048 (mpSampleMem (mpSampleTable 84 2 0x6B [])) (fun _ => 0) (mpStart [] []) = .ok s ∧
      CpuTable s := by
  have haccepted : mpconfig 2048 (mpSampleMem (mpSampleTable 84 2 0x6B [])) =
      .ok (some (0xF009FC00, 0xF009FC10), []) := by decide +kernel
  have hentries : confEntries (mpSampleMem (mpSampleTable 84 2 0x6B [])) 0xF009FC10 =
      [.proc false, .proc true] := by decide +kernel
  refine (mp_init_table_iff [] [] haccepted (by rw [hentries]; decide)).mpr fun k hk => ?_
  rw [hentries] at hk ⊢
  obtain rfl : 1 = k := Option.some.inj hk
  decide

/-- The boot processor is the second one, and there is an entry of type 5. -/
theorem not_mp_init_table : ¬ ∀ (npages : ℕ) (mem : ByteMem) (inb : Word → BitVec 8)
    (mp conf : Word) (printed : List (String × List Word)),
    mpconfig npages mem = .ok (some (mp, conf), printed) →
    processors (confEntries mem conf) ≠ 0 → (confEntries mem conf).count (.proc true) = 1 →
    ∃ s, mpInit npages mem inb (mpStart [] []) = .ok s ∧ CpuTable s := by
  intro hall
  obtain ⟨s, hs, htable⟩ := hall 2048
    (mpSampleMem (mpSampleTable 92 3 0x5D [5, 0, 0, 0, 0, 0, 0, 0])) (fun _ => 0)
    0xF009FC00 0xF009FC10 [] (by decide +kernel) (by decide +kernel) (by decide +kernel)
  have hrun : (mpInit 2048 (mpSampleMem (mpSampleTable 92 3 0x5D [5, 0, 0, 0, 0, 0, 0, 0]))
      (fun _ => 0) (mpStart [] [])).toOption.map (fun s => (s.bootcpu, s.ncpu)) = some (1, 1) := by
    decide +kernel
  rw [hs] at hrun
  have hpair : (s.bootcpu, s.ncpu) = (1, 1) := Option.some.inj hrun
  have hlt := htable.boot_lt
  rw [(Prod.mk.inj hpair).1, (Prod.mk.inj hpair).2] at hlt
  exact Nat.lt_irrefl _ hlt

end Jos
