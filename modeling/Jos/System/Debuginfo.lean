import Jos.Kern.Debuginfo
import Jos.System.UserMem
import Jos.System.Cputs

/-!
What `debuginfo_eip` reads of the debugging information of a program. The
string table is checked as a whole, but of the stab table only as many bytes as
it has entries. So an entry past the first twelfth is read unchecked, and the
first one that the search looks at is such an entry. Apart from that the search
for the file can come to lie before the table.
-/

namespace Jos

open Jos.Lib

variable {n : ℕ} {M : Machine} {m : Mem n} {c : Fin n} {d : ℕ} {kernelStabs usd : UserStabData}
  {load : Word → Option (BitVec 8)} {addr : Word} {r : Debuginfo}

/-! ### The condition -/

/-- A check has accepted the byte. -/
def Accepted (checked : List (Word × Word)) (a : Word) : Prop :=
  ∃ q ∈ checked, a.toNat ∈ userRange q.1 q.2

/-- The three ranges that are checked. -/
def UserStabData.ranges (usd : UserStabData) : List (Word × Word) :=
  [(ustabdata, 16), (usd.stabs, usd.count), (usd.stabstr, usd.strings)]

/-- Every access is to an entry of the table or to a character of the string
table, a check has accepted it, and it does not fault. -/
structure ReadsAccepted (load : Word → Option (BitVec 8)) (usd : UserStabData) (r : Debuginfo) :
    Prop where
  index : ∀ a ∈ r.stabReads, 0 ≤ a.1 ∧ a.1 < usd.count.toInt
  stab : ∀ a ∈ r.stabReads, ∀ b ∈ accessBytes usd.stabs a, Accepted r.checked b ∧ load b ≠ none
  range : ∀ a ∈ r.strReads, usd.stabstr ≤ a ∧ a < usd.stabstrEnd
  str : ∀ a ∈ r.strReads, Accepted r.checked a ∧ load a ≠ none

/-- `debuginfo_eip` comes to search the stab table. -/
structure Passes (M : Machine) (d : ℕ) (m : Mem n) (load : Word → Option (BitVec 8))
    (usd : UserStabData) : Prop where
  header : userMemCheck M d ustabdata 16 0 m = .ok none
  stabs : userMemCheck M d usd.stabs usd.count 0 m = .ok none
  strings : userMemCheck M d usd.stabstr usd.strings 0 m = .ok none
  text : StringsOk load usd
  last : 0 ≤ usd.last

/-- All of the stab table lies in the ranges that are checked. -/
def TableAccepted (usd : UserStabData) : Prop :=
  ∀ i, 0 ≤ i → i ≤ usd.last → ∀ b < 12,
    Accepted usd.ranges (stabAddr usd.stabs i + BitVec.ofNat 32 b)

/-! ### The ranges -/

theorem loads_of_accepted (hcr3 : m.cr3 c = d)
    (hheader : userMemCheck M d ustabdata 16 0 m = .ok none)
    (hstabs : userMemCheck M d usd.stabs usd.count 0 m = .ok none)
    (hstrings : userMemCheck M d usd.stabstr usd.strings 0 m = .ok none) {a : Word}
    (h : Accepted usd.ranges a) : a.toNat < ulim.toNat ∧ loadByte c m a ≠ none := by
  have hrange {va len : Word} (hcheck : userMemCheck M d va len 0 m = .ok none)
      (ha : a.toNat ∈ userRange va len) : a.toNat < ulim.toNat ∧ loadByte c m a ≠ none := by
    obtain ⟨hlim, hloads⟩ := userMemCheck_none hcr3 hcheck
    obtain ⟨hlo, hhi⟩ := ha
    obtain ⟨b, hb⟩ := hloads (a.toNat - va.toNat) (by omega)
    have heq : va + BitVec.ofNat 32 (a.toNat - va.toNat) = a := by
      apply BitVec.eq_of_toNat_eq
      rw [add_ofNat_toNat hlim (by omega)]
      omega
    rw [heq] at hb
    exact ⟨by omega, by rw [hb]; exact Option.some_ne_none b⟩
  obtain ⟨q, hq, ha⟩ := h
  simp only [UserStabData.ranges, List.mem_cons, List.not_mem_nil, or_false] at hq
  rcases hq with rfl | rfl | rfl
  · exact hrange hheader ha
  · exact hrange hstabs ha
  · exact hrange hstrings ha

theorem accepted_of_string (horder : usd.stabstr < usd.stabstrEnd) {a : Word}
    (hlo : usd.stabstr ≤ a) (hhi : a < usd.stabstrEnd) : Accepted usd.ranges a := by
  have hsize := usd.size horder
  have hlo' : usd.stabstr.toNat ≤ a.toNat := hlo
  have hhi' : a.toNat < usd.stabstrEnd.toNat := hhi
  have hmem : a.toNat ∈ userRange usd.stabstr usd.strings := ⟨hlo', by omega⟩
  exact ⟨(usd.stabstr, usd.strings), by simp [UserStabData.ranges], hmem⟩

theorem mem_accessBytes {base b : Word} {a : Access} (h : b ∈ accessBytes base a) :
    ∃ k < 12, b = stabAddr base a.1 + BitVec.ofNat 32 k := by
  obtain ⟨k, hk, rfl⟩ := List.mem_map.mp h
  have hlt := List.mem_range.mp hk
  refine ⟨a.2.offset + k, ?_, rfl⟩
  have hfit (f : StabField) : f.offset + f.size ≤ 12 := by cases f <;> decide
  have hle := hfit a.2
  omega

theorem stabAddr_toNat {base : Word} {i : ℤ} (h0 : 0 ≤ i)
    (h : base.toNat + 12 * i.toNat < 4294967296) :
    (stabAddr base i).toNat = base.toNat + 12 * i.toNat := by
  have hi : (12 * i : ℤ) = ((12 * i.toNat : ℕ) : ℤ) := by
    push_cast
    rw [Int.toNat_of_nonneg h0]
  unfold stabAddr
  rw [hi, BitVec.ofInt_natCast, BitVec.toNat_add, BitVec.toNat_ofNat]
  omega

/-- The table does not reach `ULIM`, and its last index is right. -/
theorem count_eq (hcr3 : m.cr3 c = d) (h : Passes M d m load usd) (htable : TableAccepted usd) :
    usd.count.toInt = usd.last + 1 := by
  obtain ⟨hlim, -⟩ := userMemCheck_none hcr3 h.stabs
  have hulim : ulim.toNat = 4018143232 := ulim_toNat
  have hlast := h.last
  have hbound : usd.last < 2147483647 := by
    by_contra hge
    -- the first entry at or above `ULIM`
    set i := (ulim.toNat - usd.stabs.toNat + 11) / 12 with hi
    have hin : usd.stabs.toNat + 12 * i < 4294967296 := by omega
    have haddr : (stabAddr usd.stabs (i : ℤ)).toNat = usd.stabs.toNat + 12 * i := by
      rw [stabAddr_toNat (Int.natCast_nonneg i) (by simpa using hin), Int.toNat_natCast]
    have hacc := htable i (Int.natCast_nonneg i) (by omega) 0 (by decide)
    have hlt := (loads_of_accepted hcr3 h.header h.stabs h.strings hacc).1
    rw [BitVec.add_zero, haddr] at hlt
    omega
  have hx := usd.count.isLt
  have hone : (1 : Word).toNat = 1 := rfl
  unfold UserStabData.last at hlast hbound ⊢
  rw [BitVec.toInt_eq_toNat_cond, BitVec.toNat_sub, hone] at hlast hbound
  rw [BitVec.toInt_eq_toNat_cond, BitVec.toInt_eq_toNat_cond, BitVec.toNat_sub, hone]
  split at hlast <;> split <;> omega

/-! ### What is read -/

/-- `debuginfo_eip` makes no access, or all the checks have passed. -/
theorem debuginfoEip_cases (haddr : addr < ulim)
    (h : debuginfoEip M kernelStabs c d addr m = .ok r) :
    let load := loadByte c m
    let usd := readStabData load ustabdata
    (r.stabReads = [] ∧ r.strReads = [] ∧ ¬ Passes M d m load usd) ∨
      userMemCheck M d ustabdata 16 0 m = .ok none ∧
        userMemCheck M d usd.stabs usd.count 0 m = .ok none ∧
        userMemCheck M d usd.stabstr usd.strings 0 m = .ok none ∧
        r = lookupStabs load usd usd.ranges addr := by
  unfold debuginfoEip at h
  rw [if_neg (BitVec.not_le.mpr haddr), bind_eq_ok] at h
  obtain ⟨v, hheader, h⟩ := h
  cases v with
  | some va =>
      obtain rfl := Except.ok.inj h
      exact Or.inl ⟨rfl, rfl, fun hp => by cases hheader.symm.trans hp.header⟩
  | none =>
      obtain ⟨v, hstabs, h⟩ := bind_eq_ok.mp h
      cases v with
      | some va =>
          obtain rfl := Except.ok.inj h
          exact Or.inl ⟨rfl, rfl, fun hp => by cases hstabs.symm.trans hp.stabs⟩
      | none =>
          obtain ⟨v, hstrings, h⟩ := bind_eq_ok.mp h
          cases v with
          | some va =>
              obtain rfl := Except.ok.inj h
              exact Or.inl ⟨rfl, rfl, fun hp => by cases hstrings.symm.trans hp.strings⟩
          | none => exact Or.inr ⟨hheader, hstabs, hstrings, (Except.ok.inj h).symm⟩

theorem strings_accepted (hcr3 : m.cr3 c = d)
    (hheader : userMemCheck M d ustabdata 16 0 m = .ok none)
    (hstabs : userMemCheck M d usd.stabs usd.count 0 m = .ok none)
    (hstrings : userMemCheck M d usd.stabstr usd.strings 0 m = .ok none) {a : Word}
    (ha : a ∈ (lookupStabs (loadByte c m) usd usd.ranges addr).strReads) :
    (usd.stabstr ≤ a ∧ a < usd.stabstrEnd) ∧ Accepted usd.ranges a ∧ loadByte c m a ≠ none := by
  obtain ⟨hlo, hhi⟩ := lookupStabs_strings ha
  have hacc := accepted_of_string (Nat.lt_of_le_of_lt hlo hhi) hlo hhi
  exact ⟨⟨hlo, hhi⟩, hacc, (loads_of_accepted hcr3 hheader hstabs hstrings hacc).2⟩

/-- The byte of the first test of `n_type` is outside the bytes that the check
of the stab table has accepted. -/
theorem probe_not_checked (hlast : 0 ≤ usd.last) (hfit : 12 * (usd.last + 1) < 4294967296) :
    (stabAddr usd.stabs (mid 0 usd.last) + 4).toNat ∉ userRange usd.stabs usd.count := by
  have hmid : mid 0 usd.last = usd.last / 2 := by
    unfold mid
    rw [zero_add, Int.tdiv_eq_ediv_of_nonneg hlast]
  obtain ⟨k, hk⟩ : ∃ k : ℕ, usd.last / 2 = k := ⟨(usd.last / 2).toNat, by omega⟩
  have hcount : (usd.count.toNat : ℤ) = usd.last + 1 := by
    have hx := usd.count.isLt
    have hone : (1 : Word).toNat = 1 := rfl
    unfold UserStabData.last at hlast hfit ⊢
    rw [BitVec.toInt_eq_toNat_cond, BitVec.toNat_sub, hone] at hlast hfit ⊢
    split at hlast <;> omega
  have haddr : stabAddr usd.stabs (mid 0 usd.last) + 4 =
      usd.stabs + BitVec.ofNat 32 (12 * k + 4) := by
    unfold stabAddr
    rw [hmid, hk, BitVec.ofNat_add, ← BitVec.add_assoc]
    have hcast : (12 * (k : ℤ)) = ((12 * k : ℕ) : ℤ) := by push_cast; rfl
    rw [hcast, BitVec.ofInt_natCast]
    rfl
  rintro ⟨hlo, hhi⟩
  have hs := usd.stabs.isLt
  have hsmall : 12 * k + 4 < 2 ^ 32 := by omega
  have hpast : usd.count.toNat ≤ 12 * k + 4 := by omega
  rw [haddr, BitVec.toNat_add, BitVec.toNat_ofNat, Nat.mod_eq_of_lt hsmall] at hlo hhi
  omega

/-- `debuginfo_eip` reads nothing but what has been checked if it makes no
search, or if the search for the file does not come down to before the table and
all of the table happens to lie in the ranges that are checked. In the other
direction the search must not come down, and the entry in the middle must lie in
the range of the string table or in that of the four words at `USTABDATA`. -/
theorem debuginfo_eip_checked (hcr3 : m.cr3 c = d) (haddr : addr < ulim)
    (h : debuginfoEip M kernelStabs c d addr m = .ok r) :
    let load := loadByte c m
    let usd := readStabData load ustabdata
    ((Passes M d m load usd →
        TableAccepted usd ∧ ¬ ComesDown (stabAt load usd.stabs) usd.last addr) →
      ReadsAccepted load usd r) ∧
    (ReadsAccepted load usd r → Passes M d m load usd →
      ¬ ComesDown (stabAt load usd.stabs) usd.last addr ∧
        (12 * (usd.last + 1) < 4294967296 →
          (stabAddr usd.stabs (mid 0 usd.last) + 4).toNat ∈
            userRange ustabdata 16 ∪ userRange usd.stabstr usd.strings)) := by
  intro load usd
  rcases debuginfoEip_cases haddr h with ⟨hstab, hstr, hnot⟩ | ⟨hheader, hstabs, hstrings, rfl⟩
  · refine ⟨fun _ => ⟨?_, ?_, ?_, ?_⟩, fun _ hp => absurd hp hnot⟩
    · rw [hstab]
      exact nofun
    · rw [hstab]
      exact nofun
    · rw [hstr]
      exact nofun
    · rw [hstr]
      exact nofun
  · have hchecked : (lookupStabs load usd usd.ranges addr).checked = usd.ranges :=
      lookupStabs_checked
    refine ⟨fun hcond => ?_, fun hreads hp => ⟨fun hdown => ?_, fun hfit => ?_⟩⟩
    · have hstr {a : Word} (ha : a ∈ (lookupStabs load usd usd.ranges addr).strReads) :=
        strings_accepted hcr3 hheader hstabs hstrings ha
      by_cases hp : Passes M d m load usd
      · obtain ⟨htable, hdown⟩ := hcond hp
        have hindex : ∀ a ∈ (lookupStabs load usd usd.ranges addr).stabReads,
            0 ≤ a.1 ∧ a.1 ≤ usd.last := lookupStabs_index haddr hp.text hp.last hdown
        refine ⟨fun a ha => ?_, fun a ha b hb => ?_, fun a ha => (hstr ha).1, fun a ha => ?_⟩
        · obtain ⟨hlo, hhi⟩ := hindex a ha
          exact ⟨hlo, by rw [count_eq hcr3 hp htable]; omega⟩
        · obtain ⟨hlo, hhi⟩ := hindex a ha
          obtain ⟨k, hk, rfl⟩ := mem_accessBytes hb
          have hacc := htable a.1 hlo hhi k hk
          rw [hchecked]
          exact ⟨hacc, (loads_of_accepted hcr3 hheader hstabs hstrings hacc).2⟩
        · rw [hchecked]
          exact (hstr ha).2
      · have hnone : (lookupStabs load usd usd.ranges addr).stabReads = [] := by
          by_cases htext : StringsOk load usd
          · refine lookupStabs_empty htext ?_
            by_contra hge
            exact hp ⟨hheader, hstabs, hstrings, htext, not_lt.mp hge⟩
          · exact (lookupStabs_of_not htext).1
        refine ⟨?_, ?_, fun a ha => (hstr ha).1, fun a ha => ?_⟩
        · rw [hnone]
          exact nofun
        · rw [hnone]
          exact nofun
        · rw [hchecked]
          exact (hstr ha).2
    · have hneg := (hreads.index _ (before_mem_reads hp.text hdown)).1
      exact absurd hneg (by decide)
    · obtain ⟨⟨q, hq, ha⟩, -⟩ := hreads.stab _ (probe_mem_reads hp.text hp.last)
        (stabAddr usd.stabs (mid 0 usd.last) + 4)
        (List.mem_map.mpr ⟨0, List.mem_range.mpr Nat.zero_lt_one, rfl⟩)
      rw [hchecked] at hq
      simp only [UserStabData.ranges, List.mem_cons, List.not_mem_nil, or_false] at hq
      rcases hq with rfl | rfl | rfl
      · exact Or.inl ha
      · exact absurd ha (probe_not_checked hp.last hfit)
      · exact Or.inr ha

/-- An address space with one page, at `USTABDATA`. -/
def debugMem (content : PtIdx → Word) : Mem 1 where
  pages := fun _ => ⟨none, 0⟩
  pageFreeList := none
  word := fun frame i =>
    if frame = 280 then (if i = 0 then 0x12C007#32 else 0)
    else if frame = 300 then (if i = 0x200 then 0x12D007#32 else 0)
    else if frame = 301 then content i
    else 0
  cr3 := fun _ => 280
  tlb := fun _ => []

/-- Two entries, the second for a source file, inside the string table. -/
def nestedTable (i : PtIdx) : Word :=
  match i.val with
  | 0 => 0x200020#32
  | 1 => 0x200038#32
  | 2 => 0x200010#32
  | 3 => 0x200100#32
  | 12 => 0x64#32
  | 13 => 0x800020#32
  | _ => 0

/-- One entry, of which all but the first word is on the next page. -/
def splitEntry (i : PtIdx) : Word :=
  match i.val with
  | 0 => 0x200FFC#32
  | 1 => 0x201008#32
  | 2 => 0x200010#32
  | 3 => 0x200011#32
  | _ => 0

theorem debuginfoEip_ok {content : PtIdx → Word}
    (h : (debuginfoEip sampleMachine ⟨0, 0, 0, 0⟩ 0 280 0x800030#32 (debugMem content)).isOk) :
    ∃ r, debuginfoEip sampleMachine ⟨0, 0, 0, 0⟩ 0 280 0x800030#32 (debugMem content) = .ok r := by
  cases hrun : debuginfoEip sampleMachine ⟨0, 0, 0, 0⟩ 0 280 0x800030#32 (debugMem content) with
  | error e =>
      rw [hrun] at h
      cases h
  | ok r => exact ⟨r, rfl⟩

theorem debuginfo_eip_checked_nested : ∃ r,
    debuginfoEip sampleMachine ⟨0, 0, 0, 0⟩ 0 280 0x800030#32 (debugMem nestedTable) = .ok r ∧
      ReadsAccepted (loadByte 0 (debugMem nestedTable))
        (readStabData (loadByte 0 (debugMem nestedTable)) ustabdata) r := by
  obtain ⟨r, hr⟩ := @debuginfoEip_ok nestedTable (by decide +kernel)
  refine ⟨r, hr, (debuginfo_eip_checked rfl (by decide) hr).1 fun _ => ⟨?_, by decide +kernel⟩⟩
  have hlast : (readStabData (loadByte 0 (debugMem nestedTable)) ustabdata).last = 1 := by
    decide +kernel
  have hinside : ∀ b < 12, ∀ i < 2, 0x200010 ≤
      (stabAddr (readStabData (loadByte 0 (debugMem nestedTable)) ustabdata).stabs (i : ℕ) +
        BitVec.ofNat 32 b).toNat ∧
      (stabAddr (readStabData (loadByte 0 (debugMem nestedTable)) ustabdata).stabs (i : ℕ) +
        BitVec.ofNat 32 b).toNat < 0x200100 := by
    decide +kernel
  intro i h0 hi b hb
  obtain ⟨k, rfl⟩ := Int.eq_ofNat_of_zero_le h0
  obtain ⟨hlo, hhi⟩ := hinside b hb k (by omega)
  have hstrings : userRange (readStabData (loadByte 0 (debugMem nestedTable)) ustabdata).stabstr
      (readStabData (loadByte 0 (debugMem nestedTable)) ustabdata).strings =
        Set.Ico 0x200010 0x200100 := by
    unfold userRange
    congr 1
  exact ⟨_, List.mem_cons_of_mem _ (List.mem_cons_of_mem _ List.mem_cons_self),
    hstrings ▸ ⟨hlo, hhi⟩⟩

/-- The check accepts one byte of the entry, and the search faults on another. -/
theorem not_debuginfo_eip_checked : ¬ ∀ (M : Machine) (kernelStabs : UserStabData) (m : Mem 1)
    (c : Fin 1) (d : ℕ) (addr : Word) (r : Debuginfo), m.cr3 c = d → addr < ulim →
      debuginfoEip M kernelStabs c d addr m = .ok r →
        ReadsAccepted (loadByte c m) (readStabData (loadByte c m) ustabdata) r := by
  intro hall
  obtain ⟨r, hr⟩ := @debuginfoEip_ok splitEntry (by decide +kernel)
  have hreads := hall _ _ _ 0 280 _ r rfl (by decide) hr
  have htext : StringsOk (loadByte 0 (debugMem splitEntry))
      (readStabData (loadByte 0 (debugMem splitEntry)) ustabdata) :=
    ⟨by decide +kernel, by decide +kernel⟩
  have hlast : (readStabData (loadByte 0 (debugMem splitEntry)) ustabdata).last = 0 := by
    decide +kernel
  rcases debuginfoEip_cases (by decide) hr with ⟨-, -, hnot⟩ | ⟨-, -, -, rfl⟩
  · exact hnot ⟨by decide +kernel, by decide +kernel, by decide +kernel, htext, hlast.ge⟩
  · have hload := (hreads.stab _ (probe_mem_reads htext hlast.ge) 0x201000#32
      (by decide +kernel)).2
    exact hload (by decide +kernel)

end Jos
