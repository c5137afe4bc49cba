import Jos.Inc.Mmu
import Jos.Lib.RepString

/-!
`readseg` of boot/main.c. It reads whole sectors, from the one that `pa` is in
on, to the addresses they have in the segment. So what is written is the image
moved to its place, with the rest of the first and of the last sector
(`readsegLoop_eq`).
-/

namespace Jos

open Jos.Lib

def sectsize : ℕ := 512

/-- The bytes of the disk. -/
abbrev DiskData := ℕ → BitVec 8

/-- The kernel image begins at sector 1. -/
def imageByte (disk : DiskData) (o : ℕ) : BitVec 8 := disk (sectsize + o)

/-- The memory, and the addresses that sectors have been read to. -/
structure SectMem where
  mem : ByteMem
  dsts : List Word

/-- The sector that the controller reads, for the contents of its registers:
the number has 28 bits. -/
def lba (r3 r4 r5 r6 : BitVec 8) : ℕ :=
  r3.toNat + 256 * r4.toNat + 65536 * r5.toNat + 16777216 * (r6.toNat % 16)

/-- `readsect`, once the disk is ready. -/
def readsect (disk : DiskData) (dst offset : Word) (s : SectMem) : SectMem :=
  let sector := lba (offset.truncate 8) ((offset >>> 8).truncate 8) ((offset >>> 16).truncate 8)
    ((offset >>> 24).truncate 8 ||| 0xE0)
  ⟨s.mem.put dst sectsize fun i => disk (sectsize * sector + i.toNat), s.dsts ++ [dst]⟩

/-- `while (pa < end_pa)` -/
def readsegLoop (disk : DiskData) (end_pa : Word) : ℕ → Word → Word → SectMem → Option SectMem
  | 0, _, _, _ => none
  | k + 1, pa, offset, s =>
      if pa < end_pa then
        readsegLoop disk end_pa k (pa + 0x200#32) (offset + 1) (readsect disk pa offset s)
      else some s

def readseg (disk : DiskData) (fuel : ℕ) (pa count offset : Word) (s : SectMem) : Option SectMem :=
  let end_pa := pa + count
  let pa := pa &&& ~~~0x1FF#32
  let offset := offset / 0x200#32 + 1
  readsegLoop disk end_pa fuel pa offset s

/-! ### The sectors -/

variable {disk : DiskData} {m : ByteMem} {s : SectMem} {pa count offset end_pa a : Word}
  {k n fuel : ℕ}

theorem lba_eq (h : offset.toNat < 268435456) :
    lba (offset.truncate 8) ((offset >>> 8).truncate 8) ((offset >>> 16).truncate 8)
      ((offset >>> 24).truncate 8 ||| 0xE0) = offset.toNat := by
  have hor : ∀ b : BitVec 8, (b ||| 0xE0).toNat % 16 = b.toNat % 16 := by decide +kernel
  unfold lba
  rw [hor]
  simp only [BitVec.truncate_eq_setWidth, BitVec.toNat_setWidth, BitVec.toNat_ushiftRight,
    Nat.shiftRight_eq_div_pow]
  omega

/-- `n` sectors from sector `k` on, at `pa`. -/
def sectors (disk : DiskData) (k : ℕ) (m : ByteMem) (pa : Word) (n : ℕ) : ByteMem :=
  m.put pa (sectsize * n) fun i => disk (sectsize * k + i.toNat)

theorem sectors_of_in (h : InBytes pa (sectsize * n) a) :
    sectors disk k m pa n a = disk (sectsize * k + (a.toNat - pa.toNat)) := by
  have hoffset : (a - pa).toNat = a.toNat - pa.toNat :=
    BitVec.toNat_sub_of_le (BitVec.le_def.mpr h.1)
  exact (ByteMem.put_of_in h).trans (by rw [hoffset])

theorem sectors_of_not_in (h : ¬ InBytes pa (sectsize * n) a) : sectors disk k m pa n a = m a :=
  ByteMem.put_of_not_in h

/-- One sector, and then the others. -/
theorem sectors_succ (h : pa.toNat + sectsize * (n + 1) ≤ 2 ^ 32) :
    sectors disk (k + 1) (sectors disk k m pa 1) (pa + 0x200#32) n =
      sectors disk k m pa (n + 1) := by
  unfold sectsize at h
  rcases Nat.eq_zero_or_pos n with rfl | hn
  · exact ByteMem.put_zero _
  · have hnext : (pa + 0x200#32).toNat = pa.toNat + 512 := by
      rw [BitVec.toNat_add, BitVec.toNat_ofNat]
      omega
    have hrange (a : Word) : InBytes pa (sectsize * (n + 1)) a ↔
        InBytes pa (sectsize * 1) a ∨ InBytes (pa + 0x200#32) (sectsize * n) a := by
      unfold InBytes sectsize
      omega
    funext a
    by_cases hlater : InBytes (pa + 0x200#32) (sectsize * n) a
    · have hle := hlater.1
      rw [sectors_of_in hlater, sectors_of_in ((hrange a).mpr (Or.inr hlater)), hnext]
      unfold sectsize
      exact congrArg disk (by omega)
    · rw [sectors_of_not_in hlater]
      by_cases hfirst : InBytes pa (sectsize * 1) a
      · rw [sectors_of_in hfirst, sectors_of_in ((hrange a).mpr (Or.inl hfirst))]
      · rw [sectors_of_not_in hfirst,
          sectors_of_not_in fun hin => ((hrange a).mp hin).elim hfirst hlater]

theorem readsect_eq (h : offset.toNat < 268435456) :
    readsect disk pa offset s =
      ⟨sectors disk offset.toNat s.mem pa 1, s.dsts ++ [pa]⟩ := by
  unfold readsect
  rw [lba_eq h]
  rfl

/-- The addresses of `n` sectors. -/
def dstsFrom (pa : Word) (n : ℕ) : List Word :=
  (List.range n).map fun i => pa + BitVec.ofNat 32 (sectsize * i)

theorem dstsFrom_succ : dstsFrom pa (n + 1) = pa :: dstsFrom (pa + 0x200#32) n := by
  unfold dstsFrom
  rw [List.range_succ_eq_map, List.map_cons, List.map_map]
  refine congrArg₂ List.cons (BitVec.add_zero pa) (List.map_congr_left fun i _ => ?_)
  change pa + BitVec.ofNat 32 (sectsize * (i + 1)) = pa + 0x200#32 + BitVec.ofNat 32 (sectsize * i)
  rw [Nat.mul_add, Nat.add_comm, BitVec.ofNat_add, add_assoc]
  rfl

/-- The loop reads the sectors that begin before the end. -/
theorem readsegLoop_eq (hfit : pa.toNat + sectsize * n < 2 ^ 32)
    (hend : end_pa.toNat ≤ pa.toNat + sectsize * n)
    (hbefore : ∀ i < n, pa.toNat + sectsize * i < end_pa.toNat)
    (hoffset : offset.toNat + n < 268435456) (hfuel : n < fuel) :
    readsegLoop disk end_pa fuel pa offset s =
      some ⟨sectors disk offset.toNat s.mem pa n, s.dsts ++ dstsFrom pa n⟩ := by
  induction n generalizing fuel pa offset s with
  | zero =>
      obtain ⟨fuel, rfl⟩ : ∃ k, fuel = k + 1 := ⟨fuel - 1, by omega⟩
      have hstop : ¬ pa < end_pa := by
        rw [BitVec.lt_def]
        omega
      have hsame : sectors disk offset.toNat s.mem pa 0 = s.mem := ByteMem.put_zero _
      rw [readsegLoop, if_neg hstop, hsame]
      exact congrArg (fun dsts => some (SectMem.mk s.mem dsts)) (List.append_nil _).symm
  | succ n ih =>
      obtain ⟨fuel, rfl⟩ : ∃ k, fuel = k + 1 := ⟨fuel - 1, by omega⟩
      unfold sectsize at hfit hend hbefore
      have hgo : pa < end_pa := BitVec.lt_def.mpr (hbefore 0 (Nat.succ_pos n))
      have hpa : (pa + 0x200#32).toNat = pa.toNat + 512 := by
        rw [BitVec.toNat_add, BitVec.toNat_ofNat]
        omega
      have hnext : (offset + 1).toNat = offset.toNat + 1 := by
        rw [BitVec.toNat_add, show (1 : Word).toNat = 1 from rfl]
        omega
      rw [readsegLoop, if_pos hgo, readsect_eq (by omega),
        ih (by unfold sectsize; omega) (by unfold sectsize; omega)
          (fun i hi => by
            have hi' := hbefore (i + 1) (by omega)
            unfold sectsize
            omega) (by omega) (by omega),
        hnext, sectors_succ (by unfold sectsize; omega), dstsFrom_succ, List.append_assoc]
      rfl

/-! ### The segment -/

/-- An address of a sector that has been read. -/
def SectMem.Written (s : SectMem) (a : Word) : Prop := ∃ dst ∈ s.dsts, InBytes dst sectsize a

/-- The segment is in its place, and of the other bytes only those of the first
and the last sector are written. -/
structure SegLoaded (disk : DiskData) (pa count offset : Word) (m : ByteMem) (s : SectMem) :
    Prop where
  bytes : ∀ i < count.toNat, s.mem (pa + BitVec.ofNat 32 i) = imageByte disk (offset.toNat + i)
  sectors : ∀ a, s.Written a → pa.toNat / sectsize * sectsize ≤ a.toNat ∧
    a.toNat < (pa.toNat + count.toNat + (sectsize - 1)) / sectsize * sectsize
  near : ∀ a, s.Written a → pa.toNat < a.toNat + sectsize ∧
    a.toNat < pa.toNat + count.toNat + sectsize
  frame : ∀ a, ¬ s.Written a → s.mem a = m a

theorem mem_dstsFrom {dst : Word} (h : dst ∈ dstsFrom pa n)
    (hfit : pa.toNat + sectsize * n < 2 ^ 32) :
    ∃ i < n, dst.toNat = pa.toNat + sectsize * i := by
  obtain ⟨i, hi, rfl⟩ := List.mem_map.mp h
  have hi := List.mem_range.mp hi
  refine ⟨i, hi, ?_⟩
  unfold sectsize at hfit ⊢
  rw [BitVec.toNat_add, BitVec.toNat_ofNat]
  omega

/-- The sectors cover the range. -/
theorem written_iff (hfit : pa.toNat + sectsize * n < 2 ^ 32) :
    (SectMem.mk m (dstsFrom pa n)).Written a ↔ InBytes pa (sectsize * n) a := by
  constructor
  · rintro ⟨dst, hdst, hin⟩
    obtain ⟨i, hi, hnat⟩ := mem_dstsFrom hdst hfit
    unfold InBytes sectsize at *
    omega
  · intro hin
    obtain ⟨i, hi⟩ : ∃ i, i = (a.toNat - pa.toNat) / sectsize := ⟨_, rfl⟩
    unfold InBytes at hin
    have hlt : i < n := by
      unfold sectsize at *
      omega
    refine ⟨pa + BitVec.ofNat 32 (sectsize * i), List.mem_map.mpr ⟨i, List.mem_range.mpr hlt, rfl⟩,
      ?_⟩
    unfold InBytes
    rw [BitVec.toNat_add, BitVec.toNat_ofNat]
    unfold sectsize at *
    omega

/-- `readseg` ends, as soon as the sectors up to the end have been read. -/
theorem readseg_loads (hcong : pa.toNat % sectsize = offset.toNat % sectsize)
    (hfit : pa.toNat + count.toNat ≤ 2 ^ 32 - sectsize) (disk : DiskData) (m : ByteMem) :
    ∃ s, (∀ fuel, (count.toNat + 2 * sectsize) / sectsize < fuel →
        readseg disk fuel pa count offset ⟨m, []⟩ = some s) ∧
      SegLoaded disk pa count offset m s := by
  obtain ⟨start, hstart⟩ : ∃ start, start = pa &&& ~~~0x1FF#32 := ⟨_, rfl⟩
  obtain ⟨first, hfirst⟩ : ∃ first, first = offset / 0x200#32 + 1 := ⟨_, rfl⟩
  obtain ⟨n, hn⟩ : ∃ n, n = (pa.toNat + count.toNat + 511) / 512 - pa.toNat / 512 := ⟨_, rfl⟩
  unfold sectsize at hcong hfit
  have hstart' : start.toNat = pa.toNat / 512 * 512 := hstart ▸ and_not_low 9 pa
  have hend : (pa + count).toNat = pa.toNat + count.toNat := by
    rw [BitVec.toNat_add]
    omega
  have hfirst' : first.toNat = offset.toNat / 512 + 1 := by
    have hlt := offset.isLt
    rw [hfirst, BitVec.toNat_add, BitVec.toNat_udiv, show (0x200#32 : Word).toNat = 512 from rfl,
      show (1 : Word).toNat = 1 from rfl]
    omega
  have hoffset := offset.isLt
  have hroom : start.toNat + sectsize * n < 2 ^ 32 := by
    unfold sectsize
    omega
  refine ⟨⟨sectors disk first.toNat m start n, dstsFrom start n⟩, fun fuel hfuel => ?_, ?_⟩
  · unfold sectsize at hfuel
    have hloop := @readsegLoop_eq disk ⟨m, []⟩ start first (pa + count) n fuel hroom
      (by unfold sectsize; omega)
      (fun i hi => by
        unfold sectsize
        omega) (by omega) (by omega)
    unfold readseg
    rw [← hstart, ← hfirst]
    exact hloop
  · have hwritten (a : Word) := @written_iff (sectors disk first.toNat m start n) start a n hroom
    exact {
      bytes := fun i hi => by
        have ha : (pa + BitVec.ofNat 32 i).toNat = pa.toNat + i := by
          rw [BitVec.toNat_add, BitVec.toNat_ofNat]
          omega
        have hin : InBytes start (sectsize * n) (pa + BitVec.ofNat 32 i) := by
          unfold InBytes sectsize
          omega
        change sectors disk first.toNat m start n (pa + BitVec.ofNat 32 i) = _
        rw [sectors_of_in hin, imageByte, ha]
        unfold sectsize
        exact congrArg disk (by omega)
      sectors := fun a ha => by
        have hin := (hwritten a).mp ha
        unfold InBytes at hin
        unfold sectsize at *
        omega
      near := fun a ha => by
        have hin := (hwritten a).mp ha
        unfold InBytes at hin
        unfold sectsize at *
        omega
      frame := fun a ha => sectors_of_not_in fun hin => ha ((hwritten a).mpr hin) }

/-- A segment that neither begins nor ends with a sector. -/
theorem readseg_loads_segment : ∃ s,
    (∀ fuel, (BitVec.toNat (0x500 : Word) + 2 * sectsize) / sectsize < fuel →
      readseg (fun o => BitVec.ofNat 8 o) fuel 0x100100 0x500 0x1100 ⟨fun _ => 0, []⟩ = some s) ∧
      SegLoaded (fun o => BitVec.ofNat 8 o) 0x100100 0x500 0x1100 (fun _ => 0) s :=
  readseg_loads (by decide) (by decide) (fun o => BitVec.ofNat 8 o) fun _ => 0

end Jos
