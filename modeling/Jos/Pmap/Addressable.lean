import Jos.Pmap.PageInit
import Jos.Ulib.Strings

/-!
The kernel addresses of physical pages. `KADDR` accepts every address of a page
that exists, but the window above `KERNBASE` ends after 256 MB: the address of a
page beyond wraps around and belongs to another page, or to a user program.
-/

namespace Jos

open Jos.Lib

variable {n npages i : ℕ} {m : Mem n} {pa kva lim : Word}

/-! ### Kernel addresses -/

namespace Kva

/-- `_kaddr` -/
def kaddr (npages : ℕ) (pa : Word) : Except String Word :=
  if npages ≤ pgnum pa then .error "KADDR called with invalid pa" else .ok (pa + kernbase)

def pa2page (npages : ℕ) (pa : Word) : Except String ℕ :=
  if npages ≤ pgnum pa then .error "pa2page called with invalid pa" else .ok (pgnum pa)

def page2kva (npages pp : ℕ) : Except String Word := kaddr npages (frame2pa pp)

end Kva

/-- Up to 256 MB a kernel address stands for one frame. -/
theorem kaddr_frame {M : Machine} (h : Kva.kaddr M.npages pa = .ok kva) :
    paddr kva = .ok pa ∧ kaddr M pa = .ok (pgnum pa) := by
  unfold Kva.kaddr at h
  split at h
  · cases h
  · rename_i hlt
    have hkva : pa + kernbase = kva := Except.ok.inj h
    have hbase : kernbase.toNat = 4026531840 := rfl
    have hle := M.npages_le
    have hge : kernbase ≤ pa + kernbase := by
      rw [pgnum_eq] at hlt
      rw [BitVec.le_def, BitVec.toNat_add]
      omega
    rw [← hkva]
    exact ⟨paddr_eq_ok.mpr ⟨hge, (BitVec.add_sub_cancel ..).symm⟩, if_neg hlt⟩

/-! ### Free pages -/

/-- The page has a kernel address, which leads back to it, and clearing the page
there writes to its frame only. -/
def Addressable (npages pp : ℕ) : Prop :=
  ∃ kva, Kva.page2kva npages pp = .ok kva ∧ kernbase ≤ kva ∧ paddr kva = .ok (frame2pa pp) ∧
    Kva.pa2page npages (frame2pa pp) = .ok pp ∧
    ∀ (mem : ByteMem) (a : Word), memsetAsm kva 0 pgsize mem a ≠ mem a →
      kernbase ≤ a ∧ pgnum (a - kernbase) = pp

/-- The pages in the window. -/
theorem addressable_iff (hi : i < npages) : Addressable npages i ↔ i < 65536 := by
  have hbase : kernbase.toNat = 4026531840 := rfl
  have hpa := frame2pa_toNat i
  constructor
  · rintro ⟨kva, hkva, hge, -, hpage, -⟩
    unfold Kva.page2kva Kva.kaddr at hkva
    unfold Kva.pa2page at hpage
    split at hpage
    · cases hpage
    · rename_i hlt
      rw [if_neg hlt] at hkva
      have hsame : pgnum (frame2pa i) = i := Except.ok.inj hpage
      have hsum : frame2pa i + kernbase = kva := Except.ok.inj hkva
      rw [pgnum_eq] at hsame
      rw [← hsum, BitVec.le_def, BitVec.toNat_add] at hge
      omega
  · intro hwindow
    have hnum : pgnum (frame2pa i) = i := by
      rw [pgnum_eq]
      omega
    have hkva : (frame2pa i + kernbase).toNat = 4026531840 + i * 4096 := by
      rw [BitVec.toNat_add]
      omega
    have hge : kernbase ≤ frame2pa i + kernbase := by
      rw [BitVec.le_def]
      omega
    have hpaddr : paddr (frame2pa i + kernbase) = .ok (frame2pa i) := by
      rw [paddr_eq_ok]
      exact ⟨hge, (BitVec.add_sub_cancel ..).symm⟩
    refine ⟨frame2pa i + kernbase, ?_, hge, hpaddr, ?_, ?_⟩
    · rw [Kva.page2kva, Kva.kaddr, hnum, if_neg (Nat.not_le.mpr hi)]
    · rw [Kva.pa2page, hnum, if_neg (Nat.not_le.mpr hi)]
    · intro mem a hwritten
      have hpg : pgsize.toNat = 4096 := rfl
      rw [memsetAsm_spec (by omega)] at hwritten
      have hin : InBytes (frame2pa i + kernbase) pgsize.toNat a := by
        by_contra hout
        exact hwritten (ByteMem.put_of_not_in hout)
      unfold InBytes at hin
      rw [pgnum_eq, BitVec.le_def, BitVec.toNat_sub]
      have ha := a.isLt
      omega

/-- The list after `page_init`, on a machine of any size, holds pages that the
kernel can address if and only if there are no more than 256 MB. -/
theorem free_pages_addressable_iff (basemem extmem ext16 : BitVec 16) {nextfree : Word}
    (hlim : paddr nextfree = .ok lim) (m : Mem n) :
    (∀ l, Linked (fun p => ((pageInitUpTo (i386DetectMemory basemem extmem ext16) (pgnum lim)
          m.cleared).pages p).ppLink)
        (pageInitUpTo (i386DetectMemory basemem extmem ext16) (pgnum lim) m.cleared).pageFreeList
        l →
      ∀ i ∈ l, Addressable (i386DetectMemory basemem extmem ext16) i) ↔
      i386DetectMemory basemem extmem ext16 ≤ 65536 := by
  generalize i386DetectMemory basemem extmem ext16 = npages at *
  obtain ⟨l, hl, -, hmem, -⟩ := pageInitUpTo_list npages (pgnum lim) m
  have hmp : pgnum mpentryPaddr = 7 := rfl
  have hbase : kernbase.toNat = 4026531840 := rfl
  have hlim' : pgnum lim < 65536 := by
    obtain ⟨hge, rfl⟩ := paddr_eq_ok.mp hlim
    have hlt := nextfree.isLt
    rw [BitVec.le_def] at hge
    rw [pgnum_eq, BitVec.toNat_sub]
    omega
  constructor
  · intro hall
    by_contra hmore
    -- the first page beyond the window is free
    have hfree : 65536 ∈ l := (hmem 65536).mpr ⟨by omega, by
      unfold Reserved
      omega⟩
    exact absurd ((addressable_iff (by omega)).mp (hall l hl 65536 hfree)) (Nat.lt_irrefl _)
  · intro hle l' hl' i hi
    obtain rfl := hl'.unique hl
    have hin := ((hmem i).mp hi).1
    exact (addressable_iff hin.2).mpr (by omega)

/-- 128 MB. -/
theorem free_pages_addressable_iff_128 : i386DetectMemory 640 65535 1792 = 32768 ∧ ∀ l,
    Linked (fun p => ((pageInitUpTo (i386DetectMemory 640 65535 1792) (pgnum 0x1B8000)
        (zeroMem 1).cleared).pages p).ppLink)
      (pageInitUpTo (i386DetectMemory 640 65535 1792) (pgnum 0x1B8000)
        (zeroMem 1).cleared).pageFreeList l →
      ∀ i ∈ l, Addressable (i386DetectMemory 640 65535 1792) i := by
  have hlim : paddr 0xF01B8000 = .ok 0x1B8000 := paddr_eq_ok.mpr ⟨by decide, by decide⟩
  exact ⟨by decide, (free_pages_addressable_iff 640 65535 1792 hlim (zeroMem 1)).mpr (by decide)⟩

/-- With 257 MB `page_init` is reached, and frees a page that it cannot
address. -/
theorem not_free_pages_addressable : ¬ ∀ (basemem extmem ext16 : BitVec 16) (img : Image)
    (b : Boot) (lim : Word) (m : Mem 1) (l : List ℕ),
    bootArrays img (i386DetectMemory basemem extmem ext16) = .ok b →
    paddr b.nextfree = .ok lim →
    Linked (fun p => ((pageInitUpTo (i386DetectMemory basemem extmem ext16) (pgnum lim)
        m.cleared).pages p).ppLink)
      (pageInitUpTo (i386DetectMemory basemem extmem ext16) (pgnum lim) m.cleared).pageFreeList l →
    ∀ i ∈ l, Addressable (i386DetectMemory basemem extmem ext16) i := by
  intro hall
  have hdetect : i386DetectMemory 640 65535 3856 = 65792 := by decide
  let b : Boot := ⟨0xF0158000#32, 0xF0159000#32, 0xF01DA000#32, 0xF01F9000#32⟩
  have hb : bootArrays sampleImage 65792 = .ok b := rfl
  have hlim : paddr 0xF01F9000 = .ok 0x1F9000 := paddr_eq_ok.mpr ⟨by decide, by decide⟩
  obtain ⟨l, hl, -, hmem, -⟩ := pageInitUpTo_list 65792 (pgnum 0x1F9000) (zeroMem 1)
  have hfree : 65536 ∈ l := (hmem 65536).mpr ⟨by decide, by decide⟩
  have hpage := hall 640 65535 3856 sampleImage b 0x1F9000 (zeroMem 1) l
  rw [hdetect] at hpage
  exact absurd ((addressable_iff (by decide)).mp (hpage hb hlim hl 65536 hfree))
    (Nat.lt_irrefl _)

end Jos
