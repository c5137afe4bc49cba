import Jos.Pmap.Invariant

/-!
When the walk of a page directory returns. `page_lookup` panics at a frame
past the end of physical memory and nowhere else, and what it returns
otherwise is read off the two entries it looks at.
-/

namespace Jos

open Jos.Lib

variable {n : ℕ} {M : Machine} {L : Layout M} {nullOk : Prop} {held : Option ℕ} {dirs : Dirs}
  {m : Mem n} {e : EnvIdx} {d t : ℕ} {va w : Word}

/-- The entry that the walk of directory `d` finds for `va`, if it is present. -/
def foundPte (m : Mem n) (d : ℕ) (va : Word) : Option Word :=
  (present (m.word d (pdx va))).bind fun pde => present (m.word (pteFrame pde) (ptx va))

/-- The walk meets no frame past the end of memory. -/
structure InMemory (M : Machine) (m : Mem n) (d : ℕ) (va : Word) : Prop where
  pde : pteFrame (m.word d (pdx va)) < M.npages
  pte : ∀ w, foundPte m d va = some w → pteFrame w < M.npages

theorem foundPte_of_flag (hP : Flag (m.word d (pdx va)) pteP) :
    foundPte m d va = present (m.word (pteFrame (m.word d (pdx va))) (ptx va)) := by
  rw [foundPte, present_of_flag hP]
  rfl

theorem foundPte_of_not_flag (hP : ¬ Flag (m.word d (pdx va)) pteP) : foundPte m d va = none := by
  rw [foundPte, present_of_not_flag hP]
  rfl

theorem kaddr_pte (h : pteFrame w < M.npages) : kaddr M (pteAddr w) = .ok (pteFrame w) :=
  if_neg (Nat.not_le.mpr h)

theorem pa2page_pte (h : pteFrame w < M.npages) : pa2page M (pteAddr w) = .ok (pteFrame w) :=
  if_neg (Nat.not_le.mpr h)

theorem pgdirWalk_found (h : pteFrame (m.word d (pdx va)) < M.npages) :
    pgdirWalk M d va false m =
      .ok ((present (m.word d (pdx va))).map fun pde => (pteFrame pde, ptx va), m) := by
  dsimp only [pgdirWalk]
  rw [kaddr_pte h]
  change (if Flag _ pteP then _ else _) = _
  split
  · rename_i hP
    rw [present_of_flag hP]
    rfl
  · rename_i hP
    rw [present_of_not_flag hP]
    rfl

theorem pageLookup_found (h : InMemory M m d va) :
    pageLookup M d va m =
      .ok ((present (m.word d (pdx va))).map fun pde => (pteFrame pde, ptx va),
        (foundPte m d va).map pteFrame) := by
  unfold pageLookup
  rw [pgdirWalk_found h.pde]
  by_cases hP : Flag (m.word d (pdx va)) pteP
  · have hfound := foundPte_of_flag hP
    rw [present_of_flag hP]
    change (if ¬ Flag _ pteP then _ else _) = _
    split
    · rename_i hpte
      rw [hfound, present_of_not_flag hpte]
      rfl
    · rename_i hpte
      rw [present_of_flag (not_not.mp hpte)] at hfound
      rw [pa2page_pte (h.pte _ hfound), hfound]
      rfl
  · rw [foundPte_of_not_flag hP, present_of_not_flag hP]
    rfl

/-- `page_lookup` panics nowhere else. -/
theorem inMemory_of_pageLookup {r : Option (ℕ × PtIdx) × Option ℕ}
    (h : pageLookup M d va m = .ok r) : InMemory M m d va := by
  have hpde : pteFrame (m.word d (pdx va)) < M.npages := by
    unfold pageLookup pgdirWalk at h
    simp only [bind_eq_ok, kaddr_eq_ok] at h
    obtain ⟨-, ⟨-, ⟨hlt, -⟩, -⟩, -⟩ := h
    exact hlt
  refine ⟨hpde, fun w hw => ?_⟩
  obtain ⟨r, page⟩ := r
  rcases pageLookup_ok h with ⟨hP, -⟩ | ⟨hP, -, ⟨hpte, -⟩ | ⟨hpte, hlt, -⟩⟩
  · rw [foundPte_of_not_flag hP] at hw
    cases hw
  · rw [foundPte_of_flag hP, present_of_not_flag hpte] at hw
    cases hw
  · rw [foundPte_of_flag hP, present_of_flag hpte] at hw
    rwa [← Option.some.inj hw]

theorem pageLookup_outside (h : ¬ InMemory M m d va) :
    ∃ msg, pageLookup M d va m = .error msg := by
  cases hlook : pageLookup M d va m with
  | ok r => exact absurd (inMemory_of_pageLookup hlook) h
  | error msg => exact ⟨msg, rfl⟩

/-- Below `UTOP` the walk finds the mappings of the address space. -/
theorem foundPte_eq_mapping (hd : dirs e = some d) (hi : (pdx va : ℕ) < 955) :
    foundPte m d va = mapping m.word dirs e (pdx va) (ptx va) := by
  unfold mapping
  rw [tableAt_of_dir hi hd]
  unfold foundPte
  cases present (m.word d (pdx va)) <;> rfl

end Jos
