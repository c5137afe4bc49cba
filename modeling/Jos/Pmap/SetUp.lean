import Jos.Pmap.Returns
import Jos.Pmap.Spaces

/-!
`env_setup_vm` from memory in order. It needs two pages, one for the directory
and one for the page table of the VGA buffer, and it asserts that it gets the
second.
-/

namespace Jos

open Jos.Lib

variable {n : ℕ} {M : Machine} {L : Layout M} {nullOk : Prop} {dirs : Dirs} {m m' : Mem n}
  {x : Ctx n} {e : EnvIdx} {p q : ℕ}

/-- Page `p` made a copy of the kernel's directory, with its entry at `UVPT`. -/
def Mem.newDir (M : Machine) (m : Mem n) (p : ℕ) : Mem n :=
  ((m.fill p (m.word M.kernPgdir)).setRef p (m.pool.ref p + 1)).store p (pdx uvpt)
    (frame2pa p ||| pteP ||| pteU)

theorem Tidy.newDir (h : Tidy L nullOk none dirs m) (he : dirs e = none) (hp : L.pool p)
    (hoff : ¬ m.pool.On p) (hunref : pageRefs m.word dirs p = 0) :
    Tidy L nullOk none (Function.update dirs e (some p)) (m.newDir M p) := by
  have hplain : Plain m.word dirs p := plain_of_unref hunref
  refine ⟨(newDir_spec h.toMemInv he hp hoff hunref).1, ?_, fun {e' d'} hd' {i} hi hP => ?_,
    h.vga⟩
  · simp only [Mem.newDir, pool_store, pool_setRef, pool_fill]
    exact h.unlinked.setRef
  · by_cases he' : e' = e
    · subst he'
      rw [Function.update_self] at hd'
      obtain rfl := Option.some.inj hd'
      have hne : i ≠ pdx uvpt := by
        rintro rfl
        exact absurd hi (by decide)
      simp only [Mem.newDir, word_store, word_setRef, word_fill, Function.update_self,
        Function.update_of_ne hne]
      rw [h.tables.kern L.pgdir_not_counted]
      exact L.pgdir_user hi
    · rw [Function.update_of_ne he'] at hd'
      have hword (f : ℕ) (hf : f ≠ p) : (m.newDir M p).word f = m.word f := by
        simp only [Mem.newDir, word_store, word_setRef, word_fill, Function.update_of_ne hf]
      exact clear_of_word h hplain hword hd' hi hP

/-- `env_setup_vm` with the first free page as directory. -/
theorem envSetupVm_eq (h : Tidy L nullOk none dirs m) (hhead : m.pageFreeList = some p) :
    envSetupVm M x m =
      pageInsert M x p (some vgaFrame) vgaUser (pteP ||| pteU ||| pteW ||| pteMapped)
        (((m.pop p).fill p fun _ => 0#32).newDir M p) >>= fun a =>
      if a.1 ≠ 0 then
        .error "assertion failed: !page_insert(e->env_pgdir,page,(void*) VGA_USER, ...)"
      else .ok (some p, a.2) := by
  have hpool := (h.refs_of_on (h.counts.on_head hhead)).1
  have hframe : pgnum (frame2pa p) = p := pgnum_frame2pa (L.frame_lt hpool)
  have hdir : kaddr M (frame2pa p) = .ok p :=
    kaddr_eq_ok.mpr ⟨hframe.symm ▸ L.pool_lt hpool, hframe.symm⟩
  have hvga : pa2page M vgaPhysaddr = .ok vgaFrame :=
    pa2page_eq_ok.mpr ⟨pgnum_vgaPhysaddr.symm ▸ h.vga, pgnum_vgaPhysaddr.symm⟩
  unfold envSetupVm
  rw [bind_of_ok (pageAlloc_returns h hhead)]
  dsimp only
  rw [bind_of_ok hdir, bind_of_ok hvga]
  rfl

/-- The first free page, taken off the list and made a directory. -/
theorem newDir_popped (h : Tidy L nullOk none dirs m) (he : dirs e = none)
    (hhead : m.pageFreeList = some p) :
    Tidy L nullOk none (Function.update dirs e (some p))
      (((m.pop p).fill p fun _ => 0#32).newDir M p) := by
  have halloc := pageAlloc_returns h hhead
  have hal := pageAlloc_spec h.toMemInv halloc
  exact (h.allocated halloc).newDir he hal.pool hal.off hal.unref

theorem newDir_empty (h : Tidy L nullOk none dirs m) (he : dirs e = none)
    (hhead : m.pageFreeList = some p) (i : PtIdx) :
    tableAt (((m.pop p).fill p fun _ => 0#32).newDir M p).word
      (Function.update dirs e (some p)) e i = none := by
  have hal := pageAlloc_spec h.toMemInv (pageAlloc_returns h hhead)
  exact (newDir_spec hal.inv he hal.pool hal.off hal.unref).2.1 i

/-! ### How many pages are left -/

theorem envSetupVm_full (hfree : m.pageFreeList = none) :
    envSetupVm M x m = .ok (none, m) := by
  simp only [envSetupVm, pageAlloc, hfree]
  rfl

/-- The page table of the VGA buffer cannot be had. -/
theorem envSetupVm_one (h : Tidy L nullOk none dirs m) (he : dirs e = none)
    (hhead : m.pageFreeList = some p) (hlast : (m.pages p).ppLink = none) :
    envSetupVm M x m =
      .error "assertion failed: !page_insert(e->env_pgdir,page,(void*) VGA_USER, ...)" := by
  have hdir := newDir_popped h he hhead
  have hfull : pageInsert M x p (some vgaFrame) vgaUser (pteP ||| pteU ||| pteW ||| pteMapped)
      (((m.pop p).fill p fun _ => 0#32).newDir M p) = _ :=
    pageInsert_full hdir (Function.update_self _ _ _) (by decide)
      (newDir_empty h he hhead (pdx vgaUser)) hlast
  rw [envSetupVm_eq h hhead, bind_of_ok hfull]
  rfl

theorem envSetupVm_two (h : Tidy L nullOk none dirs m) (he : dirs e = none)
    (hhead : m.pageFreeList = some p) (hnext : (m.pages p).ppLink = some q) :
    ∃ m', envSetupVm M x m = .ok (some p, m') := by
  have hdir := newDir_popped h he hhead
  have hempty := newDir_empty (M := M) h he hhead (pdx vgaUser)
  have hvga : ¬ (((m.pop p).fill p fun _ => 0#32).newDir M p).pool.On vgaFrame := fun hon =>
    L.pool_ne_vga (hdir.refs_of_on hon).1
  have hlist : (((m.pop p).fill p fun _ => 0#32).newDir M p).pageFreeList = some q := hnext
  have hi : (pdx vgaUser : ℕ) < 955 := by decide
  obtain ⟨m', hinsert, -⟩ : ∃ m', pageInsert M x p (some vgaFrame) vgaUser
      (pteP ||| pteU ||| pteW ||| pteMapped) _ = .ok (0, m') ∧ _ :=
    pageInsert_returns hdir (Function.update_self _ _ _) hi hvga (Or.inr (by simp [hlist]))
      fun w hw => by
        rw [mapping_of_none hempty] at hw
        cases hw
  exact ⟨m', (envSetupVm_eq h hhead).trans (bind_of_ok hinsert)⟩

/-- The new address space leaves memory tidy. -/
theorem Tidy.setUp (h : Tidy L nullOk none dirs m) (he : dirs e = none)
    (hrun : envSetupVm M x m = .ok (some p, m')) :
    Tidy L nullOk none (Function.update dirs e (some p)) m' := by
  have hset := envSetupVm_spec h.toMemInv he hrun
  cases hfree : m.pageFreeList with
  | none =>
      rw [envSetupVm_full hfree] at hrun
      cases hrun
  | some q =>
      rw [envSetupVm_eq h hfree] at hrun
      obtain ⟨⟨r, m₁⟩, hinsert, hrun⟩ := bind_eq_ok.mp hrun
      split at hrun
      · cases hrun
      · cases hrun
        have hdir := newDir_popped h he hfree
        have hi : (pdx vgaUser : ℕ) < 955 := by decide
        refine hdir.inserted (Function.update_self _ _ _) hi (fun p hp hon => ?_)
          (fun hnone => by cases hnone) hset.inv hinsert
        obtain rfl := Option.some.inj hp
        exact L.pool_ne_vga (hdir.refs_of_on hon).1

/-- The new address space has one page table, that of the VGA buffer. -/
theorem envSetupVm_tables (h : Tidy L nullOk none dirs m) (he : dirs e = none)
    (hrun : envSetupVm M x m = .ok (some p, m')) {i : PtIdx} (hi : i ≠ pdx vgaUser) :
    tableAt m'.word (Function.update dirs e (some p)) e i = none := by
  cases hfree : m.pageFreeList with
  | none =>
      rw [envSetupVm_full hfree] at hrun
      cases hrun
  | some q =>
      rw [envSetupVm_eq h hfree] at hrun
      obtain ⟨⟨r, m₁⟩, hinsert, hrun⟩ := bind_eq_ok.mp hrun
      split at hrun
      · cases hrun
      · rename_i hr
        cases hrun
        obtain rfl : r = 0 := not_not.mp hr
        have hdir := newDir_popped h he hfree
        have hempty := newDir_empty (M := M) h he hfree
        have hins := pageInsert_spec hdir.toMemInv (Function.update_self _ _ _) (by decide)
          (Or.inr rfl) ⟨fun e' hd => L.pool_ne_vga (hdir.tables.dir hd),
            fun e' i ht => L.pool_ne_vga (hdir.tables.table ht)⟩
          (fun hon => L.pool_ne_vga (hdir.refs_of_on hon).1) (by decide) (fun v hv => by
            rw [mapping_of_none (hempty (pdx vgaUser))] at hv
            cases hv) hinsert
        rw [hins.otherTables e i fun heq => hi heq.2]
        exact hempty i

end Jos
