import Jos.System.Boot

/-!
Page tables as finite maps. The directories that `env_setup_vm` makes, and the
tables `page_insert` adds to them, are frames like any others, but seen through
the two-level walk each call writes one entry of one map and no other.
-/

namespace Jos

open Jos.Lib

variable {n : ℕ} {M : Machine}

/-- What the two-level walk finds: a frame and the permission bits. -/
def lookup (m : Mem n) (pgdir : ℕ) (va : Word) : Option (ℕ × Word) :=
  let pde := m.word pgdir (pdx va)
  let pte := m.word (pteFrame pde) (ptx va)
  if Flag pde pteP ∧ Flag pte pteP then some (pteFrame pte, pte &&& 0xFFF#32) else none

/-- Memory, and the page directories that have been set up. -/
structure PageDirs (n : ℕ) where
  mem : Mem n
  dirs : Dirs

namespace PageDirs

/-- The map of directory `e`. -/
def entry (s : PageDirs n) (e : EnvIdx) (va : Word) : Option (ℕ × Word) :=
  (s.dirs e).bind fun pgdir => lookup s.mem pgdir va

inductive Op where
  | alloc (allocZero : Bool)
  | setup (e : EnvIdx)
  | insert (e : EnvIdx) (pp : ℕ) (va perm : Word)
  | remove (e : EnvIdx) (va : Word)

/-- A page that was handed out and is neither a directory nor a page table. A
directory is a page table too, that of the addresses from `UVPT` on. -/
def Usable (L : Layout M) (s : PageDirs n) (pp : ℕ) : Prop :=
  L.counted pp ∧ ¬ s.mem.pool.On pp ∧ Plain s.mem.word s.dirs pp

/-- The count of the page can be incremented. -/
def NoOverflow (s : PageDirs n) (pp : ℕ) : Prop := (s.mem.pages pp).ppRef + 1 ≠ 0

instance (s : PageDirs n) (pp : ℕ) : Decidable (s.NoOverflow pp) := by
  unfold NoOverflow
  infer_instance

def Legal (L : Layout M) (s : PageDirs n) : Op → Prop
  | .alloc _ => True
  | .setup e => s.dirs e = none ∧ s.NoOverflow vgaFrame
  | .insert e pp va perm =>
      s.dirs e ≠ none ∧ s.Usable L pp ∧ s.NoOverflow pp ∧ va < utop ∧ perm < 0x1000#32
  | .remove e va => s.dirs e ≠ none ∧ va < utop

/-- A call on the CPU of `x`: the value it returns, which is an error code or 0,
and the state after it. -/
def exec (M : Machine) (x : Ctx n) (s : PageDirs n) : Op → Except String (Word × PageDirs n)
  | .alloc allocZero => do
      let (_, m) ← pageAlloc M allocZero s.mem
      .ok (0, ⟨m, s.dirs⟩)
  | .setup e => do
      match ← envSetupVm M x s.mem with
      | (some pgdir, m) => .ok (0, ⟨m, Function.update s.dirs e (some pgdir)⟩)
      | (none, m) => .ok (-eNoMem, ⟨m, s.dirs⟩)
  | .insert e pp va perm =>
      match s.dirs e with
      | none => .error "no page directory"
      | some pgdir => do
          let (r, m) ← pageInsert M x pgdir (some pp) va perm s.mem
          .ok (r, ⟨m, s.dirs⟩)
  | .remove e va =>
      match s.dirs e with
      | none => .error "no page directory"
      | some pgdir => do
          let m ← pageRemove M x pgdir va s.mem
          .ok (0, ⟨m, s.dirs⟩)

def Step (L : Layout M) (x : Ctx n) (s : PageDirs n) (op : Op) (r : Word) (t : PageDirs n) :
    Prop :=
  s.Legal L op ∧ s.exec M x op = .ok (r, t)

/-- Two states have the same maps below `UTOP`. -/
def SameMaps (s t : PageDirs n) : Prop :=
  ∀ e va, va < utop → t.entry e va = s.entry e va

/-- The entry of the page of `va` becomes `v`, and all others stay. -/
def Writes (s t : PageDirs n) (e : EnvIdx) (va : Word) (v : Option (ℕ × Word)) : Prop :=
  ∀ e' va', va' < utop →
    t.entry e' va' = if e' = e ∧ pgnum va' = pgnum va then v else s.entry e' va'

/-- What a call does to the maps. -/
def Spec (s t : PageDirs n) (r : Word) : Op → Prop
  | .alloc _ => s.SameMaps t
  | .setup e =>
      r = 0 ∧ (∀ e' va, va < utop → t.entry e' va =
        if e' = e then
          if pgnum va = pgnum vgaUser then some (vgaFrame, pteP ||| pteU ||| pteW ||| pteMapped)
          else none
        else s.entry e' va) ∨ r = -eNoMem ∧ t = s
  | .insert e pp va perm =>
      r = 0 ∧ s.Writes t e va (some (pp, perm ||| pteP)) ∨ r = -eNoMem ∧ t = s
  | .remove e va => s.Writes t e va none

/-! ### The walk and the mappings -/

variable {L : Layout M} {x : Ctx n} {s t : PageDirs n} {op : Op} {r : Word} {e : EnvIdx}

theorem entry_eq {va : Word} (hva : va < utop) :
    s.entry e va = (mapping s.mem.word s.dirs e (pdx va) (ptx va)).map
      fun w => (pteFrame w, w &&& 0xFFF#32) := by
  unfold entry
  cases hd : s.dirs e with
  | none => simp [hd]
  | some d =>
      have htable : tableAt s.mem.word s.dirs e (pdx va) =
          (present (s.mem.word d (pdx va))).map pteFrame :=
        tableAt_of_dir (pdx_lt_of_lt_utop hva) hd
      simp only [Option.bind_some, lookup]
      by_cases hpde : Flag (s.mem.word d (pdx va)) pteP
      · rw [present_of_flag hpde] at htable
        rw [mapping_of_table htable]
        by_cases hpte : Flag (s.mem.word (pteFrame (s.mem.word d (pdx va))) (ptx va)) pteP
        · simp [hpde, hpte, present_of_flag hpte]
        · simp [hpte, present_of_not_flag hpte]
      · rw [present_of_not_flag hpde] at htable
        simp [hpde, mapping_of_none htable]

/-- The low bits of a new entry. -/
theorem mkPte_low {i : ℕ} {perm : Word} (hperm : perm < 0x1000#32) :
    mkPte (frame2pa i) perm &&& 0xFFF#32 = perm ||| pteP := by
  have hlow : ∀ j, 12 ≤ j → (perm ||| pteP).getLsbD j = false :=
    low_bits_of_lt (flags_lt hperm (by decide))
  have hmask : ∀ j, j < 12 → (0xFFF#32 : Word).getLsbD j = true := by decide
  have hmask' : ∀ j, 12 ≤ j → (0xFFF#32 : Word).getLsbD j = false := low_bits_of_lt (by decide)
  apply BitVec.eq_of_getLsbD_eq
  intro j _
  rw [mkPte, BitVec.or_assoc, BitVec.getLsbD_and, BitVec.getLsbD_or]
  by_cases hj : j < 12
  · rw [getLsbD_frame2pa hj, hmask j hj, Bool.false_or, Bool.and_true]
  · rw [hlow j (by omega), hmask' j (by omega), Bool.and_false]

/-- The same page is the same pair of indexes. -/
theorem pgnum_eq_iff {va va' : Word} :
    pgnum va' = pgnum va ↔ pdx va' = pdx va ∧ ptx va' = ptx va := by
  have hlt : (ptx va : ℕ) < 1024 := (ptx va).isLt
  have hlt' : (ptx va' : ℕ) < 1024 := (ptx va').isLt
  rw [pgnum_indexes, pgnum_indexes, Fin.ext_iff, Fin.ext_iff]
  omega

theorem sameMaps_of_maps
    (h : ∀ e i j, mapping t.mem.word t.dirs e i j = mapping s.mem.word s.dirs e i j) :
    s.SameMaps t := fun e va hva => by
  rw [entry_eq hva, entry_eq hva, h]

theorem writes_of_maps {va : Word} {w : Option Word}
    (h : ∀ e' i j, mapping t.mem.word t.dirs e' i j =
      if e' = e ∧ i = pdx va ∧ j = ptx va then w else mapping s.mem.word s.dirs e' i j) :
    s.Writes t e va (w.map fun w => (pteFrame w, w &&& 0xFFF#32)) := fun e' va' hva' => by
  rw [entry_eq hva', entry_eq hva', h]
  simp only [pgnum_eq_iff]
  split <;> rfl

/-! ### What each call preserves -/

/-- Memory in order, without a count that has wrapped around. -/
structure Inv (L : Layout M) (s : PageDirs n) : Prop where
  mem : MemInv L False none s.dirs s.mem
  bounded : Bounded L 65535 s.dirs s.mem

/-- A count that can be incremented is below the bound. -/
theorem Inv.load_lt (h : s.Inv L) {p : ℕ} (hp : L.counted p) (hroom : s.NoOverflow p) :
    pageLoad none s.mem.word s.dirs p < 65535 := by
  refine (h.bounded p hp).lt_of_ne fun hload => hroom ?_
  have href := h.mem.counts.ref p hp
  rw [hload] at href
  change s.mem.pool.ref p + 1 = 0
  rw [href]
  rfl

theorem Inv.insert (h : s.Inv L) {pp d : ℕ} {va perm : Word} {m : Mem n}
    (hlegal : s.Legal L (.insert e pp va perm)) (hd : s.dirs e = some d)
    (hrun : pageInsert M x d (some pp) va perm s.mem = .ok (0, m)) :
    Inserted L False s.dirs x e d va (mkPte (frame2pa pp) perm) s.mem m ∧
      Inv L ⟨m, s.dirs⟩ := by
  obtain ⟨-, ⟨hp, hoff, hplain⟩, hroom, hva, hperm⟩ := hlegal
  have hload := h.load_lt hp hroom
  have hins := pageInsert_spec h.mem hd (pdx_lt_of_lt_utop hva) hp hplain hoff hperm
    (fun w _ hw => by
      have hb := h.bounded _ hw
      have hhit := hit_le_one (some pp) (pteFrame w)
      omega) hrun
  refine ⟨hins, hins.inv, hins.bounded (by norm_num) h.bounded fun _ => Or.inr ?_⟩
  rwa [pteFrame_mkPte (L.counted_lt hp) hperm]

theorem Inv.remove (h : s.Inv L) {d : ℕ} {va : Word} {m : Mem n} (hd : s.dirs e = some d)
    (hva : va < utop) (hrun : pageRemove M x d va s.mem = .ok m) :
    Removed L False none s.dirs x e d va s.mem m ∧ Inv L ⟨m, s.dirs⟩ := by
  have hrem := pageRemove_spec h.mem hd (pdx_lt_of_lt_utop hva)
    (fun w _ hw => (h.bounded _ hw).trans (by norm_num)) hrun
  exact ⟨hrem, hrem.inv, hrem.bounded h.bounded⟩

theorem Inv.setup (h : s.Inv L) {d : ℕ} {m : Mem n} (hlegal : s.Legal L (.setup e))
    (hrun : envSetupVm M x s.mem = .ok (some d, m)) :
    SetUp L False s.dirs e d s.mem m ∧ Inv L ⟨m, Function.update s.dirs e (some d)⟩ := by
  obtain ⟨hnone, hroom⟩ := hlegal
  have hset := envSetupVm_spec h.mem hnone hrun
  exact ⟨hset, hset.inv, hset.bounded (by norm_num) h.bounded (h.load_lt (Or.inr rfl) hroom)⟩

theorem Inv.alloc (h : s.Inv L) {z : Bool} {p : Option ℕ} {m : Mem n}
    (hrun : pageAlloc M z s.mem = .ok (p, m)) :
    (∀ e i j, mapping m.word s.dirs e i j = mapping s.mem.word s.dirs e i j) ∧
      Inv L ⟨m, s.dirs⟩ := by
  cases p with
  | none =>
      obtain ⟨-, rfl⟩ := pageAlloc_none hrun
      exact ⟨fun _ _ _ => rfl, h⟩
  | some p =>
      have hal := pageAlloc_spec h.mem hrun
      exact ⟨hal.maps, hal.inv, hal.bounded h.bounded⟩

theorem inv_init {m : Mem n} (h : MemInit L m) : Inv L ⟨m, fun _ => none⟩ :=
  ⟨h.loading.inv, bounded_init (by norm_num)⟩

theorem Inv.step (h : s.Inv L) (hstep : s.Step L x op r t) : s.Spec t r op ∧ t.Inv L := by
  obtain ⟨hlegal, hrun⟩ := hstep
  cases op with
  | alloc z =>
      simp only [exec, bind_eq_ok] at hrun
      obtain ⟨⟨p, m⟩, halloc, hrun⟩ := hrun
      cases hrun
      obtain ⟨hmaps, hinv⟩ := h.alloc halloc
      exact ⟨sameMaps_of_maps hmaps, hinv⟩
  | setup e =>
      simp only [exec, bind_eq_ok] at hrun
      obtain ⟨⟨d, m⟩, hsetup, hrun⟩ := hrun
      cases d with
      | none =>
          cases hrun
          obtain rfl := envSetupVm_none hsetup
          exact ⟨Or.inr ⟨rfl, rfl⟩, h⟩
      | some d =>
          cases hrun
          obtain ⟨hset, hinv⟩ := h.setup hlegal hsetup
          refine ⟨Or.inl ⟨rfl, fun e' va hva => ?_⟩, hinv⟩
          rw [entry_eq hva, entry_eq hva, hset.maps]
          simp only [pgnum_eq_iff]
          split
          · split
            · rw [Option.map_some, pteFrame_vgaPte]
              rfl
            · rfl
          · rfl
  | insert e pp va perm =>
      cases hdir : s.dirs e with
      | none => exact absurd hdir hlegal.1
      | some d =>
          simp only [exec, hdir, bind_eq_ok] at hrun
          obtain ⟨⟨r', m⟩, hinsert, hrun⟩ := hrun
          cases hrun
          rcases pageInsert_ret hinsert with rfl | ⟨rfl, rfl⟩
          · obtain ⟨hins, hinv⟩ := h.insert hlegal hdir hinsert
            have hwrites := writes_of_maps (t := ⟨m, s.dirs⟩) hins.maps
            obtain ⟨-, ⟨hp, -, -⟩, -, -, hperm⟩ := hlegal
            rw [Option.map_some, mkPte_low hperm, pteFrame_mkPte (L.counted_lt hp) hperm] at hwrites
            exact ⟨Or.inl ⟨rfl, hwrites⟩, hinv⟩
          · exact ⟨Or.inr ⟨rfl, rfl⟩, h⟩
  | remove e va =>
      cases hdir : s.dirs e with
      | none => exact absurd hdir hlegal.1
      | some d =>
          simp only [exec, hdir, bind_eq_ok] at hrun
          obtain ⟨m, hremove, hrun⟩ := hrun
          cases hrun
          obtain ⟨hrem, hinv⟩ := h.remove hdir hlegal.2 hremove
          exact ⟨writes_of_maps (t := ⟨m, s.dirs⟩) hrem.maps, hinv⟩

/-- The VGA buffer can be mapped wherever its count allows. -/
theorem Inv.usable_vga (h : s.Inv L) : s.Usable L vgaFrame :=
  ⟨Or.inr rfl, fun hon => L.pool_ne_vga (h.mem.refs_of_on hon).1,
    fun _ hd => L.pool_ne_vga (h.mem.tables.dir hd),
    fun _ _ ht => L.pool_ne_vga (h.mem.tables.table ht)⟩

end PageDirs

/-! ### Every sequence of calls -/

open PageDirs

/-- One call, on any CPU. -/
def MapStep (L : Layout M) (s : PageDirs n) (a : Ctx n × PageDirs.Op × Word) (t : PageDirs n) :
    Prop :=
  s.Step L a.1 a.2.1 a.2.2 t

/-- After any sequence of calls each further one writes the entry it is asked
to, and no other; a `page_insert` that returns `-E_NO_MEM` changes nothing at
all. -/
theorem pageTables_refine {L : Layout M} {m : Mem n} (hinit : MemInit L m) {s t : PageDirs n}
    (hrun : Run (MapStep L) (fun _ _ => True) ⟨m, fun _ => none⟩ s) {x : Ctx n}
    {op : PageDirs.Op} {r : Word} (hstep : s.Step L x op r t) : s.Spec t r op := by
  have hinv : s.Inv L := hrun.invariant (fun h _ hstep => (h.step hstep).2) (inv_init hinit)
  exact (hinv.step hstep).1

/-- Mapping the VGA buffer at address 0 in a new directory takes a new page
table. -/
theorem pageTables_refine_vga : ∃ s t : PageDirs 1,
    s.Writes t 0 0#32 (some (vgaFrame, pteP ||| pteU)) ∧ t.mem.pageFreeList = some 2044 := by
  have hinit : Inv sampleLayout (⟨sampleMem 1, fun _ => none⟩ : PageDirs 1) :=
    inv_init (sample_init 1)
  have hexec : (do
      let (r, s) ← exec sampleMachine ⟨0, none⟩ ⟨sampleMem 1, fun _ => none⟩ (.setup 0)
      let (r', t) ← exec sampleMachine ⟨(0 : Fin 1), none⟩ s (.insert 0 vgaFrame 0 pteU)
      .ok (r, r', s.dirs 0, (s.mem.pages vgaFrame).ppRef, t.mem.pageFreeList)) =
      .ok (0, 0, some 2047, 2, some 2044) := by decide +kernel
  simp only [bind_eq_ok] at hexec
  obtain ⟨⟨r, s⟩, hsetup, ⟨r', t⟩, hinsert, hres⟩ := hexec
  simp only [Except.ok.injEq, Prod.mk.injEq] at hres
  obtain ⟨rfl, rfl, hdir, href, hfree⟩ := hres
  have hstart : PageDirs.Step sampleLayout ⟨0, none⟩ ⟨sampleMem 1, fun _ => none⟩ (.setup 0) 0 s :=
    ⟨⟨rfl, by decide⟩, hsetup⟩
  have hroom : s.NoOverflow vgaFrame := by
    unfold NoOverflow
    rw [href]
    decide
  have hlegal : s.Legal sampleLayout (.insert 0 vgaFrame 0 pteU) :=
    ⟨by simp [hdir], (hinit.step hstart).2.usable_vga, hroom, by decide, by decide⟩
  have hrefine := pageTables_refine (sample_init 1)
    (.single ⟨(⟨0, none⟩, .setup 0, 0), trivial, hstart⟩) ⟨hlegal, hinsert⟩
  rcases hrefine with ⟨-, hwrites⟩ | ⟨hr, -⟩
  · exact ⟨s, t, hwrites, hfree⟩
  · exact absurd hr (by decide)

end Jos
