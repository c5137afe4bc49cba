import Jos.Kern.Env
import Jos.Lib.RefCount
import Mathlib.Data.Fintype.Sigma
import Mathlib.Data.Fintype.Sum
import Mathlib.Tactic.DeriveFintype

/-!
Address spaces as the page tables in memory describe them. `word` is the
contents of physical memory and `dirs` gives the page directory of each
environment. `tableAt` and `mapping` are what the two-level walk finds below
`UTOP`, and a `Slot` is a place in all these structures that can refer to a
page: the directory of an environment, a directory entry, a table entry.
-/

namespace Jos

open Jos.Lib

abbrev Words := ℕ → PtIdx → Word

abbrev Dirs := EnvIdx → Option ℕ

/-- The word of a present entry. -/
def present (w : Word) : Option Word := if Flag w pteP then some w else none

/-- The page table of `e` for directory index `i`. -/
def tableAt (word : Words) (dirs : Dirs) (e : EnvIdx) (i : PtIdx) : Option ℕ :=
  if (i : ℕ) < 955 then (dirs e).bind fun d => (present (word d i)).map pteFrame else none

/-- The entry that maps the page with indexes `i` and `j` in `e`. -/
def mapping (word : Words) (dirs : Dirs) (e : EnvIdx) (i j : PtIdx) : Option Word :=
  (tableAt word dirs e i).bind fun t => present (word t j)

inductive Slot where
  | pgdir (e : EnvIdx)
  | table (e : EnvIdx) (i : PtIdx)
  | page (e : EnvIdx) (i j : PtIdx)
  deriving DecidableEq, Fintype

/-- The page that a slot refers to. -/
def slotRef (word : Words) (dirs : Dirs) : Slot → Option ℕ
  | .pgdir e => dirs e
  | .table e i => tableAt word dirs e i
  | .page e i j => (mapping word dirs e i j).map pteFrame

/-- The number of references to a page. -/
def pageRefs (word : Words) (dirs : Dirs) (p : ℕ) : ℕ := refs (slotRef word dirs) p

variable {word word' : Words} {dirs dirs' : Dirs} {e e' : EnvIdx} {i i' j j' : PtIdx}
  {d t p : ℕ} {w : Word}

theorem pageRefs_congr (h : slotRef word' dirs' = slotRef word dirs) :
    pageRefs word' dirs' p = pageRefs word dirs p := by
  unfold pageRefs
  rw [h]

@[simp] theorem present_zero : present 0#32 = none := by simp [present]

theorem present_eq_some {v : Word} : present w = some v ↔ Flag w pteP ∧ v = w := by
  unfold present
  split <;> simp_all [eq_comm]

theorem present_of_flag (h : Flag w pteP) : present w = some w := if_pos h

theorem present_of_not_flag (h : ¬ Flag w pteP) : present w = none := if_neg h

theorem tableAt_eq_some :
    tableAt word dirs e i = some t ↔
      (i : ℕ) < 955 ∧ ∃ d, dirs e = some d ∧ Flag (word d i) pteP ∧ t = pteFrame (word d i) := by
  unfold tableAt
  split
  · cases dirs e <;> simp [present_eq_some, eq_comm, and_assoc, *]
  · simp [*]

theorem tableAt_of_dir (hi : (i : ℕ) < 955) (hd : dirs e = some d) :
    tableAt word dirs e i = (present (word d i)).map pteFrame := by
  simp [tableAt, hi, hd]

@[simp] theorem tableAt_of_none (h : dirs e = none) : tableAt word dirs e i = none := by
  simp [tableAt, h]

@[simp] theorem mapping_of_none (h : tableAt word dirs e i = none) :
    mapping word dirs e i j = none := by
  simp [mapping, h]

theorem mapping_of_table (h : tableAt word dirs e i = some t) :
    mapping word dirs e i j = present (word t j) := by
  simp [mapping, h]

theorem mapping_eq_some :
    mapping word dirs e i j = some w ↔
      ∃ t, tableAt word dirs e i = some t ∧ Flag (word t j) pteP ∧ w = word t j := by
  simp [mapping, Option.bind_eq_some_iff, present_eq_some]

/-! ### Locality -/

theorem tableAt_congr (hdir : dirs' e = dirs e)
    (hword : ∀ d, dirs e = some d → word' d i = word d i) :
    tableAt word' dirs' e i = tableAt word dirs e i := by
  unfold tableAt
  rw [hdir]
  cases h : dirs e with
  | none => rfl
  | some d => simp [hword d h]

theorem mapping_congr (htable : tableAt word' dirs' e i = tableAt word dirs e i)
    (hword : ∀ t, tableAt word dirs e i = some t → word' t j = word t j) :
    mapping word' dirs' e i j = mapping word dirs e i j := by
  unfold mapping
  rw [htable]
  cases h : tableAt word dirs e i with
  | none => rfl
  | some t => simp [hword t h]

theorem slotRef_congr (hdirs : ∀ e, dirs' e = dirs e)
    (htable : ∀ e i, tableAt word' dirs' e i = tableAt word dirs e i)
    (hmap : ∀ e i j, mapping word' dirs' e i j = mapping word dirs e i j) :
    slotRef word' dirs' = slotRef word dirs := by
  funext x
  cases x with
  | pgdir e => exact hdirs e
  | table e i => exact htable e i
  | page e i j => exact congrArg (Option.map pteFrame) (hmap e i j)

/-- A page that is neither a directory nor a table. -/
structure Plain (word : Words) (dirs : Dirs) (p : ℕ) : Prop where
  dir : ∀ e, dirs e ≠ some p
  table : ∀ e i, tableAt word dirs e i ≠ some p

/-- A page that nothing refers to is neither. -/
theorem plain_of_unref (hp : pageRefs word dirs p = 0) : Plain word dirs p :=
  ⟨fun e => refs_eq_zero.mp hp (.pgdir e), fun e i => refs_eq_zero.mp hp (.table e i)⟩

/-- The address spaces do not depend on the contents of such a page. -/
theorem Plain.tableAt (hp : Plain word dirs p) (hword : ∀ q, q ≠ p → word' q = word q) :
    tableAt word' dirs e i = tableAt word dirs e i := by
  refine tableAt_congr rfl fun d hd => ?_
  rw [hword]
  rintro rfl
  exact hp.dir e hd

theorem Plain.mapping (hp : Plain word dirs p) (hword : ∀ q, q ≠ p → word' q = word q) :
    mapping word' dirs e i j = mapping word dirs e i j := by
  refine mapping_congr (hp.tableAt hword) fun t ht => ?_
  rw [hword]
  rintro rfl
  exact hp.table e i ht

theorem Plain.slotRef (hp : Plain word dirs p) (hword : ∀ q, q ≠ p → word' q = word q) :
    slotRef word' dirs = slotRef word dirs :=
  slotRef_congr (fun _ => rfl) (fun _ _ => hp.tableAt hword) fun _ _ _ => hp.mapping hword

/-! ### Structures that are referred to once -/

/-- Every page directory and every page table has one reference, so no entry
maps one and none is shared. -/
structure Separate (word : Words) (dirs : Dirs) : Prop where
  dir : ∀ {e d}, dirs e = some d → pageRefs word dirs d = 1
  table : ∀ {e i t}, tableAt word dirs e i = some t → pageRefs word dirs t = 1

namespace Separate

theorem slot_eq_dir (h : Separate word dirs) (hd : dirs e = some d) {x : Slot}
    (hx : slotRef word dirs x = some d) : x = .pgdir e :=
  refs_one_unique (h.dir hd) hx (j := .pgdir e) hd

theorem slot_eq_table (h : Separate word dirs) (ht : tableAt word dirs e i = some t) {x : Slot}
    (hx : slotRef word dirs x = some t) : x = .table e i :=
  refs_one_unique (h.table ht) hx (j := .table e i) ht

theorem dir_inj (h : Separate word dirs) (hd : dirs e = some d) (hd' : dirs e' = some d) :
    e' = e := by
  simpa using h.slot_eq_dir hd (x := .pgdir e') hd'

theorem table_inj (h : Separate word dirs) (ht : tableAt word dirs e i = some t)
    (ht' : tableAt word dirs e' i' = some t) : e' = e ∧ i' = i := by
  simpa using h.slot_eq_table ht (x := .table e' i') ht'

theorem table_ne_dir (h : Separate word dirs) (ht : tableAt word dirs e i = some t)
    (hd : dirs e' = some d) : t ≠ d := by
  rintro rfl
  simpa using h.slot_eq_table ht (x := .pgdir e') hd

/-- A page that some entry maps is plain. -/
theorem plain_of_page (h : Separate word dirs)
    (hw : mapping word dirs e i j = some w) : Plain word dirs (pteFrame w) := by
  have hx : slotRef word dirs (.page e i j) = some (pteFrame w) := by simp [slotRef, hw]
  exact ⟨fun e' hd => by simpa using h.slot_eq_dir hd hx,
    fun e' i' ht => by simpa using h.slot_eq_table ht hx⟩

/-- Writing a table entry does not change which tables there are. -/
theorem tableAt_store_page (h : Separate word dirs) (ht : tableAt word dirs e i = some t) :
    tableAt (Function.update word t (Function.update (word t) j w)) dirs e' i' =
      tableAt word dirs e' i' := by
  refine tableAt_congr rfl fun d hd => ?_
  rw [Function.update_of_ne (h.table_ne_dir ht hd).symm]

/-- Writing a table entry changes one mapping. -/
theorem mapping_store_page (h : Separate word dirs) (ht : tableAt word dirs e i = some t) :
    mapping (Function.update word t (Function.update (word t) j w)) dirs e' i' j' =
      if e' = e ∧ i' = i ∧ j' = j then present w else mapping word dirs e' i' j' := by
  have htables : tableAt (Function.update word t (Function.update (word t) j w)) dirs e' i' =
      tableAt word dirs e' i' := h.tableAt_store_page ht
  split
  · rename_i heq
    obtain ⟨rfl, rfl, rfl⟩ := heq
    rw [mapping_of_table (htables.trans ht)]
    simp
  · rename_i hne
    refine mapping_congr htables fun t' ht' => ?_
    by_cases htt : t' = t
    · subst htt
      obtain ⟨rfl, rfl⟩ := h.table_inj ht ht'
      rw [Function.update_self, Function.update_of_ne]
      rintro rfl
      exact hne ⟨rfl, rfl, rfl⟩
    · rw [Function.update_of_ne htt]

/-- Writing a directory entry changes one table. -/
theorem tableAt_store_pde (h : Separate word dirs) (hd : dirs e = some d)
    (hi : (i : ℕ) < 955) :
    tableAt (Function.update word d (Function.update (word d) i w)) dirs e' i' =
      if e' = e ∧ i' = i then (present w).map pteFrame else tableAt word dirs e' i' := by
  split
  · rename_i heq
    obtain ⟨rfl, rfl⟩ := heq
    rw [tableAt_of_dir hi hd]
    simp
  · rename_i hne
    refine tableAt_congr rfl fun d' hd' => ?_
    by_cases hdd : d' = d
    · subst hdd
      obtain rfl := h.dir_inj hd hd'
      rw [Function.update_self, Function.update_of_ne]
      rintro rfl
      exact hne ⟨rfl, rfl⟩
    · rw [Function.update_of_ne hdd]

theorem mapping_store_pde_of_ne (h : Separate word dirs) (hd : dirs e = some d)
    (hi : (i : ℕ) < 955) (hne : ¬ (e' = e ∧ i' = i)) :
    mapping (Function.update word d (Function.update (word d) i w)) dirs e' i' j' =
      mapping word dirs e' i' j' := by
  have htables : tableAt (Function.update word d (Function.update (word d) i w)) dirs e' i' =
      tableAt word dirs e' i' := by
    rw [h.tableAt_store_pde hd hi, if_neg hne]
  refine mapping_congr htables fun t' ht' => ?_
  rw [Function.update_of_ne (h.table_ne_dir ht' hd)]

/-! ### What one write does to the number of references -/

theorem pageRefs_store_page (h : Separate word dirs) (ht : tableAt word dirs e i = some t)
    (q : ℕ) :
    pageRefs (Function.update word t (Function.update (word t) j w)) dirs q +
        hit ((mapping word dirs e i j).map pteFrame) q =
      pageRefs word dirs q + hit ((present w).map pteFrame) q := by
  have hother (x : Slot) (hx : x ≠ .page e i j) :
      slotRef (Function.update word t (Function.update (word t) j w)) dirs x =
        slotRef word dirs x := by
    cases x with
    | pgdir e' => rfl
    | table e' i' => exact h.tableAt_store_page ht
    | page e' i' j' =>
        have hne : ¬ (e' = e ∧ i' = i ∧ j' = j) := by
          rintro ⟨rfl, rfl, rfl⟩
          exact hx rfl
        simp only [slotRef, h.mapping_store_page ht, if_neg hne]
  have hself : slotRef (Function.update word t (Function.update (word t) j w)) dirs
      (.page e i j) = (present w).map pteFrame := by
    simp [slotRef, h.mapping_store_page ht]
  have hwrite := refs_write hother q
  rwa [hself] at hwrite

theorem pageRefs_store_pde (h : Separate word dirs) (hd : dirs e = some d)
    (hi : (i : ℕ) < 955) (hbefore : ∀ j, mapping word dirs e i j = none)
    (hafter : ∀ j, mapping (Function.update word d (Function.update (word d) i w)) dirs e i j =
      none) (q : ℕ) :
    pageRefs (Function.update word d (Function.update (word d) i w)) dirs q +
        hit (tableAt word dirs e i) q =
      pageRefs word dirs q + hit ((present w).map pteFrame) q := by
  have hother (x : Slot) (hx : x ≠ .table e i) :
      slotRef (Function.update word d (Function.update (word d) i w)) dirs x =
        slotRef word dirs x := by
    cases x with
    | pgdir e' => rfl
    | table e' i' =>
        have hne : ¬ (e' = e ∧ i' = i) := by
          rintro ⟨rfl, rfl⟩
          exact hx rfl
        simp only [slotRef, h.tableAt_store_pde hd hi, if_neg hne]
    | page e' i' j' =>
        by_cases heq : e' = e ∧ i' = i
        · obtain ⟨rfl, rfl⟩ := heq
          simp only [slotRef, hbefore, hafter]
        · simp only [slotRef, h.mapping_store_pde_of_ne hd hi heq]
  have hself : slotRef (Function.update word d (Function.update (word d) i w)) dirs
      (.table e i) = (present w).map pteFrame := by
    simp [slotRef, h.tableAt_store_pde hd hi]
  have hwrite := refs_write hother q
  rwa [hself] at hwrite

end Separate

/-- Giving an environment a directory, or taking it away, while it has no
page tables. -/
theorem pageRefs_set_dir {v : Option ℕ} (hbefore : ∀ i, tableAt word dirs e i = none)
    (hafter : ∀ i, tableAt word (Function.update dirs e v) e i = none) (q : ℕ) :
    pageRefs word (Function.update dirs e v) q + hit (dirs e) q =
      pageRefs word dirs q + hit v q := by
  have htables (e' : EnvIdx) (i : PtIdx) :
      tableAt word (Function.update dirs e v) e' i = tableAt word dirs e' i := by
    by_cases he : e' = e
    · rw [he, hbefore, hafter]
    · exact tableAt_congr (Function.update_of_ne he _ _) fun _ _ => rfl
  have hother (x : Slot) (hx : x ≠ .pgdir e) :
      slotRef word (Function.update dirs e v) x = slotRef word dirs x := by
    cases x with
    | pgdir e' =>
        have he : e' ≠ e := by
          rintro rfl
          exact hx rfl
        exact Function.update_of_ne he _ _
    | table e' i => exact htables e' i
    | page e' i j =>
        exact congrArg (Option.map pteFrame) (mapping_congr (htables e' i) fun _ _ => rfl)
  have hself : slotRef word (Function.update dirs e v) (.pgdir e) = v :=
    Function.update_self _ _ _
  have hwrite := refs_write hother q
  rwa [hself] at hwrite

end Jos
