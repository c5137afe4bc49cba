import Jos.System.Boot

/-!
Environment ids. An id holds the index of its slot below a generation that
`env_alloc` advances each time it uses the slot, and that starts again at 1
when the sign bit would be set. So the ids of one slot repeat after
`2^19 - 1` allocations and not before, and until then an id names one
incarnation for good.
-/

namespace Jos

open Jos.Lib

variable {n : ℕ} {M : Machine}

/-! ### Generations -/

/-- How many generations there are. -/
def generations : ℕ := 524287

/-- `ENVX`. -/
def envx (id : Word) : EnvIdx := Fin.ofNat _ (id &&& 0x3FF#32).toNat

/-- The id of slot `e` in generation `g`. -/
def idOf (e : EnvIdx) (g : ℕ) : Word := BitVec.ofNat 32 (g * 4096 + e)

theorem idOf_toNat {e : EnvIdx} {g : ℕ} (hg : g ≤ generations + 1) :
    (idOf e g).toNat = g * 4096 + e := by
  have he : (e : ℕ) < 1024 := e.isLt
  unfold generations at hg
  simp only [idOf, BitVec.toNat_ofNat]
  omega

theorem idOf_inj {e e' : EnvIdx} {g g' : ℕ} (hg : g ≤ generations) (hg' : g' ≤ generations)
    (h : idOf e g = idOf e' g') : e = e' ∧ g = g' := by
  have he : (e : ℕ) < 1024 := e.isLt
  have he' : (e' : ℕ) < 1024 := e'.isLt
  have hnat := congrArg BitVec.toNat h
  rw [idOf_toNat (by omega), idOf_toNat (by omega)] at hnat
  rw [Fin.ext_iff]
  omega

theorem envx_idOf {e : EnvIdx} {g : ℕ} (hg : g ≤ generations) : envx (idOf e g) = e := by
  have he : (e : ℕ) < 1024 := e.isLt
  apply Fin.ext
  simp only [envx, and_3ff, Fin.val_ofNat]
  rw [idOf_toNat (by omega)]
  omega

theorem idOf_pos {e : EnvIdx} {g : ℕ} (hpos : 0 < g) (hg : g ≤ generations) :
    0 < (idOf e g).toInt := by
  have he : (e : ℕ) < 1024 := e.isLt
  have hnat : (idOf e g).toNat = g * 4096 + e := idOf_toNat (by omega)
  unfold generations at hg
  rw [BitVec.toInt_eq_toNat_of_lt (by omega)]
  omega

/-- Dropping the index bits. -/
theorem and_not_3ff (x : Word) : (x &&& ~~~0x3FF#32).toNat = x.toNat - x.toNat % 1024 := by
  have hlow : (x &&& ~~~0x3FF#32).toNat = x.toNat / 1024 * 1024 := and_not_low 10 x
  omega

/-- The generation bits and the index do not overlap. -/
theorem or_index {g : ℕ} (e : EnvIdx) (hg : g ≤ generations) :
    BitVec.ofNat 32 (g * 4096) ||| BitVec.ofNat 32 e = idOf e g := by
  have he : (e : ℕ) < 1024 := e.isLt
  unfold generations at hg
  have hor := Nat.shiftLeft_add_eq_or_of_lt (b := (e : ℕ)) (i := 12) (by omega) g
  rw [Nat.shiftLeft_eq] at hor
  apply BitVec.eq_of_toNat_eq
  rw [idOf_toNat (by unfold generations; omega), BitVec.toNat_or, BitVec.toNat_ofNat,
    BitVec.toNat_ofNat, Nat.mod_eq_of_lt (by omega), Nat.mod_eq_of_lt (by omega)]
  exact hor.symm

theorem nextEnvId_idOf (e : EnvIdx) {g : ℕ} (hg : g ≤ generations) :
    nextEnvId (idOf e g) e = idOf e (if g = generations then 1 else g + 1) := by
  have he : (e : ℕ) < 1024 := e.isLt
  have hadd : idOf e g + 0x1000#32 = idOf e (g + 1) := by
    apply BitVec.eq_of_toNat_eq
    rw [BitVec.toNat_add, idOf_toNat (by omega), idOf_toNat (by omega)]
    unfold generations at hg
    simp only [BitVec.toNat_ofNat]
    omega
  have hgen : (idOf e g + 0x1000#32) &&& ~~~0x3FF#32 = BitVec.ofNat 32 ((g + 1) * 4096) := by
    apply BitVec.eq_of_toNat_eq
    rw [hadd, and_not_3ff, idOf_toNat (by omega)]
    unfold generations at hg
    simp only [BitVec.toNat_ofNat]
    omega
  have hle : BitVec.sle (BitVec.ofNat 32 ((g + 1) * 4096)) 0 = decide (g = generations) := by
    by_cases hlast : g = generations
    · rw [hlast]
      rfl
    · have hnat : (BitVec.ofNat 32 ((g + 1) * 4096)).toNat = (g + 1) * 4096 := by
        unfold generations at hg hlast
        rw [BitVec.toNat_ofNat]
        omega
      have hint : (BitVec.ofNat 32 ((g + 1) * 4096)).toInt = (g + 1) * 4096 := by
        unfold generations at hg hlast
        rw [BitVec.toInt_eq_toNat_of_lt (by omega), hnat]
        push_cast
        rfl
      have hzero : (0 : Word).toInt = 0 := rfl
      rw [BitVec.sle, hint, hzero, decide_eq_false hlast, decide_eq_false]
      omega
  unfold nextEnvId
  simp only [hgen, hle, decide_eq_true_eq]
  split
  · exact @or_index 1 e (by decide)
  · rename_i hlast
    exact or_index e (by omega)

/-- The id of slot `e` after `k` allocations. -/
def idAfter (e : EnvIdx) (k : ℕ) : Word :=
  if k = 0 then 0 else idOf e ((k - 1) % generations + 1)

theorem nextEnvId_idAfter (e : EnvIdx) (k : ℕ) :
    nextEnvId (idAfter e k) e = idAfter e (k + 1) := by
  have hmod : (k - 1) % generations < generations := Nat.mod_lt _ (by decide)
  unfold idAfter
  rw [if_neg (Nat.succ_ne_zero k), Nat.add_sub_cancel]
  split
  · rename_i hk
    subst hk
    have hzero : nextEnvId 0 e = BitVec.ofNat 32 (1 * 4096) ||| BitVec.ofNat 32 e := rfl
    rw [hzero, or_index e (by decide)]
    rfl
  · rename_i hk
    rw [nextEnvId_idOf e (by omega)]
    congr 1
    obtain ⟨j, rfl⟩ : ∃ j, k = j + 1 := ⟨k - 1, by omega⟩
    rw [Nat.add_sub_cancel]
    unfold generations
    split <;> omega

/-- Two ids of a slot are equal only a whole number of rounds apart. -/
theorem idAfter_inj {e e' : EnvIdx} {k k' : ℕ} (hk : 0 < k) (hk' : 0 < k')
    (h : idAfter e k = idAfter e' k') :
    e = e' ∧ (k - 1) % generations = (k' - 1) % generations := by
  have hmod : (k - 1) % generations < generations := Nat.mod_lt _ (by decide)
  have hmod' : (k' - 1) % generations < generations := Nat.mod_lt _ (by decide)
  rw [idAfter, idAfter, if_neg hk.ne', if_neg hk'.ne'] at h
  obtain ⟨he, hgen⟩ := idOf_inj (by omega) (by omega) h
  exact ⟨he, by omega⟩
/-! ### Runs of env_alloc and env_free -/

/-- An id that `env_alloc` gave to a slot, and the parent id it was given. -/
structure Handout where
  slot : EnvIdx
  id : Word
  parent : Word
  deriving DecidableEq

/-- The kernel, and the ids it has handed out, the latest first. -/
structure Ids (n : ℕ) where
  kernel : Kernel n
  handed : List Handout

inductive EnvOp where
  | alloc (parentId : Word)
  | free (e : EnvIdx)
  | switch (e : EnvIdx)

/-- How often the slot has been allocated. -/
def allocations (handed : List Handout) (e : EnvIdx) : ℕ := handed.countP fun a => a.slot = e

namespace Ids

def Live (s : Ids n) (e : EnvIdx) : Prop := (s.kernel.envs e).envStatus ≠ .free

/-- The latest allocation of its slot, with those before it. -/
def Current (s : Ids n) (a : Handout) (older : List Handout) : Prop :=
  ∃ newer, s.handed = newer ++ a :: older ∧ allocations newer a.slot = 0

/-- A call on CPU `c`: `env_alloc` for no parent or for a live one, whether it
succeeds or not, or `env_free` of a live environment. Any live environment may
become `curenv`. -/
inductive Step (M : Machine) (c : Fin n) (s : Ids n) : EnvOp → Ids n → Prop
  | alloc {parentId e t}
      (hparent : parentId = 0 ∨ ∃ p, s.Live p ∧ (s.kernel.envs p).envId = parentId)
      (hrun : envAlloc M c parentId s.kernel = .ret (.ok e) t) :
      Step M c s (.alloc parentId) ⟨t, ⟨e, (t.envs e).envId, parentId⟩ :: s.handed⟩
  | allocFails {parentId r t}
      (hparent : parentId = 0 ∨ ∃ p, s.Live p ∧ (s.kernel.envs p).envId = parentId)
      (hrun : envAlloc M c parentId s.kernel = .ret (.error r) t) :
      Step M c s (.alloc parentId) ⟨t, s.handed⟩
  | free {e t} (hlive : s.Live e) (hrun : envFree M c e s.kernel = .ret () t) :
      Step M c s (.free e) ⟨t, s.handed⟩
  | switch {e} (hlive : s.Live e) : Step M c s (.switch e) ⟨s.kernel.setCur c (some e), s.handed⟩

end Ids

/-- `envid2env` with what it stores in `*env_store`. A `curenv` that is NULL is
read through in the test of the parent, and the model stops there. -/
def envid2envStore (s : Kernel n) (cur : Option EnvIdx) (envid : Word) (checkperm : Bool) :
    Except String (Word × Option EnvIdx) :=
  if envid = 0 then .ok (0, cur)
  else
    let e := envx envid
    if (s.envs e).envStatus = .free ∨ (s.envs e).envId ≠ envid then .ok (-eBadEnv, none)
    else if checkperm ∧ cur ≠ some e then
      match cur with
      | none => .error "curenv is NULL"
      | some cur =>
          if (s.envs e).envParentId ≠ (s.envs cur).envId then .ok (-eBadEnv, none)
          else .ok (0, some e)
    else .ok (0, some e)

/-- What a system call sees of it, when there is a `curenv`. -/
theorem envid2envStore_eq (s : Kernel n) (cur : EnvIdx) (envid : Word) (checkperm : Bool) :
    envid2envStore s (some cur) envid checkperm =
      match envid2env s cur envid checkperm with
      | some e => .ok (0, some e)
      | none => .ok (-eBadEnv, none) := by
  unfold envid2envStore envid2env envx
  by_cases hzero : envid = 0
  · simp [hzero]
  · simp only [if_neg hzero]
    split
    · rfl
    · simp only [ne_eq, Option.some.injEq, eq_comm (a := cur)]
      by_cases hcheck : checkperm ∧ ¬ Fin.ofNat 1024 (envid &&& 0x3FF#32).toNat = cur
      · rw [if_pos hcheck]
        simp only [hcheck, true_and, not_false_eq_true]
        split <;> rfl
      · rw [if_neg hcheck, if_neg fun h => hcheck ⟨h.1, h.2.1⟩]

variable {c : Fin n} {s t : Ids n} {e : EnvIdx} {a b : Handout} {l l₁ l₂ : List Handout}

@[simp] theorem allocations_nil : allocations [] e = 0 := rfl

theorem allocations_cons :
    allocations (a :: l) e = allocations l e + if a.slot = e then 1 else 0 := by
  simp [allocations, List.countP_cons]

theorem allocations_append :
    allocations (l₁ ++ l₂) e = allocations l₁ e + allocations l₂ e :=
  List.countP_append

theorem allocations_eq_zero : allocations l e = 0 ↔ ∀ b ∈ l, b.slot ≠ e := by
  simp [allocations]

/-- An allocated slot has a latest allocation. -/
theorem exists_current (h : 0 < allocations l e) :
    ∃ newer a older, l = newer ++ a :: older ∧ a.slot = e ∧ allocations newer e = 0 := by
  induction l with
  | nil => simp at h
  | cons b l ih =>
      by_cases hb : b.slot = e
      · exact ⟨[], b, l, rfl, hb, rfl⟩
      · rw [allocations_cons, if_neg hb] at h
        obtain ⟨newer, a, older, rfl, ha, hnewer⟩ := ih h
        exact ⟨b :: newer, a, older, rfl, ha, by rw [allocations_cons, if_neg hb, hnewer]⟩

namespace Ids

/-! ### What each call preserves -/

/-- Every id and every parent id is the one its slot had then. -/
structure Numbered (handed : List Handout) : Prop where
  id : ∀ {newer a older}, handed = newer ++ a :: older →
    a.id = idAfter a.slot (allocations older a.slot + 1)
  parent : ∀ {newer a older}, handed = newer ++ a :: older → a.parent = 0 ∨
    ∃ p, 0 < allocations older p ∧ a.parent = idAfter p (allocations older p)

structure Inv (s : Ids n) : Prop where
  slots : FreeSlots s.kernel
  numbered : Numbered s.handed
  id : ∀ e, (s.kernel.envs e).envId = idAfter e (allocations s.handed e)
  used : ∀ e, s.Live e → 0 < allocations s.handed e
  cur : ∀ {c e}, s.kernel.cpuEnv c = some e → 0 < allocations s.handed e
  parent : ∀ {a older}, s.Current a older → (s.kernel.envs a.slot).envParentId = a.parent

theorem Numbered.cons (h : Numbered l) (hid : a.id = idAfter a.slot (allocations l a.slot + 1))
    (hparent : a.parent = 0 ∨
      ∃ p, 0 < allocations l p ∧ a.parent = idAfter p (allocations l p)) :
    Numbered (a :: l) where
  id {newer b older} heq := by
    cases newer with
    | nil =>
        obtain ⟨rfl, rfl⟩ := List.cons.inj heq
        exact hid
    | cons x newer => exact h.id (List.cons.inj heq).2
  parent {newer b older} heq := by
    cases newer with
    | nil =>
        obtain ⟨rfl, rfl⟩ := List.cons.inj heq
        exact hparent
    | cons x newer => exact h.parent (List.cons.inj heq).2

theorem Inv.alloc (h : s.Inv) {parentId : Word} {d : ℕ} {m : Mem n}
    (hparent : parentId = 0 ∨ ∃ p, s.Live p ∧ (s.kernel.envs p).envId = parentId)
    (hhead : s.kernel.envFreeList = some e) :
    Inv ⟨s.kernel.allocated e d m parentId,
      ⟨e, nextEnvId (s.kernel.envs e).envId e, parentId⟩ :: s.handed⟩ := by
  set t := s.kernel.allocated e d m parentId with ht
  have hself : t.envs e = { s.kernel.envs e with
      envPgdir := some d, envId := nextEnvId (s.kernel.envs e).envId e, envParentId := parentId,
      envStatus := .runnable, envRuns := 0, envTf := initialTrapframe, envPgfaultUpcall := 0,
      envIpcRecving := false } := Kernel.allocated_self
  have hother (e' : EnvIdx) (he : e' ≠ e) : t.envs e' = s.kernel.envs e' :=
    Kernel.allocated_of_ne he
  have hnext : nextEnvId (s.kernel.envs e).envId e = idAfter e (allocations s.handed e + 1) := by
    rw [h.id, nextEnvId_idAfter]
  have hslots := FreeSlots.pop (t := t) h.slots hhead rfl (by simp [hself]) hother
  refine ⟨hslots.2, h.numbered.cons hnext ?_, fun e' => ?_, fun e' hlive => ?_, fun hcur => ?_,
    fun {a older} hcurrent => ?_⟩
  · rcases hparent with hzero | ⟨p, hlive, hid⟩
    · exact Or.inl hzero
    · exact Or.inr ⟨p, h.used p hlive, hid.symm.trans (h.id p)⟩
  · rw [allocations_cons]
    by_cases he : e' = e
    · subst he
      simpa [hself] using hnext
    · simpa [hother e' he, Ne.symm he] using h.id e'
  · rw [allocations_cons]
    by_cases he : e' = e
    · subst he
      simp
    · rw [Live, hother e' he] at hlive
      exact Nat.lt_add_right _ (h.used e' hlive)
  · rw [allocations_cons]
    exact Nat.lt_add_right _ (h.cur hcur)
  · obtain ⟨newer, heq, hnewer⟩ := hcurrent
    cases newer with
    | nil =>
        obtain ⟨rfl, rfl⟩ := List.cons.inj heq
        simp [hself]
    | cons x newer =>
        obtain ⟨rfl, hrest⟩ := List.cons.inj heq
        rw [allocations_cons] at hnewer
        by_cases he : e = a.slot
        · simp [he] at hnewer
        · simp only [he, if_false, add_zero] at hnewer
          change (t.envs a.slot).envParentId = a.parent
          rw [hother _ (Ne.symm he)]
          exact h.parent ⟨newer, hrest, hnewer⟩

theorem Inv.free (h : s.Inv) (hlive : s.Live e) {m : Mem n} :
    Inv ⟨s.kernel.freed c e m, s.handed⟩ := by
  set t := s.kernel.freed c e m with ht
  have hself : t.envs e = { s.kernel.envs e with
      envPgdir := none, envStatus := .free, envLink := s.kernel.envFreeList } := Kernel.freed_self
  have hother (e' : EnvIdx) (he : e' ≠ e) : t.envs e' = s.kernel.envs e' :=
    Kernel.freed_of_ne he
  have hkeep (e' : EnvIdx) : (t.envs e').envId = (s.kernel.envs e').envId ∧
      (t.envs e').envParentId = (s.kernel.envs e').envParentId := by
    by_cases he : e' = e
    · rw [he, hself]
      exact ⟨rfl, rfl⟩
    · rw [hother e' he]
      exact ⟨rfl, rfl⟩
  refine ⟨h.slots.push hlive (by simp [hself]) hother rfl, h.numbered,
    fun e' => (hkeep e').1.trans (h.id e'), fun e' hlive' => ?_, h.cur,
    fun hcurrent => (hkeep _).2.trans (h.parent hcurrent)⟩
  by_cases he : e' = e
  · subst he
    exact absurd (by rw [hself]) hlive'
  · rw [Live, hother e' he] at hlive'
    exact h.used e' hlive'

theorem Inv.switch (h : s.Inv) (hlive : s.Live e) :
    Inv ⟨s.kernel.setCur c (some e), s.handed⟩ := by
  refine ⟨h.slots, h.numbered, h.id, h.used, fun {c' e'} hcur => ?_, h.parent⟩
  by_cases hc : c' = c
  · subst hc
    obtain rfl : e = e' := by simpa [Kernel.setCur] using hcur
    exact h.used e hlive
  · exact @h.cur c' e' (by simpa [Kernel.setCur, hc] using hcur)

theorem Inv.step {op : EnvOp} (h : s.Inv) (hstep : Step M c s op t) : t.Inv := by
  cases hstep with
  | alloc hparent hrun =>
      obtain ⟨d, m, hhead, -, rfl⟩ := envAlloc_wp.ret hrun
      have hinv := h.alloc (d := d) (m := m) hparent hhead
      simpa [Kernel.allocated, Kernel.setEnv] using hinv
  | allocFails hparent hrun =>
      obtain rfl := envAlloc_wp.ret hrun
      exact h
  | free hlive hrun =>
      obtain ⟨-, -⟩ := envFree_wp.ret hrun
      exact h.free hlive
  | switch hlive => exact h.switch hlive

theorem inv_init (m : Mem n) : Inv ⟨initial m, []⟩ where
  slots := (envInit_inv m).free
  numbered := ⟨by simp, by simp⟩
  id _ := rfl
  used e hlive := absurd rfl hlive
  cur hcur := by cases hcur
  parent := by
    rintro a older ⟨newer, heq, -⟩
    simp at heq

/-! ### What the ids say -/

/-- The environment that `envid2env` finds is the incarnation that was given
the id, no other was given it, and with `checkperm` it is `curenv` or the
incarnation that `curenv` is created it. -/
def Grants (s : Ids n) (cur : Option EnvIdx) (id : Word) (checkperm : Bool) (e : EnvIdx) : Prop :=
  s.Live e ∧ ∃ newer a older, s.handed = newer ++ a :: older ∧ a.slot = e ∧ a.id = id ∧
    (∀ x ∈ newer ++ older, x.id ≠ id) ∧
    (checkperm = true → cur = some e ∨
      ∃ later b earlier, older = later ++ b :: earlier ∧ cur = some b.slot ∧ b.id = a.parent ∧
        ∀ x ∈ newer ++ later, x.slot ≠ b.slot)

/-- Environment ids as they should be. -/
structure Sound (s : Ids n) : Prop where
  handed : ∀ a ∈ s.handed, 0 < a.id.toInt ∧ envx a.id = a.slot
  live : ∀ e, s.Live e → 0 < (s.kernel.envs e).envId.toInt ∧ envx (s.kernel.envs e).envId = e
  distinct : ∀ e e', s.Live e → s.Live e' →
    (s.kernel.envs e).envId = (s.kernel.envs e').envId → e = e'
  slots : ∃ l, Linked (fun e => (s.kernel.envs e).envLink) s.kernel.envFreeList l ∧ l.Nodup ∧
    ∀ e, e ∈ l ↔ ¬ s.Live e
  reuse : ∀ {a b l₁ l₂ l₃}, s.handed = l₁ ++ a :: l₂ ++ b :: l₃ → a.id = b.id →
    a.slot = b.slot ∧ 2 ^ 19 - 1 ≤ allocations (a :: l₂) b.slot
  lookup : (∀ e, allocations s.handed e < 2 ^ 19 - 1) → ∀ {c id checkperm r store}, id ≠ 0 →
    envid2envStore s.kernel (s.kernel.cpuEnv c) id checkperm = .ok (r, store) →
      if r = 0 then ∃ e, store = some e ∧ s.Grants (s.kernel.cpuEnv c) id checkperm e
      else store = none

theorem idAfter_pos {k : ℕ} (hk : 0 < k) :
    0 < (idAfter e k).toInt ∧ envx (idAfter e k) = e := by
  have hmod : (k - 1) % generations < generations := Nat.mod_lt _ (by decide)
  rw [idAfter, if_neg hk.ne']
  exact ⟨idOf_pos (by omega) (by omega), envx_idOf (by omega)⟩

theorem Numbered.reuse {l₃ : List Handout} (h : Numbered l) (hl : l = l₁ ++ a :: l₂ ++ b :: l₃)
    (hid : a.id = b.id) : a.slot = b.slot ∧ generations ≤ allocations (a :: l₂) b.slot := by
  have ha := @h.id l₁ a (l₂ ++ b :: l₃) (by rw [hl, List.append_assoc]; rfl)
  have hb := @h.id (l₁ ++ a :: l₂) b l₃ hl
  rw [ha, hb] at hid
  obtain ⟨hslot, hmod⟩ := idAfter_inj (Nat.succ_pos _) (Nat.succ_pos _) hid
  refine ⟨hslot, ?_⟩
  rw [hslot, allocations_append, allocations_cons, if_pos rfl] at hmod
  rw [allocations_cons, if_pos hslot]
  unfold generations at hmod ⊢
  omega

/-- While no slot has gone through all generations, ids are not repeated. -/
theorem Numbered.once (h : Numbered l) (hfew : ∀ e, allocations l e < generations)
    (hl : l = l₁ ++ a :: l₂) : ∀ x ∈ l₁ ++ l₂, x.id ≠ a.id := by
  intro x hx hid
  rcases List.mem_append.mp hx with hx | hx
  · obtain ⟨p, q, rfl⟩ := List.append_of_mem hx
    have hreuse := (h.reuse hl hid).2
    have hle := hfew a.slot
    rw [hl, allocations_append, allocations_append] at hle
    omega
  · obtain ⟨p, q, rfl⟩ := List.append_of_mem hx
    have hl' : l = l₁ ++ a :: p ++ x :: q := by rw [hl, List.append_assoc]; rfl
    have hreuse := (h.reuse hl' hid.symm).2
    have hle := hfew x.slot
    rw [hl', allocations_append, allocations_append] at hle
    omega

/-- The latest allocation of a slot gave it the id it has. -/
theorem Inv.id_current (h : s.Inv) (hl : s.handed = l₁ ++ a :: l₂)
    (hnewer : allocations l₁ a.slot = 0) : (s.kernel.envs a.slot).envId = a.id := by
  rw [h.id, h.numbered.id hl, hl, allocations_append, hnewer, allocations_cons, if_pos rfl,
    Nat.zero_add]

/-- An environment whose parent id is that of `cur` was created by the
incarnation that `cur` still is. -/
theorem Inv.creator {cur : EnvIdx} (h : s.Inv)
    (hfew : ∀ e, allocations s.handed e < generations) (hcur : 0 < allocations s.handed cur)
    (hl : s.handed = l₁ ++ a :: l₂) (hparent : a.parent = (s.kernel.envs cur).envId) :
    ∃ later b earlier, l₂ = later ++ b :: earlier ∧ b.slot = cur ∧ b.id = a.parent ∧
      ∀ x ∈ l₁ ++ later, x.slot ≠ cur := by
  have hpos := (@idAfter_pos cur _ hcur).1
  rw [h.id] at hparent
  rcases h.numbered.parent hl with hzero | ⟨p, hp, hid⟩
  · rw [← hparent, hzero] at hpos
    exact absurd hpos (by decide)
  · obtain ⟨rfl, hmod⟩ := idAfter_inj hp hcur (hid.symm.trans hparent)
    have hcount : allocations s.handed p = allocations l₁ p +
        (allocations l₂ p + if a.slot = p then 1 else 0) := by
      rw [hl, allocations_append, allocations_cons]
    have hlt := hfew p
    have hnone : allocations l₁ p = 0 := by
      rw [Nat.mod_eq_of_lt (by omega), Nat.mod_eq_of_lt (by omega)] at hmod
      omega
    obtain ⟨later, b, earlier, rfl, rfl, hlater⟩ := exists_current hp
    refine ⟨later, b, earlier, rfl, rfl, ?_, fun x hx => ?_⟩
    · rw [hid, allocations_append, hlater, allocations_cons, if_pos rfl, Nat.zero_add]
      have hsplit : s.handed = (l₁ ++ a :: later) ++ b :: earlier := by
        rw [hl, List.append_assoc]
        rfl
      exact h.numbered.id hsplit
    · rcases List.mem_append.mp hx with hx | hx
      · exact allocations_eq_zero.mp hnone x hx
      · exact allocations_eq_zero.mp hlater x hx

theorem Inv.grants {cur : Option EnvIdx} {checkperm : Bool} (h : s.Inv)
    (hfew : ∀ e, allocations s.handed e < generations) (hlive : s.Live e)
    (hcur : ∀ e', cur = some e' → 0 < allocations s.handed e')
    (hperm : checkperm = true → cur = some e ∨ ∃ cur', cur = some cur' ∧
      (s.kernel.envs e).envParentId = (s.kernel.envs cur').envId) :
    s.Grants cur (s.kernel.envs e).envId checkperm e := by
  obtain ⟨newer, a, older, hl, rfl, hnewer⟩ := exists_current (h.used e hlive)
  have hid := h.id_current hl hnewer
  refine ⟨hlive, newer, a, older, hl, rfl, hid.symm, fun x hx => ?_, fun hcheck => ?_⟩
  · rw [hid]
    exact h.numbered.once hfew hl x hx
  · rcases hperm hcheck with hself | ⟨cur', rfl, hparent⟩
    · exact Or.inl hself
    · rw [h.parent ⟨newer, hl, hnewer⟩] at hparent
      obtain ⟨later, b, earlier, hl₂, rfl, hb, hnot⟩ :=
        h.creator hfew (hcur cur' rfl) hl hparent
      exact Or.inr ⟨later, b, earlier, hl₂, rfl, hb, hnot⟩

theorem Inv.sound (h : s.Inv) : s.Sound where
  handed a ha := by
    obtain ⟨l₁, l₂, hl⟩ := List.append_of_mem ha
    rw [h.numbered.id hl]
    exact idAfter_pos (Nat.succ_pos _)
  live e hlive := by
    rw [h.id]
    exact idAfter_pos (h.used e hlive)
  distinct e e' hlive hlive' hid := by
    rw [h.id, h.id] at hid
    exact (idAfter_inj (h.used e hlive) (h.used e' hlive') hid).1
  slots := by
    obtain ⟨l, hl, hnodup, hmem⟩ := h.slots
    exact ⟨l, hl, hnodup, fun e => (hmem e).trans not_not.symm⟩
  reuse hl hid := h.numbered.reuse hl hid
  lookup hfew {c id checkperm r store} hid hlook := by
    have hbad : (-eBadEnv : Word) ≠ 0 := by decide
    have hcur (e : EnvIdx) (he : s.kernel.cpuEnv c = some e) := h.cur he
    unfold envid2envStore at hlook
    rw [if_neg hid] at hlook
    obtain ⟨e, he⟩ : ∃ e, e = envx id := ⟨_, rfl⟩
    simp only [← he] at hlook
    split at hlook
    · cases hlook
      rw [if_neg hbad]
    · rename_i hfound
      rw [not_or, not_not] at hfound
      obtain ⟨hlive, rfl⟩ := hfound
      split at hlook
      · split at hlook
        · cases hlook
        · rename_i cur hcpu
          split at hlook
          · cases hlook
            rw [if_neg hbad]
          · rename_i hparent
            cases hlook
            rw [if_pos rfl]
            exact ⟨_, rfl, h.grants hfew hlive hcur fun _ =>
              Or.inr ⟨cur, hcpu, not_not.mp hparent⟩⟩
      · rename_i hself
        cases hlook
        rw [if_pos rfl]
        refine ⟨_, rfl, h.grants hfew hlive hcur fun hcheck => Or.inl ?_⟩
        exact not_not.mp fun hne => hself ⟨hcheck, hne⟩

end Ids

/-! ### Every run of env_alloc and env_free -/

open Ids

theorem environment_ids (m : Mem n) {s : Ids n}
    (hrun : Run (fun s (a : Fin n × EnvOp) t => Ids.Step M a.1 s a.2 t) (fun _ _ => True)
      ⟨initial m, []⟩ s) : s.Sound :=
  Inv.sound (hrun.invariant (fun h _ hstep => h.step hstep) (inv_init m))

/-- The first environment has id 0x1000. -/
theorem environment_ids_first : ∃ s : Ids 1, s.handed = [⟨0, 0x1000, 0⟩] ∧ s.Sound := by
  have halloc : (envAlloc sampleMachine (0 : Fin 1) 0 (initial (sampleMem 1))).returns
      (fun r t => decide (r.toOption.map (fun e => (e, (t.envs e).envId)) = some (0, 0x1000))) =
        true := by
    decide +kernel
  obtain ⟨r, t, hrun, hr⟩ := Outcome.returns_eq_true.mp halloc
  cases r with
  | error code => cases of_decide_eq_true hr
  | ok e =>
      obtain ⟨rfl, hid⟩ := Prod.mk.inj (Option.some.inj (of_decide_eq_true hr))
      have hstep := Ids.Step.alloc (s := ⟨initial (sampleMem 1), []⟩) (Or.inl rfl) hrun
      rw [hid] at hstep
      exact ⟨_, rfl, environment_ids (sampleMem 1) (.single ⟨(0, .alloc 0), trivial, hstep⟩)⟩

end Jos
