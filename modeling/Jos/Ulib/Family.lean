import Jos.System.Answers
import Jos.Ulib.Syscall

/-!
What a program knows. While environment `e` edits its own address space and
those of children that it has not started, nobody else changes them: a `View`
records these address spaces, which frames no other environment maps, and the
contents of frames, and `Holds` says that the world is so. The others keep a
view, and every action of `e` turns it into another one.
-/

namespace Jos

open Jos.Lib

variable {n : ℕ} {M : Machine} {L : Layout M} {c : Fin n} {e o o' : EnvIdx} {s t u : Kernel n}
  {σ τ : World n} {p p' : ℕ} {a : PageAddr} {k : Word} {stack : Word}

/-- `own` are frames that only `e` and its children map, and `known` are those
whose contents are known. -/
@[ext] structure View where
  id : Word
  children : Set EnvIdx
  proc : EnvIdx → Process
  spaces : UserSpaces
  own : Set ℕ
  known : Set ℕ

namespace View

variable (e : EnvIdx) (V : View)

def members : Set EnvIdx := insert e V.children

def Uses (p : ℕ) : Prop := ∃ o ∈ V.members e, V.spaces.Maps o p

/-- A page that `e` has for itself. -/
def Private (p : ℕ) : Prop :=
  ∃ a k, V.spaces.map e a = some (p, k) ∧ Flag k pteW ∧ ¬ Flag k pteMapped

/-- Nobody else changes what the frame holds. -/
def Keeps (p : ℕ) : Prop := V.Private e p ∨ p ∈ V.own ∧ V.Uses e p

/-- The id is one by which `e` calls itself or a child. -/
def Names (id : Word) (o : EnvIdx) : Prop :=
  id = 0 ∧ o = e ∨ o ∈ V.children ∧ id = (V.proc o).id

/-- A child that has not been started waits for nothing but its parent. -/
structure Good : Prop where
  self : e ∉ V.children
  child : ∀ o ∈ V.children, (V.proc o).status = .notRunnable ∧ (V.proc o).ipcRecving = false ∧
    (V.proc o).parentId = V.id

end View

structure Holds (e : EnvIdx) (V : View) (σ : World n) : Prop where
  good : V.Good e
  id : (σ.procs e).id = V.id
  turn : InTurn (σ.procs e).status
  recving : (σ.procs e).ipcRecving = false
  child : ∀ o ∈ V.children, SameProc (V.proc o) (σ.procs o)
  map : ∀ o ∈ V.members e, σ.spaces.map o = V.spaces.map o
  own : ∀ p ∈ V.own, p ∉ devices → V.Uses e p → ∀ o, σ.spaces.Maps o p → o ∈ V.members e
  known : ∀ p ∈ V.known, p ∉ devices → V.Keeps e p → σ.spaces.content p = V.spaces.content p

variable {V V' : View}

theorem View.Private.maps (h : V.Private e p) : V.spaces.Maps e p := by
  obtain ⟨a, k, ha, -⟩ := h
  exact ⟨a, k, ha⟩

theorem View.Keeps.uses (h : V.Keeps e p) : V.Uses e p := by
  rcases h with h | h
  · exact ⟨e, .inl rfl, h.maps⟩
  · exact h.2

namespace Holds

theorem maps_iff (h : Holds e V σ) (ho : o ∈ V.members e) :
    σ.spaces.Maps o p ↔ V.spaces.Maps o p := by
  unfold Spaces.Maps
  rw [h.map o ho]

/-- A frame in use that is one of `own`. -/
theorem owned (h : Holds e V σ) (hp : p ∈ V.own) (hD : p ∉ devices) (huses : V.Uses e p) :
    σ.spaces.Owned (V.members e) p := by
  obtain ⟨o, ho, hmaps⟩ := huses
  exact ⟨⟨o, ho, (h.maps_iff ho).mpr hmaps⟩, h.own p hp hD ⟨o, ho, hmaps⟩⟩

/-- What keeps the processes, the address spaces and the contents keeps the
view. -/
theorem of_kept (h : Holds e V σ) (hkept : World.Kept (V.members e) σ τ)
    (hcontent : ∀ p ∈ V.known, p ∉ devices → V.Private e p →
      τ.spaces.content p = σ.spaces.content p) : Holds e V τ where
  good := h.good
  id := (hkept.proc e (.inl rfl)).id.trans h.id
  turn := by
    rcases (hkept.proc e (.inl rfl)).status with heq | hturn
    · rw [heq]
      exact h.turn
    · exact hturn.2
  recving := (hkept.proc e (.inl rfl)).ipcRecving.trans h.recving
  child o ho := (h.child o ho).trans (hkept.proc o (.inr ho))
  map o ho := (hkept.spaces.map o ho).trans (h.map o ho)
  own p hp hD huses := (hkept.spaces.owned p hD (h.owned hp hD huses)).2
  known p hp hD hkeeps := by
    rw [← h.known p hp hD hkeeps]
    rcases hkeeps with hmaps | ⟨hown, huses⟩
    · exact hcontent p hp hD hmaps
    · exact hkept.spaces.content p hD (h.owned hown hD huses)

/-- Who is scheduled does not matter. -/
theorem of_turns (h : Holds e V σ) (hkept : World.Kept Set.univ σ τ) : Holds e V τ := by
  have hmembers : World.Kept (V.members e) σ τ := by
    refine ⟨fun o _ => hkept.proc o trivial, fun o _ => hkept.spaces.map o trivial,
      fun p _ hown => ⟨?_, fun o hmaps => ?_⟩, fun p hD hown => ?_⟩
    · obtain ⟨o, ho, b, w, hb⟩ := hown.1
      exact ⟨o, ho, b, w, by rw [hkept.spaces.map o trivial, hb]⟩
    · obtain ⟨b, w, hb⟩ := hmaps
      rw [hkept.spaces.map o trivial] at hb
      exact hown.2 o ⟨b, w, hb⟩
    · obtain ⟨o, -, hmaps⟩ := hown.1
      exact hkept.spaces.content p hD ⟨⟨o, trivial, hmaps⟩, fun _ _ => trivial⟩
  refine h.of_kept hmembers fun p _ hD hpriv => ?_
  exact hkept.spaces.content p hD
    ⟨⟨e, trivial, (h.maps_iff (.inl rfl)).mpr hpriv.maps⟩, fun _ _ => trivial⟩

/-- The registers of `e` are not part of a view. -/
theorem setTf (h : Holds e V σ) (tf : Trapframe) : Holds e V (σ.setTf e tf) := by
  have hself : (σ.setTf e tf).procs e = { σ.procs e with tf := tf } := Function.update_self ..
  have hother (o : EnvIdx) (ho : o ≠ e) : (σ.setTf e tf).procs o = σ.procs o :=
    Function.update_of_ne ho ..
  refine ⟨h.good, ?_, ?_, ?_, fun o ho => ?_, h.map, h.own, h.known⟩
  · rw [hself]
    exact h.id
  · rw [hself]
    exact h.turn
  · rw [hself]
    exact h.recving
  · rw [hother o (ne_of_mem_of_not_mem ho h.good.self)]
    exact h.child o ho

/-- A change of the address spaces of `e` and its children. -/
theorem edit {S : UserSpaces} (h : Holds e V σ) (hgood : V'.id = V.id ∧ V'.children = V.children ∧
      V'.proc = V.proc)
    (hmap : ∀ o ∈ V.members e, S.map o = V'.spaces.map o)
    (hothers : ∀ o, o ∉ V.members e → S.map o = σ.spaces.map o)
    (hown : ∀ p ∈ V'.own, p ∉ devices → V'.Uses e p →
      (p ∈ V.own ∧ V.Uses e p) ∨ ∀ o, S.Maps o p → o ∈ V.members e)
    (hknown : ∀ p ∈ V'.known, p ∉ devices → V'.Keeps e p → S.content p = V'.spaces.content p) :
    Holds e V' (σ.setSpaces S) := by
  obtain ⟨hid, hchildren, hproc⟩ := hgood
  have hmembers : V'.members e = V.members e := by
    unfold View.members
    rw [hchildren]
  refine ⟨⟨?_, ?_⟩, hid.symm ▸ h.id, h.turn, h.recving, ?_, ?_, ?_, ?_⟩
  · rw [hchildren]
    exact h.good.self
  · rw [hchildren, hproc, hid]
    exact h.good.child
  · rw [hchildren, hproc]
    exact h.child
  · rw [hmembers]
    exact hmap
  · intro p hp hD huses o hmaps
    rw [hmembers]
    rcases hown p hp hD huses with ⟨hp', huses'⟩ | honly
    · by_contra hnot
      obtain ⟨b, w, hb⟩ := hmaps
      have hb' : S.map o b = some (p, w) := hb
      rw [hothers o hnot] at hb'
      exact hnot (h.own p hp' hD huses' o ⟨b, w, hb'⟩)
    · exact honly o hmaps
  · intro p hp hD hkeeps
    rw [← hknown p hp hD hkeeps]
    obtain ⟨o, ho, b, w, hb⟩ := hkeeps.uses
    rw [hmembers] at ho
    rw [← hmap o ho] at hb
    exact Spaces.content_forget hD ⟨b, w, hb⟩

end Holds

namespace View

/-- Frame `p` is entered at `a` in `o`. -/
def enter (V : View) (o : EnvIdx) (a : PageAddr) (p : ℕ) (k : Word) : View :=
  { V with spaces := V.spaces.enter o a p k }

/-- A new page, which is zero. -/
def alloc (V : View) (o : EnvIdx) (a : PageAddr) (p : ℕ) (k : Word) : View :=
  { V with
    spaces := (V.spaces.write p fun _ => 0#32).enter o a p k
    own := insert p V.own
    known := insert p V.known }

def clear (V : View) (o : EnvIdx) (a : PageAddr) : View :=
  { V with spaces := V.spaces.clear o a }

/-- Frame `p` holds `x`. -/
def put (V : View) (p : ℕ) (x : PtIdx → Word) : View :=
  { V with spaces := V.spaces.write p x, known := insert p V.known }

/-- A new child. -/
def adopt (V : View) (o : EnvIdx) (v : Process) : View :=
  { V with
    children := insert o V.children
    proc := Function.update V.proc o v
    spaces := V.spaces.assign o World.newSpace }

/-- The children are started. -/
def start (V : View) : View := { V with children := ∅, own := ∅ }

end View

namespace Holds

/-- A page of the family is entered once more. -/
theorem enter (h : Holds e V σ) (ho : o ∈ V.members e) (hp : V.Uses e p)
    (hself : o = e → V.Keeps e p) :
    Holds e (V.enter o a p k) (σ.setSpaces (σ.spaces.enter o a p k)) := by
  have huses {p' : ℕ} (hu : (V.enter o a p k).Uses e p') : V.Uses e p' := by
    obtain ⟨o', ho', b, w, hb⟩ := hu
    change (V.spaces.enter o a p k).map o' b = _ at hb
    rw [Spaces.enter_map] at hb
    split at hb
    · cases hb
      exact hp
    · exact ⟨o', ho', b, w, hb⟩
  refine h.edit ⟨rfl, rfl, rfl⟩ (fun o' ho' => ?_) (fun o' ho' => ?_)
    (fun p' hp' _ hu => .inl ⟨hp', huses hu⟩) fun p' hp' hD hkeeps => ?_
  · funext b
    change (σ.spaces.enter o a p k).map o' b = (V.spaces.enter o a p k).map o' b
    rw [Spaces.enter_map, Spaces.enter_map, h.map o' ho']
  · exact Spaces.assign_of_ne (ne_of_mem_of_not_mem ho ho').symm
  · refine h.known p' hp' hD ?_
    rcases hkeeps with ⟨b, w, hb, hw⟩ | ⟨hown, hu⟩
    · change (V.spaces.enter o a p k).map e b = _ at hb
      rw [Spaces.enter_map] at hb
      split at hb
      · rename_i hat
        cases hb
        exact hself hat.1.symm
      · exact .inl ⟨b, w, hb, hw⟩
    · exact .inr ⟨hown, huses hu⟩

/-- A page that nobody uses is entered, zeroed. -/
theorem alloc (h : Holds e V σ) (ho : o ∈ V.members e) (hunused : ∀ o', ¬ σ.spaces.Maps o' p) :
    Holds e (V.alloc o a p k)
      (σ.setSpaces ((σ.spaces.write p fun _ => 0#32).enter o a p k)) := by
  have hmaps {S : UserSpaces} {o' : EnvIdx} {p' : ℕ}
      (hm : ((S.write p fun _ => 0#32).enter o a p k).Maps o' p') :
      p' = p ∧ o' = o ∨ S.Maps o' p' := by
    obtain ⟨b, w, hb⟩ := hm
    rw [Spaces.enter_map] at hb
    split at hb
    · rename_i hat
      cases hb
      exact .inl ⟨rfl, hat.1⟩
    · exact .inr ⟨b, w, hb⟩
  have huses {p' : ℕ} (hne : p' ≠ p) (hu : (V.alloc o a p k).Uses e p') : V.Uses e p' := by
    obtain ⟨o', ho', hm⟩ := hu
    exact ⟨o', ho', (hmaps hm).resolve_left fun hat => hne hat.1⟩
  refine h.edit ⟨rfl, rfl, rfl⟩ (fun o' ho' => ?_) (fun o' ho' => ?_) (fun p' hp' _ hu => ?_)
    fun p' hp' hD hkeeps => ?_
  · funext b
    change ((σ.spaces.write p fun _ => 0#32).enter o a p k).map o' b =
      ((V.spaces.write p fun _ => 0#32).enter o a p k).map o' b
    rw [Spaces.enter_map, Spaces.enter_map]
    change (if o' = o ∧ b = a then _ else σ.spaces.map o' b) = _
    rw [h.map o' ho']
    rfl
  · exact Spaces.assign_of_ne (ne_of_mem_of_not_mem ho ho').symm
  · by_cases hne : p' = p
    · subst hne
      exact .inr fun o' hm => ((hmaps hm).resolve_right (hunused o')).2 ▸ ho
    · exact .inl ⟨hp'.resolve_left hne, huses hne hu⟩
  · by_cases hne : p' = p
    · subst hne
      change Function.update σ.spaces.content p' _ p' = Function.update V.spaces.content p' _ p'
      rw [Function.update_self, Function.update_self]
    · change Function.update σ.spaces.content p _ p' = Function.update V.spaces.content p _ p'
      rw [Function.update_of_ne hne, Function.update_of_ne hne]
      refine h.known p' (hp'.resolve_left hne) hD ?_
      rcases hkeeps with ⟨b, w, hb, hw⟩ | ⟨hown, hu⟩
      · change ((V.spaces.write p fun _ => 0#32).enter o a p k).map e b = _ at hb
        rw [Spaces.enter_map] at hb
        split at hb
        · cases hb
          exact absurd rfl hne
        · exact .inl ⟨b, w, hb, hw⟩
      · exact .inr ⟨hown.resolve_left hne, huses hne hu⟩

theorem clear (h : Holds e V σ) (ho : o ∈ V.members e) :
    Holds e (V.clear o a) (σ.setSpaces (σ.spaces.clear o a)) := by
  have hmaps {o' : EnvIdx} {p' : ℕ} (hm : (V.spaces.clear o a).Maps o' p') :
      V.spaces.Maps o' p' := by
    obtain ⟨b, w, hb⟩ := hm
    rw [Spaces.clear_map] at hb
    split at hb
    · cases hb
    · exact ⟨b, w, hb⟩
  have huses {p' : ℕ} (hu : (V.clear o a).Uses e p') : V.Uses e p' := by
    obtain ⟨o', ho', hm⟩ := hu
    exact ⟨o', ho', hmaps hm⟩
  refine h.edit ⟨rfl, rfl, rfl⟩ (fun o' ho' => ?_) (fun o' ho' => ?_)
    (fun p' hp' _ hu => .inl ⟨hp', huses hu⟩) fun p' hp' hD hkeeps => ?_
  · funext b
    change (σ.spaces.clear o a).map o' b = (V.spaces.clear o a).map o' b
    rw [Spaces.clear_map, Spaces.clear_map, h.map o' ho']
  · exact Spaces.assign_of_ne (ne_of_mem_of_not_mem ho ho').symm
  · refine h.known p' hp' hD (hkeeps.imp ?_ fun hk => ⟨hk.1, huses hk.2⟩)
    rintro ⟨b, w, hb, hw⟩
    change (V.spaces.clear o a).map e b = _ at hb
    rw [Spaces.clear_map] at hb
    split at hb
    · cases hb
    · exact ⟨b, w, hb, hw⟩

/-- A frame of the family is written. -/
theorem put (h : Holds e V σ) (hp : V.Keeps e p) (x : PtIdx → Word) :
    Holds e (V.put p x) (σ.setSpaces (σ.spaces.write p x)) := by
  refine h.edit ⟨rfl, rfl, rfl⟩ h.map (fun _ _ => rfl) (fun p' hp' _ hu => .inl ⟨hp', hu⟩)
    fun p' hp' hD hkeeps => ?_
  by_cases hne : p' = p
  · subst hne
    change Function.update σ.spaces.content p' _ p' = Function.update V.spaces.content p' _ p'
    rw [Function.update_self, Function.update_self]
  · change Function.update σ.spaces.content p _ p' = Function.update V.spaces.content p _ p'
    rw [Function.update_of_ne hne, Function.update_of_ne hne]
    exact h.known p' (hp'.resolve_left hne) hD hkeeps

/-- What a frame holds now is known. -/
theorem look (h : Holds e V σ) : Holds e (V.put p (σ.spaces.content p)) σ := by
  refine ⟨⟨h.good.self, h.good.child⟩, h.id, h.turn, h.recving, h.child, h.map, h.own,
    fun p' hp' hD hkeeps => ?_⟩
  by_cases hne : p' = p
  · subst hne
    exact (Function.update_self p' (σ.spaces.content p') V.spaces.content).symm
  · change σ.spaces.content p' = Function.update V.spaces.content p (σ.spaces.content p) p'
    rw [Function.update_of_ne hne]
    exact h.known p' (hp'.resolve_left hne) hD hkeeps

/-- Less is known. -/
theorem weaken {K : Set ℕ} {x : ℕ → PtIdx → Word} (h : Holds e V σ) (hK : K ⊆ V.known)
    (hx : ∀ p ∈ K, x p = V.spaces.content p) :
    Holds e { V with spaces := { V.spaces with content := x }, known := K } σ :=
  ⟨⟨h.good.self, h.good.child⟩, h.id, h.turn, h.recving, h.child, h.map, h.own,
    fun p' hp' hD hkeeps => (h.known p' (hK hp') hD hkeeps).trans (hx p' hp').symm⟩

/-- A slot that was free becomes a child. -/
theorem adopt (h : Holds e V σ) (ho : o ∉ V.members e) :
    Holds e (V.adopt o ((σ.forked e o).procs o)) (σ.forked e o) := by
  have hself : (σ.forked e o).procs o =
      { σ.procs o with
        id := nextEnvId (σ.procs o).id o
        parentId := (σ.procs e).id
        status := .notRunnable
        runs := 0
        tf := (σ.procs e).tf.setEax 0
        pgfaultUpcall := 0
        ipcRecving := false } := Function.update_self ..
  have hother (o' : EnvIdx) (hne : o' ≠ o) : (σ.forked e o).procs o' = σ.procs o' :=
    Function.update_of_ne hne ..
  have he : e ≠ o := fun heq => ho (heq ▸ .inl rfl)
  have hchild {o' : EnvIdx} (ho' : o' ∈ V.children) : o' ≠ o := fun heq => ho (heq ▸ .inr ho')
  have hspaces : (σ.forked e o).spaces = (σ.spaces.assign o World.newSpace).forget devices := rfl
  -- the new child maps nothing but a device
  have hnew {S : UserSpaces} {o' : EnvIdx} {p : ℕ} (hD : p ∉ devices)
      (hm : (S.assign o World.newSpace).Maps o' p) : o' ≠ o ∧ S.Maps o' p := by
    by_cases heq : o' = o
    · subst heq
      obtain ⟨b, w, hb⟩ := Spaces.maps_assign_self.mp hm
      unfold World.newSpace at hb
      split at hb
      · cases hb
        exact absurd rfl hD
      · cases hb
    · exact ⟨heq, (Spaces.maps_assign_of_ne heq).mp hm⟩
  have huses {p : ℕ} (hD : p ∉ devices)
      (hu : (V.adopt o ((σ.forked e o).procs o)).Uses e p) : V.Uses e p := by
    obtain ⟨o', ho', hm⟩ := hu
    obtain ⟨hne, hm'⟩ := hnew hD hm
    exact ⟨o', ho'.imp_right fun hin => hin.resolve_left hne, hm'⟩
  refine ⟨⟨?_, fun o' ho' => ?_⟩, ?_, ?_, ?_, fun o' ho' => ?_, fun o' ho' => ?_,
    fun p hp hD hu o' hm => ?_, fun p hp hD hkeeps => ?_⟩
  · rintro (heq | hin)
    · exact he heq
    · exact h.good.self hin
  · change ((Function.update V.proc o _ o').status = _ ∧
      (Function.update V.proc o _ o').ipcRecving = _ ∧
      (Function.update V.proc o _ o').parentId = _)
    by_cases heq : o' = o
    · subst heq
      rw [Function.update_self, hself]
      exact ⟨rfl, rfl, h.id⟩
    · rw [Function.update_of_ne heq]
      exact h.good.child o' (ho'.resolve_left heq)
  · rw [hother e he]
    exact h.id
  · rw [hother e he]
    exact h.turn
  · rw [hother e he]
    exact h.recving
  · change SameProc (Function.update V.proc o _ o') _
    by_cases heq : o' = o
    · subst heq
      rw [Function.update_self]
      exact .refl _
    · rw [Function.update_of_ne heq, hother o' heq]
      exact h.child o' (ho'.resolve_left heq)
  · change (σ.spaces.assign o World.newSpace).map o' = (V.spaces.assign o World.newSpace).map o'
    by_cases heq : o' = o
    · subst heq
      rw [Spaces.assign_self, Spaces.assign_self]
    · rw [Spaces.assign_of_ne heq, Spaces.assign_of_ne heq]
      exact h.map o' (ho'.imp_right fun hin => hin.resolve_left heq)
  · obtain ⟨-, hm'⟩ := hnew hD hm
    exact (h.own p hp hD (huses hD hu) o' hm').imp_right .inr
  · obtain ⟨o', ho', hm⟩ := hkeeps.uses
    obtain ⟨hne, hm'⟩ := hnew hD hm
    have hmem : o' ∈ V.members e := ho'.imp_right fun hin => hin.resolve_left hne
    have hkept : V.Keeps e p := by
      refine hkeeps.imp ?_ fun hown => ⟨hown.1, huses hD hown.2⟩
      rintro ⟨b, w, hb, hw⟩
      change (V.spaces.assign o World.newSpace).map e b = _ at hb
      rw [Spaces.assign_of_ne he] at hb
      exact ⟨b, w, hb, hw⟩
    have hin : (σ.spaces.assign o World.newSpace).Maps o' p :=
      (Spaces.maps_assign_of_ne hne).mpr ((h.maps_iff hmem).mpr hm')
    rw [hspaces, Spaces.content_forget hD hin]
    exact h.known p hp hD hkept

theorem start (h : Holds e V σ) : Holds e V.start σ where
  good := ⟨fun h => h, fun _ h => h.elim⟩
  id := h.id
  turn := h.turn
  recving := h.recving
  child _ ho := ho.elim
  map o ho := by
    obtain rfl := ho.resolve_right fun h => h
    exact h.map o (.inl rfl)
  own _ hp := hp.elim
  known p hp hD hkeeps := h.known p hp hD (.inl (hkeeps.resolve_right fun hown => hown.1))

end Holds

/-! ### What the others do -/

/-- An environment that is executed is active. -/
theorem active_of_current (h : Conserved L none s) (hcur : s.cpuEnv c = some o) :
    Active (s.world.procs o).status := h.sys.envs.exec hcur (by simp)

namespace Holds

variable {l : Label n} {b : Action}

theorem live (h : Holds e V σ) (ho : o ∈ V.members e) : (σ.procs o).status ≠ .free := by
  rcases ho with rfl | ho
  · rcases h.turn with hst | hst <;> rw [hst] <;> decide
  · refine (h.child o ho).live ?_
    rw [(h.good.child o ho).1]
    decide

theorem blocked (h : Holds e V σ) (ho : o ∈ V.children) :
    (σ.procs o).status = .notRunnable := by
  have hst := (h.good.child o ho).1
  rcases (h.child o ho).status with heq | ⟨hturn | hturn, -⟩
  · rw [heq, hst]
  · rw [hst] at hturn
    cases hturn
  · rw [hst] at hturn
    cases hturn

/-- Nobody but `e` acts on its children: they are not executed, and nobody else
has the id of their parent. -/
theorem not_acts (hc : Conserved L none s) (hslot : s.world.Slotted) (h : Holds e V s.world)
    (hacts : ¬ ActsOn e s l) (ho : o ∈ V.members e) : ¬ s.world.Acts o l := by
  rcases ho with rfl | ho
  · exact fun hacts' => hacts (acts_world.mp hacts')
  · have hidle {c : Fin n} (hcur : s.cpuEnv c = some o) : False := by
      have hactive := active_of_current hc hcur
      rw [Active, h.blocked ho] at hactive
      rcases hactive with hst | hst <;> cases hst
    cases l with
    | trap c tf input =>
        rintro ⟨cur, hcur, rfl | hparent⟩
        · exact hidle hcur
        · rw [(h.child o ho).parentId, (h.good.child o ho).2.2, ← h.id] at hparent
          have hlive : (s.world.procs cur).status ≠ .free := by
            rcases active_of_current hc hcur with hst | hst <;> rw [hst] <;> decide
          have hsame : e = cur := by
            rw [← (hslot e (h.live (.inl rfl))).slot, hparent, (hslot cur hlive).slot]
          exact hacts ⟨cur, hcur, .inl hsame.symm⟩
    | store c va w => exact hidle
    | tick c => exact fun hacts' => hacts'
    | fill c va => exact fun hacts' => hacts'

theorem other_kept (hc : Conserved L none s) (hslot : s.world.Slotted) (h : Holds e V s.world)
    (hok : OnCall (PresentOk M) s l) (hacts : ¬ ActsOn e s l) (hstep : Step M s l t) :
    World.Kept (V.members e) s.world t.world := by
  refine World.step_keeps (step_simulates hc hok hstep) (fun o ho => not_acts hc hslot h hacts ho)
    (fun o ho => h.live ho) ?_
  rintro o (rfl | ho)
  · exact h.recving
  · rw [(h.child o ho).ipcRecving]
    exact (h.good.child o ho).2.1

theorem other (hc : Conserved L none s) (hslot : s.world.Slotted) (h : Holds e V s.world)
    (hok : OnCall (PresentOk M) s l) (hacts : ¬ ActsOn e s l) (hspares : Spares e s l)
    (hstep : Step M s l t) : Holds e V t.world := by
  have hsim := step_simulates hc hok hstep
  have hkept := other_kept hc hslot h hok hacts hstep
  refine h.of_kept hkept fun p _ hD hpriv => ?_
  have hmaps' : s.world.spaces.Maps e p := (h.maps_iff (.inl rfl)).mpr hpriv.maps
  have hafter : t.world.spaces.Maps e p := by
    obtain ⟨a, k, ha⟩ := hmaps'
    exact ⟨a, k, by rw [hkept.spaces.map e (.inl rfl), ha]⟩
  by_cases hstore : ∃ c va w, l = .store c va w
  · obtain ⟨c, va, w, rfl⟩ := hstore
    cases hstep.taken with
    | @store _ _ _ frame hexec hwrite =>
        obtain ⟨o, hcur⟩ := Option.ne_none_iff_exists'.mp hexec
        obtain ⟨hi, -, -, hplain⟩ := SysInv.write_plain hc.sys.mem (hc.sys.cpu.exec hcur) hwrite
        have hne : p ≠ frame := by
          rintro rfl
          obtain ⟨a, k, ha, hW, hM⟩ := hpriv
          rw [← h.map e (.inl rfl)] at ha
          obtain ⟨v, hv, heq⟩ := Option.map_eq_some_iff.mp
            (show (mapping s.mem.word s.dirs e a.1 a.2).map
              (fun w => (pteFrame w, w &&& 0xFFF#32)) = some (p, k) from ha)
          obtain ⟨hframe, rfl⟩ := Prod.mk.inj heq
          exact hspares rfl hwrite hD hv ((flag_and_low (by decide)).mp hW)
            (fun hflag => hM ((flag_and_low (by decide)).mpr hflag)) hframe
        rw [world_store hplain] at hafter ⊢
        have hwritten : (s.world.setSpaces (s.world.spaces.write frame
            (Function.update (s.world.spaces.content frame) (wordIdx va) w))).spaces.content p =
            (s.world.spaces.write frame (Function.update (s.world.spaces.content frame)
              (wordIdx va) w)).content p := Spaces.content_forget hD hafter
        exact hwritten.trans (Function.update_of_ne hne _ _)
  · rw [not_exists] at hstore
    exact World.step_content hsim (fun c va w heq => hstore c ⟨va, w, heq⟩) hD hmaps' hafter

/-- A store of `e` itself. -/
theorem store {va w : Word} (hc : Conserved L none s) (h : Holds e V s.world)
    (hcur : s.cpuEnv c = some e) (hstep : Step M s (.store c va w) t) :
    ∃ p k, V.spaces.map e (pageAddr va) = some (p, k) ∧
      t.world = s.world.setSpaces (s.world.spaces.write p
        (Function.update (s.world.spaces.content p) (wordIdx va) w)) := by
  cases hstep.taken with
  | @store _ _ _ frame hexec hwrite =>
      have hdir := hc.sys.cpu.exec hcur
      obtain ⟨hi, -, -, hplain⟩ := SysInv.write_plain hc.sys.mem hdir hwrite
      obtain ⟨k, hmap, -, -⟩ := userWrite_mapped hdir hi hwrite
      rw [h.map e (.inl rfl)] at hmap
      exact ⟨frame, k, hmap, world_store hplain⟩

theorem not_dying (h : Holds e V s.world) : (s.envs e).envStatus ≠ .dying := by
  have hturn : InTurn (s.envs e).envStatus := h.turn
  rcases hturn with hst | hst <;> rw [hst] <;> decide

/-- Whatever happens before an action, the view holds, if what the stack page
holds is not part of it where the program says so. -/
theorem meantime (hc : Conserved L none s) (hslot : s.world.Slotted) (h : Holds e V s.world)
    (hmean : Meantime M e stack b s t) (hstack : b = .locals →
      ∀ p k, V.spaces.map e (pageAddr stack) = some (p, k) → p ∉ V.known) :
    Holds e V t.world := by
  cases hmean with
  | other hok hacts hspares hstep => exact other hc hslot h hok hacts hspares hstep
  | @interrupt c tf input t hcur hno _ hok hstep =>
      have hexit := trap_interrupt hcur h.not_dying hno hstep
      have hkept := exit_keeps (O := Set.univ) hexit
      rw [world_setTf] at hkept
      exact (h.setTf tf).of_turns hkept
  | @locals c va w t ha hcur hva hstep =>
      obtain ⟨p, k, hmap, hworld⟩ := store hc h hcur hstep
      rw [hva] at hmap
      have hunknown := hstack ha p k hmap
      rw [hworld]
      refine h.edit ⟨rfl, rfl, rfl⟩ h.map (fun _ _ => rfl) (fun p' hp' _ hu => .inl ⟨hp', hu⟩)
        fun p' hp' hD hkeeps => ?_
      have hne : p' ≠ p := fun heq => hunknown (heq ▸ hp')
      exact (Function.update_of_ne hne _ _).trans (h.known p' hp' hD hkeeps)

/-- The result of a system call stays where it is until the program goes on. -/
theorem result (hc : Conserved L none s) (hslot : s.world.Slotted) (h : Holds e V s.world)
    (hmean : Meantime M e stack .result s t) :
    (t.envs e).envTf.tfRegs.regEax = (s.envs e).envTf.tfRegs.regEax := by
  cases hmean with
  | other hok hacts _ hstep =>
      have htf := ((other_kept hc hslot h hok hacts hstep).proc e (.inl rfl)).tf
      exact congrArg (fun tf : Trapframe => tf.tfRegs.regEax) htf
  | @interrupt c tf input t hcur hno hresult hok hstep =>
      have hexit := trap_interrupt hcur h.not_dying hno hstep
      have htf := ((exit_keeps (O := Set.univ) hexit).proc e trivial).tf
      have hset : ((s.setTf e tf).world.procs e).tf = tf := by
        simp [world_setTf, World.setTf, World.setProc]
      rw [hset] at htf
      exact (congrArg (fun tf : Trapframe => tf.tfRegs.regEax) htf).trans (hresult rfl)
  | locals ha => cases ha

end Holds

/-! ### What the program does -/

/-- The trap by which `e` makes a system call. -/
def Traps (M : Machine) (e : EnvIdx) (q : SysArgs) (tf : Trapframe) (s t : Kernel n) : Prop :=
  ∃ c input, s.cpuEnv c = some e ∧ tf.tfTrapno = tSyscall ∧ tf.sysArgs = q ∧
    Step M s (.trap c tf input) t

/-- A system call of `e` that returns: the world is as the call left it, but for
who has been scheduled, and the result is in `eax`. -/
theorem Does.returns {q : SysArgs} {R : Word → World n → Prop} (hst : (s.envs e).envStatus ≠ .dying)
    (hdo : Does M e s (.trap q) () t)
    (hcall : ∀ {c tf input}, s.cpuEnv c = some e → tf.tfTrapno = tSyscall → tf.sysArgs = q →
      PresentOk M c e tf.request (s.setTf e tf) → Step M s (.trap c tf input) t →
      Comp.wp (syscall M c e input q.no q.a1 q.a2 q.a3 q.a4 q.a5)
        (fun r u => R r u.world) (fun _ => False) (fun _ => True) (s.setTf e tf)) :
    ∃ r σ tf, R r σ ∧ World.Kept Set.univ (σ.setTf e tf) t.world ∧
      (t.envs e).envTf.tfRegs.regEax = r := by
  cases hdo with
  | @trap c tf input t hcur hno hok hstep =>
      obtain ⟨r, u, hR, hexit⟩ := trap_returns hcur hst hno
        (hcall hcur hno rfl (hok rfl hcur hst) hstep) hstep
      have hkept := exit_keeps (O := Set.univ) hexit
      rw [world_setTf] at hkept
      refine ⟨r, u.world, _, hR, hkept, ?_⟩
      have htf := (hkept.proc e trivial).tf
      have hset : ((u.world.setTf e ((u.envs e).envTf.setEax r)).procs e).tf =
          (u.envs e).envTf.setEax r := by
        simp [World.setTf, World.setProc]
      rw [hset] at htf
      exact congrArg (fun tf : Trapframe => tf.tfRegs.regEax) htf

/-- A system call, as the kernel reads it from the registers. -/
theorem request_of_args {tf : Trapframe} (hno : tf.tfTrapno = tSyscall) :
    tf.request = ⟨Sysno.ofWord tf.sysArgs.no, tf.sysArgs.a1, tf.sysArgs.a2, tf.sysArgs.a3,
      tf.sysArgs.a4, tf.sysArgs.a5⟩ := by
  unfold Trapframe.request
  rw [if_pos hno]
  rfl

namespace Holds

variable {id va perm : Word} {q : SysArgs}

theorem named (hslot : σ.Slotted) (h : Holds e V σ) (hnames : V.Names e id o) :
    σ.envid2env e id true = some o ∧ o ∈ V.members e := by
  rcases hnames with ⟨rfl, rfl⟩ | ⟨ho, rfl⟩
  · exact ⟨if_pos rfl, .inl rfl⟩
  · have hsame := h.child o ho
    have hlive := h.live (.inr ho)
    rw [← hsame.id]
    refine ⟨World.envid2env_child (hslot o hlive) hlive ?_, .inr ho⟩
    rw [hsame.parentId, (h.good.child o ho).2.2, h.id]

/-- The state in which a call of `e` is served. -/
theorem served (tf : Trapframe) (hc : Conserved L none s) (hslot : s.world.Slotted)
    (h : Holds e V s.world) (hcur : s.cpuEnv c = some e) :
    Conserved L (some c) (s.setTf e tf) ∧ (s.setTf e tf).world.Slotted ∧
      Holds e V (s.setTf e tf).world := by
  refine ⟨(hc.enter fun cur hcur' => ?_).setTf, ?_, ?_⟩
  · obtain rfl := Option.some.inj (hcur.symm.trans hcur')
    exact h.not_dying
  · rw [world_setTf]
    exact hslot.setProc fun hlive => hslot e hlive
  · rw [world_setTf]
    exact h.setTf tf

theorem pageAlloc (hc : Conserved L none s) (hslot : s.world.Slotted) (h : Holds e V s.world)
    (hnames : V.Names e id o) (hva : userPage va) (hperm : validPerm perm)
    (hdo : Does M e s (.trap ⟨4, id, va, perm, 0, 0⟩) () t) :
    (t.envs e).envTf.tfRegs.regEax = -eNoMem ∧ Holds e V t.world ∨
      (t.envs e).envTf.tfRegs.regEax = 0 ∧ ∃ p, p ∉ devices ∧ ¬ V.Uses e p ∧
        Holds e (V.alloc o (pageAddr va) p (perm ||| pteP)) t.world := by
  have hret := Does.returns (R := fun r σ =>
    r = -eNoMem ∧ Holds e V σ ∨ r = 0 ∧ ∃ p, p ∉ devices ∧ ¬ V.Uses e p ∧
      Holds e (V.alloc o (pageAddr va) p (perm ||| pteP)) σ) h.not_dying hdo ?_
  · obtain ⟨r, σ, tf, hR, hkept, hr⟩ := hret
    rw [hr]
    refine hR.imp (fun hfail => ⟨hfail.1, (hfail.2.setTf tf).of_turns hkept⟩) fun hdone => ?_
    obtain ⟨hzero, p, hD, huses, hV⟩ := hdone
    exact ⟨hzero, p, hD, huses, (hV.setTf tf).of_turns hkept⟩
  · intro c tf input hcur _ _ _ _
    obtain ⟨hc', hslot', h'⟩ := served tf hc hslot h hcur
    obtain ⟨hfound, hmem⟩ := h'.named hslot' hnames
    refine (sysPageAlloc_world hc' hfound hva hperm).mono (fun r u hru => ?_) (fun _ h => h)
      fun _ h => h
    rcases hru with ⟨hr, hworld⟩ | ⟨hr, p, hD, hunused, hworld⟩
    · rw [hworld]
      exact .inl ⟨hr, h'⟩
    · rw [hworld]
      refine .inr ⟨hr, p, hD, ?_, h'.alloc hmem hunused⟩
      rintro ⟨o', ho', hm⟩
      exact hunused o' ((h'.maps_iff ho').mpr hm)

theorem pageMap {srcid srcva dstid dstva : Word} {src dst : EnvIdx} {w : Word}
    (hc : Conserved L none s) (hslot : s.world.Slotted) (h : Holds e V s.world)
    (hsrc : V.Names e srcid src) (hdst : V.Names e dstid dst)
    (hva : userPage srcva ∧ userPage dstva) (hperm : validPerm perm)
    (hpage : V.spaces.map src (pageAddr srcva) = some (p, w))
    (hW : Flag perm pteW → Flag w pteW) (hself : dst = e → V.Keeps e p)
    (hdo : Does M e s (.trap ⟨5, srcid, srcva, dstid, dstva, perm⟩) () t) :
    (t.envs e).envTf.tfRegs.regEax = -eNoMem ∧ Holds e V t.world ∨
      (t.envs e).envTf.tfRegs.regEax = 0 ∧
        Holds e (V.enter dst (pageAddr dstva) p (perm ||| pteP)) t.world := by
  have hret := Does.returns (R := fun r σ =>
    r = -eNoMem ∧ Holds e V σ ∨ r = 0 ∧
      Holds e (V.enter dst (pageAddr dstva) p (perm ||| pteP)) σ) h.not_dying hdo ?_
  · obtain ⟨r, σ, tf, hR, hkept, hr⟩ := hret
    rw [hr]
    exact hR.imp (fun hfail => ⟨hfail.1, (hfail.2.setTf tf).of_turns hkept⟩)
      fun hdone => ⟨hdone.1, (hdone.2.setTf tf).of_turns hkept⟩
  · intro c tf input hcur hno hargs hok _
    obtain ⟨hc', hslot', h'⟩ := served tf hc hslot h hcur
    obtain ⟨hsrcFound, hsrcMem⟩ := h'.named hslot' hsrc
    obtain ⟨hdstFound, hdstMem⟩ := h'.named hslot' hdst
    have hpage' : (s.setTf e tf).world.spaces.map src (pageAddr srcva) = some (p, w) := by
      rw [h'.map src hsrcMem, hpage]
    have hq : tf.request = ⟨some .pageMap, srcid, srcva, dstid, dstva, perm⟩ := by
      rw [request_of_args hno, hargs]
      rfl
    rw [hq] at hok
    refine (sysPageMap_world hc' hok rfl hsrcFound hdstFound hva hperm hpage' hW).mono
      (fun r u hru => ?_) (fun _ h => h) fun _ h => h
    rcases hru with ⟨hr, hworld⟩ | ⟨hr, hworld⟩
    · rw [hworld]
      exact .inl ⟨hr, h'⟩
    · rw [hworld]
      exact .inr ⟨hr, h'.enter hdstMem ⟨src, hsrcMem, _, _, hpage⟩ hself⟩

theorem pageUnmap (hc : Conserved L none s) (hslot : s.world.Slotted) (h : Holds e V s.world)
    (hnames : V.Names e id o) (hva : userPage va)
    (hdo : Does M e s (.trap ⟨6, id, va, 0, 0, 0⟩) () t) :
    (t.envs e).envTf.tfRegs.regEax = 0 ∧ Holds e (V.clear o (pageAddr va)) t.world := by
  have hret := Does.returns (R := fun r σ =>
    r = 0 ∧ Holds e (V.clear o (pageAddr va)) σ) h.not_dying hdo ?_
  · obtain ⟨r, σ, tf, hR, hkept, hr⟩ := hret
    rw [hr]
    exact ⟨hR.1, (hR.2.setTf tf).of_turns hkept⟩
  · intro c tf input hcur _ _ _ _
    obtain ⟨hc', hslot', h'⟩ := served tf hc hslot h hcur
    obtain ⟨hfound, hmem⟩ := h'.named hslot' hnames
    refine (sysPageUnmap_world hc' hfound hva).mono (fun r u hru => ?_) (fun _ h => h)
      fun _ h => h
    rw [hru.2]
    exact ⟨hru.1, h'.clear hmem⟩

/-- `sys_exofork`: the saved registers of the child are those of the parent,
with `eax` 0. -/
theorem exofork (hc : Conserved L none s) (hslot : s.world.Slotted) (h : Holds e V s.world)
    (hno : q.no = 7) (hdo : Does M e s (.trap q) () t) :
    ((t.envs e).envTf.tfRegs.regEax = -eNoFreeEnv ∨ (t.envs e).envTf.tfRegs.regEax = -eNoMem) ∧
        Holds e V t.world ∨
      ∃ o v, o ∉ V.members e ∧ IdOf o v.id ∧ (t.envs e).envTf.tfRegs.regEax = v.id ∧
        (∃ tf, Traps M e q tf s t ∧ v.tf = tf.setEax 0) ∧ Holds e (V.adopt o v) t.world := by
  have hret := Does.returns (R := fun r σ =>
    (r = -eNoFreeEnv ∨ r = -eNoMem) ∧ Holds e V σ ∨
      ∃ o v, o ∉ V.members e ∧ IdOf o v.id ∧ r = v.id ∧
        (∃ tf, Traps M e q tf s t ∧ v.tf = tf.setEax 0) ∧ Holds e (V.adopt o v) σ)
    h.not_dying hdo ?_
  · obtain ⟨r, σ, tf, hR, hkept, hr⟩ := hret
    rw [hr]
    refine hR.imp (fun hfail => ⟨hfail.1, (hfail.2.setTf tf).of_turns hkept⟩) fun hdone => ?_
    obtain ⟨o, v, ho, hid, hrid, htf, hV⟩ := hdone
    exact ⟨o, v, ho, hid, hrid, htf, (hV.setTf tf).of_turns hkept⟩
  · intro c tf input hcur htrap hargs _ hstep
    obtain ⟨hc', hslot', h'⟩ := served tf hc hslot h hcur
    rw [hno]
    refine (sysExofork_world hc' hcur).mono (fun r u hru => ?_) (fun _ h => h) fun _ h => h
    rcases hru with ⟨hr, hworld⟩ | ⟨o, hfree, hr, hworld⟩
    · rw [hworld]
      exact .inl ⟨hr, h'⟩
    · have ho : o ∉ V.members e := fun hmem => h'.live hmem hfree
      have hself : (((s.setTf e tf).world.forked e o).procs o) =
          { (s.setTf e tf).world.procs o with
            id := nextEnvId ((s.setTf e tf).world.procs o).id o
            parentId := ((s.setTf e tf).world.procs e).id
            status := .notRunnable
            runs := 0
            tf := ((s.setTf e tf).world.procs e).tf.setEax 0
            pgfaultUpcall := 0
            ipcRecving := false } := Function.update_self ..
      have hsaved : ((s.setTf e tf).world.procs e).tf = tf := by
        simp [world_setTf, World.setTf, World.setProc]
      rw [hworld]
      refine .inr ⟨o, _, ho, ?_, ?_, ⟨tf, ⟨c, input, hcur, htrap, hargs, hstep⟩, ?_⟩, h'.adopt ho⟩
      · rw [hself]
        exact nextEnvId_idOfSlot _ o
      · rw [hr, hself]
        rfl
      · rw [hself, hsaved]

/-- The children are let go. -/
theorem setStatus (hc : Conserved L none s) (hslot : s.world.Slotted) (h : Holds e V s.world)
    (ho : o ∈ V.children) (hdo : Does M e s (.trap ⟨8, (V.proc o).id, 2, 0, 0, 0⟩) () t) :
    (t.envs e).envTf.tfRegs.regEax = 0 ∧ Holds e V.start t.world := by
  have hret := Does.returns (R := fun r σ => r = 0 ∧ Holds e V.start σ)
    h.not_dying hdo ?_
  · obtain ⟨r, σ, tf, hR, hkept, hr⟩ := hret
    rw [hr]
    exact ⟨hR.1, (hR.2.setTf tf).of_turns hkept⟩
  · intro c tf input hcur _ _ _ _
    obtain ⟨hc', hslot', h'⟩ := served tf hc hslot h hcur
    obtain ⟨hfound, hmem⟩ := h'.named hslot' (.inr ⟨ho, rfl⟩)
    have hst : statusOfWord 2 = some .runnable := rfl
    refine (sysEnvSetStatus_world hst hfound).mono (fun r u hru => ?_) (fun _ h => h) fun _ h => h
    rw [hru.2]
    refine ⟨hru.1, ?_⟩
    have hne : e ≠ o := fun heq => h.good.self (heq ▸ ho)
    have hself : (((s.setTf e tf).world.setStatus o .runnable).procs e) =
        (s.setTf e tf).world.procs e := Function.update_of_ne hne ..
    have hstart := h'.start
    exact ⟨hstart.good, by rw [hself]; exact hstart.id, by rw [hself]; exact hstart.turn,
      by rw [hself]; exact hstart.recving, fun _ hin => hin.elim, hstart.map,
      fun _ hp => hp.elim, hstart.known⟩

end Holds

end Jos
