import Jos.Lib.RepString
import Jos.Ulib.Rules

/-!
lib/fork.c: `fork_v0` gives a new environment a copy of the address space of
its parent, page by page: what is not writable, or marked as mapped, is shared,
and the rest is copied through `UTEMP`. The stack is copied once more at the
end. Whatever other environments do meanwhile to anything but the parent, the
child that is started has the address space that the parent had.
-/

namespace Jos

open Jos.Lib

variable {n : ℕ} {M : Machine} {L : Layout M} {e o : EnvIdx} {s t : Kernel n} {V : View}
  {p q : ℕ} {i : PtIdx} {k kp kq va perm stack : Word} {W : Kernel n → Prop}
  {before : SysArgs → Kernel n → Prop}

namespace User

/-! ### The program -/

/-- `rep movsl`. -/
def repMovsl (df : Bool) (edi esi : Word) : ℕ → UserProgram Unit
  | 0 => pure ()
  | ecx + 1 => do
      let w ← perform (.load esi)
      perform (.store edi w)
      repMovsl df (Lib.advance df 4 edi) (Lib.advance df 4 esi) ecx

/-- `rep movsb`. -/
def repMovsb (df : Bool) (edi esi : Word) : ℕ → UserProgram Unit
  | 0 => pure ()
  | ecx + 1 => do
      let b ← perform (.loadByte esi)
      perform (.storeByte edi b)
      repMovsb df (Lib.advance df 1 edi) (Lib.advance df 1 esi) ecx

/-- `memmove` of lib/string.c. -/
def memmove (dst src n : Word) : UserProgram Unit :=
  if src < dst ∧ src + n > dst then
    let s := src + n
    let d := dst + n
    if s.srem 4 = 0 ∧ d.srem 4 = 0 ∧ n % 4 = 0 then repMovsl true (d - 4) (s - 4) (n / 4).toNat
    else repMovsb true (d - 1) (s - 1) n.toNat
  else if src.srem 4 = 0 ∧ dst.srem 4 = 0 ∧ n % 4 = 0 then repMovsl false dst src (n / 4).toNat
  else repMovsb false dst src n.toNat

def dupOrShare (dstenv va perm : Word) : UserProgram Unit :=
  if ¬ Flag perm pteP then panic "assertion failed: perm & PTE_P" 0
  else if ¬ Flag perm pteW ∨ Flag perm pteMapped then do
    let r ← sysPageMap 0 va dstenv va perm
    check "sys_page_map: %e" r
  else do
    let r ← sysPageAlloc dstenv va perm
    check "sys_page_alloc: %e" r
    let r ← sysPageMap dstenv va 0 utemp perm
    check "sys_page_map: %e" r
    perform .locals
    memmove utemp va 0x1000
    let r ← sysPageUnmap 0 utemp
    check "sys_page_unmap: %e" r

/-- The page directory is a page of the table at `UVPT`. -/
def uvpd : Word := uvpt + (uvpt >>> 12) * 4

/-- The body of the loop of `fork_v0`. -/
def copyMapping (pid va : Word) : UserProgram Unit := do
  perform .locals
  let ptx := va >>> 12
  let pdx := (ptx - ptx % 1024) / 1024
  let pde ← perform (.load (uvpd + 4 * pdx))
  if pde &&& pteP = pteP then
    let pte ← perform (.load (uvpt + 4 * ptx))
    if pte &&& pteP = pteP then
      let pte ← perform (.load (uvpt + 4 * ptx))
      dupOrShare pid va (pte &&& pteSyscall)

/-- The loop, which ends after at most `k` turns. -/
def copyMappings (pid : Word) : ℕ → Word → UserProgram Unit
  | 0, _ => pure ()
  | k + 1, va =>
      if va < utop then do
        copyMapping pid va
        copyMappings pid k (va + 0x1000)
      else pure ()

/-- `fork_v0`, with the registers that `sys_exofork` leaves as they are, the
address of `thisenv` and that of the variable `va`. A `struct Env` takes 124
bytes. -/
def forkV0 (regs : SysArgs) (thisenv va : Word) : UserProgram Word := do
  let pid ← sysExofork regs
  check "sys_exofork: %e" pid
  if pid = 0 then
    let id ← sysGetenvid
    perform (.store thisenv (uenvs + 124 * (id &&& 0x3FF)))
    return 0
  else
    copyMappings pid 0x100000 0
    dupOrShare pid (rounddown va) (pteP ||| pteU ||| pteW)
    let r ← sysEnvSetStatus pid 2
    check "sys_env_set_status: %e" r
    return pid

end User

/-! ### `memmove` between pages -/

theorem put_put {x y : PtIdx → Word} : (V.put p x).put p y = V.put p y := by
  simp [View.put, Spaces.write]

theorem userPage_aligned (hva : userPage va) : va.toNat % 4096 = 0 := by
  have hmod := congrArg BitVec.toNat hva.2
  rwa [BitVec.toNat_umod] at hmod

/-- The words of a page. -/
theorem word_of_page (hva : userPage va) (hi : (i : ℕ) < 1024) :
    va + BitVec.ofNat 32 (4 * i) < utop ∧ pageAddr (va + BitVec.ofNat 32 (4 * i)) = pageAddr va ∧
      wordIdx (va + BitVec.ofNat 32 (4 * i)) = i := by
  have hlt : va.toNat < 0xEEC00000 := hva.1
  have haligned := userPage_aligned hva
  have haddr : (va + BitVec.ofNat 32 (4 * i)).toNat = va.toNat + 4 * i := by
    rw [BitVec.toNat_add, BitVec.toNat_ofNat]
    omega
  refine ⟨?_, Prod.ext (Fin.ext ?_) (Fin.ext ?_), Fin.ext ?_⟩
  · rw [BitVec.lt_def, haddr]
    change _ < 0xEEC00000
    omega
  · change (pdx (va + BitVec.ofNat 32 (4 * i)) : ℕ) = pdx va
    rw [pdx_val, pdx_val, haddr]
    omega
  · change (ptx (va + BitVec.ofNat 32 (4 * i)) : ℕ) = ptx va
    rw [ptx_val, ptx_val, haddr]
    omega
  · rw [wordIdx, haddr, Fin.val_ofNat]
    omega

/-- Page `va` is copied to page `dst`, which is one of the family's own. -/
structure CopyOf (e : EnvIdx) (V : View) (dst va : Word) (q p : ℕ) : Prop where
  dstPage : userPage dst
  srcPage : userPage va
  write : ∃ k, V.spaces.map e (pageAddr dst) = some (q, k) ∧ Flag k pteU ∧ Flag k pteW
  read : ∃ k, V.spaces.map e (pageAddr va) = some (p, k) ∧ Flag k pteU
  ne : p ≠ q
  keepsDst : V.Keeps e q
  device : q ∉ devices
  keeps : V.Keeps e p

section

variable {dst : Word}

/-- The rest of a page, word by word. -/
theorem meets_repMovsl (hW : Visits L W) (hcopy : CopyOf e V dst va q p) (hknown : p ∈ V.known)
    {y : PtIdx → Word} {j k : ℕ} (hk : j + k = 1024) (h : Holds e (V.put q y) s.world)
    (hy : p ∉ devices → ∀ i : PtIdx, (i : ℕ) < j → y i = V.spaces.content p i) :
    (userArena M e stack).Meets W (Safe e before)
      (fun _ t => ∃ y, Holds e (V.put q y) t.world ∧ (p ∉ devices → y = V.spaces.content p))
      (User.repMovsl false (dst + BitVec.ofNat 32 (4 * j)) (va + BitVec.ofNat 32 (4 * j)) k) s := by
  induction k generalizing j y s with
  | zero =>
      refine ⟨y, h, fun hp => funext fun i => hy hp i ?_⟩
      have hi := i.isLt
      omega
  | succ k ih =>
      obtain ⟨hdst, hsrc, ⟨kq, hq, hqU, hqW⟩, ⟨kp, hp, hpU⟩, hne, hkeepsDst, hdevice, hkeeps⟩ :=
        hcopy
      let i : PtIdx := ⟨j, by omega⟩
      obtain ⟨hvaLt, hvaPage, hvaIdx⟩ := word_of_page (i := i) hsrc i.isLt
      obtain ⟨hdstLt, hdstPage, hdstIdx⟩ := word_of_page (i := i) hdst i.isLt
      unfold User.repMovsl
      refine (meets_load hW h hvaLt (hvaPage ▸ hp) hpU).seq fun w t hw => ?_
      obtain ⟨ht, hw⟩ := hw
      refine (meets_store (w := w) hW ht hdstLt (hdstPage ▸ hq) hqU hqW (.inl rfl) hdevice
        hkeepsDst).seq fun _ u hu => ?_
      rw [put_put] at hu
      have hnext (a : Word) : Lib.advance false 4 (a + BitVec.ofNat 32 (4 * j)) =
          a + BitVec.ofNat 32 (4 * (j + 1)) := by
        change a + BitVec.ofNat 32 (4 * j) + BitVec.ofNat 32 4 = _
        rw [BitVec.add_assoc, ← BitVec.ofNat_add]
        rfl
      rw [hnext, hnext]
      refine ih (by omega) hu fun hD i' hi' => ?_
      have hcontent : (V.put q y).spaces.content p = V.spaces.content p :=
        Function.update_of_ne hne _ _
      have hself : (V.put q y).spaces.content q = y := Function.update_self ..
      have hword : w = V.spaces.content p i := by
        rw [hw (.inr hknown) hD hkeeps, hcontent, hvaIdx]
      rw [hself, hdstIdx]
      by_cases hii : i' = i
      · subst hii
        rw [Function.update_self, hword]
      · rw [Function.update_of_ne hii]
        refine hy hD i' ?_
        have hne' : (i' : ℕ) ≠ j := fun heq => hii (Fin.ext heq)
        omega

theorem srem_four {w : Word} (hw : w.toNat % 4096 = 0) : w.srem 4 = 0 := by
  refine BitVec.srem_zero_of_dvd ?_
  have hfour : (4 : Word).toInt = 4 := rfl
  have hlt := w.isLt
  rw [hfour, BitVec.toInt_eq_toNat_cond]
  split <;> omega

/-- Two pages do not overlap, so that `memmove` goes upwards, in words. -/
theorem meets_memmove (hW : Visits L W) (hcopy : CopyOf e V dst va q p) (hknown : p ∈ V.known)
    (h : Holds e V s.world) :
    (userArena M e stack).Meets W (Safe e before)
      (fun _ t => ∃ y, Holds e (V.put q y) t.world ∧ (p ∉ devices → y = V.spaces.content p))
      (User.memmove dst va 0x1000) s := by
  have hva := userPage_aligned hcopy.srcPage
  have hdst := userPage_aligned hcopy.dstPage
  have hup : ¬ (va < dst ∧ va + 0x1000 > dst) := by
    rintro ⟨hlt, hgt⟩
    have hlt' : va.toNat < dst.toNat := hlt
    have hgt' : dst.toNat < (va + 0x1000#32).toNat := hgt
    have hutop : va.toNat < 0xEEC00000 := hcopy.srcPage.1
    rw [BitVec.toNat_add, BitVec.toNat_ofNat] at hgt'
    omega
  have hwords : va.srem 4 = 0 ∧ dst.srem 4 = 0 ∧ (0x1000 : Word) % 4 = 0 :=
    ⟨srem_four hva, srem_four hdst, by decide⟩
  have hzero (a : Word) : a + BitVec.ofNat 32 (4 * 0) = a := BitVec.add_zero a
  have hloop : (userArena M e stack).Meets W (Safe e before)
      (fun _ t => ∃ y, Holds e (V.put q y) t.world ∧ (p ∉ devices → y = V.spaces.content p))
      (User.repMovsl false (dst + BitVec.ofNat 32 (4 * 0)) (va + BitVec.ofNat 32 (4 * 0)) 1024) s :=
    meets_repMovsl hW hcopy hknown rfl h.look fun _ i hi => absurd hi (Nat.not_lt_zero _)
  rw [hzero, hzero] at hloop
  unfold User.memmove
  rw [if_neg hup, if_pos hwords]
  exact hloop

end

/-! ### One page -/

/-- The page that was alloced for the child, and mapped at `b` to be filled. -/
theorem View.filled {a b : PageAddr} {y : PtIdx → Word} (hne : e ≠ o)
    (hb : V.spaces.map e b = none) :
    (((V.alloc o a q k).enter e b q k).put q y).clear e b = (V.alloc o a q k).put q y := by
  refine View.ext rfl rfl rfl (Spaces.ext (funext fun o' => funext fun b' => ?_) rfl) rfl rfl
  change ((((V.alloc o a q k).enter e b q k).put q y).spaces.clear e b).map o' b' = _
  rw [Spaces.clear_map]
  change (if o' = e ∧ b' = b then none else ((V.alloc o a q k).spaces.enter e b q k).map o' b') =
    (V.alloc o a q k).spaces.map o' b'
  rw [Spaces.enter_map]
  by_cases hat : o' = e ∧ b' = b
  · obtain ⟨rfl, rfl⟩ := hat
    rw [if_pos ⟨rfl, rfl⟩]
    change none = ((V.spaces.write q fun _ => 0#32).enter o a q k).map o' b'
    rw [Spaces.enter_map, if_neg fun h => hne h.1]
    exact hb.symm
  · rw [if_neg hat, if_neg hat]

/-- What `dup_or_share` does for page `p` at `a`: the child has the same page,
or one of its own, filled with `y`. -/
inductive Duped (e o : EnvIdx) (a : PageAddr) (p : ℕ) (perm : Word)
    (P : (PtIdx → Word) → Prop) (V : View) : View → Prop
  | share (hperm : ¬ Flag perm pteW ∨ Flag perm pteMapped) :
      Duped e o a p perm P V (V.enter o a p perm)
  | copy {q y} (hperm : Flag perm pteW ∧ ¬ Flag perm pteMapped) (hD : q ∉ devices)
      (huses : ¬ V.Uses e q) (hy : P y) : Duped e o a p perm P V ((V.alloc o a q perm).put q y)

/-- The contents of page `p` at a moment of the run. -/
def Snapshot (W : Kernel n → Prop) (V : View) (p : ℕ) (y : PtIdx → Word) : Prop :=
  p ∉ devices → (∃ u, W u ∧ y = u.mem.word p) ∧ (p ∈ V.known → y = V.spaces.content p)

theorem flag_of_valid {flag : Word} (h : perm &&& flag = flag) (hne : flag ≠ 0) :
    Flag perm flag := by
  unfold Flag
  rw [h]
  exact hne

theorem or_pteP (hperm : validPerm perm) : perm ||| pteP = perm := by
  rw [← hperm.2.1]
  apply BitVec.eq_of_getLsbD_eq
  intro j _
  simp only [BitVec.getLsbD_or, BitVec.getLsbD_and]
  cases perm.getLsbD j <;> simp

theorem View.OffStack.mono {V' : View} (h : V.OffStack e stack)
    (hmap : V'.spaces.map e (pageAddr stack) = V.spaces.map e (pageAddr stack))
    (hknown : V'.known = V.known) : V'.OffStack e stack := by
  intro p k hp
  rw [hknown]
  exact h p k (hmap ▸ hp)

/-- `memmove`, whether what it copies is known before or not. -/
theorem meets_fill {dst : Word} (hW : Visits L W) (hWs : W s) (hcopy : CopyOf e V dst va q p)
    (h : Holds e V s.world) :
    (userArena M e stack).Meets W (Safe e before)
      (fun _ t => ∃ y, Snapshot W V p y ∧ Holds e (V.put q y) t.world)
      (User.memmove dst va 0x1000) s := by
  obtain ⟨kp, hp, -⟩ := hcopy.read
  have hword (hD : p ∉ devices) : s.world.spaces.content p = s.mem.word p :=
    h.content (.inl rfl) hp hD
  by_cases hknown : p ∈ V.known
  · refine (meets_memmove hW hcopy hknown h).mono fun _ t ht => ?_
    obtain ⟨y, hV, hy⟩ := ht
    refine ⟨y, fun hD => ⟨⟨s, hWs, ?_⟩, fun _ => hy hD⟩, hV⟩
    rw [hy hD, ← hword hD, h.known p hknown hD hcopy.keeps]
  · have hlooked : CopyOf e (V.put p (s.world.spaces.content p)) dst va q p :=
      ⟨hcopy.dstPage, hcopy.srcPage, hcopy.write, hcopy.read, hcopy.ne, hcopy.keepsDst,
        hcopy.device, hcopy.keeps⟩
    refine (meets_memmove hW hlooked (.inl rfl) h.look).mono fun _ t ht => ?_
    obtain ⟨y, hV, hy⟩ := ht
    have hself : (V.put p (s.world.spaces.content p)).spaces.content p =
        s.world.spaces.content p := Function.update_self ..
    rw [hself] at hy
    refine ⟨y, fun hD => ⟨⟨s, hWs, (hy hD).trans (hword hD)⟩, fun hin => absurd hin hknown⟩, ?_⟩
    refine hV.weaken (K := insert q V.known) (fun p' hp' => hp'.imp_right .inr) fun p' hp' => ?_
    change Function.update V.spaces.content q y p' =
      Function.update (Function.update V.spaces.content p _) q y p'
    by_cases hpq : p' = q
    · subst hpq
      rw [Function.update_self, Function.update_self]
    · have hne : p' ≠ p := fun heq => hknown (heq ▸ hp'.resolve_left hpq)
      rw [Function.update_of_ne hpq, Function.update_of_ne hpq, Function.update_of_ne hne]

section

variable {stk : ℕ} {ks : Word}

/-- `dup_or_share` of page `va`, which holds `p`. -/
theorem meets_dupOrShare (hW : Visits L W) (h : Holds e V s.world) (hstack : V.OffStack e stack)
    (hstk : V.spaces.map e (pageAddr stack) = some (stk, ks))
    (hbefore : ∀ q (t : Kernel n), q.no ≠ 8 → before q t) (ho : o ∈ V.children)
    (hva : userPage va) (hperm : validPerm perm)
    (hpage : V.spaces.map e (pageAddr va) = some (p, k)) (hU : Flag k pteU)
    (hshare : Flag perm pteW → Flag k pteW)
    (hcopy : Flag perm pteW → ¬ Flag perm pteMapped → V.Private e p)
    (htemp : V.spaces.map e (pageAddr utemp) = none) :
    (userArena M e stack).Meets W (Safe e before)
      (fun _ t => ∃ V', Duped e o (pageAddr va) p perm (Snapshot W V p) V V' ∧ Holds e V' t.world)
      (User.dupOrShare (V.proc o).id va perm) s := by
  have hne : e ≠ o := (ne_of_mem_of_not_mem ho h.good.self).symm
  have hchild : V.Names e (V.proc o).id o := .inr ⟨ho, rfl⟩
  have hself : V.Names e 0 e := .inl ⟨rfl, rfl⟩
  have hP : Flag perm pteP := flag_of_valid hperm.2.1 (by decide)
  unfold User.dupOrShare
  rw [if_neg (not_not.mpr hP)]
  by_cases hcase : ¬ Flag perm pteW ∨ Flag perm pteMapped
  · rw [if_pos hcase]
    refine (meets_checked (meets_pageMap hW h hstack hbefore hself hchild ⟨hva, hva⟩ hperm hpage
      hshare fun heq => absurd heq hne.symm)).mono fun _ u hu => ?_
    obtain ⟨V', rfl, hV'⟩ := hu
    rw [or_pteP hperm] at hV'
    exact ⟨_, .share hcase, hV'⟩
  · rw [if_neg hcase]
    rw [not_or, not_not] at hcase
    refine meets_checked_seq (meets_pageAlloc hW h hstack hbefore hchild hva hperm) fun t ht => ?_
    obtain ⟨V₁, ⟨q, hD, huses, rfl⟩, h₁⟩ := ht
    rw [or_pteP hperm] at h₁
    -- the new page is not one that the parent maps
    have hfresh (b : PageAddr) (p' : ℕ) (k' : Word) (hb : V.spaces.map e b = some (p', k')) :
        p' ≠ q := by
      rintro rfl
      exact huses ⟨e, .inl rfl, b, k', hb⟩
    have hmap₁ : (V.alloc o (pageAddr va) q perm).spaces.map e = V.spaces.map e :=
      Spaces.assign_of_ne hne
    have hchild₁ : (V.alloc o (pageAddr va) q perm).spaces.map o (pageAddr va) = some (q, perm) :=
      (Spaces.enter_map o (pageAddr va)).trans (if_pos ⟨rfl, rfl⟩)
    have huses₁ : (V.alloc o (pageAddr va) q perm).Uses e q := ⟨o, .inr ho, _, _, hchild₁⟩
    have hstack₁ : (V.alloc o (pageAddr va) q perm).OffStack e stack := by
      intro p' k' hp'
      rw [hmap₁] at hp'
      rintro (rfl | hin)
      · exact hfresh _ _ _ hp' rfl
      · exact hstack p' k' hp' hin
    refine meets_checked_seq (meets_pageMap hW h₁ hstack₁ hbefore (.inr ⟨ho, rfl⟩) (.inl ⟨rfl, rfl⟩)
      ⟨hva, by decide⟩ hperm hchild₁ (fun hW => hW) fun _ => .inr ⟨.inl rfl, huses₁⟩) fun t ht => ?_
    obtain ⟨V₂, rfl, h₂⟩ := ht
    rw [or_pteP hperm] at h₂
    set V₂ := (V.alloc o (pageAddr va) q perm).enter e (pageAddr utemp) q perm with hV₂
    have hmap₂ (b : PageAddr) (hb : b ≠ pageAddr utemp) :
        V₂.spaces.map e b = V.spaces.map e b := by
      rw [hV₂]
      refine (Spaces.enter_map e b).trans ?_
      rw [if_neg fun h => hb h.2, hmap₁]
    have htemp₂ : V₂.spaces.map e (pageAddr utemp) = some (q, perm) :=
      (Spaces.enter_map e (pageAddr utemp)).trans (if_pos ⟨rfl, rfl⟩)
    have hat {b : PageAddr} {p' : ℕ} {k' : Word} (hb : V.spaces.map e b = some (p', k')) :
        b ≠ pageAddr utemp := by
      rintro rfl
      rw [htemp] at hb
      cases hb
    have hstack₂ : V₂.OffStack e stack :=
      hstack₁.mono (by rw [hmap₁]; exact hmap₂ _ (hat hstk)) rfl
    refine (meets_locals hW h₂ hstack₂).seq fun _ t ht => ?_
    obtain ⟨hWt, ht⟩ := ht
    have hcopy₂ : CopyOf e V₂ utemp va q p := by
      refine ⟨by decide, hva, ⟨perm, htemp₂, flag_of_valid hperm.1 (by decide), hcase.1⟩,
        ⟨k, (hmap₂ _ (hat hpage)).trans hpage, hU⟩, hfresh _ _ _ hpage,
        .inr ⟨.inl rfl, ⟨e, .inl rfl, _, _, htemp₂⟩⟩, hD, .inl ?_⟩
      obtain ⟨b, k', hb, hflags⟩ := hcopy hcase.1 hcase.2
      exact ⟨b, k', (hmap₂ _ (hat hb)).trans hb, hflags⟩
    refine (meets_fill hW hWt hcopy₂ ht).seq fun _ t ht => ?_
    obtain ⟨y, hy, h₃⟩ := ht
    have hy' : Snapshot W V p y := by
      refine fun hD => ⟨(hy hD).1, fun hknown => ?_⟩
      have hcontent := (hy hD).2 (.inr hknown)
      exact hcontent.trans (Function.update_of_ne (hfresh _ _ _ hpage) _ _)
    have hstack₃ : (V₂.put q y).OffStack e stack := by
      intro p' k' hp'
      rintro (rfl | hin)
      · exact hstack₂ _ k' hp' (.inl rfl)
      · exact hstack₂ _ k' hp' hin
    refine (meets_checked (meets_pageUnmap hW h₃ hstack₃ hbefore (.inl ⟨rfl, rfl⟩)
      (by decide))).mono fun _ u hu => ?_
    obtain ⟨V', rfl, hV'⟩ := hu
    rw [hV₂, View.filled hne htemp] at hV'
    exact ⟨_, .copy hcase hD huses hy', hV'⟩

end

/-! ### What the child has -/

/-- The flags that a system call may set. -/
theorem flag_and_syscall {flag : Word} (hflag : pteSyscall &&& flag = flag) :
    Flag (k &&& pteSyscall) flag ↔ Flag k flag := by
  unfold Flag
  rw [BitVec.and_assoc, hflag]

/-- What a child has where its parent has `parent`: what a new environment has
where the parent has nothing, a page of its own where the parent has one for
itself, and otherwise the same page. -/
def IsCopy (parent fresh child : Option (ℕ × Word)) (own : ℕ → ℕ → Prop) : Prop :=
  match parent with
  | none => child = fresh
  | some (p, k) =>
      if Flag k pteW ∧ ¬ Flag k pteMapped then
        ∃ q, child = some (q, k &&& pteSyscall) ∧ own p q
      else child = some (p, k &&& pteSyscall)

theorem IsCopy.mono {parent fresh child : Option (ℕ × Word)} {own own' : ℕ → ℕ → Prop}
    (h : IsCopy parent fresh child own)
    (hown : ∀ p q k, child = some (q, k) → own p q → own' p q) :
    IsCopy parent fresh child own' := by
  unfold IsCopy at h ⊢
  split at h
  · exact h
  · split at h
    · rename_i hcase
      obtain ⟨q, hq, hpq⟩ := h
      rw [if_pos hcase]
      exact ⟨q, hq, hown _ q _ hq hpq⟩
    · rename_i hcase
      rwa [if_neg hcase]

/-- Nobody but the child has frame `q`, which it has at `a` only. -/
structure View.Alone (e o : EnvIdx) (V : View) (a : PageAddr) (q : ℕ) : Prop where
  own : q ∈ V.own
  known : q ∈ V.known
  device : q ∉ devices
  parent : ∀ b k, V.spaces.map e b ≠ some (q, k)
  child : ∀ b k, V.spaces.map o b = some (q, k) → b = a

namespace Duped

variable {V' : View} {a a' : PageAddr} {P : (PtIdx → Word) → Prop} {stk p' q' : ℕ}
  {x : ℕ → PtIdx → Word}

theorem same (h : Duped e o a p perm P V V') :
    V'.id = V.id ∧ V'.children = V.children ∧ V'.proc = V.proc := by
  cases h <;> exact ⟨rfl, rfl, rfl⟩

theorem map_parent (h : Duped e o a p perm P V V') (hne : e ≠ o) :
    V'.spaces.map e = V.spaces.map e := by
  cases h <;> exact Spaces.assign_of_ne hne

theorem map_child (h : Duped e o a p perm P V V') (ha : a' ≠ a) :
    V'.spaces.map o a' = V.spaces.map o a' := by
  cases h with
  | share => exact (Spaces.enter_map o a').trans (if_neg fun h => ha h.2)
  | copy => exact (Spaces.enter_map o a').trans (if_neg fun h => ha h.2)

/-- What is known stays known. -/
theorem known (h : Duped e o a p perm P V V') (hp' : p' ∈ V.known) (huses : V.Uses e p') :
    p' ∈ V'.known ∧ V'.spaces.content p' = V.spaces.content p' := by
  cases h with
  | share => exact ⟨hp', rfl⟩
  | @copy q y _ _ hq =>
      have hne : p' ≠ q := fun heq => hq (heq ▸ huses)
      exact ⟨.inr (.inr hp'),
        (Function.update_of_ne hne _ _).trans (Function.update_of_ne hne _ _)⟩

theorem not_known (h : Duped e o a p perm P V V') (hp' : p' ∉ V.known) (huses : V.Uses e p') :
    p' ∉ V'.known := by
  cases h with
  | share => exact hp'
  | @copy q y _ _ hq =>
      have hne : p' ≠ q := fun heq => hq (heq ▸ huses)
      rintro (heq | heq | hin)
      · exact hne heq
      · exact hne heq
      · exact hp' hin

/-- The other pages of the child. -/
theorem alone (h : Duped e o a p perm P V V') (hne : e ≠ o) (hmaps : V.spaces.Maps e p)
    (ha : a' ≠ a) (hmap : V.spaces.map o a' = some (q', k)) (ho : o ∈ V.children)
    (halone : V.Alone e o a' q') :
    V'.Alone e o a' q' ∧ V'.spaces.content q' = V.spaces.content q' := by
  have huses : V.Uses e q' := ⟨o, .inr ho, a', k, hmap⟩
  have hparent := h.map_parent hne
  have hpq : p ≠ q' := by
    rintro rfl
    obtain ⟨b, w, hb⟩ := hmaps
    exact halone.parent b w hb
  obtain ⟨hin, hcontent⟩ := h.known halone.known huses
  refine ⟨⟨?_, hin, halone.device, fun b w => hparent ▸ halone.parent b w, fun b w hb => ?_⟩,
    hcontent⟩
  · cases h with
    | share => exact halone.own
    | copy => exact .inr halone.own
  · by_cases hba : b = a
    · subst hba
      cases h with
      | share =>
          have hself := (Spaces.enter_map o b).symm.trans hb
          rw [if_pos ⟨rfl, rfl⟩] at hself
          cases hself
          exact absurd rfl hpq
      | @copy q y _ _ hq =>
          have hself := (Spaces.enter_map o b).symm.trans hb
          rw [if_pos ⟨rfl, rfl⟩] at hself
          cases hself
          exact absurd huses hq
    · exact halone.child b w ((h.map_child hba).symm.trans hb)

/-- The page itself, where it is copied. -/
theorem copied (h : Duped e o a p perm P V V') (hne : e ≠ o) (ho : o ∈ V.children)
    (hperm : Flag perm pteW ∧ ¬ Flag perm pteMapped) :
    ∃ q, V'.spaces.map o a = some (q, perm) ∧ V'.Alone e o a q ∧ P (V'.spaces.content q) := by
  have hparent := h.map_parent hne
  cases h with
  | share hcase => exact absurd hperm (not_and_or.mpr (hcase.imp_right not_not.mpr))
  | @copy q y _ hD hq hy =>
      refine ⟨q, (Spaces.enter_map o a).trans (if_pos ⟨rfl, rfl⟩),
        ⟨.inl rfl, .inl rfl, hD, fun b w hb => ?_, fun b w hb => ?_⟩, ?_⟩
      · rw [hparent] at hb
        exact hq ⟨e, .inl rfl, b, w, hb⟩
      · by_contra hne
        have hother := (Spaces.enter_map o b).symm.trans hb
        rw [if_neg fun h => hne h.2] at hother
        exact hq ⟨o, .inr ho, b, w, hother⟩
      · have hself : ((V.alloc o a q perm).put q y).spaces.content q = y :=
          Function.update_self ..
        rw [hself]
        exact hy

/-- The page itself, where it is shared. -/
theorem shared (h : Duped e o a p perm P V V')
    (hperm : ¬ (Flag perm pteW ∧ ¬ Flag perm pteMapped)) :
    V'.spaces.map o a = some (p, perm) := by
  cases h with
  | share => exact (Spaces.enter_map o a).trans (if_pos ⟨rfl, rfl⟩)
  | copy hcase => exact absurd hcase hperm

end Duped

section

variable {s₀ : Kernel n} {v : Process} {stk : ℕ} {V' : View} {a a' : PageAddr}
  {P : (PtIdx → Word) → Prop}

/-- The parent, which had the address space of `s` when it got the child. -/
structure Intact (s : Kernel n) (e o : EnvIdx) (v : Process) (stk : ℕ) (V : View) : Prop where
  children : V.children = {o}
  proc : V.proc o = v
  map : V.spaces.map e = s.userSpaces.map e
  stack : stk ∉ V.known
  known : ∀ p, V.Private e p → p ≠ stk → p ∉ devices →
    p ∈ V.known ∧ V.spaces.content p = s.mem.word p

theorem Intact.duped (h : Intact s₀ e o v stk V) (hne : e ≠ o) (hstk : V.spaces.Maps e stk)
    (hdup : Duped e o a p perm P V V') : Intact s₀ e o v stk V' := by
  have hparent := hdup.map_parent hne
  refine ⟨hdup.same.2.1.trans h.children, ?_, hparent.trans h.map,
    hdup.not_known h.stack ⟨e, .inl rfl, hstk⟩, fun p' hp' hpstk hD => ?_⟩
  · rw [hdup.same.2.2]
    exact h.proc
  · have hpriv : V.Private e p' := by
      obtain ⟨b, w, hb, hflags⟩ := hp'
      exact ⟨b, w, hparent ▸ hb, hflags⟩
    obtain ⟨hin, hcontent⟩ := h.known p' hpriv hpstk hD
    obtain ⟨hin', hcontent'⟩ := hdup.known hin ⟨e, .inl rfl, hpriv.maps⟩
    exact ⟨hin', hcontent'.trans hcontent⟩

/-- Page `a` of the child is as it should be. -/
def PageCopied (s : Kernel n) (e o : EnvIdx) (stk : ℕ) (V : View) (a : PageAddr) : Prop :=
  IsCopy (s.userSpaces.map e a) (World.newSpace a) (V.spaces.map o a) fun p q =>
    V.Alone e o a q ∧ (p ≠ stk → p ∉ devices → V.spaces.content q = s.mem.word p)

/-- It stays so when another page is copied. -/
theorem PageCopied.duped (h : PageCopied s₀ e o stk V a') (hne : e ≠ o) (ho : o ∈ V.children)
    (hmaps : V.spaces.Maps e p) (ha : a' ≠ a) (hdup : Duped e o a p perm P V V') :
    PageCopied s₀ e o stk V' a' := by
  unfold PageCopied at h ⊢
  rw [hdup.map_child ha]
  refine h.mono fun p' q' k' hq' hown => ?_
  obtain ⟨halone, hcontent⟩ := hdup.alone hne hmaps ha hq' ho hown.1
  exact ⟨halone, fun hpstk hD => hcontent.trans (hown.2 hpstk hD)⟩

/-- `dup_or_share` with the flags of the page makes a copy. -/
theorem Intact.pageCopied (h : Intact s₀ e o v stk V) (hne : e ≠ o)
    (hpage : s₀.userSpaces.map e a = some (p, k))
    (hdup : Duped e o a p (k &&& pteSyscall) (Snapshot W V p) V V') :
    PageCopied s₀ e o stk V' a := by
  have ho : o ∈ V.children := h.children ▸ rfl
  have hflags : Flag (k &&& pteSyscall) pteW ∧ ¬ Flag (k &&& pteSyscall) pteMapped ↔
      Flag k pteW ∧ ¬ Flag k pteMapped := by
    rw [flag_and_syscall (by decide), flag_and_syscall (by decide)]
  unfold PageCopied IsCopy
  rw [hpage]
  dsimp only
  split
  · rename_i hcase
    obtain ⟨q, hq, halone, hsnap⟩ := hdup.copied hne ho (hflags.mpr hcase)
    refine ⟨q, hq, halone, fun hpstk hD => ?_⟩
    have hpriv : V.Private e p := ⟨a, k, by rw [h.map, hpage], hcase⟩
    obtain ⟨hin, hcontent⟩ := h.known p hpriv hpstk hD
    exact ((hsnap hD).2 hin).trans hcontent
  · rename_i hcase
    exact hdup.shared fun hperm => hcase (hflags.mp hperm)

/-! ### The loop -/

/-- A flag is one bit. -/
theorem and_flag {w flag : Word} (j : ℕ) (hflag : flag = BitVec.twoPow 32 j) (h : Flag w flag) :
    w &&& flag = flag := by
  subst hflag
  unfold Flag at h
  rw [BitVec.and_twoPow] at h ⊢
  split
  · rfl
  · rename_i hbit
    rw [if_neg hbit] at h
    exact absurd rfl h

theorem flag_pteP_iff {w : Word} : w &&& pteP = pteP ↔ Flag w pteP :=
  ⟨fun h => flag_of_valid h (by decide), and_flag 0 (by decide)⟩

theorem validPerm_and (hP : Flag k pteP) (hU : Flag k pteU) : validPerm (k &&& pteSyscall) := by
  refine ⟨and_flag 2 (by decide) ((flag_and_syscall (by decide)).mpr hU),
    and_flag 0 (by decide) ((flag_and_syscall (by decide)).mpr hP), ?_⟩
  rw [BitVec.and_assoc, show pteSyscall &&& ~~~pteSyscall = 0#32 by decide]
  exact BitVec.and_zero

variable {ks : Word}

/-- What the parent is when it forks. -/
structure Forks (s : Kernel n) (e : EnvIdx) (stack : Word) (stk : ℕ) : Prop where
  stack : ∃ k, s.userSpaces.map e (pageAddr stack) = some (stk, k) ∧ Flag k pteW ∧
    ¬ Flag k pteMapped
  user : ∀ a p k, s.userSpaces.map e a = some (p, k) → Flag k pteU
  temp : s.userSpaces.map e (pageAddr utemp) = none

theorem Intact.offStack (h : Intact s₀ e o v stk V) (hforks : Forks s₀ e stack stk) :
    V.OffStack e stack := by
  obtain ⟨k, hk, -⟩ := hforks.stack
  intro p' k' hp'
  rw [h.map, hk] at hp'
  cases hp'
  exact h.stack

/-- One turn of the loop: the page is copied if the parent has it. -/
theorem meets_copyMapping (hW : Visits L W) (h : Holds e V s.world)
    (hint : Intact s₀ e o v stk V) (hforks : Forks s₀ e stack stk)
    (hbefore : ∀ q (t : Kernel n), q.no ≠ 8 → before q t) (hva : userPage va) :
    (userArena M e stack).Meets W (Safe e before)
      (fun _ t => ∃ V', (s₀.userSpaces.map e (pageAddr va) = none ∧ V' = V ∨
        ∃ p k, s₀.userSpaces.map e (pageAddr va) = some (p, k) ∧
          Duped e o (pageAddr va) p (k &&& pteSyscall) (Snapshot W V p) V V') ∧
        Holds e V' t.world) (User.copyMapping v.id va) s := by
  have hlt : va.toNat < 0xEEC00000 := hva.1
  have hstack := hint.offStack hforks
  obtain ⟨ks, hks, -⟩ := hforks.stack
  have hptx : (va >>> 12).toNat = va.toNat / 4096 := by
    rw [BitVec.toNat_ushiftRight, Nat.shiftRight_eq_div_pow]
  have hfour : (4 : Word).toNat = 4 := rfl
  have hentries : (1024 : Word).toNat = 1024 := rfl
  have huvpd : (User.uvpd + (4 : Word) * ((va >>> 12 - (va >>> 12) % (1024 : Word)) /
      (1024 : Word))).toNat = 0xEF7BD000 + 4 * (pdx va : ℕ) := by
    have hbase : User.uvpd.toNat = 0xEF7BD000 := by decide
    rw [BitVec.toNat_add, BitVec.toNat_mul, BitVec.toNat_udiv, BitVec.toNat_sub,
      BitVec.toNat_umod, hptx, hbase, pdx_val, hfour, hentries]
    omega
  have huvpt : (uvpt + (4 : Word) * (va >>> 12)).toNat = 0xEF400000 + 4 * pgnum va := by
    have hbase : uvpt.toNat = 0xEF400000 := by decide
    rw [BitVec.toNat_add, BitVec.toNat_mul, hptx, hbase, pgnum_eq, hfour]
    omega
  unfold User.copyMapping
  refine (meets_locals hW h hstack).seq fun _ t ht => ?_
  dsimp only
  refine (meets_uvpd hW ht.2 hva.1 huvpd).seq fun pde t ht => ?_
  obtain ⟨ht, htable, hnone⟩ := ht
  by_cases hpde : Flag pde pteP
  · rw [if_pos (flag_pteP_iff.mpr hpde)]
    obtain ⟨f, hf⟩ := htable hpde
    refine (meets_uvpt hW ht hva.1 huvpt hf).seq fun pte t ht => ?_
    obtain ⟨ht, hf, hpage⟩ := ht
    by_cases hpte : Flag pte pteP
    · rw [if_pos (flag_pteP_iff.mpr hpte)]
      rw [if_pos hpte] at hpage
      refine (meets_uvpt hW ht hva.1 huvpt hf).seq fun pte' t ht => ?_
      obtain ⟨ht, -, hpage'⟩ := ht
      have hpte' : Flag pte' pteP := by
        by_contra hnot
        rw [hpage', if_neg hnot] at hpage
        cases hpage
      rw [if_pos hpte'] at hpage'
      set k := pte' &&& 0xFFF#32 with hk
      have hperm : pte' &&& pteSyscall = k &&& pteSyscall := by
        rw [hk, BitVec.and_assoc]
        rfl
      have hU := hforks.user _ _ _ ((congrFun hint.map _).symm.trans hpage')
      have hP : Flag k pteP := (flag_and_low (by decide)).mpr hpte'
      rw [hperm]
      have hdup := meets_dupOrShare (V := V) (o := o) hW ht hstack
        ((congrFun hint.map _).trans hks) hbefore (hint.children ▸ rfl) hva (validPerm_and hP hU)
        hpage' hU (flag_and_syscall (by decide)).mp (fun hw hm => ?_)
        ((congrFun hint.map _).trans hforks.temp)
      · rw [hint.proc] at hdup
        refine hdup.mono fun _ u hu => ?_
        obtain ⟨V', hduped, hV'⟩ := hu
        exact ⟨V', .inr ⟨_, _, (congrFun hint.map _).symm.trans hpage', hduped⟩, hV'⟩
      · exact ⟨_, _, hpage', (flag_and_syscall (by decide)).mp hw,
          fun hflag => hm ((flag_and_syscall (by decide)).mpr hflag)⟩
    · rw [if_neg fun heq => hpte (flag_pteP_iff.mp heq)]
      rw [if_neg hpte] at hpage
      exact ⟨V, .inl ⟨by rw [← hint.map, hpage], rfl⟩, ht⟩
  · rw [if_neg fun heq => hpde (flag_pteP_iff.mp heq)]
    exact ⟨V, .inl ⟨by rw [← hint.map, hnone hpde], rfl⟩, ht⟩

def pageNo (a : PageAddr) : ℕ := (a.1 : ℕ) * 1024 + a.2

theorem pageNo_eq (a : PageAddr) : pageNo a = pgnum va ↔ a = pageAddr va := by
  have h₁ := a.2.isLt
  have h₂ := (ptx va).isLt
  rw [pgnum_indexes]
  unfold pageNo
  constructor
  · intro heq
    refine Prod.ext (Fin.ext ?_) (Fin.ext ?_)
    · change (a.1 : ℕ) = pdx va
      omega
    · change (a.2 : ℕ) = ptx va
      omega
  · rintro rfl
    rfl

theorem pageCopied_none (hnone : s₀.userSpaces.map e a = none)
    (hnew : V.spaces.map o a = World.newSpace a) : PageCopied s₀ e o stk V a := by
  unfold PageCopied IsCopy
  rw [hnone]
  exact hnew

/-- The loop, with `j` pages done: they are copied, and the child has nothing of
its own in the others. -/
theorem meets_copyMappings (hW : Visits L W) (hforks : Forks s₀ e stack stk)
    (hbefore : ∀ q (t : Kernel n), q.no ≠ 8 → before q t) {j f : ℕ} (h : Holds e V s.world)
    (hint : Intact s₀ e o v stk V) (hva : va.toNat = 4096 * j) (hj : j ≤ 977920)
    (hf : 977920 < j + f) (hdone : ∀ a, pageNo a < j → PageCopied s₀ e o stk V a)
    (htodo : ∀ a, j ≤ pageNo a → V.spaces.map o a = World.newSpace a) :
    (userArena M e stack).Meets W (Safe e before)
      (fun _ t => ∃ V', Holds e V' t.world ∧ Intact s₀ e o v stk V' ∧
        ∀ a, PageCopied s₀ e o stk V' a) (User.copyMappings v.id f va) s := by
  have ho {V : View} (hint : Intact s₀ e o v stk V) : o ∈ V.children := hint.children ▸ rfl
  have hne : e ≠ o := (ne_of_mem_of_not_mem (ho hint) h.good.self).symm
  induction f generalizing j va V s with
  | zero => omega
  | succ f ih =>
      have hnum : pgnum va = j := by
        rw [pgnum_eq]
        omega
      unfold User.copyMappings
      by_cases hlt : va < utop
      · have hlt' : va.toNat < 0xEEC00000 := hlt
        have hpage : userPage va := by
          refine ⟨hlt, BitVec.eq_of_toNat_eq ?_⟩
          rw [BitVec.toNat_umod, hva]
          exact Nat.mul_mod_right 4096 j
        rw [if_pos hlt]
        refine (meets_copyMapping hW h hint hforks hbefore hpage).seq fun _ t ht => ?_
        obtain ⟨V', hV', ht⟩ := ht
        have hnext : (va + 0x1000).toNat = 4096 * (j + 1) := by
          rw [BitVec.toNat_add, hva]
          change (4096 * j + 4096) % 4294967296 = _
          omega
        have hother {a : PageAddr} (ha : pageNo a ≠ j) : a ≠ pageAddr va := fun heq =>
          ha (((pageNo_eq a).mpr heq).trans hnum)
        have hself {a : PageAddr} (ha : pageNo a = j) : a = pageAddr va :=
          (pageNo_eq a).mp (ha.trans hnum.symm)
        rcases hV' with ⟨hnone, rfl⟩ | ⟨p, k, hp, hdup⟩
        · refine ih ht hint hnext (by omega) (by omega) (fun a ha => ?_)
            fun a ha => htodo a (by omega)
          by_cases hat : pageNo a = j
          · obtain rfl := hself hat
            exact pageCopied_none hnone (htodo _ hat.ge)
          · exact hdone a (by omega)
        · obtain ⟨ks, hks, -⟩ := hforks.stack
          have hmaps : V.spaces.Maps e p := ⟨_, k, (congrFun hint.map _).trans hp⟩
          have hmapsStk : V.spaces.Maps e stk := ⟨_, ks, (congrFun hint.map _).trans hks⟩
          refine ih ht (hint.duped hne hmapsStk hdup) hnext (by omega) (by omega) (fun a ha => ?_)
            fun a ha => ?_
          · by_cases hat : pageNo a = j
            · obtain rfl := hself hat
              exact hint.pageCopied hne hp hdup
            · exact (hdone a (by omega)).duped hne (ho hint) hmaps (hother hat) hdup
          · rw [hdup.map_child (hother (by omega))]
            exact htodo a (by omega)
      · have hge : 0xEEC00000 ≤ va.toNat := not_lt.mp hlt
        rw [if_neg hlt]
        refine ⟨V, h, hint, fun a => ?_⟩
        by_cases ha : pageNo a < j
        · exact hdone a ha
        · refine pageCopied_none ?_ (htodo a (not_lt.mp ha))
          have hout : ¬ (a.1 : ℕ) < 955 := by
            have h₂ := a.2.isLt
            unfold pageNo at ha
            omega
          change (mapping s₀.mem.word s₀.dirs e a.1 a.2).map _ = none
          rw [mapping_of_none (by rw [tableAt, if_neg hout])]
          rfl

/-! ### `fork_v0` -/

/-- Nobody but `o` maps frame `q`, which it has at `a` only. -/
def Kernel.OnlyAt (t : Kernel n) (o : EnvIdx) (a : PageAddr) (q : ℕ) : Prop :=
  ∀ o' b k, t.userSpaces.map o' b = some (q, k) → o' = o ∧ b = a

/-- The parent has the address space that it had in `s`, and in the pages that
it has for itself what it had there, but for the stack. -/
structure Kept (s : Kernel n) (e : EnvIdx) (stk : ℕ) (t : Kernel n) : Prop where
  map : t.userSpaces.map e = s.userSpaces.map e
  memory : ∀ a p k, s.userSpaces.map e a = some (p, k) → Flag k pteW → ¬ Flag k pteMapped →
    p ≠ stk → p ≠ vgaFrame → t.mem.word p = s.mem.word p

/-- Environment `o` waits to be started as the double of its parent. Its
registers are those with which the parent called `sys_exofork`, but for the
result; its stack is what the parent's stack was at a moment of the run, and its
other pages are copies of what they were when the parent called `fork`. -/
structure Doubled (M : Machine) (W : Kernel n → Prop) (s : Kernel n) (e : EnvIdx) (stack : Word)
    (stk : ℕ) (o : EnvIdx) (t : Kernel n) : Prop where
  status : (t.envs o).envStatus = .notRunnable
  parent : (t.envs o).envParentId = (t.envs e).envId
  regs : ∃ u u' tf q, W u ∧ q.no = 7 ∧ Traps M e q tf u u' ∧ (t.envs o).envTf = tf.setEax 0
  pages : ∀ a, a ≠ pageAddr stack →
    IsCopy (s.userSpaces.map e a) (World.newSpace a) (t.userSpaces.map o a) fun p q =>
      t.OnlyAt o a q ∧ (p ≠ stk → p ≠ vgaFrame → t.mem.word q = s.mem.word p)
  stack : ∃ q, t.userSpaces.map o (pageAddr stack) = some (q, pteP ||| pteU ||| pteW) ∧
    t.OnlyAt o (pageAddr stack) q ∧ (stk ≠ vgaFrame → ∃ u, W u ∧ t.mem.word q = u.mem.word stk)
  kept : Kept s e stk t

/-- A frame that is the child's alone, as the kernel has it. -/
theorem View.Alone.only (halone : V.Alone e o a q) (h : Holds e V t.world)
    (hchildren : V.children = {o}) (hmap : V.spaces.map o a = some (q, k)) :
    t.OnlyAt o a q ∧ t.mem.word q = V.spaces.content q := by
  have ho : o ∈ V.members e := .inr (hchildren ▸ rfl)
  have huses : V.Uses e q := ⟨o, ho, a, k, hmap⟩
  refine ⟨fun o' b k' hb => ?_, ?_⟩
  · have hmem := h.own q halone.own halone.device huses o' ⟨b, k', hb⟩
    have hview : V.spaces.map o' b = some (q, k') := by
      rw [← h.map o' hmem]
      exact hb
    rcases hmem with rfl | hin
    · exact absurd hview (halone.parent b k')
    · rw [hchildren] at hin
      obtain rfl := hin
      exact ⟨rfl, halone.child b k' hview⟩
  · rw [← h.known q halone.known halone.device (.inr ⟨halone.own, huses⟩)]
    exact (h.content ho hmap halone.device).symm

theorem kept_of_view (h : Holds e V t.world) (hmap : V.spaces.map e = s₀.userSpaces.map e)
    (hknown : ∀ p, V.Private e p → p ≠ stk → p ∉ devices →
      p ∈ V.known ∧ V.spaces.content p = s₀.mem.word p) : Kept s₀ e stk t := by
  have hmap' : t.userSpaces.map e = V.spaces.map e := h.map e (.inl rfl)
  refine ⟨hmap'.trans hmap, fun a p k ha hW hM hp hD => ?_⟩
  have ha' : V.spaces.map e a = some (p, k) := by rw [hmap, ha]
  have hpriv : V.Private e p := ⟨a, k, ha', hW, hM⟩
  obtain ⟨hin, hcontent⟩ := hknown p hpriv hp hD
  rw [← hcontent, ← h.known p hin hD (.inl hpriv)]
  exact (h.content (.inl rfl) ha' hD).symm

/-- What the parent knows before it starts the child. -/
theorem doubled_of_view (h : Holds e V t.world) (hint : Intact s₀ e o v stk V)
    (hregs : ∃ u u' tf q, W u ∧ q.no = 7 ∧ Traps M e q tf u u' ∧ v.tf = tf.setEax 0)
    (hpages : ∀ a, a ≠ pageAddr stack → PageCopied s₀ e o stk V a)
    (hstack : ∃ q, V.spaces.map o (pageAddr stack) = some (q, pteP ||| pteU ||| pteW) ∧
      V.Alone e o (pageAddr stack) q ∧
      (stk ∉ devices → ∃ u, W u ∧ V.spaces.content q = u.mem.word stk)) :
    Doubled M W s₀ e stack stk o t := by
  have ho : o ∈ V.children := hint.children ▸ rfl
  have hmap (a : PageAddr) : t.userSpaces.map o a = V.spaces.map o a :=
    congrFun (h.map o (.inr ho)) a
  have hchild := h.child o ho
  rw [hint.proc] at hchild
  have hgood := h.good.child o ho
  refine ⟨h.blocked ho, ?_, ?_, fun a ha => ?_, ?_, kept_of_view h hint.map hint.known⟩
  · have hparent : (t.world.procs o).parentId = V.id := by
      rw [hchild.parentId, ← hint.proc]
      exact hgood.2.2
    exact hparent.trans h.id.symm
  · obtain ⟨u, u', tf, q, hu, hq, htraps, htf⟩ := hregs
    exact ⟨u, u', tf, q, hu, hq, htraps, hchild.tf.trans htf⟩
  · rw [hmap]
    refine (hpages a ha).mono fun p q k hq hown => ?_
    obtain ⟨honly, hcontent⟩ := hown.1.only h hint.children hq
    exact ⟨honly, fun hp hD => hcontent.trans (hown.2 hp hD)⟩
  · obtain ⟨q, hq, halone, hsnap⟩ := hstack
    obtain ⟨honly, hcontent⟩ := halone.only h hint.children hq
    refine ⟨q, (hmap _).trans hq, honly, fun hD => ?_⟩
    obtain ⟨u, hu, heq⟩ := hsnap hD
    exact ⟨u, hu, hcontent.trans heq⟩

/-- The condition for starting the child. -/
def MayStart (M : Machine) (W : Kernel n → Prop) (s : Kernel n) (e : EnvIdx) (stack : Word)
    (stk : ℕ) (q : SysArgs) (t : Kernel n) : Prop :=
  q.no = 8 → ∃ o, q.a1 = (t.envs o).envId ∧ q.a2 = 2 ∧ Doubled M W s e stack stk o t

/-- The rest of `fork_v0` in the parent, once it has a child. -/
theorem meets_parent {rest : UserProgram Word} (hW : Visits L W) (hforks : Forks s₀ e stack stk)
    (hlt : stack < utop) (h : Holds e V s.world) (hint : Intact s₀ e o v stk V)
    (hnew : V.spaces.map o = World.newSpace)
    (hregs : ∃ u u' tf q, W u ∧ q.no = 7 ∧ Traps M e q tf u u' ∧ v.tf = tf.setEax 0)
    {Q : Word → Kernel n → Prop}
    (hrest : ∀ t, Kept s₀ e stk t →
      (userArena M e stack).Meets W (Safe e (MayStart M W s₀ e stack stk)) Q rest t) :
    (userArena M e stack).Meets W (Safe e (MayStart M W s₀ e stack stk)) Q (do
      User.copyMappings v.id 0x100000 0
      User.dupOrShare v.id (rounddown stack) (pteP ||| pteU ||| pteW)
      let r ← User.sysEnvSetStatus v.id 2
      User.check "sys_env_set_status: %e" r
      rest) s := by
  have hbefore (q : SysArgs) (t : Kernel n) (hq : q.no ≠ 8) : MayStart M W s₀ e stack stk q t :=
    fun heq => absurd heq hq
  obtain ⟨ks, hks, hksW, hksM⟩ := hforks.stack
  have hround : pageAddr (rounddown stack) = pageAddr stack := by
    refine Prod.ext (Fin.ext ?_) (Fin.ext ?_)
    · change (pdx (rounddown stack) : ℕ) = pdx stack
      rw [pdx_val, pdx_val, rounddown_toNat]
      omega
    · change (ptx (rounddown stack) : ℕ) = ptx stack
      rw [ptx_val, ptx_val, rounddown_toNat]
      omega
  have hpage : userPage (rounddown stack) := by
    have hlt' : stack.toNat < 0xEEC00000 := hlt
    refine ⟨?_, BitVec.eq_of_toNat_eq ?_⟩
    · rw [BitVec.lt_def, rounddown_toNat]
      change _ < 0xEEC00000
      omega
    · rw [BitVec.toNat_umod, rounddown_toNat]
      exact Nat.mul_mod_left _ 4096
  refine (meets_copyMappings (j := 0) hW hforks hbefore h hint rfl (by decide) (by decide)
    (fun a ha => absurd ha (Nat.not_lt_zero _)) fun a _ => congrFun hnew a).seq fun _ t ht => ?_
  obtain ⟨V₁, h₁, hint₁, hpages₁⟩ := ht
  have hmap₁ (a : PageAddr) : V₁.spaces.map e a = s₀.userSpaces.map e a := congrFun hint₁.map a
  have ho₁ : o ∈ V₁.children := hint₁.children ▸ rfl
  have hne : e ≠ o := (ne_of_mem_of_not_mem ho₁ h₁.good.self).symm
  have hstk₁ : V₁.spaces.map e (pageAddr stack) = some (stk, ks) := (hmap₁ _).trans hks
  have hdup : (userArena M e stack).Meets W (Safe e (MayStart M W s₀ e stack stk))
      (fun _ t => ∃ V', Duped e o (pageAddr (rounddown stack)) stk (pteP ||| pteU ||| pteW)
        (Snapshot W V₁ stk) V₁ V' ∧ Holds e V' t.world)
      (User.dupOrShare (V₁.proc o).id (rounddown stack) (pteP ||| pteU ||| pteW)) t :=
    meets_dupOrShare hW h₁ (hint₁.offStack hforks) hstk₁ hbefore ho₁ hpage (by decide)
      (hround.symm ▸ hstk₁) (hforks.user _ _ _ hks) (fun _ => hksW)
      (fun _ _ => ⟨_, ks, hstk₁, hksW, hksM⟩) ((hmap₁ _).trans hforks.temp)
  rw [hint₁.proc, hround] at hdup
  refine hdup.seq fun _ t ht => ?_
  obtain ⟨V₂, hduped, h₂⟩ := ht
  have hmaps₁ : V₁.spaces.Maps e stk := ⟨_, ks, hstk₁⟩
  have hint₂ := hint₁.duped hne hmaps₁ hduped
  have ho₂ : o ∈ V₂.children := hint₂.children ▸ rfl
  have hpages₂ (a : PageAddr) (ha : a ≠ pageAddr stack) : PageCopied s₀ e o stk V₂ a :=
    (hpages₁ a).duped hne ho₁ hmaps₁ ha hduped
  obtain ⟨q, hq, halone, hsnap⟩ := hduped.copied hne ho₁ (by decide)
  have hdoubled {t : Kernel n} (ht : Holds e V₂ t.world) : Doubled M W s₀ e stack stk o t :=
    doubled_of_view ht hint₂ hregs hpages₂ ⟨q, hq, halone, fun hD => (hsnap hD).1⟩
  refine meets_checked_seq (P := fun t => ∃ V', V' = V₂.start ∧ Holds e V' t.world)
    (meets_call hW h₂ (hint₂.offStack hforks) (fun t _ ht _ => ?_) fun t u hWt ht hdo => ?_)
    fun t ht => ?_
  · have hid := (ht.child o ho₂).id
    rw [hint₂.proc] at hid
    exact ⟨o, hid.symm, rfl, hdoubled ht⟩
  · rw [← hint₂.proc] at hdo
    obtain ⟨hr, hV⟩ := ht.setStatus (hW.conserved hWt) (hW.slotted hWt) ho₂ hdo
    exact .inr ⟨hr, _, rfl, hV⟩
  · obtain ⟨V', rfl, hV'⟩ := ht
    exact hrest t (kept_of_view hV' hint₂.map hint₂.known)

end

section

variable {stk : ℕ} {regs : SysArgs} {thisenv : Word}

/-- What a parent that forks knows of itself: everything but its stack. -/
noncomputable def ofParent (s : Kernel n) (e : EnvIdx) (stk : ℕ) : View where
  id := (s.envs e).envId
  children := ∅
  proc := s.world.procs
  spaces := s.world.spaces
  own := ∅
  known := {p | p ≠ stk}

theorem holds_ofParent (stk : ℕ) (hturn : InTurn (s.envs e).envStatus)
    (hrecv : (s.envs e).envIpcRecving = false) : Holds e (ofParent s e stk) s.world where
  good := ⟨fun h => h, fun _ h => h.elim⟩
  id := rfl
  turn := hturn
  recving := hrecv
  child _ h := h.elim
  map _ _ := rfl
  own _ h := h.elim
  known _ _ _ _ := rfl

/-- The new child, whose parent is as it was. -/
theorem intact_adopt {v : Process} (hne : e ≠ o) :
    Intact s e o v stk ((ofParent s e stk).adopt o v) := by
  have hmap : ((ofParent s e stk).adopt o v).spaces.map e = s.userSpaces.map e :=
    Spaces.assign_of_ne hne
  refine ⟨?_, Function.update_self .., hmap, fun h => h rfl, fun p hp hpstk hD => ⟨hpstk, ?_⟩⟩
  · change insert o (∅ : Set EnvIdx) = {o}
    simp
  · obtain ⟨a, k, ha⟩ := hp.maps
    rw [hmap] at ha
    exact Spaces.content_forget (S := s.userSpaces) hD ⟨a, k, ha⟩

theorem meets_forkV0 (hW : Visits L W) (hturn : InTurn (s.envs e).envStatus)
    (hrecv : (s.envs e).envIpcRecving = false) (hforks : Forks s e stack stk)
    (hlt : stack < utop) :
    (userArena M e stack).Meets W (Safe e (MayStart M W s e stack stk))
      (fun r t => (∃ o, IdOf o r) ∧ Kept s e stk t) (User.forkV0 regs thisenv stack) s := by
  have h := holds_ofParent stk hturn hrecv
  have hstack : (ofParent s e stk).OffStack e stack := by
    obtain ⟨k, hk, -⟩ := hforks.stack
    intro p' k' hp'
    have hp : s.userSpaces.map e (pageAddr stack) = some (p', k') := hp'
    rw [hk] at hp
    cases hp
    exact fun hne => hne rfl
  have hfork : (userArena M e stack).Meets W (Safe e (MayStart M W s e stack stk))
      (fun r t => ∃ V', ((r = -eNoFreeEnv ∨ r = -eNoMem) ∧ V' = ofParent s e stk ∨
        ∃ o v, o ∉ (ofParent s e stk).members e ∧ IdOf o v.id ∧ r = v.id ∧
          (∃ u u' tf q, W u ∧ q.no = 7 ∧ Traps M e q tf u u' ∧ v.tf = tf.setEax 0) ∧
          V' = (ofParent s e stk).adopt o v) ∧ Holds e V' t.world)
      (User.sysExofork regs) s := by
    refine meets_trap hW h hstack (fun t _ _ heq => ?_) fun t u hWt ht hdo => ?_
    · exact absurd heq (show (7 : Word) ≠ 8 by decide)
    · rcases ht.exofork (hW.conserved hWt) (hW.slotted hWt) rfl hdo with hfail | hdone
      · exact ⟨_, .inl ⟨hfail.1, rfl⟩, hfail.2⟩
      · obtain ⟨o, v, ho, hid, hr, ⟨tf, htraps, htf⟩, hV⟩ := hdone
        exact ⟨_, .inr ⟨o, v, ho, hid, hr, ⟨t, u, tf, _, hWt, rfl, htraps, htf⟩, rfl⟩, hV⟩
  unfold User.forkV0
  refine hfork.seq fun pid t ht => ?_
  obtain ⟨V', ⟨hfail, -⟩ | ⟨o, v, ho, hid, rfl, hregs, rfl⟩, hV'⟩ := ht
  · have hneg : pid.slt 0 = true := by
      rcases hfail with rfl | rfl <;> decide
    unfold User.check
    rw [if_pos hneg]
    exact (meets_panic (Q := fun _ _ => False) hfail.symm).seq fun _ _ h => h.elim
  · have hne : e ≠ o := fun heq => ho (.inl heq.symm)
    have hcheck : (userArena M e stack).Meets W (Safe e (MayStart M W s e stack stk))
        (fun _ t => Holds e ((ofParent s e stk).adopt o v) t.world)
        (User.check "sys_exofork: %e" v.id) t := by
      have hneg : ¬ v.id.slt 0 = true := fun hneg =>
        Bool.false_ne_true (hid.not_neg.symm.trans hneg)
      unfold User.check
      rw [if_neg hneg]
      exact hV'
    refine hcheck.seq fun _ t ht => ?_
    rw [if_neg hid.ne_zero]
    exact meets_parent hW hforks hlt ht (intact_adopt hne) (Spaces.assign_self ..) hregs
      fun t ht => ⟨⟨o, hid⟩, ht⟩

/-- The states that `fork` visits. -/
def Visited (M : Machine) (e : EnvIdx) (regs : SysArgs) (thisenv stack : Word) (s t : Kernel n) :
    Prop :=
  ∃ p, (userArena M e stack).Reaches (User.forkV0 regs thisenv stack, s) (p, t)

theorem visits_visited {b : Fin n} {s₀ : Kernel n} (hboot : Prepared L b s₀)
    (hrun : Run (Step M) (OnCall (PresentOk M)) s₀ s) :
    Visits L (Visited M e regs thisenv stack s) := by
  have hinv {t : Kernel n} (ht : Visited M e regs thisenv stack s t) :
      Conserved L none t ∧ t.world.Slotted := by
    obtain ⟨p, hreach⟩ := ht
    have hstep {s t : Kernel n} {l : Label n} (h : Conserved L none s ∧ s.world.Slotted)
        (hok : OnCall (PresentOk M) s l) (hstep : Step M s l t) :
        Conserved L none t ∧ t.world.Slotted :=
      ⟨h.1.step hok hstep, slotted_step h.1 h.2 hok hstep⟩
    refine hreach.invariant (J := fun t => Conserved L none t ∧ t.world.Slotted)
      ⟨conserved_run hboot hrun, slotted_run hboot hrun⟩ (fun a s r t h hdo => ?_)
      fun a s t h hmean => ?_
    · rcases hdo.step with rfl | ⟨l, hok, hl⟩
      · exact h
      · exact hstep h hok hl
    · obtain ⟨l, hok, hl⟩ := Meantime.step hmean
      exact hstep h hok hl
  exact ⟨fun h => (hinv h).1, fun h => (hinv h).2⟩

end

/-- A check of what a parent has to be. -/
def forksCheck (s : Kernel n) (e : EnvIdx) (stack : Word) : Bool :=
  (s.userSpaces.map e (pageAddr stack)).any
      (fun page => decide (Flag page.2 pteW ∧ ¬ Flag page.2 pteMapped)) &&
    (List.finRange 1024).all (fun i => (tableAt s.mem.word s.dirs e i).all fun f =>
      (List.finRange 1024).all fun j => (present (s.mem.word f j)).all fun w =>
        decide (Flag (w &&& 0xFFF#32) pteU)) &&
    (s.userSpaces.map e (pageAddr utemp)).isNone

theorem forks_of_check (h : forksCheck s e stack = true) : ∃ stk, Forks s e stack stk := by
  unfold forksCheck at h
  rw [Bool.and_eq_true, Bool.and_eq_true] at h
  obtain ⟨⟨hstack, huser⟩, htemp⟩ := h
  cases hk : s.userSpaces.map e (pageAddr stack) with
  | none => simp [hk] at hstack
  | some page =>
      rw [hk, Option.any_some] at hstack
      refine ⟨page.1, ⟨page.2, hk, of_decide_eq_true hstack⟩, fun a p k ha => ?_,
        Option.isNone_iff_eq_none.mp htemp⟩
      obtain ⟨w, hw, heq⟩ := Option.map_eq_some_iff.mp
        (show (mapping s.mem.word s.dirs e a.1 a.2).map
          (fun w => (pteFrame w, w &&& 0xFFF#32)) = some (p, k) from ha)
      obtain ⟨-, rfl⟩ := Prod.mk.inj heq
      obtain ⟨f, hf, hP, rfl⟩ := mapping_eq_some.mp hw
      have htable := List.all_eq_true.mp huser a.1 (List.mem_finRange _)
      rw [hf, Option.all_some] at htable
      have hpage := List.all_eq_true.mp htable a.2 (List.mem_finRange _)
      rw [present_of_flag hP, Option.all_some] at hpage
      exact of_decide_eq_true hpage

/-- The first environment of the sample machine may fork, and gets a child. -/
def forkTest (s : Kernel 1) : Bool :=
  decide (s.cpuEnv 0 = some 0 ∧ (s.envs 0).envStatus = .running ∧
    (s.envs 0).envIpcRecving = false) && forksCheck s 0 0xEEBFDF00 &&
  (steps sampleMachine (fun s l => checkElsewhere s l && roomy s l) s
    [.trap 0 (syscallTf 7 0 0 0 0 0) 0]).any
    fun t => decide (t.cpuEnv 0 = some 0 ∧ (t.envs 1).envStatus = .notRunnable)

end Jos
