import Jos.System.Conservation
import Jos.System.World

/-!
The kernel refines the world of processes. What its page tables, counts and
free lists come to is a state of that world, and every step of the kernel is
one of its steps, in the runs that map no absent page and overflow no count.
-/

namespace Jos

open Jos.Lib

variable {n : ℕ} {M : Machine} {L : Layout M} {b c : Fin n} {cur e : EnvIdx}
  {s t u v : Kernel n} {k : Option (Fin n)} {q : Request} {tf : Trapframe} {m : Mem n}
  {l : Label n} {p : ℕ} {va perm : Word}

def Env.proc (v : Env) : Process where
  tf := v.envTf
  id := v.envId
  parentId := v.envParentId
  status := v.envStatus
  runs := v.envRuns
  cpunum := v.envCpunum
  pgfaultUpcall := v.envPgfaultUpcall
  ipcRecving := v.envIpcRecving
  ipcDstva := v.envIpcDstva
  ipcValue := v.envIpcValue
  ipcFrom := v.envIpcFrom
  ipcPerm := v.envIpcPerm

/-- The address spaces that the page tables describe, over physical memory. -/
def Kernel.userSpaces (s : Kernel n) : UserSpaces where
  map e a := (mapping s.mem.word s.dirs e a.1 a.2).map fun w => (pteFrame w, w &&& 0xFFF#32)
  content := s.mem.word

/-- What processes see of the kernel. -/
noncomputable def Kernel.world (s : Kernel n) : World n where
  procs e := (s.envs e).proc
  spaces := s.userSpaces.forget devices
  cpuEnv := s.cpuEnv

/-! ### Changes of an environment -/

theorem userSpaces_congr (hdirs : u.dirs = s.dirs) (hword : u.mem.word = s.mem.word) :
    u.userSpaces = s.userSpaces := by
  unfold Kernel.userSpaces
  rw [hdirs, hword]

theorem procs_update {v : Env} (henvs : u.envs = Function.update s.envs e v) :
    (fun e' => (u.envs e').proc) = Function.update (fun e' => (s.envs e').proc) e v.proc := by
  funext e'
  rw [henvs]
  exact Function.apply_update (fun _ v => Env.proc v) s.envs e v e'

theorem world_setEnv {v : Env} (hdir : v.envPgdir = (s.envs e).envPgdir) :
    (s.setEnv e v).world = s.world.setProc e v.proc := by
  have hdirs : (s.setEnv e v).dirs = s.dirs := by
    rw [dirs_setEnv, hdir]
    exact Function.update_eq_self e s.dirs
  ext1
  · exact procs_update rfl
  · exact congrArg (Spaces.forget devices) (userSpaces_congr hdirs rfl)
  · rfl

theorem world_setTf : (s.setTf e tf).world = s.world.setTf e tf := world_setEnv rfl

theorem world_setStatus {st : EnvStatus} : (s.setStatus e st).world = s.world.setStatus e st :=
  world_setEnv rfl

theorem world_demote : (s.demote c).world = s.world.demote c := by
  have hcpu : s.world.cpuEnv c = s.cpuEnv c := rfl
  unfold Kernel.demote World.demote
  rw [hcpu]
  cases s.cpuEnv c with
  | none => rfl
  | some cur =>
      have hstatus : (s.world.procs cur).status = (s.envs cur).envStatus := rfl
      dsimp only
      rw [hstatus]
      split
      · exact world_setStatus
      · rfl

theorem world_resume {d : ℕ} : (s.resume c e d).world = s.world.resume c e := by
  have henvs : (s.resume c e d).envs = Function.update s.envs e
      { s.envs e with
        envStatus := .running, envRuns := (s.envs e).envRuns + 1, envCpunum := c } := rfl
  ext1
  · exact procs_update henvs
  · exact congrArg (Spaces.forget devices) (userSpaces_congr dirs_resume rfl)
  · rfl

theorem exit_leaves (hexit : Exit M c s t) : s.world.Leaves c t.world := by
  cases hexit with
  | @run e d hrunnable hdir =>
      rw [world_resume, world_demote]
      refine .run ?_
      rw [← world_demote]
      exact hrunnable
  | halt hcur hnone => exact .halt hcur hnone

/-! ### Changes of memory -/

/-- A page in use is a page of the allocator, off its free list, and holds
neither entries nor a directory. -/
theorem Conserved.mapped_page (h : Conserved L k s) (hmaps : s.userSpaces.Maps e p)
    (hp : p ∉ devices) : L.pool p ∧ ¬ s.mem.pool.On p ∧ Plain s.mem.word s.dirs p := by
  obtain ⟨⟨i, j⟩, perm, hmap⟩ := hmaps
  obtain ⟨w, hw, heq⟩ := Option.map_eq_some_iff.mp hmap
  obtain rfl : pteFrame w = p := congrArg Prod.fst heq
  have hcounted := pageTarget_counted (h.sys.mem.tables.page hw) (h.mapped_lt hw)
  exact ⟨hcounted.resolve_right hp, h.sys.mem.not_on_page hw,
    Separate.plain_of_page h.sys.mem.tables.separate hw⟩

/-- The spaces after a change of memory that keeps the contents of the pages in
use: those that are mapped now were mapped before, or have the contents that
they should. -/
theorem spaces_of_keeps {S : UserSpaces} (h : Conserved L k s)
    (hmap : ∀ e a, u.userSpaces.map e a = S.map e a) (hkeeps : KeepsContents s.dirs s.mem u.mem)
    (hold : ∀ e p, p ∉ devices → S.Maps e p →
      (∃ e', s.userSpaces.Maps e' p) ∧ S.content p = s.world.spaces.content p ∨
      u.mem.word p = S.content p) : u.world.spaces = S.forget devices := by
  have hmap' : u.userSpaces.map = S.map := funext fun e => funext (hmap e)
  refine Spaces.forget_congr hmap' fun e p hp hmaps => ?_
  rcases hold e p hp hmaps with ⟨⟨e', hused⟩, hcontent⟩ | hnew
  · obtain ⟨-, hoff, hplain⟩ := h.mapped_page hused hp
    rw [hcontent]
    exact (hkeeps p hoff hplain).trans (Spaces.content_forget hp hused).symm
  · exact hnew

/-- Memory as `env_free` finds it has the same pages. -/
theorem KeepsContents.of_freeing (hkeeps : KeepsContents s.dirs (s.freeing M c e) m) :
    KeepsContents s.dirs s.mem m := by
  intro p hoff hplain
  have hword : (s.freeing M c e).word = s.mem.word := freeing_word s c e
  rw [← hword]
  exact hkeeps p (by rwa [(freeing_pages s c e).2]) (by rwa [hword])

theorem world_freed (h : Conserved L k s) (hfree : Freed M c e s u) :
    u.world = s.world.freed e := by
  cases hfree with
  | @mk d m hdir hmem =>
      have hdown := (h.sys.cpuSys c).freed_down hdir hmem
      have hkeeps : KeepsContents s.dirs s.mem m := .of_freeing (tearDown_keeps
        (envFreeMem_frees h.ready.mem.freeing h.sys.bounded.freeing le_rfl hdir hmem)).1
      have henvs : (s.freed c e m).envs = Function.update s.envs e
          { s.envs e with envPgdir := none, envStatus := .free, envLink := s.envFreeList } := rfl
      ext1
      · exact procs_update henvs
      · refine spaces_of_keeps h (fun e' a => ?_) hkeeps fun e' p _ hmaps => .inl ⟨?_, rfl⟩
        · have hmap := hdown.maps e' a.1 a.2
          rw [freeing_word, ← dirs_freed (c := c)] at hmap
          change Option.map _ (mapping m.word _ e' a.1 a.2) = _
          rw [hmap]
          by_cases he : e' = e
          · subst he
            rw [if_pos rfl, Spaces.assign_self]
            rfl
          · rw [if_neg he, Spaces.assign_of_ne he]
            rfl
        · by_cases he : e' = e
          · subst he
            obtain ⟨a, w, ha⟩ := Spaces.maps_assign_self.mp hmaps
            cases ha
          · exact ⟨e', (Spaces.maps_assign_of_ne he).mp hmaps⟩
      · rfl

/-- The low bits of the entry that `page_insert` writes. -/
theorem mkPte_and_low (hperm : perm.toNat < 4096) :
    mkPte (frame2pa p) perm &&& 0xFFF#32 = perm ||| pteP := by
  have hlow : ∀ j, 12 ≤ j → (0xFFF#32).getLsbD j = false := low_bits_of_lt (by decide)
  have hframe : frame2pa p &&& 0xFFF#32 = 0#32 := not_not.mp (not_flag_frame2pa hlow p)
  have hlt : (perm ||| pteP).toNat < 4096 := flags_lt hperm (by decide)
  have hflags : (perm ||| pteP) &&& 0xFFF#32 = perm ||| pteP := by
    apply BitVec.eq_of_toNat_eq
    rw [BitVec.toNat_and]
    exact (Nat.and_two_pow_sub_one_eq_mod (perm ||| pteP).toNat 12).trans (Nat.mod_eq_of_lt hlt)
  rw [mkPte, BitVec.or_assoc, BitVec.and_or_distrib_right, hframe, hflags, BitVec.zero_or]

theorem mem_devices : p ∈ devices ↔ p = vgaFrame := Set.mem_singleton_iff

/-- The entry of the VGA buffer, as the new process sees it. -/
theorem newSpace_eq (a : PageAddr) :
    (if a.1 = pdx vgaUser ∧ a.2 = ptx vgaUser then some vgaPte else none).map
      (fun w => (pteFrame w, w &&& 0xFFF#32)) = World.newSpace a := by
  have hentry : (pteFrame vgaPte, vgaPte &&& 0xFFF#32) =
      (vgaFrame, pteP ||| pteU ||| pteW ||| pteMapped) :=
    Prod.ext pteFrame_vgaPte (by decide)
  unfold World.newSpace pageAddr
  by_cases ha : a = (pdx vgaUser, ptx vgaUser)
  · rw [if_pos ⟨congrArg Prod.fst ha, congrArg Prod.snd ha⟩, if_pos ha, ← hentry]
    rfl
  · rw [if_neg fun hand => ha (Prod.ext hand.1 hand.2), if_neg ha]
    rfl

theorem forked_envs {d : ℕ} (hne : cur ≠ e) : (s.forked cur e d m).envs = Function.update s.envs e
    { s.envs e with
      envPgdir := some d
      envId := nextEnvId (s.envs e).envId e
      envParentId := (s.envs cur).envId
      envStatus := .notRunnable
      envRuns := 0
      envTf := (s.envs cur).envTf.setEax 0
      envPgfaultUpcall := 0
      envIpcRecving := false } := by
  unfold Kernel.forked Kernel.setTf Kernel.setStatus Kernel.allocated
  simp [Kernel.setEnv, Kernel.setMem, Function.update_of_ne hne]

theorem world_exofork {d : ℕ} (h : Conserved L k s) (hne : cur ≠ e) (hhead : s.envFreeList = some e)
    (hmem : envSetupVm M (s.ctx c) s.mem = .ok (some d, m)) :
    (s.forked cur e d m).world = s.world.forked cur e := by
  have hnone : s.dirs e = none := h.sys.fresh hhead
  have hset := envSetupVm_spec h.sys.mem hnone hmem
  have hkeeps := (setUp_keeps h.ready.mem hnone hmem).1
  ext1
  · exact procs_update (forked_envs hne)
  · refine spaces_of_keeps h (fun e' a => ?_) hkeeps fun e' p hp hmaps => .inl ⟨?_, rfl⟩
    · have hmap := hset.maps e' a.1 a.2
      have hdirs : (s.forked cur e d m).dirs = Function.update s.dirs e (some d) := dirs_forked
      rw [← hdirs] at hmap
      change Option.map _ (mapping m.word _ e' a.1 a.2) = _
      rw [hmap]
      by_cases he : e' = e
      · subst he
        rw [if_pos rfl, Spaces.assign_self]
        exact newSpace_eq a
      · rw [if_neg he, Spaces.assign_of_ne he]
        rfl
    · by_cases he : e' = e
      · subst he
        obtain ⟨a, w, ha⟩ := Spaces.maps_assign_self.mp hmaps
        unfold World.newSpace at ha
        split at ha
        · cases ha
          exact absurd rfl hp
        · cases ha
      · exact ⟨e', (Spaces.maps_assign_of_ne he).mp hmaps⟩
  · rfl

/-- The spaces after the entry at `va` was written. -/
theorem userSpaces_enter {x : Ctx n} {d : ℕ} {S : UserSpaces} (hperm : perm.toNat < 4096)
    (hp : p < 1048576)
    (hins : Inserted L False s.dirs x e d va (mkPte (frame2pa p) perm) s.mem m)
    (hS : S.map = s.userSpaces.map) (e' : EnvIdx) (a : PageAddr) :
    (s.setMem m).userSpaces.map e' a =
      (S.enter e (pageAddr va) p (perm ||| pteP)).map e' a := by
  have hmap := hins.maps e' a.1 a.2
  rw [Spaces.enter_map, hS]
  change Option.map _ (mapping m.word (s.setMem m).dirs e' a.1 a.2) = _
  rw [dirs_setMem, hmap]
  have haddr : e' = e ∧ a.1 = pdx va ∧ a.2 = ptx va ↔ e' = e ∧ a = pageAddr va := by
    rw [Prod.ext_iff]
    rfl
  by_cases ha : e' = e ∧ a = pageAddr va
  · rw [if_pos (haddr.mpr ha), if_pos ha, Option.map_some, pteFrame_mkPte hp hperm,
      mkPte_and_low hperm]
  · rw [if_neg fun h => ha (haddr.mp h), if_neg ha]
    rfl

/-- The entry is of a page that is mapped somewhere. -/
theorem world_pageMap {x : Ctx n} {dd : ℕ} {w : Word} {es : EnvIdx} {i j : PtIdx}
    (h : Conserved L k s) (hw : mapping s.mem.word s.dirs es i j = some w)
    (hload : pageLoad none s.mem.word s.dirs (pteFrame w) < 65536) (hdd : s.dirs e = some dd)
    (hva : (pdx va : ℕ) < 955) (hperm : perm.toNat < 4096)
    (hrun : pageInsert M x dd (some (pteFrame w)) va perm s.mem = .ok (0, m)) :
    (s.setMem m).world = s.world.pageMap e va perm (pteFrame w) := by
  have hcounted := pageTarget_counted (h.sys.mem.tables.page hw) (h.mapped_lt hw)
  have henters := h.ready.mem.enters_mapped h.sys.bounded hw hcounted hload hdd hva hperm hrun
  have hins : Inserted L False s.dirs x e dd va (mkPte (frame2pa (pteFrame w)) perm) s.mem m :=
    pageInsert_spec h.sys.mem hdd hva hcounted
      (Separate.plain_of_page h.sys.mem.tables.separate hw) (h.sys.mem.not_on_page hw) hperm
      (fun _ _ hcounted => h.sys.bounded.onceMore hload hcounted) hrun
  have hmapped : s.userSpaces.Maps es (pteFrame w) :=
    ⟨(i, j), w &&& 0xFFF#32, by simp [Kernel.userSpaces, hw]⟩
  ext1
  · rfl
  · refine spaces_of_keeps h (userSpaces_enter hperm (L.counted_lt hcounted) hins rfl)
      henters.contents fun e' p hp hmaps => .inl ⟨?_, rfl⟩
    obtain ⟨a, k, ha⟩ := hmaps
    rw [Spaces.enter_map] at ha
    split at ha
    · cases ha
      exact ⟨es, hmapped⟩
    · exact ⟨e', a, k, ha⟩
  · rfl

/-- The entry is of a page that has just been allocated. -/
theorem world_pageAlloc {x : Ctx n} {d : ℕ} {m₁ : Mem n} (h : Conserved L k s)
    (halloc : pageAlloc M true s.mem = .ok (some p, m₁)) (hd : s.dirs e = some d)
    (hva : (pdx va : ℕ) < 955) (hperm : perm.toNat < 4096)
    (hrun : pageInsert M x d (some p) va perm m₁ = .ok (0, m)) :
    (s.setMem m).world = s.world.pageAlloc e va perm p ∧ p ∉ devices ∧
      ∀ e', ¬ s.world.spaces.Maps e' p := by
  have hal := pageAlloc_spec h.ready.mem.toMemInv halloc
  obtain ⟨hins, -⟩ := hal.inserted h.sys.bounded hd hva hperm hrun
  obtain ⟨hkeeps, -, hword⟩ :=
    hal.enters (h.ready.mem.allocated halloc) h.sys.bounded hd hva hperm hrun
  have hdevice : p ∉ devices := fun hp => L.pool_ne_vga (mem_devices.mp hp ▸ hal.pool)
  have hunused (e' : EnvIdx) : ¬ s.userSpaces.Maps e' p := fun hmaps =>
    (h.mapped_page hmaps hdevice).2.1 hal.wasFree
  refine ⟨?_, hdevice, hunused⟩
  ext1
  · rfl
  · refine spaces_of_keeps h
      (userSpaces_enter hperm (L.counted_lt (.inl hal.pool)) hins rfl) hkeeps
      fun e' p' hp hmaps => ?_
    by_cases hpp : p' = p
    · subst hpp
      right
      rw [hal.zero rfl] at hword
      exact hword.trans (Function.update_self p' _ s.world.spaces.content).symm
    · left
      obtain ⟨a, k, ha⟩ := hmaps
      rw [Spaces.enter_map] at ha
      split at ha
      · cases ha
        exact absurd rfl hpp
      · exact ⟨⟨e', a, k, ha⟩, Function.update_of_ne hpp _ _⟩
  · rfl

/-- A page that was allocated and given back. -/
theorem world_putBack {m₁ : Mem n} (h : Conserved L k s)
    (halloc : pageAlloc M true s.mem = .ok (some p, m₁)) (hfree : pageFree p m₁ = .ok m) :
    (s.setMem m).world = s.world := by
  have hal := pageAlloc_spec h.ready.mem.toMemInv halloc
  obtain ⟨-, hword, -, -⟩ := pageFree_spec hal.inv hal.pool hal.off hal.unref hfree
  have hkeeps : KeepsContents s.dirs s.mem m := fun q hoff _ => by
    have hne : q ≠ p := by
      rintro rfl
      exact hoff hal.wasFree
    rw [hword, hal.word q hne]
  ext1
  · rfl
  · refine spaces_of_keeps h (fun e' a => ?_) hkeeps fun e' q hq hmaps => .inl ⟨⟨e', hmaps⟩, ?_⟩
    · change Option.map _ (mapping m.word s.dirs e' a.1 a.2) = _
      rw [hword, hal.maps]
      rfl
    · exact (Spaces.content_forget hq hmaps).symm
  · rfl

theorem world_pageUnmap {x : Ctx n} {d : ℕ} (h : Conserved L k s) (hd : s.dirs e = some d)
    (hva : (pdx va : ℕ) < 955) (hrun : pageRemove M x d va s.mem = .ok m) :
    (s.setMem m).world = s.world.pageUnmap e va := by
  have hbound (w : Word) (_ : mapping s.mem.word s.dirs e (pdx va) (ptx va) = some w)
      (hw : L.counted (pteFrame w)) : pageLoad none s.mem.word s.dirs (pteFrame w) ≤ 65536 :=
    h.sys.bounded _ hw
  have hrem := pageRemove_spec h.sys.mem hd hva hbound hrun
  have hkeeps : KeepsContents s.dirs s.mem m := fun f _ hplain =>
    (pageRemove_keeps h.sys.mem hd hva hbound hrun).2 f (hplain.2 e (pdx va))
  ext1
  · rfl
  · refine spaces_of_keeps h (fun e' a => ?_) hkeeps fun e' p hp hmaps => .inl ⟨?_, rfl⟩
    · rw [Spaces.clear_map]
      change Option.map _ (mapping m.word s.dirs e' a.1 a.2) = _
      rw [hrem.maps]
      have haddr : e' = e ∧ a.1 = pdx va ∧ a.2 = ptx va ↔ e' = e ∧ a = pageAddr va := by
        rw [Prod.ext_iff]
        rfl
      by_cases ha : e' = e ∧ a = pageAddr va
      · rw [if_pos (haddr.mpr ha), if_pos ha]
        rfl
      · rw [if_neg fun h => ha (haddr.mp h), if_neg ha]
        rfl
    · obtain ⟨a, k, ha⟩ := hmaps
      rw [Spaces.clear_map] at ha
      split at ha
      · cases ha
      · exact ⟨e', a, k, ha⟩
  · rfl

/-! ### Requests -/

theorem world_ipcPerm0 {target : EnvIdx} : (s.ipcPerm0 target).world =
    s.world.setProc target { s.world.procs target with ipcPerm := 0 } := world_setEnv rfl

theorem delivered_envs {target : EnvIdx} {value : Word} {page : Option ℕ} :
    ((s.ipcPerm0 target).delivered cur target value perm page).envs =
      Function.update s.envs target
        { s.envs target with
          envIpcPerm := perm
          envIpcRecving := false
          envIpcFrom := (s.envs cur).envId
          envIpcValue := value
          envTf := (s.envs target).envTf.setEax 0
          envStatus := .runnable } := by
  have hid : ((s.ipcPerm0 target).envs cur).envId = (s.envs cur).envId := by
    by_cases h : cur = target
    · subst h
      simp [Kernel.ipcPerm0, Kernel.setEnv]
    · simp [Kernel.ipcPerm0, Kernel.setEnv, h]
  simp only [Kernel.delivered, hid]
  simp [Kernel.ipcPerm0, Kernel.setEnv, Kernel.emit]

theorem world_delivered {target : EnvIdx} {value : Word} {page : Option ℕ} :
    ((s.ipcPerm0 target).delivered cur target value perm page).world =
      s.world.delivered cur target value perm := by
  ext1
  · exact procs_update delivered_envs
  · have hdirs : ((s.ipcPerm0 target).delivered cur target value perm page).dirs = s.dirs := by
      rw [dirs_delivered, dirs_ipcPerm0]
    exact congrArg (Spaces.forget devices) (userSpaces_congr hdirs rfl)
  · rfl

theorem world_received : (s.received cur va).world = s.world.received cur va := world_setEnv rfl

/-- The page that was looked up, in the address space that it was looked up
in. -/
theorem looked_spaces {es : EnvIdx} {ds pt : ℕ} {sva : Word} {i : PtIdx}
    (hds : s.dirs es = some ds) (hsva : (pdx sva : ℕ) < 955)
    (hlook : pageLookup M ds sva s.mem = .ok (some (pt, i), some p)) :
    ∃ w, mapping s.mem.word s.dirs es (pdx sva) (ptx sva) = some w ∧ pteFrame w = p ∧
      s.world.spaces.map es (pageAddr sva) = some (p, w &&& 0xFFF#32) ∧ s.mem.word pt i = w := by
  obtain ⟨htable, hpage, -⟩ := pageLookup_spec hds hsva hlook
  obtain ⟨w, hw, rfl⟩ := Option.map_eq_some_iff.mp hpage.symm
  obtain ⟨t, ht, -, rfl⟩ := mapping_eq_some.mp hw
  rw [ht] at htable
  cases htable
  refine ⟨_, hw, rfl, ?_, rfl⟩
  change Option.map _ (mapping s.mem.word s.dirs es (pdx sva) (ptx sva)) = _
  rw [hw]
  rfl

/-- The low bits of an entry hold its flags. -/
theorem flag_and_low {w flag : Word} (hflag : 0xFFF#32 &&& flag = flag) :
    Flag (w &&& 0xFFF#32) flag ↔ Flag w flag := by
  unfold Flag
  rw [BitVec.and_assoc, hflag]

/-- A request that meets the conditions is one of the world. -/
theorem call_request (h : Conserved L (some c) s) (hcur : s.cpuEnv c = some cur)
    (hok : PresentOk M c cur q s) (hcall : Call M c cur q s u) :
    s.world.Request c cur q u.world := by
  cases hcall with
  | skip => exact .skip
  | setStatus hno hst he =>
      rw [world_setStatus]
      exact .setStatus hno hst he
  | dying hno he hst hne =>
      change s.world.Request c cur q (s.setStatus _ .dying).world
      rw [world_setStatus]
      exact .dying hno he hst hne
  | @destroyOther e u hno he hne hst hfree =>
      change s.world.Request c cur q u.world
      rw [world_freed h hfree]
      exact .destroyOther hno he hne hst
  | @destroySelf u _ hfree =>
      change s.world.Request c cur q (u.world.setCur c none)
      rw [world_freed h hfree]
      exact .destroySelf
  | @exofork e d m hno hhead hmem =>
      have hfree : (s.envs e).envStatus = .free := h.ready.head hhead
      have hne : cur ≠ e := by
        rintro rfl
        exact (h.sys.envs.cur rfl hcur).1 hfree
      rw [world_exofork h hne hhead hmem]
      exact .exofork hno hfree
  | @pageAlloc e d page m₁ r m₂ hno he hva hperm hdir halloc hinsert hr =>
      obtain rfl := (pageInsert_ret hinsert).resolve_right fun hfail => hr hfail.1
      obtain ⟨hworld, hdevice, hunused⟩ := world_pageAlloc h halloc hdir (pdx_userPage hva)
        (perm_lt_of_valid hperm) hinsert
      rw [hworld]
      exact .pageAlloc hno he hva hperm hdevice hunused
  | pageAllocFail hno he hva hperm hdir halloc hinsert hfree =>
      obtain ⟨-, rfl⟩ := (pageInsert_ret hinsert).resolve_left (by decide)
      rw [world_putBack h halloc hfree]
      exact .skip
  | @pageMap src dst ds dd pt i page r m hno hsrc hdst hsrcva hdstva hperm hds hdd hlook hw
      hinsert =>
      rcases pageInsert_ret hinsert with rfl | ⟨-, rfl⟩
      · have hins : Inserts M cur q s page dd q.a4 := .map hno hsrc hdst hsrcva hdstva hperm hds
          hdd hlook hw (pageInsert_room hinsert (by decide))
        cases page with
        | none => exact absurd hins hok.source
        | some p =>
            obtain ⟨w, hmap, rfl, hpage, hword⟩ := looked_spaces hds (pdx_userPage hsrcva) hlook
            have hload := h.sys.mem.load_lt h.sys.bounded
              (pageTarget_counted (h.sys.mem.tables.page hmap) (h.mapped_lt hmap))
              (hok.call.room.insert hins)
            rw [world_pageMap h hmap hload hdd (pdx_userPage hdstva) (perm_lt_of_valid hperm)
              hinsert]
            rw [hword] at hw
            exact .pageMap hno hsrc hdst hsrcva hdstva hperm hpage fun hW =>
              (flag_and_low (by decide)).mpr (hw hW)
      · exact .skip
  | @pageUnmap e d m hno he hva hdir hremove =>
      rw [world_pageUnmap h hdir (pdx_userPage hva) hremove]
      exact .pageUnmap hno he hva
  | ipcFail hno he hrecv =>
      rw [world_ipcPerm0]
      exact .ipcFail hno he hrecv
  | ipcValue hno he hrecv hpage =>
      rw [world_delivered]
      exact .ipcValue hno he hrecv hpage
  | @ipcPage target ds dd pt i page r m hno he hrecv hsrcva hdstva hup hperm hds hdd hlook hw
      hinsert hr =>
      obtain rfl := (pageInsert_ret hinsert).resolve_right fun hfail => hr hfail.1
      have hins : Inserts M cur q s page dd (s.envs target).envIpcDstva :=
        .send (sends_page hno he hrecv hsrcva hup hperm hds hdd hlook hw hinsert hr) hsrcva.1
          hdstva.1 hds hdd hlook
      cases page with
      | none => exact absurd hins hok.source
      | some p =>
          obtain ⟨w, hmap, rfl, hpage, hword⟩ := looked_spaces hds (pdx_userPage hsrcva) hlook
          have hload := h.sys.mem.load_lt h.sys.bounded
            (pageTarget_counted (h.sys.mem.tables.page hmap) (h.mapped_lt hmap))
            (hok.call.room.insert hins)
          have hworld : (s.setMem m).world =
              s.world.pageMap target (s.envs target).envIpcDstva q.a4 (pteFrame w) :=
            world_pageMap h hmap hload hdd (pdx_userPage hdstva) (perm_lt hperm) hinsert
          change s.world.Request c cur q
            (((s.setMem m).ipcPerm0 target).delivered cur target q.a2 q.a4 _).world
          rw [world_delivered, hworld]
          rw [hword] at hw
          exact .ipcPage hno he hrecv hsrcva hdstva hpage fun hW =>
            (flag_and_low (by decide)).mpr (hw hW)
  | ipcRecv hno =>
      rw [world_received]
      exact .ipcRecv hno

/-! ### Steps -/

/-- What user code writes to is mapped, for users and writable. -/
theorem userWrite_mapped {d : ℕ} (hd : s.dirs e = some d) (hi : (pdx va : ℕ) < 955)
    (hwrite : userWrite s.mem d va = some p) :
    ∃ perm, s.world.spaces.map e (pageAddr va) = some (p, perm) ∧ Flag perm pteU ∧
      Flag perm pteW := by
  simp only [userWrite, userRead] at hwrite
  split at hwrite
  · rename_i hW
    split at hwrite
    · rename_i hread
      cases hwrite
      refine ⟨_, ?_, (flag_and_low (by decide)).mpr hread.2.2.2,
        (flag_and_low (by decide)).mpr hW.2⟩
      change Option.map _ (mapping s.mem.word s.dirs e (pdx va) (ptx va)) = _
      rw [mapping, tableAt_of_dir hi hd, present_of_flag hread.1]
      simp only [Option.map_some, Option.bind_some, present_of_flag hread.2.2.1]
    · cases hwrite
  · cases hwrite

/-- A store of user code. -/
theorem world_store {i : PtIdx} {w : Word} (hplain : Plain s.mem.word s.dirs p) :
    (s.setMem (s.mem.store p i w)).world = s.world.setSpaces (s.world.spaces.write p
      (Function.update (s.world.spaces.content p) i w)) := by
  have hword (q : ℕ) (hq : q ≠ p) : (s.mem.store p i w).word q = s.mem.word q :=
    Function.update_of_ne hq _ _
  ext1
  · rfl
  · refine Spaces.forget_congr (funext fun e => funext fun a => ?_) fun e q hq hmaps => ?_
    · change Option.map _ (mapping (s.mem.store p i w).word s.dirs e a.1 a.2) = _
      rw [hplain.mapping hword]
      rfl
    · have hcontent : s.world.spaces.content q = s.mem.word q :=
        Spaces.content_forget (S := s.userSpaces) hq hmaps
      by_cases hqp : q = p
      · subst hqp
        change (s.mem.store q i w).word q = Function.update s.world.spaces.content q _ q
        rw [word_store, Function.update_self, Function.update_self, hcontent]
      · change (s.mem.store p i w).word q = Function.update s.world.spaces.content p _ q
        rw [hword q hqp, Function.update_of_ne hqp, hcontent]
  · rfl

theorem step_simulates (h : Conserved L none s) (hok : OnCall (PresentOk M) s l)
    (hstep : Step M s l t) : s.world.Step l t.world := by
  cases hstep.taken with
  | @zombie c tf input cur u t hcur hst hfree hexit =>
      have hleaves : (u.world.setCur c none).Leaves c t.world := exit_leaves hexit
      rw [world_freed h hfree] at hleaves
      exact .zombie hcur hst hleaves
  | @entry c tf input cur u v t hcur hst hcall hret hexit =>
      have henter : Conserved L (some c) s := h.enter fun cur' hcur' => by
        rwa [← Option.some.inj (hcur.symm.trans hcur')]
      have hset : Conserved L (some c) (s.setTf cur tf) := henter.setTf
      have hrequest := call_request hset hcur (hok rfl hcur hst) hcall
      rw [world_setTf] at hrequest
      have hleaves := exit_leaves hexit
      rcases hret with rfl | ⟨hsys, r, rfl⟩
      · exact .entry hcur hst hrequest hleaves
      · rw [world_setTf] at hleaves
        exact .answer r hcur hst hsys hrequest hleaves
  | tick hidle hexit => exact .tick hidle (exit_leaves hexit)
  | fill hexec hread => exact .fill
  | @store c va w frame hexec hwrite =>
      obtain ⟨e, he⟩ := Option.ne_none_iff_exists'.mp hexec
      have hdir := h.sys.cpu.exec he
      obtain ⟨hi, -, -, hplain⟩ := SysInv.write_plain h.sys.mem hdir hwrite
      obtain ⟨perm, hpage, hU, hW⟩ := userWrite_mapped hdir hi hwrite
      rw [world_store hplain]
      exact .store he hpage hU hW

/-- Environment `e` is at work itself, or the one it is a child of. -/
def ActsOn (e : EnvIdx) (s : Kernel n) : Label n → Prop
  | .trap c _ _ => ∃ cur, s.cpuEnv c = some cur ∧
      (cur = e ∨ (s.envs e).envParentId = (s.envs cur).envId)
  | .store c _ _ => s.cpuEnv c = some e
  | _ => False

theorem acts_world : s.world.Acts e l ↔ ActsOn e s l := by
  cases l <;> exact Iff.rfl

/-- Environment `e` maps the frame, and no other does. -/
def Kernel.OnlyMaps (s : Kernel n) (e : EnvIdx) (p : ℕ) : Prop :=
  (∃ i j w, mapping s.mem.word s.dirs e i j = some w ∧ pteFrame w = p) ∧
    ∀ e' i j w, mapping s.mem.word s.dirs e' i j = some w → pteFrame w = p → e' = e

theorem maps_world : s.world.spaces.Maps e p ↔
    ∃ i j w, mapping s.mem.word s.dirs e i j = some w ∧ pteFrame w = p := by
  constructor
  · rintro ⟨⟨i, j⟩, perm, hmap⟩
    obtain ⟨w, hw, heq⟩ := Option.map_eq_some_iff.mp hmap
    exact ⟨i, j, w, hw, congrArg Prod.fst heq⟩
  · rintro ⟨i, j, w, hw, rfl⟩
    refine ⟨(i, j), w &&& 0xFFF#32, ?_⟩
    change Option.map _ (mapping s.mem.word s.dirs e i j) = _
    rw [hw]
    rfl

theorem owned_world : s.world.spaces.Owned {e} p ↔ s.OnlyMaps e p := by
  have hself : (∃ o ∈ ({e} : Set EnvIdx), s.world.spaces.Maps o p) ↔
      s.world.spaces.Maps e p := by simp
  refine and_congr (hself.trans maps_world) ⟨fun h e' i j w hw hp => ?_, fun h e' hmaps => ?_⟩
  · exact h e' (maps_world.mpr ⟨i, j, w, hw, hp⟩)
  · obtain ⟨i, j, w, hw, hp⟩ := maps_world.mp hmaps
    exact h e' i j w hw hp

/-- An entry is its frame and its low bits. -/
theorem entry_ext {w w' : Word} (hframe : pteFrame w' = pteFrame w)
    (hlow : w' &&& 0xFFF#32 = w &&& 0xFFF#32) : w' = w := by
  have hand (v : Word) : (v &&& 0xFFF#32).toNat = v.toNat % 4096 := by
    rw [BitVec.toNat_and]
    exact Nat.and_two_pow_sub_one_eq_mod v.toNat 12
  have hmod : w'.toNat % 4096 = w.toNat % 4096 := by rw [← hand, ← hand, hlow]
  have hframe' : w'.toNat / 4096 = w.toNat / 4096 := by
    rwa [pteFrame, pteFrame, pgnum_pteAddr, pgnum_pteAddr, pgnum_eq, pgnum_eq] at hframe
  apply BitVec.eq_of_toNat_eq
  omega

/-- What has happened to `e` between `t` and `u` is no more than that it took
turns on the CPUs: it has the same registers and the same address space, and
the frames that it alone maps are still its own and hold what they held. -/
structure Undisturbed (e : EnvIdx) (t u : Kernel n) : Prop where
  proc : SameProc (t.envs e).proc (u.envs e).proc
  space : ∀ i j, mapping u.mem.word u.dirs e i j = mapping t.mem.word t.dirs e i j
  owned : ∀ p, p ≠ vgaFrame → t.OnlyMaps e p →
    u.OnlyMaps e p ∧ u.mem.word p = t.mem.word p

theorem undisturbed_of_kept (h : World.Kept {e} t.world u.world) : Undisturbed e t u where
  proc := h.proc e rfl
  space i j := by
    have hmap := congrFun (h.spaces.map e rfl) (i, j)
    change Option.map _ (mapping u.mem.word u.dirs e i j) =
      Option.map _ (mapping t.mem.word t.dirs e i j) at hmap
    refine Option.map_injective ?_ hmap
    intro w w' heq
    exact entry_ext (congrArg Prod.fst heq) (congrArg Prod.snd heq)
  owned p hp hown := by
    have hown' := owned_world.mpr hown
    have hkept := h.spaces.owned p hp hown'
    have hcontent := h.spaces.content p hp hown'
    obtain ⟨_, -, hmaps⟩ := hkept.1
    obtain ⟨_, -, hmaps'⟩ := hown'.1
    refine ⟨owned_world.mp hkept, ?_⟩
    rwa [show u.world.spaces.content p = u.mem.word p from Spaces.content_forget hp hmaps,
      show t.world.spaces.content p = t.mem.word p from Spaces.content_forget hp hmaps']
      at hcontent

/-- A check that the child, and no other, is at work. -/
def childActs (s : Kernel n) : Label n → Bool
  | .trap c _ _ => decide (s.cpuEnv c = some 1 ∧ (s.envs 0).envParentId ≠ (s.envs 1).envId)
  | .store c _ _ => decide (s.cpuEnv c = some 1)
  | _ => true

theorem not_actsOn_of_check (h : childActs s l = true) : ¬ ActsOn 0 s l := by
  cases l with
  | trap c tf input =>
      obtain ⟨hcur, hid⟩ := of_decide_eq_true h
      rintro ⟨cur, hcur', hacts⟩
      obtain rfl := Option.some.inj (hcur.symm.trans hcur')
      exact hacts.elim (fun heq => absurd heq (by decide)) hid
  | store c va w =>
      have hcur : s.cpuEnv c = some 1 := of_decide_eq_true h
      intro hacts
      rw [ActsOn, hcur] at hacts
      exact absurd (Option.some.inj hacts) (by decide)
  | tick => exact id
  | fill => exact id

/-- The child allocates a page and writes to it. -/
def childWrites : List (Label 2) :=
  [.trap 1 (syscallTf 4 0 0x800000 7 0 0) 0, .store 1 0x800004 0xABCD]

end Jos
