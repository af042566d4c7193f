import FosKernel.KernelHeapRuns
import FosKernel.UserMappings

/-!
# Directories of environments

After boot no page is mapped for a user. `env_create` allocates a page directory, which
gets the kernel's entries and refers to itself twice.
-/

namespace FosKernel.Machine
open FailingPrograms PageEntries ReferenceCounts DynamicAllocator IntervalLists

variable {s t u : Machine} {E : Finset ℕ} {g : Obj → ℕ} {L : Set ℕ} {x : Cell}
  {e p f i j k n va : ℕ} {pg : Page}

/-- `create_user_directory` -/
def createUserDirectory : Kernel ℕ := do
  let dir ← kmalloc createPageTable pageSize
  if dir = 0 then throw .heapSpace
  return dir

def copyKernelEntry (dir i : ℕ) : Kernel Unit := do
  let w ← readEntry (← get).ptrPageDirectory i
  writeEntry dir i w

/-- The part of `initialize_environment` that concerns the directory. -/
def initializeDirectory (e dir phys : ℕ) : Kernel Unit := do
  modify fun s => s.setEnv e { s.envs e with envPageDirectory := dir, envCr3 := phys }
  forRange (fun i => writeEntry dir i 0) 0 (pdx userTop)
  forRange (copyKernelEntry dir) (pdx userTop) (1024 - pdx userTop)
  writeEntry dir (pdx vpt) (constructEntry phys (permPresent ||| permWriteable))
  writeEntry dir (pdx uvpt) (constructEntry phys (permPresent ||| permUser))

/-- The steps of `env_create` that give the environment a directory. -/
def createDirectory (e : ℕ) : Kernel Unit := do
  let dir ← createUserDirectory
  let phys ← kheapPhysicalAddress dir
  initializeDirectory e dir phys

def bootObjects (s : Machine) : Obj → ℕ
  | .root .kernel => s.ptrPageDirectory
  | _ => 0

theorem bootObjects_ne_zero {o : Obj} (h : bootObjects s o ≠ 0) : o = .root .kernel := by
  unfold bootObjects at h
  split at h
  · rfl
  · exact absurd rfl h

theorem bootObjects_absent {o : Obj} (h : o ≠ .root .kernel) : bootObjects s o = 0 := by
  by_contra h0
  exact h (bootObjects_ne_zero h0)

theorem Paged.core (hp : Paged s t) (hb : Boot s) (huser : ∀ i < pdx userTop, s.kernelPde i = 0)
    (E : Finset ℕ) : Core E t (bootObjects t) ∅ Set.univ ∧ Apart E t (bootObjects t) := by
  have hg := hp.globals
  have hst : SameBoot s t := ⟨hg.cr3, hg.numberOfFrames, hg.ptrFreeMem, hg.ptrPageDirectory⟩
  obtain ⟨hdir, htab⟩ := hp.kernel hb
  have hkdir : t.kernelDir = s.kernelDir := kernelDir_congr hst.ptrPageDirectory
  have hpde : t.kernelPde = s.kernelPde := by
    funext i
    rw [kernelPde, hkdir, hdir, kernelPde]
  have hroot : t.pageFrame (bootObjects t (.root .kernel)) = t.kernelDir := by
    rw [Machine.pageFrame, bootObjects, if_pos (hp.tables hb).lt_free, kernelDir]
  have hne : bootObjects t (.root .kernel) ≠ 0 := by
    have := (hp.tables hb).base
    simp only [bootObjects, kernelBase] at this ⊢
    omega
  have hpage {q : ℕ} (hq : SharedPage q) : t.cellWord (bootObjects t) (.page q) = 0 := by
    rw [cellWord_page hq, hp.kernelPte_eq hb hq.index]
    rcases hq with rfl | hq
    · exact hb.limit
    · exact hb.entries q hq
  have hslot (x : Cell) (hx : x ∈ slots E) : t.cellWord (bootObjects t) x = 0 := by
    cases x with
    | page q => exact hpage (page_mem_slots.mp hx)
    | word o j =>
      cases o with
      | root τ => exact absurd hx root_notMem_slots
      | leaf τ i => exact cellWord_absent rfl
  have hlay : Layout E t (bootObjects t) := by
    refine ⟨hp.tables hb, ⟨?_, fun i hi => ?_⟩, ?_, rfl, fun o hk ho => absurd (bootObjects_ne_zero ho) hk,
      fun o o' ho he => ?_, fun τ i hl => absurd (bootObjects_ne_zero hl) (by simp), fun e _ => rfl, fun e => ?_,
      fun e he => absurd (bootObjects_ne_zero he) (by simp), fun τ i hi ho => ?_,
      fun e he => absurd (bootObjects_ne_zero he) (by simp),
      ⟨.kernel, kernel_mem_mmuTrees, hne, ?_⟩⟩
    · rw [hst.managed, hkdir]
      exact hb.unmanaged.1
    · rw [hst.managed, kernelTable, hpde]
      exact hb.unmanaged.2 i hi
    · have := hb.extended
      have hext : physExtendedMem / pageSize = 256 := by decide
      have hio : physIOMem / pageSize = 160 := by decide
      rw [hio, hst.numberOfFrames]
      omega
    · exact (bootObjects_ne_zero ho).trans (bootObjects_ne_zero (he ▸ ho)).symm
    · rw [hg.envs]
      exact hb.envs e
    · obtain rfl := Obj.root.inj (bootObjects_ne_zero ho)
      have hi' : i < 1024 := hi.trans (pdx_lt _)
      rw [cellWord_word ho hi', hroot, if_pos (bootObjects_absent (by simp))]
      exact (congrFun hpde i).trans (huser i hi)
    · rw [hroot, hkdir, hst.cr3, hb.loaded, kernelDir]
  refine ⟨⟨hlay, hp.isBuffered, fun x hx h0 => absurd (hslot x hx) h0, fun _ _ _ => Set.mem_univ _, ?_,
    fun o hk ho => absurd (bootObjects_ne_zero ho) hk⟩, fun q hq x _ f hn => ?_⟩
  · have hcount (f : ℕ) : count (slots E) (t.pool (bootObjects t)).name f = 0 :=
      count_eq_zero.mpr fun x hx => by simp [Machine.pool, hslot x hx]
    rw [hst.managed]
    refine ⟨fun f hf => ?_, fun x hx f hn => ?_, hp.nodup, fun f => ?_⟩
    · rw [hcount, Machine.pool]
      simp only [hp.managed f hf]
      rfl
    · simp [Machine.pool, hslot x hx] at hn
    · rw [hcount]
      simpa [Machine.pool] using hp.mem_free f
  · rw [hpage hq.shared, nameOf_zero] at hn
    cases hn

theorem Places.core (hp : Places s va n t) (h : Core E s g L Set.univ) (ha : Apart E s g) :
    Core E t g L Set.univ ∧ Apart E t g := by
  induction hp with
  | zero => exact ⟨h, ha⟩
  | succ _ hpage h0 hfree ih =>
    obtain ⟨hcore, hcell⟩ := ih.1.placeFrame hpage (Set.mem_univ _) h0 hfree
    exact ⟨hcore, ih.2.placeFrame ih.1 hfree hcell⟩

theorem Paged.system (hp : Paged s t) (hb : Boot s) (huser : ∀ i < pdx userTop, s.kernelPde i = 0)
    (henough : kernelNodesSize / pageSize ≤ t.freeFrameList.length) (E : Finset ℕ) :
    ∃ u, Machine.initializeDynBlockSystem.run t = .ok ((), u) ∧ System E u (bootObjects u) ∅ ∧ Room u 40000 ∧
      u.freeFrameList = t.freeFrameList.drop (kernelNodesSize / pageSize) ∧ u.envs = s.envs := by
  have hboot := hp.heapBoot hb henough
  obtain ⟨u, d, hrun, hheap, halloc, hplaces⟩ := hboot.initialize_run
  obtain ⟨hcore, hapart⟩ := hp.core hb huser E
  obtain ⟨hcore', hapart'⟩ := hplaces.core hcore hapart
  have hg := hplaces.globals
  have hobj : bootObjects (u.setHeap d) = bootObjects t := by
    funext o
    unfold bootObjects
    rw [show (u.setHeap d).ptrPageDirectory = t.ptrPageDirectory from hg.ptrPageDirectory]
  have htotal := hheap.total_blocks
  rw [show (u.setHeap d).heap.blocks .alloc = [] from halloc, kernelHeap_lo, kernelHeap_hi] at htotal
  refine ⟨u.setHeap d, hrun, ⟨hobj ▸ System.setHeap hcore' d, hheap, hobj ▸ hapart'⟩, ⟨?_, ?_⟩,
    hplaces.freeFrameList_eq, hg.envs.trans hp.globals.envs⟩
  · rw [show (u.setHeap d).kHeapPlacementStrategy = t.kHeapPlacementStrategy from hg.strategy]
    exact hboot.strategy
  · simp only [total_nil, kernelHeapMax, pageSize] at *
    omega

theorem fillWords_run {body : ℕ → Kernel Unit} {w : ℕ → ℕ}
    (hbody : ∀ i < 1024, ∀ pg, (body i).run (u.setFrame f pg) = .ok ((), u.setFrame f (setWord pg i (w i))))
    (hw : ∀ i, w i < 2 ^ 32) (hn : k + n ≤ 1024) (pg : Page) :
    ∃ pg', (forRange body k n).run (u.setFrame f pg) = .ok ((), u.setFrame f pg') ∧
      ∀ j < 1024, wordAt pg' j = if k ≤ j ∧ j < k + n then w j else wordAt pg j := by
  induction n generalizing k pg with
  | zero => exact ⟨pg, rfl, fun j _ => by rw [if_neg (by omega)]⟩
  | succ n ih =>
    obtain ⟨pg', hrun, hword⟩ := ih (k := k + 1) (by omega) (setWord pg k (w k))
    refine ⟨pg', by rw [forRange_succ, run_bind_ok (hbody k (by omega) pg), hrun], fun j hj => ?_⟩
    rw [hword j hj]
    by_cases hjl : j = k
    · subst hjl
      rw [if_neg (by omega), if_pos (by omega), wordAt_setWord hj (hw j)]
    · rw [wordAt_setWord_of_ne hj hjl]
      congr 1
      apply propext
      omega

theorem kernelIndices (hi : i ∈ kernelTables) :
    pdx userTop ≤ i ∧ i < 1024 ∧ i ≠ pdx vpt ∧ i ≠ pdx uvpt := by
  refine ⟨kernelTables_ge hi, kernelTables_lt hi, ?_⟩
  have hvpt : pdx vpt = 959 := by decide
  have huvpt : pdx uvpt = 957 := by decide
  have hlim : pdx userLimit = 958 := by decide
  have hheap : pdx kernelHeapStart = 984 := by decide
  rcases hi with rfl | ⟨hi, -⟩ <;> omega

/-- What the loops of `initialize_environment` leave in the directory. -/
theorem initializeDirectory_run (h : NewPage E s g L p f t) (hs : Layout E s g) (e phys : ℕ) : ∃ pg,
      (initializeDirectory e p phys).run t = .ok ((), (t.setEnv e { t.envs e with
        envPageDirectory := p, envCr3 := phys }).setFrame f pg) ∧
      (∀ i < pdx userTop, wordAt pg i = 0) ∧ ∀ i ∈ kernelTables, wordAt pg i = t.kernelPde i := by
  obtain ⟨hobj, hframe⟩ := h.object
  have hsys := h.system
  set u := t.setEnv e { t.envs e with envPageDirectory := p, envCr3 := phys } with hu
  have hlay (pg : Page) := hframe ▸ hsys.toLayout.setNew hobj (h.new hs) pg
  have hwrite (pg : Page) : (u.setFrame f pg).translate (permPresent ||| permWriteable) p = some f := by
    obtain ⟨hl, hcell⟩ := hlay pg
    have hpte : (t.setFrame f pg).kernelPte p = heapEntry f := by
      rw [← cellWord_page h.heap.shared g, hcell, h.cell, Function.update_self]
    have hneed : HasPerm (permPresent ||| permWriteable) (permPresent ||| permWriteable) := by decide
    have htrans := hl.translate_shared h.heap.shared hneed (hpte ▸ HasPerm.or_left (by decide))
    rw [hpte] at htrans
    exact htrans.trans (congrArg some (frameNumber_constructEntry (by decide)))
  have hset (i w : ℕ) (pg : Page) : (writeEntry p i w).run (u.setFrame f pg) =
      .ok ((), u.setFrame f (setWord pg i w)) := by
    rw [writeEntry_run (hwrite pg)]
    simp only [setEntry, setFrame, Function.update_self, Function.update_idem]
  have hdir : t.kernelDir ≠ f := fun he => hsys.reserved.1 (he ▸ hframe ▸ hobj.managed)
  have hcopy (i : ℕ) (_ : i < 1024) (pg : Page) : (copyKernelEntry p i).run (u.setFrame f pg) =
      .ok ((), u.setFrame f (setWord pg i (t.kernelPde i))) := by
    have hread : (u.setFrame f pg).translate permPresent t.ptrPageDirectory = some t.kernelDir :=
      (hlay pg).1.tables.translate_dir (by decide)
    have hget : (readEntry t.ptrPageDirectory i).run (u.setFrame f pg) = .ok (t.kernelPde i, u.setFrame f pg) := by
      rw [readEntry_run hread, setFrame_ram_of_ne hdir]
      rfl
    rw [copyKernelEntry, run_bind_ok run_get]
    exact (run_bind_ok hget).trans (hset i _ pg)
  have htop : pdx userTop = 955 := by decide
  have hu0 : u.setFrame f (u.ram f) = u := by rw [setFrame, Function.update_eq_self]
  obtain ⟨pg₁, hrun₁, hword₁⟩ := fillWords_run (w := fun _ => 0) (k := 0) (n := pdx userTop)
    (fun i _ => hset i 0) (fun _ => by decide) (by omega) (u.ram f)
  rw [hu0] at hrun₁
  obtain ⟨pg₂, hrun₂, hword₂⟩ := fillWords_run (k := pdx userTop) (n := 1024 - pdx userTop) hcopy
    (fun _ => wordAt_lt _ _) (by omega) pg₁
  have hvpt : pdx vpt = 959 := by decide
  have huvpt : pdx uvpt = 957 := by decide
  set w₁ := constructEntry phys (permPresent ||| permWriteable)
  set w₂ := constructEntry phys (permPresent ||| permUser)
  refine ⟨setWord (setWord pg₂ (pdx vpt) w₁) (pdx uvpt) w₂, ?_, fun i hi => ?_, fun i hi => ?_⟩
  · rw [initializeDirectory, run_bind_ok (run_modify _), ← hu, run_bind_ok hrun₁, run_bind_ok hrun₂,
      run_bind_ok (hset _ _ _), hset]
  · rw [wordAt_setWord_of_ne (by omega) (by omega), wordAt_setWord_of_ne (by omega) (by omega),
      hword₂ i (by omega), if_neg (by omega), hword₁ i (by omega), if_pos (by omega)]
  · obtain ⟨hge, hlt, hv, huv⟩ := kernelIndices hi
    rw [wordAt_setWord_of_ne hlt huv, wordAt_setWord_of_ne hlt hv, hword₂ i hlt, if_pos (by omega)]

/-- The environment has a directory, and nothing else changed. -/
structure NewDirectory (E : Finset ℕ) (s : Machine) (g : Obj → ℕ) (L : Set ℕ) (e p : ℕ) (t : Machine) : Prop where
  ne : p ≠ 0
  system : System E t (Function.update g (.root (.user e)) p) L
  spent : Spent s t 1 1

theorem System.createDirectory (h : System E s g L) (he : e ∈ E) (h0 : g (.root (.user e)) = 0) :
    Sat (Short s 1 1) (Machine.createDirectory e) s fun _ t => ∃ p, NewDirectory E s g L e p t := by
  rw [Machine.createDirectory, createUserDirectory]
  simp only [bind_assoc]
  refine ((h.kmalloc_page _).weaken fun _ he => .inl he).bind ?_
  rintro p t (⟨f, hnew⟩ | ⟨hroom, rfl, rfl⟩)
  · obtain ⟨hobj, hframe⟩ := hnew.object
    have hsys := hnew.system
    have hpte : frameNumber (t.kernelPte p) = f := by
      rw [← hsys.pageFrame_heap hnew.heap, hframe]
    have hlt : f < 2 ^ 20 := hframe ▸ (hsys.managed_lt hobj.managed).trans_le hsys.tables.frames
    have hphys := (hsys.tables.mono heapTables_subset).kheapPhysicalAddress_run hnew.heap (hpte ▸ hlt)
    rw [hpte] at hphys
    obtain ⟨pg, hrun, huser, hkernel⟩ := initializeDirectory_run hnew h.toLayout e (toPhysicalAddress f)
    rw [if_neg hobj.ne_zero, pure_bind]
    refine .bind_ok hphys (.of_ok hrun ⟨p, hobj.ne_zero, ?_, ⟨hnew.spent.frames, hnew.spent.room⟩⟩)
    set u := (t.setEnv e { t.envs e with envPageDirectory := p, envCr3 := toPhysicalAddress f }).setFrame f pg
    set g' := Function.update g (.root (.user e)) p with hg'
    have hself : g' (.root (.user e)) = p := Function.update_self ..
    have hroot {o : Obj} (ho : o ≠ .root (.user e)) : g' o = g o := Function.update_of_ne ho ..
    have henv {e' : ℕ} (hne : e' ≠ e) : u.envs e' = t.envs e' := Function.update_of_ne hne ..
    have henv_self : u.envs e = { t.envs e with envPageDirectory := p, envCr3 := toPhysicalAddress f } :=
      Function.update_self ..
    have hst : SameBoot t u := ⟨rfl, rfl, rfl, rfl⟩
    have hroots (e' : ℕ) : (u.envs e').envPageDirectory = g' (.root (.user e')) ∧
        (u.envs e').diskEnvPgdir = g' (.root (.disk e')) := by
      have hdisk : g' (.root (.disk e')) = g (.root (.disk e')) := hroot (by simp)
      by_cases hne : e' = e
      · subst hne
        rw [henv_self, hdisk]
        exact ⟨hself.symm, (hsys.roots e').2⟩
      · rw [henv hne, hdisk, hroot (by simpa using hne)]
        exact hsys.roots e'
    have hcr3 (e' : ℕ) (he' : g' (.root (.user e')) ≠ 0) :
        (u.envs e').envCr3 = toPhysicalAddress (t.pageFrame (g' (.root (.user e')))) := by
      by_cases hne : e' = e
      · subst hne
        rw [henv_self, hself, hframe]
      · rw [hroot (by simpa using hne)] at he' ⊢
        rw [henv hne]
        exact hsys.envCr3 e' he'
    have huserE (e' : ℕ) (he' : Tree.user e = .user e') : e' ∈ E ∧ ∀ i ∈ kernelTables, wordAt pg i = t.kernelPde i :=
      ⟨Tree.user.inj he' ▸ he, hkernel⟩
    obtain ⟨hlay, -, hother⟩ := hsys.toLayout.attach_root hobj (hnew.new h.toLayout) h0 huser huserE hst
      (fun _ => rfl) hroots hcr3 (by rw [hframe]; rfl)
    have hslot (x : Cell) (hx : x ∈ slots E) : u.cellWord g' x = t.cellWord g x :=
      hother x fun j _ => root_ne_of_slot hx _ _
    obtain ⟨hcore, hapart⟩ := hsys.toCore.attach hsys.apart hst hlay hslot rfl rfl
    exact hsys.of_core hcore hapart rfl (fun q hq => hslot _ (page_mem_slots.mpr hq.shared)) rfl
      fun _ _ _ _ => rfl
  · exact .of_error (if_pos rfl ▸ rfl) (.inr ⟨rfl, hroom⟩)

theorem NewDirectory.exists_of_room (h : System E s g L) (he : e ∈ E) (h0 : g (.root (.user e)) = 0)
    (hfree : 1 ≤ s.freeFrameList.length) (hroom : Room s 1) :
    ∃ p t, (Machine.createDirectory e).run s = .ok ((), t) ∧ NewDirectory E s g L e p t := by
  have hsat : Sat (fun _ => False) _ s _ := (h.createDirectory he h0).weaken fun _ hx => by
    rcases hx with ⟨-, hlt⟩ | ⟨-, hno⟩
    · omega
    · exact hno hroom
  obtain ⟨_, t, hrun, p, hp⟩ := hsat.exists_ok
  exact ⟨p, t, hrun, hp⟩

theorem bootMachine_user (hi : i < pdx userTop) : bootMachine.kernelPde i = 0 := by
  have htop : pdx userTop = 955 := by decide
  have hvpt : pdx vpt = 959 := by decide
  have hlim : pdx userLimit = 958 := by decide
  have huvpt : pdx uvpt = 957 := by decide
  rw [bootMachine_kernelPde (by omega), bootDirectory, if_neg (by omega), if_neg (by omega), if_neg (by omega),
    if_neg (by omega), if_neg (by omega)]

theorem exists_twoDirectories : ∃ s g, System {0, 1} s g ∅ ∧ g (.root (.user 0)) ≠ 0 ∧ g (.root (.user 1)) ≠ 0 ∧
    (∀ i, g (.root (.storage i)) = 0) ∧ (∀ τ i, g (.leaf τ i) = 0) ∧ 100 ≤ s.freeFrameList.length ∧ Room s 100 := by
  obtain ⟨t, -, hp⟩ := bootMachine_boot.initializePaging_run
  have hlen := hp.frames_bootMachine
  have hnodes : kernelNodesSize / pageSize = 160 := by decide
  obtain ⟨s, -, hsys, hroom, hfree, -⟩ := hp.system bootMachine_boot (fun _ => bootMachine_user) (by omega) {0, 1}
  have hlen' : 800 ≤ s.freeFrameList.length := by
    rw [hfree, List.length_drop, hnodes]
    omega
  obtain ⟨p, u, -, hu⟩ := NewDirectory.exists_of_room (e := 0) hsys (by simp) rfl (by omega) (hroom.mono (by omega))
  have huroom : Room u 200 := hu.spent.room 200 (hroom.mono (by omega))
  have hulen := hu.spent.frames
  obtain ⟨q, v, -, hv⟩ := NewDirectory.exists_of_room (e := 1) hu.system (by simp)
    (Function.update_of_ne (by simp) ..) (by omega) (huroom.mono (by omega))
  have hvlen := hv.spent.frames
  refine ⟨v, _, hv.system, ?_, ?_, fun i => ?_, fun τ i => ?_, by omega, hv.spent.room 100 (huroom.mono (by omega))⟩
  · rw [Function.update_of_ne (by simp), Function.update_self]
    exact hu.ne
  · rw [Function.update_self]
    exact hv.ne
  · rw [Function.update_of_ne (by simp), Function.update_of_ne (by simp)]
    rfl
  · rw [Function.update_of_ne (by simp), Function.update_of_ne (by simp)]
    rfl

end FosKernel.Machine
