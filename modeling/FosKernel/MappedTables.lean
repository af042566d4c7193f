import FosKernel.MemoryManager

/-!
# Mapping and unmapping through a table that exists

`HasTable` says that `get_page_table` finds a table and that its pointer reaches a
frame. Under it the functions on page-table entries are equations.
-/

namespace FosKernel.Machine
open FailingPrograms PageEntries

variable {s t : Machine} {dir va pt f g j p w perm need set clear : ℕ}

def setEntry (s : Machine) (f j w : ℕ) : Machine := s.setFrame f (setWord (s.ram f) j w)

def addReference (s : Machine) (f : ℕ) : Machine :=
  s.setInfo f ((s.framesInfo f).addReferences 1)

/-- `decrement_references` -/
def dropReference (s : Machine) (f : ℕ) : Machine :=
  if ((s.framesInfo f).addReferences (2 ^ 16 - 1)).references = 0 then
    (s.setInfo f .initial).setFree (f :: s.freeFrameList)
  else s.setInfo f ((s.framesInfo f).addReferences (2 ^ 16 - 1))

@[simp] theorem setFrame_ram_self (s : Machine) (f : ℕ) (p : Page) : (s.setFrame f p).ram f = p :=
  Function.update_self ..

theorem setFrame_ram_of_ne (h : g ≠ f) {p : Page} : (s.setFrame f p).ram g = s.ram g :=
  Function.update_of_ne h ..

@[simp] theorem setFrame_cr3 {p : Page} : (s.setFrame f p).cr3 = s.cr3 := rfl
@[simp] theorem setFrame_numberOfFrames {p : Page} :
    (s.setFrame f p).numberOfFrames = s.numberOfFrames := rfl
@[simp] theorem setFrame_ptrFreeMem {p : Page} : (s.setFrame f p).ptrFreeMem = s.ptrFreeMem := rfl
@[simp] theorem setFrame_ptrPageDirectory {p : Page} :
    (s.setFrame f p).ptrPageDirectory = s.ptrPageDirectory := rfl
@[simp] theorem setFrame_framesInfo {p : Page} : (s.setFrame f p).framesInfo = s.framesInfo := rfl
@[simp] theorem setFrame_freeFrameList {p : Page} :
    (s.setFrame f p).freeFrameList = s.freeFrameList := rfl
@[simp] theorem setFrame_heap {p : Page} : (s.setFrame f p).heap = s.heap := rfl
@[simp] theorem setFrame_strategy {p : Page} :
    (s.setFrame f p).kHeapPlacementStrategy = s.kHeapPlacementStrategy := rfl
@[simp] theorem setFrame_disk {p : Page} : (s.setFrame f p).disk = s.disk := rfl
@[simp] theorem setFrame_diskFreeFrameList {p : Page} :
    (s.setFrame f p).diskFreeFrameList = s.diskFreeFrameList := rfl
@[simp] theorem setFrame_envs {p : Page} : (s.setFrame f p).envs = s.envs := rfl

theorem setInfo_apply (s : Machine) (f f' : ℕ) (i : FrameInfo) :
    (s.setInfo f i).framesInfo f' = if f' = f then i else s.framesInfo f' := Function.update_apply ..

@[simp] theorem setInfo_self (s : Machine) (f : ℕ) (i : FrameInfo) :
    (s.setInfo f i).framesInfo f = i := Function.update_self ..

theorem setInfo_of_ne (h : g ≠ f) {i : FrameInfo} :
    (s.setInfo f i).framesInfo g = s.framesInfo g := Function.update_of_ne h ..

@[simp] theorem setInfo_ram {i : FrameInfo} : (s.setInfo f i).ram = s.ram := rfl
@[simp] theorem setInfo_cr3 {i : FrameInfo} : (s.setInfo f i).cr3 = s.cr3 := rfl
@[simp] theorem setInfo_numberOfFrames {i : FrameInfo} :
    (s.setInfo f i).numberOfFrames = s.numberOfFrames := rfl
@[simp] theorem setInfo_ptrFreeMem {i : FrameInfo} : (s.setInfo f i).ptrFreeMem = s.ptrFreeMem := rfl
@[simp] theorem setInfo_ptrPageDirectory {i : FrameInfo} :
    (s.setInfo f i).ptrPageDirectory = s.ptrPageDirectory := rfl
@[simp] theorem setInfo_freeFrameList {i : FrameInfo} :
    (s.setInfo f i).freeFrameList = s.freeFrameList := rfl
@[simp] theorem setInfo_heap {i : FrameInfo} : (s.setInfo f i).heap = s.heap := rfl
@[simp] theorem setInfo_strategy {i : FrameInfo} :
    (s.setInfo f i).kHeapPlacementStrategy = s.kHeapPlacementStrategy := rfl
@[simp] theorem setInfo_disk {i : FrameInfo} : (s.setInfo f i).disk = s.disk := rfl
@[simp] theorem setInfo_diskFreeFrameList {i : FrameInfo} :
    (s.setInfo f i).diskFreeFrameList = s.diskFreeFrameList := rfl
@[simp] theorem setInfo_envs {i : FrameInfo} : (s.setInfo f i).envs = s.envs := rfl

@[simp] theorem setFree_ram {fs : List ℕ} : (s.setFree fs).ram = s.ram := rfl
@[simp] theorem setFree_framesInfo {fs : List ℕ} : (s.setFree fs).framesInfo = s.framesInfo := rfl
@[simp] theorem setFree_freeFrameList {fs : List ℕ} : (s.setFree fs).freeFrameList = fs := rfl
@[simp] theorem setFree_numberOfFrames {fs : List ℕ} :
    (s.setFree fs).numberOfFrames = s.numberOfFrames := rfl
@[simp] theorem setFree_ptrPageDirectory {fs : List ℕ} :
    (s.setFree fs).ptrPageDirectory = s.ptrPageDirectory := rfl

/-- Everything but memory, frame records and free list. -/
structure SameGlobals (s t : Machine) : Prop where
  cr3 : t.cr3 = s.cr3
  numberOfFrames : t.numberOfFrames = s.numberOfFrames
  ptrFreeMem : t.ptrFreeMem = s.ptrFreeMem
  ptrPageDirectory : t.ptrPageDirectory = s.ptrPageDirectory
  heap : t.heap = s.heap
  strategy : t.kHeapPlacementStrategy = s.kHeapPlacementStrategy
  disk : t.disk = s.disk
  diskFreeFrameList : t.diskFreeFrameList = s.diskFreeFrameList
  envs : t.envs = s.envs

/-- Everything but the frame records and the free list. -/
structure SameMemory (s t : Machine) : Prop extends SameGlobals s t where
  ram : t.ram = s.ram

theorem SameGlobals.refl (s : Machine) : SameGlobals s s := by constructor <;> rfl

theorem SameGlobals.trans {u : Machine} (h : SameGlobals s t) (h' : SameGlobals t u) :
    SameGlobals s u where
  cr3 := h'.cr3.trans h.cr3
  numberOfFrames := h'.numberOfFrames.trans h.numberOfFrames
  ptrFreeMem := h'.ptrFreeMem.trans h.ptrFreeMem
  ptrPageDirectory := h'.ptrPageDirectory.trans h.ptrPageDirectory
  heap := h'.heap.trans h.heap
  strategy := h'.strategy.trans h.strategy
  disk := h'.disk.trans h.disk
  diskFreeFrameList := h'.diskFreeFrameList.trans h.diskFreeFrameList
  envs := h'.envs.trans h.envs

theorem SameGlobals.setHeap {h h' : DynamicAllocator.State} (hst : SameGlobals (s.setHeap h) t) :
    SameGlobals (s.setHeap h') (t.setHeap h') where
  cr3 := hst.cr3
  numberOfFrames := hst.numberOfFrames
  ptrFreeMem := hst.ptrFreeMem
  ptrPageDirectory := hst.ptrPageDirectory
  heap := rfl
  strategy := hst.strategy
  disk := hst.disk
  diskFreeFrameList := hst.diskFreeFrameList
  envs := hst.envs

theorem sameGlobals_setEntry (s : Machine) (f j w : ℕ) : SameGlobals s (s.setEntry f j w) := by
  constructor <;> rfl

theorem sameMemory_setInfo (s : Machine) (f : ℕ) (i : FrameInfo) : SameMemory s (s.setInfo f i) :=
  ⟨by constructor <;> rfl, rfl⟩

theorem sameMemory_dropReference (s : Machine) (f : ℕ) : SameMemory s (s.dropReference f) := by
  unfold dropReference
  split
  · exact ⟨by constructor <;> rfl, rfl⟩
  · exact sameMemory_setInfo ..

theorem dropReference_info_of_ne (h : g ≠ f) :
    (s.dropReference f).framesInfo g = s.framesInfo g := by
  rw [dropReference]
  split
  · rw [setFree_framesInfo, setInfo_of_ne h]
  · rw [setInfo_of_ne h]

theorem addReferences_references (v : FrameInfo) (n : ℕ) :
    (v.addReferences n).references = (v.references + n) % 2 ^ 16 := rfl

theorem addReferences_isBuffered (v : FrameInfo) (n : ℕ) :
    (v.addReferences n).isBuffered = v.isBuffered := rfl

theorem addReferences_va (v : FrameInfo) (n : ℕ) : (v.addReferences n).va = v.va := rfl

theorem dropReference_of_one (h : (s.framesInfo f).references = 1) :
    s.dropReference f = (s.setInfo f .initial).setFree (f :: s.freeFrameList) := by
  rw [dropReference, if_pos (by simp [addReferences_references, h])]

theorem translate_congr (hcr : t.cr3 = s.cr3) (hfree : t.ptrFreeMem = s.ptrFreeMem)
    (hdir : ¬(kernelBase ≤ p ∧ p < s.ptrFreeMem) →
      t.ram (frameNumber s.cr3) = s.ram (frameNumber s.cr3) ∧
      t.ram (frameNumber (s.pde p)) = s.ram (frameNumber (s.pde p))) :
    t.translate need p = s.translate need p := by
  by_cases h : kernelBase ≤ p ∧ p < s.ptrFreeMem
  · simp [translate, hfree, h]
  · obtain ⟨hd, ht⟩ := hdir h
    have hpde : t.pde p = s.pde p := by rw [pde, hcr, hd, pde]
    have hpte : t.pte p = s.pte p := by rw [pte, hpde, ht, pte]
    simp only [translate, hfree, hpde, hpte]

theorem SameMemory.translate (h : SameMemory s t) (need p : ℕ) :
    t.translate need p = s.translate need p :=
  translate_congr h.cr3 h.ptrFreeMem fun _ => by simp [h.ram]

theorem translate_static (h : kernelBase ≤ p ∧ p < s.ptrFreeMem)
    (hneed : HasPerm (permPresent ||| permWriteable) need) :
    s.translate need p = some (frameNumber (p - kernelBase)) := by
  simp [Machine.translate, h, hneed]

theorem frameAt_run (h : s.translate need p = some f) : (frameAt need p).run s = .ok (f, s) := by
  rw [frameAt, run_bind_ok run_get, h, run_pure]

theorem readEntry_run (h : s.translate permPresent p = some f) :
    (readEntry p j).run s = .ok (wordAt (s.ram f) j, s) := by
  rw [readEntry, run_bind_ok (frameAt_run h), run_bind_ok run_get, run_pure]

theorem writeEntry_run (h : s.translate (permPresent ||| permWriteable) p = some f) :
    (writeEntry p j w).run s = .ok ((), s.setEntry f j w) := by
  rw [writeEntry, run_bind_ok (frameAt_run h), run_modify]
  rfl

theorem clearPage_run (h : s.translate (permPresent ||| permWriteable) p = some f) :
    (clearPage p).run s = .ok ((), s.setFrame f zeroPage) := by
  rw [clearPage, run_bind_ok (frameAt_run h), run_modify]

theorem toFrameInfo_run (h : frameNumber p < s.numberOfFrames) :
    (toFrameInfo p).run s = .ok (frameNumber p, s) := by
  rw [toFrameInfo, run_bind_ok run_get, if_neg (by omega), run_pure]

theorem kheapVirtualAddress_run (h : frameNumber p < s.numberOfFrames) :
    (kheapVirtualAddress p).run s = .ok ((s.framesInfo (frameNumber p)).va, s) := by
  rw [kheapVirtualAddress, run_bind_ok (toFrameInfo_run h), run_bind_ok run_get, run_pure]

theorem staticKernelVirtualAddress_run (h : frameNumber p < s.numberOfFrames) :
    (staticKernelVirtualAddress p).run s = .ok (u32 (p + kernelBase), s) := by
  rw [staticKernelVirtualAddress, run_bind_ok run_get, if_neg (by omega), run_pure]

theorem decrementReferences_run : (decrementReferences f).run s = .ok ((), s.dropReference f) := by
  rw [decrementReferences, run_bind_ok (run_modify _), run_bind_ok run_get, setInfo_self,
    dropReference]
  split
  · rw [freeFrame, initializeFrameInfo, run_bind_ok (run_modify _), run_modify]
    simp only [setInfo, Function.update_idem]
  · rw [run_pure]

theorem incrementReferences_run :
    (incrementReferences f).run s = .ok ((), s.addReference f) := rfl

theorem allocateFrame_run {fs : List ℕ} (h : s.freeFrameList = f :: fs)
    (hb : (s.framesInfo f).isBuffered = false) :
    allocateFrame.run s = .ok (f, (s.setFree fs).setInfo f .initial) := by
  rw [allocateFrame, run_bind_ok run_get, h]
  simp only [hb, Bool.false_eq_true, ↓reduceIte]
  rfl

theorem allocateFrame_nil (h : s.freeFrameList = []) :
    allocateFrame.run s = .error .noFreeFrame := by
  rw [allocateFrame, run_bind_ok run_get, h]
  rfl

/-- `get_page_table` returns `pt`, which reaches the frame `f` and goes on reaching
it while the words of that frame change. -/
structure HasTable (s : Machine) (dir va pt f : ℕ) : Prop where
  get : (getPageTable dir va).run s = .ok (some pt, s)
  ne : pt ≠ 0
  read : s.translate permPresent pt = some f
  write : s.translate (permPresent ||| permWriteable) pt = some f
  stable : ¬(kernelBase ≤ pt ∧ pt < s.ptrFreeMem) →
    f ≠ frameNumber s.cr3 ∧ f ≠ frameNumber (s.pde pt)

namespace HasTable

variable (h : HasTable s dir va pt f)
include h

theorem translate_setEntry (hst : SameMemory s t) :
    (t.setEntry f j w).translate need pt = s.translate need pt := by
  apply translate_congr (t := t.setEntry f j w) hst.cr3 hst.ptrFreeMem
  intro hpt
  obtain ⟨hcr, hpde⟩ := h.stable hpt
  simp [setEntry, setFrame_ram_of_ne hcr.symm, setFrame_ram_of_ne hpde.symm, hst.ram]

theorem getFrameInfo_zero (hw : wordAt (s.ram f) (ptx va) = 0) :
    (getFrameInfo dir va).run s = .ok ((none, pt), s) := by
  rw [getFrameInfo, run_bind_ok h.get]
  simp only [Option.getD_some, if_pos h.ne]
  rw [run_bind_ok (readEntry_run h.read), if_neg (by simpa using hw), run_pure]

theorem getFrameInfo_some (hw : wordAt (s.ram f) (ptx va) ≠ 0)
    (hlt : frameNumber (wordAt (s.ram f) (ptx va)) < s.numberOfFrames) :
    (getFrameInfo dir va).run s =
      .ok ((some (frameNumber (wordAt (s.ram f) (ptx va))), pt), s) := by
  have hinfo := toFrameInfo_run (p := extractAddress (wordAt (s.ram f) (ptx va)))
    (by rwa [frameNumber_extractAddress])
  rw [frameNumber_extractAddress] at hinfo
  rw [getFrameInfo, run_bind_ok h.get]
  simp only [Option.getD_some, if_pos h.ne]
  rw [run_bind_ok (readEntry_run h.read), if_pos hw, run_bind_ok hinfo, run_pure]

theorem isMapped_run (hlt : wordAt (s.ram f) (ptx va) ≠ 0 →
      frameNumber (wordAt (s.ram f) (ptx va)) < s.numberOfFrames) :
    (isMapped dir va).run s = .ok (decide (wordAt (s.ram f) (ptx va) ≠ 0), s) := by
  by_cases hw : wordAt (s.ram f) (ptx va) = 0
  · rw [isMapped, run_bind_ok (h.getFrameInfo_zero hw), run_pure]
    simp [hw]
  · rw [isMapped, run_bind_ok (h.getFrameInfo_some hw (hlt hw)), run_pure]
    simp [hw]

theorem ptGetPagePermissions_run :
    (ptGetPagePermissions dir va).run s = .ok (some (wordAt (s.ram f) (ptx va) % 4096), s) := by
  rw [ptGetPagePermissions, run_bind_ok h.get]
  simp only
  rw [run_bind_ok (readEntry_run h.read), run_pure]

theorem ptSetPagePermissions_clear (hc : clear ≠ 0) :
    (ptSetPagePermissions dir va 0 clear).run s =
      .ok ((), s.setEntry f (ptx va) (clearPerm (wordAt (s.ram f) (ptx va)) clear)) := by
  rw [ptSetPagePermissions, run_bind_ok h.get]
  simp only [Option.getD_some, if_pos h.ne]
  rw [if_neg (by simp), if_pos ⟨hc, trivial⟩, run_bind_ok (readEntry_run h.read),
    writeEntry_run h.write]

theorem virtualToPhysical_run :
    (virtualToPhysical dir va).run s =
      .ok (u32 (frameNumber (wordAt (s.ram f) (ptx va)) * pageSize), s) := by
  rw [virtualToPhysical, run_bind_ok h.get]
  simp only
  rw [run_bind_ok (readEntry_run h.read), run_pure]

theorem unmapFrame_zero (hw : wordAt (s.ram f) (ptx va) = 0) :
    (unmapFrame dir va).run s = .ok ((), s) := by
  rw [unmapFrame, run_bind_ok (h.getFrameInfo_zero hw)]
  rfl

theorem unmapFrame_run (hw : wordAt (s.ram f) (ptx va) ≠ 0)
    (hlt : frameNumber (wordAt (s.ram f) (ptx va)) < s.numberOfFrames) :
    (unmapFrame dir va).run s =
      .ok ((), (s.dropReference (frameNumber (wordAt (s.ram f) (ptx va)))).setEntry f (ptx va) 0) := by
  rw [unmapFrame, run_bind_ok (h.getFrameInfo_some hw hlt)]
  simp only
  rw [run_bind_ok decrementReferences_run, writeEntry_run]
  rw [(sameMemory_dropReference s _).translate, h.write]

variable {cpt : ℕ → ℕ → Kernel ℕ}

theorem mapFrame_unmapped (hw : ¬HasPerm (wordAt (s.ram f) (ptx va)) permPresent) :
    (mapFrame cpt dir g va perm).run s = .ok (0, (s.addReference g).setEntry f (ptx va)
      (constructEntry (toPhysicalAddress g) (perm ||| permPresent))) := by
  rw [mapFrame, run_bind_ok h.get]
  simp only [pure_bind]
  rw [run_bind_ok (readEntry_run h.read), if_neg hw, run_bind_ok incrementReferences_run,
    run_bind_ok (writeEntry_run (f := f) _), run_pure]
  rw [addReference, (sameMemory_setInfo s g _).translate, h.write]

theorem mapFrame_same (hw : HasPerm (wordAt (s.ram f) (ptx va)) permPresent)
    (hsame : frameNumber (wordAt (s.ram f) (ptx va)) = g) :
    (mapFrame cpt dir g va perm).run s = .ok (0, s) := by
  rw [mapFrame, run_bind_ok h.get]
  simp only [pure_bind]
  rw [run_bind_ok (readEntry_run h.read), if_pos hw, if_pos, run_pure]
  rw [extractAddress_eq, hsame]
  rfl

theorem mapFrame_other (hw : HasPerm (wordAt (s.ram f) (ptx va)) permPresent)
    (hlt : frameNumber (wordAt (s.ram f) (ptx va)) < s.numberOfFrames)
    (hne : frameNumber (wordAt (s.ram f) (ptx va)) ≠ g) :
    (mapFrame cpt dir g va perm).run s =
      .ok (0, ((((s.dropReference (frameNumber (wordAt (s.ram f) (ptx va)))).setEntry f (ptx va) 0)
        |>.addReference g).setEntry f (ptx va)
          (constructEntry (toPhysicalAddress g) (perm ||| permPresent)))) := by
  have hw0 := ne_zero_of_hasPerm_present hw
  rw [mapFrame, run_bind_ok h.get]
  simp only [pure_bind]
  rw [run_bind_ok (readEntry_run h.read), if_pos hw, if_neg, run_bind_ok (h.unmapFrame_run hw0 hlt),
    run_bind_ok incrementReferences_run, run_bind_ok (writeEntry_run (f := f) _), run_pure]
  · rw [addReference, (sameMemory_setInfo _ g _).translate,
      h.translate_setEntry (sameMemory_dropReference s _), h.write]
  · rw [extractAddress_eq, toPhysicalAddress, pageSize]
    omega

end HasTable

end FosKernel.Machine
