import FosKernel.DynamicAllocatorRuns
import FosKernel.KernelTables

/-!
# From boot to a running memory manager

`initialize_kernel_VM` leaves the kernel's tables, `initialize_paging` sorts the
frames into used and free ones and fills the page file's free list, and
`initialize_dyn_block_system` maps the node array.
-/

namespace FosKernel.Machine
open FailingPrograms PageEntries DynamicAllocator

variable {s t : Machine} {f lo n : ℕ}

def ptrZeroPage : ℕ := kernelBase + pageSize
def ptrTempPage : ℕ := kernelBase + 2 * pageSize

/-- Clears the first 1024 bytes, as the loop of `initialize_paging` does. -/
def clearBytes (p : ℕ) : Kernel Unit := do
  let f ← frameAt (permPresent ||| permWriteable) p
  modify fun s => s.setFrame f fun o => if o.val < 1024 then 0 else s.ram f o

def useFrame (s : Machine) (f : ℕ) : Machine :=
  s.setInfo f { s.framesInfo f with references := 1 }

/-- `frames_info[i].references = 1` -/
def markUsed (f : ℕ) : Kernel Unit := modify (·.useFrame f)

/-- One round of the loop of `initialize_disk_page_file`. -/
def insertDiskFrame (dfn : ℕ) : Kernel Unit :=
  modify fun s => { s with diskFreeFrameList := dfn :: s.diskFreeFrameList }

def initializeDiskPageFile : Kernel Unit := do
  modify fun s => { s with diskFreeFrameList := [] }
  forRange insertDiskFrame 1 (pagesPerFile - 1)

/-- `STATIC_KERNEL_PHYSICAL_ADDRESS` -/
def staticKernelPhysicalAddress (kva : ℕ) : Kernel ℕ := do
  if kva < kernelBase then throw .invalidVA
  return kva - kernelBase

/-- The first frame that boot time allocation did not reach. -/
def endOfBoot (s : Machine) : ℕ := roundUp (s.ptrFreeMem - kernelBase) pageSize / pageSize

def initializePaging : Kernel Unit := do
  modify (·.setFree [])
  markUsed 0
  markUsed 1
  markUsed 2
  clearBytes ptrZeroPage
  clearBytes ptrTempPage
  forRange freeFrame 3 (roundUp physIOMem pageSize / pageSize - 3)
  forRange markUsed (physIOMem / pageSize) (physExtendedMem / pageSize - physIOMem / pageSize)
  let e := roundUp (← staticKernelPhysicalAddress (← get).ptrFreeMem) pageSize / pageSize
  forRange markUsed (physExtendedMem / pageSize) (e - physExtendedMem / pageSize)
  forRange freeFrame e ((← get).numberOfFrames - e)
  initializeDiskPageFile

/-- The frames that `initialize_paging` frees. -/
def Managed (s : Machine) (f : ℕ) : Prop :=
  3 ≤ f ∧ f < physIOMem / pageSize ∨ s.endOfBoot ≤ f ∧ f < s.numberOfFrames

instance (s : Machine) (f : ℕ) : Decidable (s.Managed f) := inferInstanceAs (Decidable (_ ∨ _))

/-- The tables of the kernel that the memory manager goes through: the one of
`USER_LIMIT` and those of the kernel heap. -/
def kernelTables : Set ℕ := insert (pdx userLimit) heapTables

/-- What `initialize_kernel_VM` leaves. -/
structure Boot (s : Machine) : Prop where
  tables : KernelTables s kernelTables
  reserved : physExtendedMem / pageSize ≤ s.kernelDir ∧
    ∀ i ∈ kernelTables, physExtendedMem / pageSize ≤ s.kernelTable i
  entries : ∀ p, HeapPage p → s.kernelPte p = 0
  limit : s.kernelPte userLimit = 0
  extended : physExtendedMem / pageSize ≤ s.endOfBoot ∧ s.endOfBoot ≤ s.numberOfFrames
  loaded : s.cr3 = s.ptrPageDirectory - kernelBase
  aligned : pageSize ∣ s.ptrPageDirectory
  infos : ∀ f, s.framesInfo f = .initial
  envs : ∀ e, (s.envs e).envPageDirectory = 0 ∧ (s.envs e).diskEnvPgdir = 0
  strategy : s.kHeapPlacementStrategy = .firstFit ∨ s.kHeapPlacementStrategy = .bestFit

/-- The kernel uses nothing of the page at `ptr_zero_page` when it boots. -/
theorem Boot.setFrame_one (hb : Boot s) (q : Page) : Boot (s.setFrame 1 q) := by
  have hext : 1 < physExtendedMem / pageSize := by decide
  have hram {f : ℕ} (hf : physExtendedMem / pageSize ≤ f) : (s.setFrame 1 q).ram f = s.ram f :=
    setFrame_ram_of_ne (hext.trans_le hf).ne'
  have hdir := hram hb.reserved.1
  have htab : (s.setFrame 1 q).kernelTable = s.kernelTable := kernelTable_congr rfl hdir
  have hpte {va : ℕ} (hva : pdx va ∈ kernelTables) : (s.setFrame 1 q).kernelPte va = s.kernelPte va :=
    kernelPte_congr rfl hdir (hram (hb.reserved.2 _ hva))
  refine ⟨hb.tables.congr rfl rfl rfl hdir, ⟨hb.reserved.1, fun i hi => ?_⟩, fun p hp => ?_, ?_, hb.extended,
    hb.loaded, hb.aligned, hb.infos, hb.envs, hb.strategy⟩
  · rw [htab]
    exact hb.reserved.2 i hi
  · rw [hpte (.inr hp.index)]
    exact hb.entries p hp
  · rw [hpte (.inl rfl)]
    exact hb.limit

theorem freeFrames_run (s : Machine) (lo n : ℕ) :
    ∃ t, (forRange freeFrame lo n).run s = .ok ((), t) ∧ SameMemory s t ∧
      t.freeFrameList = (List.range' lo n).reverse ++ s.freeFrameList ∧
      ∀ f, t.framesInfo f = if lo ≤ f ∧ f < lo + n then .initial else s.framesInfo f := by
  induction n generalizing lo s with
  | zero => exact ⟨s, rfl, ⟨.refl s, rfl⟩, rfl, fun f => by rw [if_neg (by omega)]⟩
  | succ n ih =>
    set u := (s.setInfo lo .initial).setFree (lo :: s.freeFrameList)
    have hu : (freeFrame lo).run s = .ok ((), u) := rfl
    obtain ⟨t, hrun, hst, hfr, hinfo⟩ := ih u (lo + 1)
    refine ⟨t, by rw [forRange_succ, run_bind_ok hu, hrun], ⟨.trans (by constructor <;> rfl) hst.1, hst.ram⟩, ?_,
      fun f => ?_⟩
    · rw [hfr, List.range'_succ]
      simp [u]
    · rw [hinfo f]
      by_cases hf : f = lo
      · subst hf
        rw [if_neg (by omega), if_pos (by omega)]
        exact setInfo_self ..
      · have : u.framesInfo f = s.framesInfo f := setInfo_of_ne hf
        rw [this]
        congr 1
        apply propext
        omega

theorem markUsed_loop_run (s : Machine) (lo n : ℕ) :
    ∃ t, (forRange markUsed lo n).run s = .ok ((), t) ∧ SameMemory s t ∧
      t.freeFrameList = s.freeFrameList ∧
      ∀ f, t.framesInfo f =
        if lo ≤ f ∧ f < lo + n then { s.framesInfo f with references := 1 } else s.framesInfo f := by
  induction n generalizing lo s with
  | zero => exact ⟨s, rfl, ⟨.refl s, rfl⟩, rfl, fun f => by rw [if_neg (by omega)]⟩
  | succ n ih =>
    obtain ⟨t, hrun, hst, hfr, hinfo⟩ := ih (s.useFrame lo) (lo + 1)
    refine ⟨t, by rw [forRange_succ, markUsed, run_bind_ok (run_modify _), hrun],
      ⟨.trans (by constructor <;> rfl) hst.1, hst.ram⟩, hfr, fun f => ?_⟩
    rw [hinfo f]
    by_cases hf : f = lo
    · subst hf
      rw [if_neg (by omega), if_pos (by omega)]
      exact setInfo_self ..
    · have : (s.useFrame lo).framesInfo f = s.framesInfo f := setInfo_of_ne hf
      rw [this]
      congr 1
      apply propext
      omega

theorem insertDiskFrames_run (s : Machine) (lo n : ℕ) :
    (forRange insertDiskFrame lo n).run s =
      .ok ((), { s with diskFreeFrameList := (List.range' lo n).reverse ++ s.diskFreeFrameList }) := by
  induction n generalizing lo s with
  | zero => rfl
  | succ n ih =>
    have hu : (insertDiskFrame lo).run s =
      .ok ((), { s with diskFreeFrameList := lo :: s.diskFreeFrameList }) := rfl
    rw [forRange_succ, run_bind_ok hu, ih, List.range'_succ]
    simp

/-- The frames are sorted into free ones and used ones. -/
structure Tiled (s t : Machine) : Prop where
  nodup : t.freeFrameList.Nodup
  mem_free : ∀ f, f ∈ t.freeFrameList ↔ s.Managed f
  infos : ∀ f, t.framesInfo f = if s.Managed f then .initial
    else if f < 3 ∨ physIOMem / pageSize ≤ f ∧ f < s.endOfBoot then { s.framesInfo f with references := 1 }
    else s.framesInfo f
  ram : ∀ f, f ≠ 1 → f ≠ 2 → t.ram f = s.ram f
  ram_one : t.ram 1 = fun o => if o.val < 1024 then 0 else s.ram 1 o
  diskFree : t.diskFreeFrameList = (List.range' 1 (pagesPerFile - 1)).reverse
  globals : SameGlobals { s with diskFreeFrameList := t.diskFreeFrameList } t

/-- The machine after `initialize_paging`, started in `s`. -/
structure Paged (s t : Machine) : Prop where
  nodup : t.freeFrameList.Nodup
  mem_free : ∀ f, f ∈ t.freeFrameList ↔ s.Managed f
  managed : ∀ f, s.Managed f → t.framesInfo f = .initial
  isBuffered : ∀ f, (t.framesInfo f).isBuffered = false
  ram : ∀ f, f ≠ 1 → f ≠ 2 → t.ram f = s.ram f
  diskFree : t.diskFreeFrameList = (List.range' 1 (pagesPerFile - 1)).reverse
  globals : SameGlobals { s with diskFreeFrameList := t.diskFreeFrameList } t

theorem clearBytes_run {p : ℕ} (h : s.translate (permPresent ||| permWriteable) p = some f) :
    (clearBytes p).run s =
      .ok ((), s.setFrame f fun o => if o.val < 1024 then 0 else s.ram f o) := by
  rw [clearBytes, run_bind_ok (frameAt_run h), run_modify]

theorem useFrame_framesInfo (s : Machine) (f g : ℕ) : (s.useFrame g).framesInfo f =
    if f = g then { s.framesInfo f with references := 1 } else s.framesInfo f := by
  refine (setInfo_apply ..).trans ?_
  by_cases hfg : f = g
  · rw [if_pos hfg, if_pos hfg, hfg]
  · rw [if_neg hfg, if_neg hfg]

theorem Boot.static_lt (hb : Boot s) : kernelBase + physExtendedMem < s.ptrFreeMem + pageSize := by
  have h := hb.extended.1
  have hfree := hb.tables.free_le
  have hlt := hb.tables.lt_free
  have hbase := hb.tables.base
  rw [endOfBoot, roundUp, u32_of_lt, roundDown] at h
  · simp only [physExtendedMem, pageSize, kernelBase, kernelHeapStart] at *
    omega
  · simp only [pageSize, kernelBase, kernelHeapStart] at *
    omega

theorem initializePaging_tiles (hstatic : kernelBase + pageSize * 3 ≤ s.ptrFreeMem)
    (hend : physExtendedMem / pageSize ≤ s.endOfBoot) (hle : s.endOfBoot ≤ s.numberOfFrames) :
    ∃ t, initializePaging.run s = .ok ((), t) ∧ Tiled s t := by
  have htrans (u : Machine) (hu : u.ptrFreeMem = s.ptrFreeMem) (k : ℕ) (hk : k < 3) :
      u.translate (permPresent ||| permWriteable) (kernelBase + pageSize * k) = some k := by
    rw [translate_static ⟨Nat.le_add_right _ _, ?_⟩ (by decide), Nat.add_sub_cancel_left]
    · simp [frameNumber, pageSize]
    · rw [hu]
      simp only [pageSize] at *
      omega
  have hio : roundUp physIOMem pageSize / pageSize = 160 := by decide
  have hio' : physIOMem / pageSize = 160 := by decide
  have hext : physExtendedMem / pageSize = 256 := by decide
  rw [hext] at hend
  set s₁ := (((s.setFree []).useFrame 0).useFrame 1).useFrame 2
  have h₁ : s₁.ram = s.ram := rfl
  have hinfo₁ (f : ℕ) : s₁.framesInfo f =
      if f < 3 then { s.framesInfo f with references := 1 } else s.framesInfo f := by
    rw [useFrame_framesInfo, useFrame_framesInfo, useFrame_framesInfo]
    rcases (by omega : f = 0 ∨ f = 1 ∨ f = 2 ∨ 3 ≤ f) with rfl | rfl | rfl | hf
    · rfl
    · rfl
    · rfl
    · rw [if_neg (by omega), if_neg (by omega), if_neg (by omega), if_neg (by omega)]
      rfl
  set s₂ := s₁.setFrame 1 fun o => if o.val < 1024 then 0 else s₁.ram 1 o
  have hc₁ : (clearBytes ptrZeroPage).run s₁ = .ok ((), s₂) := by
    rw [show ptrZeroPage = kernelBase + pageSize * 1 by decide]
    exact clearBytes_run (htrans s₁ rfl 1 (by decide))
  set s₃ := s₂.setFrame 2 fun o => if o.val < 1024 then 0 else s₂.ram 2 o
  have hc₂ : (clearBytes ptrTempPage).run s₂ = .ok ((), s₃) := by
    rw [show ptrTempPage = kernelBase + pageSize * 2 by decide]
    exact clearBytes_run (htrans s₂ rfl 2 (by decide))
  have hram₃ (f : ℕ) (h : f ≠ 1) (h' : f ≠ 2) : s₃.ram f = s.ram f :=
    (setFrame_ram_of_ne h').trans (setFrame_ram_of_ne h)
  obtain ⟨s₄, hr₄, hm₄, hf₄, hi₄⟩ := freeFrames_run s₃ 3 157
  obtain ⟨s₅, hr₅, hm₅, hf₅, hi₅⟩ := markUsed_loop_run s₄ 160 96
  have hptr₅ : s₅.ptrFreeMem = s.ptrFreeMem := by
    rw [hm₅.ptrFreeMem, hm₄.ptrFreeMem]
    rfl
  have hpa : (staticKernelPhysicalAddress s₅.ptrFreeMem).run s₅ = .ok (s.ptrFreeMem - kernelBase, s₅) := by
    rw [staticKernelPhysicalAddress, hptr₅, if_neg (by omega)]
    rfl
  have he₅ : roundUp (s.ptrFreeMem - kernelBase) pageSize / pageSize = s.endOfBoot := rfl
  obtain ⟨s₆, hr₆, hm₆, hf₆, hi₆⟩ := markUsed_loop_run s₅ 256 (s.endOfBoot - 256)
  have hn₆ : s₆.numberOfFrames = s.numberOfFrames := by
    rw [hm₆.numberOfFrames, hm₅.numberOfFrames, hm₄.numberOfFrames]
    rfl
  obtain ⟨s₇, hr₇, hm₇, hf₇, hi₇⟩ := freeFrames_run s₆ s.endOfBoot (s.numberOfFrames - s.endOfBoot)
  obtain ⟨dfns, hdfns⟩ : ∃ dfns, dfns = (List.range' 1 (pagesPerFile - 1)).reverse := ⟨_, rfl⟩
  set t := { s₇ with diskFreeFrameList := dfns }
  have hdisk : initializeDiskPageFile.run s₇ = .ok ((), t) := by
    rw [initializeDiskPageFile, run_bind_ok (run_modify _), insertDiskFrames_run, ← hdfns,
      List.append_nil]
  have hfree : t.freeFrameList =
      (List.range' s.endOfBoot (s.numberOfFrames - s.endOfBoot)).reverse ++ (List.range' 3 157).reverse := by
    rw [show t.freeFrameList = s₇.freeFrameList from rfl, hf₇, hf₆, hf₅, hf₄,
      show s₃.freeFrameList = [] from rfl, List.append_nil]
  have hmem (f : ℕ) : f ∈ t.freeFrameList ↔ s.Managed f := by
    rw [hfree, Managed, hio']
    simp only [List.mem_append, List.mem_reverse, List.mem_range'_1]
    omega
  have hram : t.ram = s₃.ram := by
    rw [show t.ram = s₇.ram from rfl, hm₇.ram, hm₆.ram, hm₅.ram, hm₄.ram]
  refine ⟨t, ?_, ?_, hmem, fun f => ?_, fun f h h' => ?_, ?_, hdfns, ?_⟩
  · rw [initializePaging, run_bind_ok (run_modify _), markUsed, run_bind_ok (run_modify _), markUsed,
      run_bind_ok (run_modify _), markUsed, run_bind_ok (run_modify _), run_bind_ok hc₁,
      run_bind_ok hc₂, hio, hio', hext, run_bind_ok hr₄, run_bind_ok hr₅, run_bind_ok run_get, run_bind_ok hpa, he₅,
      run_bind_ok hr₆, run_bind_ok run_get, hn₆, run_bind_ok hr₇, hdisk]
  · rw [hfree, List.nodup_append]
    refine ⟨List.nodup_reverse.mpr List.nodup_range', List.nodup_reverse.mpr List.nodup_range', ?_⟩
    simp only [List.mem_reverse, List.mem_range'_1]
    omega
  · have hi₃ : s₃.framesInfo f = s₁.framesInfo f := rfl
    rw [show t.framesInfo f = s₇.framesInfo f from rfl, hi₇ f, hi₆ f, hi₅ f, hi₄ f, hi₃, hinfo₁ f]
    simp only [Managed, hio']
    -- the four ranges lie side by side
    rcases (by omega : f < 3 ∨ 3 ≤ f ∧ f < 160 ∨ 160 ≤ f ∧ f < 256 ∨ 256 ≤ f ∧ f < s.endOfBoot ∨
        s.endOfBoot ≤ f ∧ f < s.numberOfFrames ∨ s.numberOfFrames ≤ f ∧ s.endOfBoot ≤ f) with h | h | h | h | h | h
    · rw [if_neg (by omega), if_neg (by omega), if_neg (by omega), if_neg (by omega), if_pos h, if_neg (by omega),
        if_pos (by omega)]
    · rw [if_neg (by omega), if_neg (by omega), if_neg (by omega), if_pos (by omega), if_pos (by omega)]
    · rw [if_neg (by omega), if_neg (by omega), if_pos (by omega), if_neg (by omega), if_neg (by omega),
        if_neg (by omega), if_pos (by omega)]
    · rw [if_neg (by omega), if_pos (by omega), if_neg (by omega), if_neg (by omega), if_neg (by omega),
        if_neg (by omega), if_pos (by omega)]
    · rw [if_pos (by omega), if_pos (by omega)]
    · rw [if_neg (by omega), if_neg (by omega), if_neg (by omega), if_neg (by omega), if_neg (by omega),
        if_neg (by omega), if_neg (by omega)]
  · rw [hram, hram₃ f h h']
  · rw [hram]
    exact (setFrame_ram_of_ne (by decide)).trans (setFrame_ram_self ..)
  · have h₄ := hm₄.1.trans (hm₅.1.trans (hm₆.1.trans hm₇.1))
    constructor
    · exact h₄.cr3
    · exact h₄.numberOfFrames
    · exact h₄.ptrFreeMem
    · exact h₄.ptrPageDirectory
    · exact h₄.heap
    · exact h₄.strategy
    · exact h₄.disk
    · rfl
    · exact h₄.envs

/-- Three quarters of the page at `ptr_zero_page` are left as they were. -/
theorem Boot.initializePaging_clears (hb : Boot s) :
    ∃ t, initializePaging.run s = .ok ((), t) ∧ Paged s t ∧
      t.ram 1 = fun o => if o.val < 1024 then 0 else s.ram 1 o := by
  have hstatic := hb.static_lt
  simp only [kernelBase, physExtendedMem, pageSize] at hstatic
  obtain ⟨t, hrun, ht⟩ := initializePaging_tiles (by simp only [kernelBase, pageSize]; omega) hb.extended.1 hb.extended.2
  refine ⟨t, hrun, ⟨ht.nodup, ht.mem_free, fun f hf => ?_, fun f => ?_, ht.ram, ht.diskFree, ht.globals⟩, ht.ram_one⟩
  · rw [ht.infos, if_pos hf]
  · rw [ht.infos, hb.infos]
    split_ifs <;> rfl

theorem Boot.initializePaging_run (hb : Boot s) :
    ∃ t, initializePaging.run s = .ok ((), t) ∧ Paged s t := by
  obtain ⟨t, hrun, hp, -⟩ := hb.initializePaging_clears
  exact ⟨t, hrun, hp⟩

theorem heapTables_subset : heapTables ⊆ kernelTables := fun _ h => .inr h

theorem Boot.unmanaged (hb : Boot s) : ¬s.Managed s.kernelDir ∧
    ∀ i ∈ kernelTables, ¬s.Managed (s.kernelTable i) := by
  have hio : physIOMem / pageSize = 160 := by decide
  have hext : physExtendedMem / pageSize = 256 := by decide
  obtain ⟨hdir, htab⟩ := hb.reserved
  rw [hext] at hdir
  -- a frame that is remapped below `ptr_free_mem` comes before the end of boot memory
  have hlow (f : ℕ) (hf : kernelBase + pageSize * f < s.ptrFreeMem) : f < s.endOfBoot := by
    have hfree := hb.tables.free_le
    rw [endOfBoot, roundUp, u32_of_lt, roundDown]
    · simp only [pageSize, kernelBase, kernelHeapStart] at *
      omega
    · simp only [pageSize, kernelBase, kernelHeapStart] at *
      omega
  have hdlow : s.kernelDir < s.endOfBoot := by
    apply hlow
    have h₁ := hb.tables.base
    have h₂ := hb.tables.lt_free
    simp only [kernelDir, frameNumber, pageSize] at *
    omega
  refine ⟨?_, fun i hi => ?_⟩
  · rw [Managed, hio]
    omega
  · have := htab i hi
    have := hlow _ (hb.tables.static i hi)
    rw [Managed, hio]
    omega

theorem Paged.kernel (hp : Paged s t) (hb : Boot s) :
    t.ram s.kernelDir = s.ram s.kernelDir ∧
      ∀ i ∈ kernelTables, t.ram (s.kernelTable i) = s.ram (s.kernelTable i) := by
  have hext : physExtendedMem / pageSize = 256 := by decide
  obtain ⟨hdir, htab⟩ := hb.reserved
  rw [hext] at hdir
  refine ⟨hp.ram _ (by omega) (by omega), fun i hi => ?_⟩
  have := htab i hi
  exact hp.ram _ (by omega) (by omega)

theorem Paged.tables (hp : Paged s t) (hb : Boot s) : KernelTables t kernelTables :=
  hb.tables.congr hp.globals.ptrPageDirectory hp.globals.ptrFreeMem hp.globals.numberOfFrames
    (hp.kernel hb).1

theorem Paged.kernelPte_eq (hp : Paged s t) (hb : Boot s) {va : ℕ} (hva : pdx va ∈ kernelTables) :
    t.kernelPte va = s.kernelPte va :=
  kernelPte_congr hp.globals.ptrPageDirectory (hp.kernel hb).1 ((hp.kernel hb).2 _ hva)

/-- The directory that `initialize_kernel_VM` builds. -/
def bootDirectory (i : ℕ) : ℕ :=
  if 960 ≤ i then 4096 * (322 + (i - 960)) + 3
  else if i = pdx vpt then 4096 * 320 + 3
  else if i = pdx userLimit then 4096 * 321 + 3
  else if i = pdx uvpt then 4096 * 320 + 5
  else if i = pdx userTop then 4096 * 386 + 7
  else 0

def bootEnv : Env :=
  ⟨0, 0, 0, 0, 0, 0, 0, fun _ => ⟨0, true, 0⟩, 0, 0, 0, 0, 0, 0, 0⟩

/-- The kernel ends at frame 320 and boot time allocation at frame 2048. -/
def bootMachine : Machine where
  ram f :=
    if f = 320 then pageOfWords bootDirectory
    else if f = 321 then pageOfWords fun j => if 1016 ≤ j then 4096 * (300 + (j - 1016)) + 3 else 0
    else if f = 322 ∨ f = 323 then pageOfWords fun j => 4096 * ((f - 322) * 1024 + j) + 3
    else zeroPage
  cr3 := 4096 * 320
  numberOfFrames := 65536
  ptrFreeMem := kernelBase + 4096 * 2048
  ptrPageDirectory := kernelBase + 4096 * 320
  framesInfo _ := .initial
  freeFrameList := []
  heap := zeroed
  kHeapPlacementStrategy := .firstFit
  disk _ := zeroPage
  diskFreeFrameList := []
  envs _ := bootEnv

theorem bootMachine_kernelPde {i : ℕ} (hi : i < 1024) : bootMachine.kernelPde i = bootDirectory i := by
  have hdir : bootMachine.kernelDir = 320 := by decide
  rw [kernelPde, hdir]
  exact wordAt_pageOfWords hi (by
    rw [bootDirectory]
    split_ifs <;> omega)

theorem bootMachine_kernelTable {i : ℕ} (hi : i ∈ kernelTables) :
    bootMachine.kernelTable i = if i = pdx userLimit then 321 else 322 + (i - 960) := by
  rcases hi with rfl | ⟨hlo, hhi⟩
  · rw [kernelTable, bootMachine_kernelPde (by decide)]
    decide
  · have hlo' : 984 ≤ i := hlo
    have hlim : pdx userLimit = 958 := by decide
    rw [kernelTable, bootMachine_kernelPde hhi, bootDirectory, if_pos (by omega), if_neg (by omega),
      frameNumber]
    omega

theorem bootMachine_boot : Boot bootMachine where
  tables := {
    base := by decide
    lt_free := by decide
    free_le := by decide
    frames := by decide
    present := by
      rintro i (rfl | ⟨hlo, hhi⟩)
      · rw [bootMachine_kernelPde (by decide)]
        decide
      · have hlo' : 984 ≤ i := hlo
        rw [bootMachine_kernelPde hhi, bootDirectory, if_pos (by omega), hasPerm_or,
          hasPerm_present, hasPerm_writeable, ← constructEntry_eq (by decide),
          testBit_constructEntry (by decide), testBit_constructEntry (by decide)]
        decide
    lt_frames := by
      rintro i hi
      rw [bootMachine_kernelTable hi]
      have : i < 1024 := by
        rcases hi with rfl | ⟨-, hhi⟩
        · decide
        · exact hhi
      simp only [bootMachine]
      split_ifs <;> omega
    static := by
      rintro i hi
      rw [bootMachine_kernelTable hi]
      have : i < 1024 := by
        rcases hi with rfl | ⟨-, hhi⟩
        · decide
        · exact hhi
      simp only [bootMachine, pageSize]
      split_ifs <;> omega
    ne_dir := by
      rintro i hi
      have hdir : bootMachine.kernelDir = 320 := by decide
      rw [bootMachine_kernelTable hi, hdir]
      split_ifs <;> omega
    inj := by
      intro i hi j hj h
      have hlim : pdx userLimit = 958 := by decide
      have hge (k : ℕ) (hk : k ∈ kernelTables) : k = 958 ∨ 984 ≤ k := hk.imp id And.left
      have := hge i hi
      have := hge j hj
      rw [bootMachine_kernelTable hi, bootMachine_kernelTable hj, hlim] at h
      split_ifs at h <;> omega }
  reserved := by
    have hext : physExtendedMem / pageSize = 256 := by decide
    have hdir : bootMachine.kernelDir = 320 := by decide
    rw [hext, hdir]
    refine ⟨by omega, fun i hi => ?_⟩
    rw [bootMachine_kernelTable hi]
    split_ifs <;> omega
  entries p hp := by
    have hlim : pdx userLimit = 958 := by decide
    obtain ⟨hlo, hhi⟩ := hp.index
    have hlo' : 984 ≤ pdx p := hlo
    rw [kernelPte, bootMachine_kernelTable (.inr ⟨hlo, hhi⟩), if_neg (by omega)]
    have hram : bootMachine.ram (322 + (pdx p - 960)) = zeroPage := by
      simp only [bootMachine]
      rw [if_neg (by omega), if_neg (by omega), if_neg (by omega)]
    rw [hram, wordAt_zeroPage]
  limit := by
    rw [kernelPte, bootMachine_kernelTable (.inl rfl), if_pos rfl]
    have hram : bootMachine.ram 321 =
      pageOfWords fun j => if 1016 ≤ j then 4096 * (300 + (j - 1016)) + 3 else 0 := rfl
    rw [hram, wordAt_pageOfWords (by decide) (by decide)]
    decide
  extended := by decide
  loaded := by decide
  aligned := by decide
  infos _ := rfl
  envs _ := ⟨rfl, rfl⟩
  strategy := .inl rfl

end FosKernel.Machine
