import FosKernel.MemoryManager

/-!
# Loading a program

`env_create` copies every segment of the image twice: into the pages of the initial
working set, and piece by piece into the page file. The page file is seen as its
functions show it, as a page for each address, and memory as the user pages that are
mapped. Numbers of environments, permissions and LRU lists are left out.
-/

namespace FosKernel.ProgramLoading
open FailingPrograms PageEntries Machine

def elfProgLoad : ℕ := 1
def elfMagic : ℕ := 0x464C457F
def twsMaxSize : ℕ := 50

structure Proghdr where
  pType : ℕ
  pOffset : ℕ
  pVa : ℕ
  pFilesz : ℕ
  pMemsz : ℕ

/-- A program in memory, its bytes counted from its start. -/
structure Elf where
  eMagic : ℕ
  ePhnum : ℕ
  ph : ℕ → Proghdr
  byte : ℕ → UInt8

/-- The start is an offset in the program. -/
structure ProgramSegment where
  ptrStart : ℕ
  sizeInFile : ℕ
  sizeInMemory : ℕ
  virtualAddress : ℕ
  segmentId : ℕ

/-- The loops that skip headers of other types. -/
def skipHeaders (x : Elf) (i : ℕ) : ℕ :=
  if (x.ph i).pType ≠ elfProgLoad ∧ i < x.ePhnum then skipHeaders x (i + 1) else i
termination_by x.ePhnum - i

def segmentAt (x : Elf) (i : ℕ) : ProgramSegment :=
  ⟨(x.ph i).pOffset, (x.ph i).pFilesz, (x.ph i).pMemsz, (x.ph i).pVa, i⟩

/-- `none` is the segment with the identifier -1. -/
def programSegmentFirst (x : Elf) : Option ProgramSegment :=
  let i := skipHeaders x 0
  if i < x.ePhnum then some (segmentAt x i) else none

def programSegmentNext (x : Elf) (seg : ProgramSegment) : Option ProgramSegment :=
  let i := skipHeaders x (seg.segmentId + 1)
  if i < x.ePhnum then some (segmentAt x i) else none

/-- The segments that `PROGRAM_SEGMENT_FOREACH` goes through, from one of them on. -/
def segmentsFrom (x : Elf) : ℕ → Option ProgramSegment → List ProgramSegment
  | n + 1, some seg => seg :: segmentsFrom x n (programSegmentNext x seg)
  | _, _ => []

def programSegments (x : Elf) : List ProgramSegment :=
  segmentsFrom x x.ePhnum (programSegmentFirst x)

/-- Where loading stops. -/
inductive LoadPanic
  /-- `virtual_address < KERNEL_BASE` -/
  | assertion
  /-- a write to a page that is not mapped -/
  | pageFault
  /-- `Table working set become FULL` -/
  | tableWorkingSet
  /-- `% page_WS_max_size` with an empty working set -/
  | divideError
  /-- `Matafa2nash 3ala Keda` -/
  | badMagic
deriving DecidableEq

/-- The environment that is created, and the locals of `env_create`. What a frame holds
when it is allocated depends on how many were allocated before. -/
structure EnvLoad where
  pageFile : ℕ → Option Page
  pages : ℕ → Option Page
  frame : ℕ → Page
  framesTaken : ℕ
  ptrTempPage : Page
  ptrZeroPage : Page
  progName : String
  pageWSMaxSize : ℕ
  ptrPageWorkingSet : ℕ → WorkingSetElement
  pageLastWSIndex : ℕ
  ptrTws : ℕ → WorkingSetElement
  tableLastWSIndex : ℕ
  initNumStackPages : ℕ
  nNewPageAdded : ℕ
  remainingWSPages : ℕ
  lastTableNumber : ℕ

abbrev Loader (α : Type) := Prog EnvLoad LoadPanic α

def pfAddEnvPage (va : ℕ) (dataSrc : Page) : Loader Unit := do
  if kernelBase ≤ va then throw .assertion
  modify fun s => { s with pageFile := Function.update s.pageFile (va / pageSize) (some dataSrc) }

/-- With `initializeByZero` set. -/
def pfAddEmptyEnvPage (va : ℕ) : Loader Unit := do
  let s ← get
  if ustackBottom < va ∧ va < ustackTop - s.initNumStackPages * pageSize then
    set { s with nNewPageAdded := u32 (s.nNewPageAdded + 1) }
  pfAddEnvPage va s.ptrZeroPage

def allocateFrame : Loader Page := do
  let s ← get
  set { s with framesTaken := s.framesTaken + 1 }
  return s.frame s.framesTaken

def loadtimeMapFrame (p : Page) (va : ℕ) : Loader Unit :=
  modify fun s => { s with pages := Function.update s.pages (va / pageSize) (some p) }

/-- `*p = b` at a user address. -/
def writeByte (va : ℕ) (b : UInt8) : Loader Unit := do
  match (← get).pages (va / pageSize) with
  | none => throw .pageFault
  | some p => modify fun s =>
    { s with pages := Function.update s.pages (va / pageSize) (some (setByte p va b)) }

/-- The entry at the hand, which then moves on. -/
def addToWorkingSet (va : ℕ) : Loader Unit := do
  modify fun s => { s with
    ptrPageWorkingSet := Function.update s.ptrPageWorkingSet s.pageLastWSIndex ⟨va, false, 0⟩ }
  if (← get).pageWSMaxSize = 0 then throw .divideError
  modify fun s => { s with pageLastWSIndex := u32 (s.pageLastWSIndex + 1) % s.pageWSMaxSize }

/-- A table that was not the last one used goes into the table working set. -/
def addToTableWorkingSet (va : ℕ) : Loader Unit := do
  if pdx va ≠ (← get).lastTableNumber then
    modify fun s => { s with
      ptrTws := Function.update s.ptrTws s.tableLastWSIndex ⟨roundDown va ptSize, false, 0⟩
      tableLastWSIndex := u32 (s.tableLastWSIndex + 1) % twsMaxSize }
    if (← get).tableLastWSIndex = 0 then throw .tableWorkingSet
    modify fun s => { s with lastTableNumber := pdx va }

/-- One round of the first loop of `program_segment_alloc_map_copy_workingset`. -/
def allocateSegmentPage (sva i : ℕ) : Loader Unit := do
  let va := pageOf sva i
  let p ← allocateFrame
  loadtimeMapFrame p va
  addToWorkingSet va
  addToTableWorkingSet va

def segmentLimit (s : EnvLoad) (sva : ℕ) : ℕ :=
  if sva = 0x200000 ∧ s.progName ≠ "tpp" then min s.remainingWSPages 6 else s.remainingWSPages

/-- The result is `allocated_pages`. -/
def programSegmentAllocMapCopyWorkingset (x : Elf) (seg : ProgramSegment) : Loader ℕ := do
  let vaddr := seg.virtualAddress
  let endVaddr := roundUp (u32 (vaddr + seg.sizeInMemory)) pageSize
  let sva := roundDown vaddr pageSize
  let allocatedPages := min (numOfPages sva endVaddr) (segmentLimit (← get) sva)
  forRange (allocateSegmentPage sva) 0 allocatedPages
  let stop := sva + allocatedPages * pageSize
  let copied := min stop (u32 (vaddr + seg.sizeInFile)) - vaddr
  forRange (fun i => writeByte (vaddr + i) (x.byte (seg.ptrStart + i))) 0 copied
  forRange (fun i => writeByte (vaddr + copied + i) 0) 0 (stop - (vaddr + copied))
  return allocatedPages

/-- `*dst_ptr = *src_ptr`, with `dst_ptr` in the temporary page. -/
def copyToTempPage (x : Elf) (src dst i : ℕ) : Loader Unit :=
  modify fun s => { s with ptrTempPage := setByte s.ptrTempPage (dst + i) (x.byte (src + i)) }

def clearTempPage : Loader Unit := modify fun s => { s with ptrTempPage := zeroPage }

/-- The page's worth of bytes from an offset of the program on. -/
def Elf.page (x : Elf) (offset : ℕ) : Page := fun o => x.byte (offset + o.val)

/-- Part [1] of the loop over the segments; the result is `src_ptr`. -/
def writeFirstPage (x : Elf) (seg : ProgramSegment) : Loader ℕ := do
  let segVa := seg.virtualAddress
  let startFirstPage := roundDown segVa pageSize
  let endFirstPage := roundUp segVa pageSize
  clearTempPage
  forRange (copyToTempPage x seg.ptrStart (segVa - startFirstPage)) 0 (endFirstPage - segVa)
  pfAddEnvPage startFirstPage (← get).ptrTempPage
  return seg.ptrStart + (endFirstPage - segVa)

def writeMiddlePages (x : Elf) (seg : ProgramSegment) (src : ℕ) : Loader ℕ := do
  let endFirstPage := roundUp seg.virtualAddress pageSize
  let startLastPage := roundDown (u32 (seg.virtualAddress + seg.sizeInFile)) pageSize
  let n := numOfPages endFirstPage startLastPage
  forRange (fun i => pfAddEnvPage (pageOf endFirstPage i) (x.page (src + pageSize * i))) 0 n
  return src + pageSize * n

def writeLastPage (x : Elf) (seg : ProgramSegment) (src : ℕ) : Loader Unit := do
  let endLastPage := u32 (seg.virtualAddress + seg.sizeInFile)
  let startLastPage := roundDown endLastPage pageSize
  clearTempPage
  forRange (copyToTempPage x src 0) 0 (endLastPage - startLastPage)
  pfAddEnvPage startLastPage (← get).ptrTempPage

def writeRemainingArea (seg : ProgramSegment) : Loader Unit := do
  let startRemainingArea := roundUp (u32 (seg.virtualAddress + seg.sizeInFile)) pageSize
  let remainingLength := u32 (seg.virtualAddress + seg.sizeInMemory + 2 ^ 32 - startRemainingArea)
  forRange (fun i => pfAddEmptyEnvPage (pageOf startRemainingArea i)) 0
    (roundUp remainingLength pageSize / pageSize)

/-- The body of `PROGRAM_SEGMENT_FOREACH`. -/
def loadSegment (x : Elf) (seg : ProgramSegment) : Loader Unit := do
  let allocatedPages ← programSegmentAllocMapCopyWorkingset x seg
  modify fun s => { s with remainingWSPages := u32 (s.remainingWSPages + 2 ^ 32 - allocatedPages) }
  let src ← writeFirstPage x seg
  let src ← writeMiddlePages x seg src
  writeLastPage x seg src
  writeRemainingArea seg

def loadSegments (x : Elf) : List ProgramSegment → Loader Unit
  | [] => pure ()
  | seg :: segs => do
    loadSegment x seg
    loadSegments x segs

def stackVa : ℕ := ustackTop - pageSize

/-- Part [9] of `env_create` -/
def createStack : Loader Unit := do
  modify fun s => { s with initNumStackPages := 1 }
  let _ ← allocateFrame
  loadtimeMapFrame zeroPage stackVa
  addToWorkingSet stackVa
  pfAddEmptyEnvPage stackVa

/-- `env_create` from the loop over the segments on. -/
def loadProgram (x : Elf) : Loader Unit := do
  if x.eMagic ≠ elfMagic then throw .badMagic
  modify fun s => { s with
    remainingWSPages := u32 (s.pageWSMaxSize + 2 ^ 32 - 1)
    lastTableNumber := 0xffffffff }
  loadSegments x (programSegments x)
  createStack

end FosKernel.ProgramLoading
