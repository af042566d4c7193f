import FosKernel.Machine

/-!
# Frames, page tables, the kernel heap and chunks

`create_page_table` allocates its table with `kmalloc`, which maps frames and may
therefore need a table itself: the functions on that cycle take the function that
creates tables as `cpt`, and `createPageTable` closes the cycle.
-/

namespace FosKernel.Machine
open FailingPrograms PageEntries

/-- `CHECK_IF_KERNEL_ADDRESS` -/
def checkIfKernelAddress (va : ℕ) : Bool := userTop ≤ va

/-- `STATIC_KERNEL_VIRTUAL_ADDRESS` -/
def staticKernelVirtualAddress (pa : ℕ) : Kernel ℕ := do
  if (← get).numberOfFrames ≤ frameNumber pa then throw .invalidPA
  return u32 (pa + kernelBase)

def toFrameInfo (pa : ℕ) : Kernel ℕ := do
  if (← get).numberOfFrames ≤ frameNumber pa then throw .invalidPA
  return frameNumber pa

def toPhysicalAddress (f : ℕ) : ℕ := pageSize * f

def kheapVirtualAddress (pa : ℕ) : Kernel ℕ := do
  let f ← toFrameInfo pa
  return ((← get).framesInfo f).va

/-- `none` is `TABLE_NOT_EXIST`, with a null pointer to the table. -/
def getPageTable (dir va : ℕ) : Kernel (Option ℕ) := do
  let w ← readEntry dir (pdx va)
  if HasPerm w permPresent then
    if checkIfKernelAddress va then return some (← staticKernelVirtualAddress (extractAddress w))
    else return some (← kheapVirtualAddress (extractAddress w))
  else if w ≠ 0 then throw .nullTrapframe
  else return none

def ptSetPagePermissions (dir va set clear : ℕ) : Kernel Unit := do
  let pt := (← getPageTable dir va).getD 0
  if pt ≠ 0 then
    if set ≠ 0 ∧ clear = 0 then
      let w ← readEntry pt (ptx va)
      writeEntry pt (ptx va) (setPerm w set)
    else if clear ≠ 0 ∧ set = 0 then
      let w ← readEntry pt (ptx va)
      writeEntry pt (ptx va) (clearPerm w clear)
    else if clear ≠ 0 ∧ set ≠ 0 then
      let w ← readEntry pt (ptx va)
      writeEntry pt (ptx va) (setPerm w set)
      let w ← readEntry pt (ptx va)
      writeEntry pt (ptx va) (clearPerm w clear)
  else throw .invalidVA

/-- `none` is the result -1. -/
def ptGetPagePermissions (dir va : ℕ) : Kernel (Option ℕ) := do
  match ← getPageTable dir va with
  | some pt => return some ((← readEntry pt (ptx va)) % 4096)
  | none => return none

def ptClearPageTableEntry (dir va : ℕ) : Kernel Unit := do
  match ← getPageTable dir va with
  | some pt => writeEntry pt (ptx va) 0
  | none => throw .invalidVA

/-- The result -1 is the largest `uint32`. -/
def virtualToPhysical (dir va : ℕ) : Kernel ℕ := do
  match ← getPageTable dir va with
  | some pt => return u32 (frameNumber (← readEntry pt (ptx va)) * pageSize)
  | none => return u32 (2 ^ 32 - 1)

def kheapPhysicalAddress (va : ℕ) : Kernel ℕ := do
  virtualToPhysical (← get).ptrPageDirectory va

/-- What `initialize_frame_info` leaves. -/
def FrameInfo.initial : FrameInfo := ⟨0, 0, none, false⟩

def initializeFrameInfo (f : ℕ) : Kernel Unit := modify (·.setInfo f .initial)

/-- The next frame of the list; a buffered one is first taken from its page. -/
def allocateFrame : Kernel ℕ := do
  let s ← get
  match s.freeFrameList with
  | [] => throw .noFreeFrame
  | f :: fs =>
    set (s.setFree fs)
    if (s.framesInfo f).isBuffered then
      match (s.framesInfo f).environment with
      | some e => ptClearPageTableEntry (s.envs e).envPageDirectory (s.framesInfo f).va
      | none => throw (.pageFault 0)
    initializeFrameInfo f
    return f

def freeFrame (f : ℕ) : Kernel Unit := do
  initializeFrameInfo f
  modify fun s => s.setFree (f :: s.freeFrameList)

/-- Adds to the `uint16` count. -/
def FrameInfo.addReferences (i : FrameInfo) (n : ℕ) : FrameInfo :=
  { i with references := (i.references + n) % 2 ^ 16 }

def incrementReferences (f : ℕ) : Kernel Unit :=
  modify fun s => s.setInfo f ((s.framesInfo f).addReferences 1)

def decrementReferences (f : ℕ) : Kernel Unit := do
  modify fun s => s.setInfo f ((s.framesInfo f).addReferences (2 ^ 16 - 1))
  if ((← get).framesInfo f).references = 0 then freeFrame f

/-- The frame, if the entry is not 0, with the pointer to the table. -/
def getFrameInfo (dir va : ℕ) : Kernel (Option ℕ × ℕ) := do
  let pt := (← getPageTable dir va).getD 0
  if pt ≠ 0 then
    let w ← readEntry pt (ptx va)
    if w ≠ 0 then return (some (← toFrameInfo (extractAddress w)), pt)
    return (none, pt)
  return (none, pt)

def unmapFrame (dir va : ℕ) : Kernel Unit := do
  let (info, pt) ← getFrameInfo dir va
  match info with
  | some f =>
    decrementReferences f
    writeEntry pt (ptx va) 0
  | none => return ()

section Tables

variable (cpt : ℕ → ℕ → Kernel ℕ)

def mapFrame (dir f va perm : ℕ) : Kernel ℤ := do
  let pa := toPhysicalAddress f
  let pt ← match ← getPageTable dir va with
    | some pt => pure pt
    | none => cpt dir va
  let w ← readEntry pt (ptx va)
  if HasPerm w permPresent then
    if extractAddress w = pa then return 0
    unmapFrame dir va
  incrementReferences f
  writeEntry pt (ptx va) (constructEntry pa (perm ||| permPresent))
  return 0

/-- The pages from one multiple of the page size up to another. -/
def numOfPages (sva eva : ℕ) : ℕ := (eva - sva) / pageSize

def pageOf (sva i : ℕ) : ℕ := u32 (sva + pageSize * i)

/-- `for (i = va; i < stop; i += PAGE_SIZE)`, with a counter. After `2 ^ 20` rounds `i` is
what it was at first. -/
def forPages (body : ℕ → ℕ → Kernel Unit) (stop : ℕ) : ℕ → ℕ → ℕ → Kernel Unit
  | 0, i, _ => if i < stop then throw .nesting else pure ()
  | n + 1, i, counter =>
    if i < stop then do
      body i counter
      forPages body stop n (u32 (i + pageSize)) (counter + 1)
    else pure ()

def isMapped (dir va : ℕ) : Kernel Bool := do
  let (info, _) ← getFrameInfo dir va
  return info.isSome

/-- One round of the second loop of `allocate_chunk`. -/
def allocateChunkPage (dir sva perms i : ℕ) : Kernel Unit := do
  let va := pageOf sva i
  match ← getPageTable dir va with
  | some _ => pure ()
  | none => let _ ← cpt dir va
  let f ← allocateFrame
  let _ ← mapFrame cpt dir f va perms
  modify fun s => s.setInfo f { s.framesInfo f with va := va }

def allocateChunk (dir va size perms : ℕ) : Kernel ℤ := do
  let sva := roundDown va pageSize
  let eva := roundUp (u32 (va + size)) pageSize
  let n := numOfPages sva eva
  if ← anyRange (fun i => isMapped dir (pageOf sva i)) 0 n then return -1
  forRange (allocateChunkPage cpt dir sva perms) 0 n
  return 0

/-- One of the two branches of `kmalloc`, for the fit that `allocBlock` finds. -/
def kmallocWith (allocBlock : DynamicAllocator.State → ℕ → Option (DynamicAllocator.State × Option ℕ))
    (size : ℕ) : Kernel (Option ℕ) := do
  match allocBlock (← get).heap size with
  | none => throw .blockList
  | some (h, none) =>
    modify (·.setHeap h)
    return none
  | some (h, some blk) =>
    match DynamicAllocator.insertSortedAllocList h blk with
    | none => throw .blockList
    | some h =>
      modify (·.setHeap h)
      let r ← allocateChunk cpt (← get).ptrPageDirectory (h.sva blk) size permWriteable
      return if r = 0 then some (h.sva blk) else none

/-- Best fit reads its uninitialised locals when no free block is large enough. -/
def readsUninitialized (h : DynamicAllocator.State) (size : ℕ) : Prop :=
  h.blocks .free ≠ [] ∧ ∀ b ∈ h.blocks .free, b.length < size

instance (h : DynamicAllocator.State) (size : ℕ) : Decidable (readsUninitialized h size) :=
  inferInstanceAs (Decidable (_ ∧ _))

/-- The call with the values that the locals of best fit hold when it starts; 0 is NULL. -/
def kmallocFrom (newsize newveradd size : ℕ) : Kernel ℕ := do
  let size := roundUp size pageSize
  if (← get).kHeapPlacementStrategy = .firstFit then
    if let some va ← kmallocWith cpt DynamicAllocator.allocBlockFF size then return va
  if (← get).kHeapPlacementStrategy = .bestFit then
    if let some va ← kmallocWith cpt (DynamicAllocator.allocBlockBF · · newsize newveradd) size then return va
  return 0

/-- A call whose result does not depend on these values. -/
def kmalloc (size : ℕ) : Kernel ℕ := do
  let s ← get
  if s.kHeapPlacementStrategy = .bestFit ∧ readsUninitialized s.heap (roundUp size pageSize) then throw .uninitialized
  kmallocFrom cpt 0 0 size

/-- `create_page_table`, whose nested calls are `cpt`. -/
def createPageTableWith (dir va : ℕ) : Kernel ℕ := do
  let pt ← kmalloc cpt pageSize
  if pt = 0 then throw .heapSpace
  let pa ← kheapPhysicalAddress pt
  writeEntry dir (pdx va) (constructEntry pa (permPresent ||| permUser ||| permWriteable))
  clearPage pt
  return pt

end Tables

/-- Each nested call takes a node of the block allocator. -/
def createPageTableWithin : ℕ → ℕ → ℕ → Kernel ℕ
  | 0 => fun _ _ => throw .nesting
  | n + 1 => createPageTableWith (createPageTableWithin n)

def createPageTable : ℕ → ℕ → Kernel ℕ := createPageTableWithin (numOfKHeapPages + 1)

/-- One round of the loop of `kfree`. -/
def kfreePage (va i : ℕ) : Kernel Unit := do
  unmapFrame (← get).ptrPageDirectory (pageOf va i)

def kfree (va : ℕ) : Kernel Unit := do
  let va := roundDown va pageSize
  match DynamicAllocator.findBlock (← get).heap va with
  | none => throw .blockList
  | some none => return ()
  | some (some blk) =>
    modify fun s => s.setHeap (s.heap.remove .alloc blk)
    let eva := u32 (va + (← get).heap.size blk)
    forRange (kfreePage va) 0 (numOfPages va eva)
    match DynamicAllocator.insertSortedWithMergeFreeList (← get).heap blk with
    | none => throw .blockList
    | some h => modify (·.setHeap h)

/-- The node array is mapped before the block lists are set up. -/
def initializeDynBlockSystem : Kernel Unit := do
  let _ ← allocateChunk createPageTable (← get).ptrPageDirectory kernelHeapStart
    DynamicAllocator.kernelNodesSize permWriteable
  match DynamicAllocator.initializeDynBlockSystem DynamicAllocator.kernelHeap (← get).heap with
  | none => throw .blockList
  | some h => modify (·.setHeap h)

/-- One round of the second loop of `cut_paste_pages`. -/
def cutPastePage (dir source dest i : ℕ) : Kernel Unit := do
  let source := pageOf source i
  let dest := pageOf dest i
  if (← getPageTable dir dest).getD 0 = 0 then
    let _ ← createPageTable dir dest
  let pt := (← getPageTable dir source).getD 0
  let perms := (← readEntry pt (ptx source)) % 4096
  match ← getFrameInfo dir source with
  | (some f, _) =>
    let _ ← mapFrame createPageTable dir f dest perms
    unmapFrame dir source
  | (none, _) => throw (.pageFault 0)

def cutPastePages (dir source dest num : ℕ) : Kernel ℤ := do
  let source := roundDown source pageSize
  let dest := roundDown dest pageSize
  if ← anyRange (fun i => isMapped dir (pageOf dest i)) 0 num then return -1
  forRange (cutPastePage dir source dest) 0 num
  return 0

/-- One round of the second loop of `share_chunk`. -/
def shareChunkPage (dir source dest perms i : ℕ) : Kernel Unit := do
  let source := pageOf source i
  let dest := pageOf dest i
  if (← getPageTable dir dest).getD 0 = 0 then
    let _ ← createPageTable dir dest
  let pt := (← getPageTable dir source).getD 0
  let _ ← readEntry pt (ptx source)
  match ← getFrameInfo dir source with
  | (some f, _) => let _ ← mapFrame createPageTable dir f dest perms
  | (none, _) => throw (.pageFault 0)

def shareChunk (dir source dest size perms : ℕ) : Kernel ℤ := do
  let destEnd := roundUp (u32 (dest + size)) pageSize
  let source := roundDown source pageSize
  let dest := roundDown dest pageSize
  let num := u32 (destEnd + 2 ^ 32 - dest) / pageSize
  if ← anyRange (fun i => isMapped dir (pageOf dest i)) 0 (numOfPages dest destEnd) then return -1
  forRange (shareChunkPage dir source dest perms) 0 num
  return 0

end FosKernel.Machine
