import FosKernel.DynamicAllocator
import FosKernel.FailingPrograms
import FosKernel.PageEntries

/-!
# The machine under the memory manager

Physical memory holds the page directories and tables as well as the pages they
map. A kernel pointer is an address that the loaded directory translates, except
that the memory below `ptr_free_mem` is remapped above `KERNEL_BASE` once and for
all. The hardware marks the entries of user pages on each access.
-/

namespace FosKernel
open FailingPrograms PageEntries

namespace Machine

def userTop : ℕ := 0xEEC00000
def userLimit : ℕ := 0xEF800000
def uvpt : ℕ := 0xEF400000
def vpt : ℕ := 0xEFC00000
def ustackTop : ℕ := userTop - 2 * pageSize
def sizeOfWorkingSetElement : ℕ := 24
def userPagesWSMax : ℕ := userHeapMax + u32 (sizeOfWorkingSetElement * userTop) / pageSize
def ustackBottom : ℕ := roundUp userPagesWSMax pageSize
def physIOMem : ℕ := 0x0A0000
def physExtendedMem : ℕ := 0x100000
def pagesPerFile : ℕ := 520 * 2 ^ 20 / pageSize

def pdx (va : ℕ) : ℕ := va / 2 ^ 22 % 1024
def ptx (va : ℕ) : ℕ := va / 2 ^ 12 % 1024

/-- Heap or stack addresses, where pages may appear that were never loaded. -/
def InHeapOrStack (va : ℕ) : Prop :=
  userHeapStart ≤ va ∧ va < userHeapMax ∨ ustackBottom ≤ va ∧ va < ustackTop

instance (va : ℕ) : Decidable (InHeapOrStack va) := inferInstanceAs (Decidable (_ ∨ _))

/-- `references` is a `uint16`. -/
structure FrameInfo where
  references : ℕ
  va : ℕ
  environment : Option ℕ
  isBuffered : Bool
deriving DecidableEq

structure WorkingSetElement where
  virtualAddress : ℕ
  empty : Bool
  timeStamp : ℕ
deriving DecidableEq

structure Env where
  envPageDirectory : ℕ
  envCr3 : ℕ
  diskEnvPgdir : ℕ
  diskEnvPgdirPA : ℕ
  diskEnvTabledir : ℕ
  diskEnvTabledirPA : ℕ
  pageWSMaxSize : ℕ
  ptrPageWorkingSet : ℕ → WorkingSetElement
  pageLastWSIndex : ℕ
  pageFaultsCounter : ℕ
  tableFaultsCounter : ℕ
  nPageIn : ℕ
  nPageOut : ℕ
  nNewPageAdded : ℕ
  initNumStackPages : ℕ

/-- `KHP_PLACE_...` -/
inductive PlacementStrategy | contAlloc | firstFit | bestFit | nextFit | worstFit
deriving DecidableEq

/-- Where the kernel stops. -/
inductive Panic
  /-- `allocate_frame cannot find a free frame` -/
  | noFreeFrame
  /-- a physical address beyond the last frame -/
  | invalidPA
  /-- `NOT ENOUGH KERNEL HEAP SPACE` -/
  | heapSpace
  /-- `Invalid va` -/
  | invalidVA
  /-- a kernel access that the loaded directory does not allow -/
  | pageFault (va : ℕ)
  /-- `fault_handler` called without a trap frame -/
  | nullTrapframe
  /-- `page file out of space` -/
  | pageFileSpace
  /-- a page added outside heap and stack -/
  | invalidAccess
  /-- `ILLEGAL MEMORY ACCESS` -/
  | illegalAccess
  /-- `page fault due to violation of ACCESS RIGHTS` -/
  | accessRights
  /-- `assert` -/
  | assertion
  /-- a read of an uninitialised local -/
  | uninitialized
  /-- a list macro of the block allocator was given NULL -/
  | blockList
  /-- calls that nest more often than the kernel heap has pages, or a loop that does not end -/
  | nesting
deriving DecidableEq

end Machine

open Machine in
structure Machine where
  ram : ℕ → Page
  cr3 : ℕ
  numberOfFrames : ℕ
  ptrFreeMem : ℕ
  ptrPageDirectory : ℕ
  framesInfo : ℕ → FrameInfo
  freeFrameList : List ℕ
  heap : DynamicAllocator.State
  kHeapPlacementStrategy : PlacementStrategy
  disk : ℕ → Page
  diskFreeFrameList : List ℕ
  envs : ℕ → Env

namespace Machine

abbrev Kernel (α : Type) := Prog Machine Panic α

def pde (s : Machine) (va : ℕ) : ℕ := wordAt (s.ram (frameNumber s.cr3)) (pdx va)

/-- The entry of the table that the loaded directory names. -/
def pte (s : Machine) (va : ℕ) : ℕ := wordAt (s.ram (frameNumber (s.pde va))) (ptx va)

/-- The frame behind an address that is used with permissions `need`. -/
def translate (s : Machine) (need va : ℕ) : Option ℕ :=
  if kernelBase ≤ va ∧ va < s.ptrFreeMem then
    if HasPerm (permPresent ||| permWriteable) need then some (frameNumber (va - kernelBase))
    else none
  else if HasPerm (s.pde va) need ∧ HasPerm (s.pte va) need then some (frameNumber (s.pte va))
  else none

def setFrame (s : Machine) (f : ℕ) (p : Page) : Machine :=
  { s with ram := Function.update s.ram f p }

def setEnv (s : Machine) (e : ℕ) (v : Env) : Machine :=
  { s with envs := Function.update s.envs e v }

def setInfo (s : Machine) (f : ℕ) (v : FrameInfo) : Machine :=
  { s with framesInfo := Function.update s.framesInfo f v }

def setFree (s : Machine) (fs : List ℕ) : Machine := { s with freeFrameList := fs }

def setHeap (s : Machine) (h : DynamicAllocator.State) : Machine := { s with heap := h }

/-- The marks that an access leaves in the entry of a user page. -/
def touch (s : Machine) (va marks : ℕ) : Machine :=
  if va < userTop then
    let f := frameNumber (s.pde va)
    s.setFrame f (setWord (s.ram f) (ptx va) (setPerm (s.pte va) marks))
  else s

def frameAt (need va : ℕ) : Kernel ℕ := do
  match (← get).translate need va with
  | some f => return f
  | none => throw (.pageFault va)

/-- `p[j]` for a page of words. -/
def readEntry (p j : ℕ) : Kernel ℕ := do
  let f ← frameAt permPresent p
  return wordAt ((← get).ram f) j

/-- `p[j] = w` -/
def writeEntry (p j w : ℕ) : Kernel Unit := do
  let f ← frameAt (permPresent ||| permWriteable) p
  modify fun s => s.setFrame f (setWord (s.ram f) j w)

/-- `memset(p, 0, PAGE_SIZE)` on a page of the kernel. -/
def clearPage (p : ℕ) : Kernel Unit := do
  let f ← frameAt (permPresent ||| permWriteable) p
  modify fun s => s.setFrame f zeroPage

/-- The page's worth of bytes from `va` on, which may lie in two pages. -/
def readPage (va : ℕ) : Kernel Page := do
  let f ← frameAt permPresent va
  modify fun s => s.touch va permUsed
  let g ← frameAt permPresent (u32 (va + (pageSize - 1)))
  modify fun s => s.touch (u32 (va + (pageSize - 1))) permUsed
  let s ← get
  return fun o => if va % pageSize + o.val < pageSize then byteAt (s.ram f) (va + o.val)
    else byteAt (s.ram g) (va + o.val)

/-- Writes a page at an address that is a multiple of the page size. -/
def writePage (va : ℕ) (p : Page) : Kernel Unit := do
  let f ← frameAt (permPresent ||| permWriteable) va
  modify fun s => (s.setFrame f p).touch va (permUsed ||| permModified)

end Machine
end FosKernel
