import FosKernel.IntrusiveList
import FosKernel.IntervalLists
import FosKernel.Memlayout

/-!
# The dynamic block allocator

A node of the array `MemBlockNodes` is named by its index. Results are `none`
where the code panics (a NULL element handed to a list macro), follows a NULL
pointer, or does not leave a loop.
-/

namespace FosKernel.DynamicAllocator
open IntrusiveList IntervalLists

/-- The three heads that share the link field of `struct MemBlock`. -/
inductive BlockList | available | free | alloc deriving DecidableEq, Repr

/-- The allocator's global variables and the fields of the nodes. -/
structure State where
  store : Store BlockList ℕ
  sva : ℕ → ℕ
  size : ℕ → ℕ
  maxMemBlockCnt : ℕ

namespace State

def first (s : State) (k : BlockList) : Option ℕ := (s.store.head k).first
def last (s : State) (k : BlockList) : Option ℕ := (s.store.head k).last

def setSva (s : State) (n v : ℕ) : State := { s with sva := Function.update s.sva n v }
def setSize (s : State) (n v : ℕ) : State := { s with size := Function.update s.size n v }

def remove (s : State) (k : BlockList) (n : ℕ) : State :=
  { s with store := s.store.remove k n }
def insertHead (s : State) (k : BlockList) (n : ℕ) : State :=
  { s with store := s.store.insertHead k n }
def insertTail (s : State) (k : BlockList) (n : ℕ) : State :=
  { s with store := s.store.insertTail k n }
def insertAfter (s : State) (k : BlockList) (m n : ℕ) : State :=
  { s with store := s.store.insertAfter k m n }
def insertBefore (s : State) (k : BlockList) (m n : ℕ) : State :=
  { s with store := s.store.insertBefore k m n }

/-- `LIST_FOREACH` over one of the lists, with further loop variables in `σ`. -/
def forEach {σ β : Type*} (s : State) (view : σ → State) (k : BlockList)
    (body : ℕ → σ → Option (Flow σ β)) (init : σ) : Option (σ × Option β) :=
  IntrusiveList.forEach (fun t => (view t).store.next) body s.maxMemBlockCnt (s.first k) init

def block (s : State) (n : ℕ) : Interval := ⟨s.sva n, s.size n⟩

@[simp] theorem block_start (s : State) (n : ℕ) : (s.block n).start = s.sva n := rfl
@[simp] theorem block_length (s : State) (n : ℕ) : (s.block n).length = s.size n := rfl
@[simp] theorem remove_block (s : State) (k : BlockList) (n : ℕ) :
    (s.remove k n).block = s.block := rfl
@[simp] theorem remove_maxMemBlockCnt (s : State) (k : BlockList) (n : ℕ) :
    (s.remove k n).maxMemBlockCnt = s.maxMemBlockCnt := rfl

/-- The nodes of a list in the order of their `next` links. -/
def nodes (s : State) (k : BlockList) : List ℕ :=
  walk s.store.next s.maxMemBlockCnt (s.first k)

def blocks (s : State) (k : BlockList) : List Interval := (s.nodes k).map s.block

end State

def insertNodes (s : Store BlockList ℕ) : ℕ → Store BlockList ℕ
  | 0 => s
  | n + 1 => (insertNodes s n).insertHead .available n

def initializeMemBlocksList (s : State) (numOfBlocks : ℕ) : State :=
  { s with store := insertNodes (s.store.init .available) numOfBlocks }

/-- One round of the loop of `find_block`. -/
def findBody (va blk : ℕ) (s : State) : Option (Flow State ℕ) :=
  some (if s.sva blk = va then .exit s blk else .next s)

/-- `find_block` always walks `AllocMemBlocksList`, whatever list it is given. -/
def findBlock (s : State) (va : ℕ) : Option (Option ℕ) := do
  let (_, blk) ← s.forEach id .alloc (findBody va) s
  return blk

/-- One round of the loop of `insert_sorted_allocList`. -/
def insertBody (newblk blk : ℕ) (s : State) : Option (Flow State Unit) :=
  some <| match s.store.next blk with
    | some nx =>
      if s.sva blk < s.sva newblk ∧ s.sva newblk < s.sva nx then
        .exit (s.insertAfter .alloc blk newblk) ()
      else .next s
    | none => .next s

def insertSortedAllocList (s : State) (newblk : ℕ) : Option State :=
  match s.first .alloc with
  | none => some (s.insertHead .alloc newblk)
  | some f =>
    if s.sva newblk < s.sva f then some (s.insertHead .alloc newblk)
    else do
      let l ← s.last .alloc
      if s.sva l < s.sva newblk then some (s.insertTail .alloc newblk)
      else
        let (s, _) ← s.forEach id .alloc (insertBody newblk) s
        return s

/-- The branch of the allocation loops that cuts the front off a larger block. -/
def splitBlock (s : State) (newblk : Option ℕ) (blk versize : ℕ) : Option (State × ℕ) := do
  let n ← newblk
  let s := (s.remove .available n).setSize n versize
  let s := s.setSize blk (s.size blk - versize)
  let newveradd := s.sva blk
  let s := s.setSva blk (u32 (s.sva blk + s.size n))
  return (s.setSva n newveradd, n)

/-- One round of the loop of `alloc_block_FF`. -/
def firstFitBody (newblk : Option ℕ) (versize blk : ℕ) (s : State) : Option (Flow State ℕ) :=
  if s.size blk = versize then some (.exit (s.remove .free blk) blk)
  else if versize < s.size blk then
    (splitBlock s newblk blk versize).map fun (s, n) => .exit s n
  else some (.next s)

def allocBlockFF (s : State) (versize : ℕ) : Option (State × Option ℕ) :=
  let newblk := s.first .available
  s.forEach id .free (firstFitBody newblk versize) s

/-- The loop of first fit again: `last_allocate` is declared beside it and not used. -/
def allocBlockNF (s : State) (versize : ℕ) : Option (State × Option ℕ) :=
  let newblk := s.first .available
  s.forEach id .free (firstFitBody newblk versize) s

structure Best where
  state : State
  newsize : ℕ
  newveradd : ℕ

/-- The first loop of `alloc_block_BF` looks for an exact fit. -/
def exactBody (versize blk : ℕ) (s : State) : Option (Flow State ℕ) :=
  some (if s.size blk = versize then .exit (s.remove .free blk) blk else .next s)

/-- The second loop takes the first larger block as the candidate. -/
def candidateBody (versize blk : ℕ) (b : Best) : Option (Flow Best Unit) :=
  some (if versize < b.state.size blk then
    .exit ⟨b.state, b.state.size blk, b.state.sva blk⟩ () else .next b)

/-- The third loop moves to every strictly smaller candidate. -/
def smallestBody (versize blk : ℕ) (b : Best) : Option (Flow Best Unit) :=
  some (.next (if b.state.size blk < b.newsize ∧ versize < b.state.size blk then
    ⟨b.state, b.state.size blk, b.state.sva blk⟩ else b))

/-- The fourth loop cuts the request off the front of the candidate. -/
def carveBody (newblk : Option ℕ) (versize newsize newveradd blk : ℕ) (s : State) :
    Option (Flow State ℕ) :=
  if s.size blk = newsize ∧ s.sva blk = newveradd then do
    let n ← newblk
    let s := ((s.remove .available n).setSize n versize).setSva n newveradd
    let s := s.setSize blk (u32 (s.size blk + 2 ^ 32 - versize))
    return .exit (s.setSva blk (u32 (s.sva blk + s.size n))) n
  else some (.next s)

/-- `newsize` and `newveradd` are what the uninitialised locals happen to hold. -/
def allocBlockBF (s : State) (versize newsize newveradd : ℕ) : Option (State × Option ℕ) := do
  let newblk := s.first .available
  let (s, exact) ← s.forEach id .free (exactBody versize) s
  match exact with
  | some blk => return (s, some blk)
  | none =>
    let (b, _) ← s.forEach Best.state .free (candidateBody versize) ⟨s, newsize, newveradd⟩
    let (b, _) ← s.forEach Best.state .free (smallestBody versize) b
    s.forEach id .free (carveBody newblk versize b.newsize b.newveradd) s

def addToAvailMemBlocksList (s : State) (blk : ℕ) : State :=
  ((s.setSva blk 0).setSize blk 0).insertTail .available blk

/-- What `insert_sorted_with_merge_freeList` does at the first free block above the new one. -/
def mergeAt (s : State) (blk it : ℕ) : State :=
  match s.store.prev it with
  | none =>
    if u32 (s.size blk + s.sva blk) = s.sva it then
      let s := s.setSva it (s.sva blk)
      addToAvailMemBlocksList (s.setSize it (u32 (s.size it + s.size blk))) blk
    else s.insertBefore .free it blk
  | some prev =>
    if u32 (s.sva prev + s.size prev + s.size blk) = s.sva it then
      let s := s.setSize prev (u32 (s.size prev + s.size blk + s.size it))
      let s := s.remove .free it
      addToAvailMemBlocksList (addToAvailMemBlocksList s blk) it
    else if u32 (s.sva prev + s.size prev) = s.sva blk then
      addToAvailMemBlocksList (s.setSize prev (u32 (s.size prev + s.size blk))) blk
    else if u32 (s.size blk + s.sva blk) = s.sva it then
      let s := s.setSva it (s.sva blk)
      addToAvailMemBlocksList (s.setSize it (u32 (s.size it + s.size blk))) blk
    else s.insertBefore .free it blk

def mergeBody (blk it : ℕ) (s : State) : Option (Flow State Unit) :=
  some (if s.sva blk < s.sva it then .exit (mergeAt s blk it) () else .next s)

def insertSortedWithMergeFreeList (s : State) (blk : ℕ) : Option State :=
  if (s.store.head .free).size = 0 then some (s.insertHead .free blk)
  else do
    let last ← s.last .free
    if s.sva last < s.sva blk then
      if u32 (s.sva last + s.size last) = s.sva blk then
        some (addToAvailMemBlocksList (s.setSize last (u32 (s.size last + s.size blk))) blk)
      else some (s.insertAfter .free last blk)
    else
      let (s, _) ← s.forEach id .free (mergeBody blk) s
      return s

/-- A managed range and the number of nodes set aside for it. The bounds say
that a block per page fits and that no address of the range wraps. -/
structure Heap where
  lo : ℕ
  hi : ℕ
  cnt : ℕ
  lt : lo < hi
  pages : hi - lo ≤ pageSize * cnt
  word : hi < 2 ^ 32
  dvd : pageSize ∣ hi - lo
  dvd_lo : pageSize ∣ lo

def sizeOfMemBlock : ℕ := 16

/-- The node array lies at the start of the kernel heap. -/
def kernelNodesSize : ℕ := roundUp (sizeOfMemBlock * numOfKHeapPages) pageSize

def kernelHeap : Heap where
  lo := kernelHeapMax - (kernelHeapMax - kernelHeapStart - kernelNodesSize)
  hi := kernelHeapMax
  cnt := numOfKHeapPages
  lt := by decide
  pages := by decide
  word := by decide
  dvd := by decide
  dvd_lo := by decide

def userHeap : Heap where
  lo := userHeapStart
  hi := userHeapMax
  cnt := numOfUHeapPages
  lt := by decide
  pages := by decide
  word := by decide
  dvd := by decide
  dvd_lo := by decide

/-- The list part of `initialize_dyn_block_system`, from any earlier contents of
the globals and of the node array. -/
def initializeDynBlockSystem (h : Heap) (s : State) : Option State := do
  let s := { s with store := (s.store.init .alloc).init .free, maxMemBlockCnt := h.cnt }
  let s := initializeMemBlocksList s s.maxMemBlockCnt
  let ourBlock ← s.last .available
  let s := s.remove .available ourBlock
  let s := (s.setSize ourBlock (h.hi - h.lo)).setSva ourBlock h.lo
  return s.insertTail .free ourBlock

end FosKernel.DynamicAllocator
