import Mathlib.Data.Int.Basic
import FosKernel.MemoryManager

/-!
# Shared objects

An entry of `shares` names a page of frame numbers, laid out like a page directory.
`getSharedObject` uses the result of its lookup as an index before it looks at it, so
the entries are read at any integer: outside the array they are the memory around it.
-/

namespace FosKernel.SharedMemory
open FailingPrograms PageEntries Machine

def eNoShare : ℤ := -14
def eSharedMemExists : ℤ := -15
def eSharedMemNotExists : ℤ := -16

/-- `size` is an `int` and `isWritable` a `uint8`. -/
structure Share where
  ownerID : ℤ
  name : String
  size : ℤ
  references : ℕ
  isWritable : ℕ
  empty : Bool
  framesStorage : ℕ

structure State where
  machine : Machine
  curenv : ℕ
  shares : ℤ → Share
  maxShares : ℕ

def State.setShare (s : State) (i : ℤ) (v : Share) : State :=
  { s with shares := Function.update s.shares i v }

abbrev Sharing (α : Type) := Prog State Panic α

def onMachine {α : Type} (x : Kernel α) : Sharing α := do
  let s ← get
  match x.run s.machine with
  | .ok (a, m) =>
    set { s with machine := m }
    return a
  | .error e => throw e

/-- A share after `memset`, marked as empty. -/
def Share.cleared : Share := ⟨0, "", 0, 0, 0, true, 0⟩

/-- The loop of `create_shares_array` -/
def createSharesArray (s : State) (numOfElements : ℕ) : State :=
  (List.range numOfElements).foldl (fun s i => s.setShare i .cleared)
    { s with maxShares := numOfElements }

/-- `!shares[i].empty`, and the owner and the name are those of the object. -/
def State.hit (s : State) (ownerID : ℤ) (name : String) (i : ℕ) : Bool :=
  !(s.shares i).empty && (s.shares i).ownerID == ownerID && name == (s.shares i).name

/-- The result is an index or `E_SHARED_MEM_NOT_EXISTS`. -/
def getShareObjectID (s : State) (ownerID : ℤ) (name : String) : ℤ :=
  match (List.range s.maxShares).find? (s.hit ownerID name) with
  | some i => i
  | none => eSharedMemNotExists

def createFramesStorage : Kernel ℕ := do
  let framesStorage ← kmalloc createPageTable pageSize
  if framesStorage = 0 then throw .heapSpace
  return framesStorage

/-- The result is an index or `E_NO_SHARE`. -/
def allocateShareObject : Sharing ℤ := do
  let s ← get
  match (List.range s.maxShares).find? fun i : ℕ => (s.shares i).empty with
  | none => return eNoShare
  | some i =>
    modify fun s => s.setShare i { s.shares i with empty := false }
    let framesStorage ← onMachine createFramesStorage
    modify fun s => s.setShare i { s.shares i with framesStorage := framesStorage }
    onMachine (clearPage framesStorage)
    return i

def addFrameToStorage (framesStorage f index : ℕ) : Kernel Unit := do
  let va := u32 (index * pageSize)
  let pt ← match ← getPageTable framesStorage va with
    | some pt => pure pt
    | none => createPageTable framesStorage va
  writeEntry pt (ptx va) (constructEntry (toPhysicalAddress f) permPresent)

/-- `none` is NULL. -/
def getFrameFromStorage (framesStorage index : ℕ) : Kernel (Option ℕ) := do
  let (f, _) ← getFrameInfo framesStorage (u32 (index * pageSize))
  return f

def getSizeOfSharedObject (s : State) (ownerID : ℤ) (shareName : String) : ℤ :=
  let shareObjectID := getShareObjectID s ownerID shareName
  if shareObjectID = eSharedMemNotExists then eSharedMemNotExists else (s.shares shareObjectID).size

/-- One round of the loop of `createSharedObject`. -/
def createSharedPage (dir framesStorage i counter : ℕ) : Kernel Unit := do
  let f ← allocateFrame
  let _ ← mapFrame createPageTable dir f i (permUser ||| permPresent ||| permWriteable)
  addFrameToStorage framesStorage f counter

def createSharedObject (ownerID : ℤ) (shareName : String) (size isWritable va : ℕ) : Sharing ℤ := do
  let myenv := (← get).curenv
  if getShareObjectID (← get) ownerID shareName ≠ eSharedMemNotExists then return eSharedMemExists
  let ret ← allocateShareObject
  if ret ≠ eNoShare then
    let s ← get
    onMachine (forPages (createSharedPage (s.machine.envs myenv).envPageDirectory
      (s.shares ret).framesStorage) (u32 (va + size)) (2 ^ 20) va 0)
    modify fun s => s.setShare ret { s.shares ret with
      ownerID := ownerID
      size := (size : ℤ).bmod (2 ^ 32)
      isWritable := isWritable % 2 ^ 8
      references := 1
      name := shareName }
    return ret
  else return eNoShare

/-- One round of the loop of `getSharedObject`. A null frame has no physical address. -/
def getSharedPage (dir framesStorage permission i counter : ℕ) : Kernel Unit := do
  match ← getFrameFromStorage framesStorage counter with
  | some f => let _ ← mapFrame createPageTable dir f i permission
  | none => throw (.pageFault 0)

def getSharedObject (ownerID : ℤ) (shareName : String) (va : ℕ) : Sharing ℤ := do
  let s ← get
  let ret := getShareObjectID s ownerID shareName
  let myshare := s.shares ret
  let endVa := u32 (roundUp (unsigned myshare.size) pageSize + va)
  if ret ≠ eSharedMemNotExists then
    let permission := if myshare.isWritable = 1 then permPresent ||| permUser ||| permWriteable
      else permPresent ||| permUser
    onMachine (forPages (getSharedPage (s.machine.envs s.curenv).envPageDirectory myshare.framesStorage
      permission) endVa (2 ^ 20) va 0)
    modify fun s => s.setShare ret { s.shares ret with references := u32 ((s.shares ret).references + 1) }
    return ret
  else return eSharedMemNotExists

end FosKernel.SharedMemory
