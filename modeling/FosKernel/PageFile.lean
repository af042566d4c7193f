import Mathlib.Data.Int.Basic
import FosKernel.MemoryManager

/-!
# The page file

The directory and the tables of an environment's page file lie in the kernel heap and
hold numbers of disk frames. Reading and writing the disk does not fail.
-/

namespace FosKernel.Machine
open FailingPrograms PageEntries

def eNoPageFileSpace : ℤ := -8
def ePageNotExistInPf : ℤ := -9

def modifyEnv (e : ℕ) (f : Env → Env) : Kernel Unit := modify fun s => s.setEnv e (f (s.envs e))

/-- `none` is `E_NO_PAGE_FILE_SPACE`. -/
def allocateDiskFrame : Kernel (Option ℕ) := do
  let s ← get
  match s.diskFreeFrameList with
  | [] => return none
  | f :: fs =>
    set { s with diskFreeFrameList := fs }
    return some f

def freeDiskFrame (dfn : ℕ) : Kernel Unit := do
  if dfn ≠ 0 then modify fun s => { s with diskFreeFrameList := dfn :: s.diskFreeFrameList }

def writeDiskPage (dfn va : ℕ) : Kernel Unit := do
  let p ← readPage va
  modify fun s => { s with disk := Function.update s.disk dfn p }

def readDiskPage (dfn va : ℕ) : Kernel Unit := do
  writePage va ((← get).disk dfn)

/-- Makes the directory of the page file where there is none. -/
def getDiskPageDirectory (e : ℕ) : Kernel Unit := do
  if ((← get).envs e).diskEnvPgdir = 0 then
    let p ← kmalloc createPageTable pageSize
    modifyEnv e fun v => { v with diskEnvPgdir := p }
    if p ≠ 0 then
      let pa ← kheapPhysicalAddress p
      modifyEnv e fun v => { v with diskEnvPgdirPA := pa }
      clearPage p

/-- The pointer to the table, 0 where there is none. -/
def getDiskPageTable (dir va : ℕ) (create : Bool) : Kernel ℕ := do
  let w ← readEntry dir (pdx va)
  let pt ← if checkIfKernelAddress va then staticKernelVirtualAddress (extractAddress w)
    else kheapVirtualAddress (extractAddress w)
  if w ≠ 0 then return pt
  if create then
    let pt ← kmalloc createPageTable pageSize
    if pt = 0 then return 0
    writeEntry dir (pdx va) (constructEntry (← kheapPhysicalAddress pt) permPresent)
    clearPage pt
    return pt
  else return 0

/-- The disk frame of a page, allocated where there is none. -/
def diskFrameOf (e va : ℕ) : Kernel (Option ℕ) := do
  if kernelBase ≤ va then throw .assertion
  getDiskPageDirectory e
  let pt ← getDiskPageTable ((← get).envs e).diskEnvPgdir va true
  let dfn ← readEntry pt (ptx va)
  if dfn ≠ 0 then return some dfn
  match ← allocateDiskFrame with
  | none => return none
  | some dfn =>
    writeEntry pt (ptx va) dfn
    return some dfn

def pfAddEnvPage (e va dataSrc : ℕ) : Kernel ℤ := do
  match ← diskFrameOf e va with
  | none => return eNoPageFileSpace
  | some dfn =>
    writeDiskPage dfn dataSrc
    return 0

/-- With `initializeByZero` not set. -/
def pfAddEmptyEnvPage (e va : ℕ) : Kernel ℤ := do
  match ← diskFrameOf e va with
  | none => return eNoPageFileSpace
  | some _ => return 0

/-- The end of `pf_update_env_page`: the frame is written from `USER_LIMIT`. -/
def pfWriteFrame (e va f : ℕ) : Kernel ℤ := do
  let pt ← getDiskPageTable ((← get).envs e).diskEnvPgdir va false
  let dfn ← readEntry pt (ptx va)
  let dir := ((← get).envs e).envPageDirectory
  let _ ← mapFrame createPageTable dir f userLimit 0
  writeDiskPage dfn userLimit
  modify fun s => s.setInfo f ((s.framesInfo f).addReferences 1)
  unmapFrame dir userLimit
  modify fun s => s.setInfo f ((s.framesInfo f).addReferences (2 ^ 16 - 1))
  modifyEnv e fun v => { v with nPageOut := u32 (v.nPageOut + 1) }
  return 0

def pfUpdateEnvPage (e va f : ℕ) : Kernel ℤ := do
  if kernelBase ≤ va then throw .assertion
  getDiskPageDirectory e
  let pt ← getDiskPageTable ((← get).envs e).diskEnvPgdir va false
  let dfn ← if pt = 0 then pure 0 else readEntry pt (ptx va)
  if dfn = 0 then
    if InHeapOrStack va then
      let (g, _) ← getFrameInfo ((← get).envs e).envPageDirectory va
      if g = some f then
        if (← pfAddEnvPage e va va) = eNoPageFileSpace then throw .pageFileSpace
        modifyEnv e fun v => { v with nNewPageAdded := u32 (v.nNewPageAdded + 1) }
        return 0
      else
        if (← pfAddEmptyEnvPage e va) = eNoPageFileSpace then throw .pageFileSpace
        modifyEnv e fun v => { v with nNewPageAdded := u32 (v.nNewPageAdded + 1) }
        pfWriteFrame e va f
    else throw .invalidAccess
  else pfWriteFrame e va f

def pfReadEnvPage (e va : ℕ) : Kernel ℤ := do
  let va := roundDown va pageSize
  let v := (← get).envs e
  if v.diskEnvPgdir = 0 then return ePageNotExistInPf
  let pt ← getDiskPageTable v.diskEnvPgdir va false
  if pt = 0 then return ePageNotExistInPf
  let dfn ← readEntry pt (ptx va)
  if dfn = 0 then return ePageNotExistInPf
  readDiskPage dfn va
  ptSetPagePermissions v.envPageDirectory va 0 permModified
  modifyEnv e fun v => { v with nPageIn := u32 (v.nPageIn + 1) }
  return 0

def pfRemoveEnvPage (e va : ℕ) : Kernel Unit := do
  let v := (← get).envs e
  if v.diskEnvPgdir = 0 then return
  let pt ← getDiskPageTable v.diskEnvPgdir va false
  if pt = 0 then return
  let dfn ← readEntry pt (ptx va)
  writeEntry pt (ptx va) 0
  freeDiskFrame dfn

end FosKernel.Machine
