import FosKernel.PageFile

/-!
# Working sets and faults

The handlers, with one working set per environment and the modified clock algorithm for
replacement. `fault_handler` counts how often the same address has faulted in a row,
whatever environment and whatever kind of fault it was.
-/

namespace FosKernel.Machine
open FailingPrograms PageEntries

def envPageWsGetSize (v : Env) : ℕ :=
  (List.range v.pageWSMaxSize).countP fun i => !(v.ptrPageWorkingSet i).empty

def setWorkingSetElement (e i : ℕ) (v : WorkingSetElement) : Kernel Unit :=
  modifyEnv e fun env => { env with ptrPageWorkingSet := Function.update env.ptrPageWorkingSet i v }

def envPageWsSetEntry (e i va : ℕ) : Kernel Unit := do
  if ((← get).envs e).pageWSMaxSize ≤ i then throw .assertion
  if userTop ≤ va then throw .assertion
  setWorkingSetElement e i ⟨roundDown va pageSize, false, 0x80000000⟩

def envPageWsClearEntry (e i : ℕ) : Kernel Unit := do
  if ((← get).envs e).pageWSMaxSize ≤ i then throw .assertion
  setWorkingSetElement e i ⟨0, true, 0⟩

def envPageWsGetVirtualAddress (e i : ℕ) : Kernel ℕ := do
  let v := (← get).envs e
  if v.pageWSMaxSize ≤ i then throw .assertion
  return roundDown (v.ptrPageWorkingSet i).virtualAddress pageSize

/-- An entry for the page at `last_index`, and the hand moves on. -/
def enterPage (e lastIndex faultVa : ℕ) : Kernel Unit := do
  envPageWsSetEntry e lastIndex faultVa
  modifyEnv e fun v => { v with pageLastWSIndex := u32 (v.pageLastWSIndex + 1) }

/-- `placment` -/
def placement (e faultVa : ℕ) : Kernel Unit := do
  let v := (← get).envs e
  if envPageWsGetSize v < v.pageWSMaxSize then
    let f ← allocateFrame
    let _ ← mapFrame createPageTable v.envPageDirectory f faultVa (permModified ||| permWriteable ||| permUser)
    let ret ← pfReadEnvPage e faultVa
    if ret = 0 then enterPage e v.pageLastWSIndex faultVa
    else if ret = ePageNotExistInPf then
      if InHeapOrStack faultVa then enterPage e v.pageLastWSIndex faultVa
      else
        unmapFrame v.envPageDirectory faultVa
        throw .illegalAccess
    modifyEnv e fun v =>
      { v with pageLastWSIndex := if v.pageLastWSIndex = v.pageWSMaxSize then 0 else v.pageLastWSIndex }

/-- One round of the loops over the working set: a page that was not used lately makes
room for the faulted one, and a used one is marked as not used. -/
def clockEntry (e faultVa i : ℕ) : Kernel Bool := do
  let va ← envPageWsGetVirtualAddress e i
  let dir := ((← get).envs e).envPageDirectory
  let (f, _) ← getFrameInfo dir va
  let perms := (← ptGetPagePermissions dir va).getD (2 ^ 32 - 1)
  if ¬HasPerm perms permUsed then
    if HasPerm perms permModified then
      match f with
      | some f => let _ ← pfUpdateEnvPage e va f
      | none => throw (.pageFault 0)
    envPageWsClearEntry e i
    unmapFrame dir va
    modifyEnv e fun v => { v with pageLastWSIndex := i }
    placement e faultVa
    return true
  else
    ptSetPagePermissions dir va 0 permUsed
    return false

/-- The `while` loop. A pass that finds no page has marked all of them as not used. -/
def clockPasses (e faultVa : ℕ) : ℕ → Kernel Unit
  | 0 => throw .nesting
  | n + 1 => do
    let v := (← get).envs e
    if ← anyRange (clockEntry e faultVa) v.pageLastWSIndex (v.pageWSMaxSize - v.pageLastWSIndex) then
      return
    if ← anyRange (clockEntry e faultVa) 0 v.pageLastWSIndex then return
    clockPasses e faultVa n

def pageFaultHandler (e faultVa : ℕ) : Kernel Unit := do
  let v := (← get).envs e
  if envPageWsGetSize v < v.pageWSMaxSize then placement e faultVa
  else clockPasses e faultVa 3

def tableFaultHandler (e faultVa : ℕ) : Kernel Unit := do
  let _ ← createPageTable ((← get).envs e).envPageDirectory faultVa

/-- One round of the loop over the working set of `free_user_mem`. -/
def freeWorkingSetEntry (e va size j : ℕ) : Kernel Unit := do
  let page ← envPageWsGetVirtualAddress e j
  let v := (← get).envs e
  if ¬(v.ptrPageWorkingSet j).empty then
    if va ≤ page ∧ page < u32 (va + size) then
      modifyEnv e fun v => { v with pageLastWSIndex := j }
      unmapFrame v.envPageDirectory page
      envPageWsClearEntry e j

/-- One round of the loop over the pages: a table without entries is freed. -/
def freeUserPage (e i _counter : ℕ) : Kernel Unit := do
  pfRemoveEnvPage e i
  let dir := ((← get).envs e).envPageDirectory
  match ← getPageTable dir i with
  | none => pure ()
  | some pt =>
    let used ← anyRange (fun j => do return decide ((← readEntry pt j) ≠ 0)) 0 1024
    if !used then
      kfree pt
      writeEntry dir (pdx i) 0

def freeUserMem (e va size : ℕ) : Kernel Unit := do
  let va := roundDown va pageSize
  let size := roundUp size pageSize
  forRange (freeWorkingSetEntry e va size) 0 ((← get).envs e).pageWSMaxSize
  forPages (freeUserPage e) (u32 (va + size)) (2 ^ 20) va 0

def kernelStackTop : ℕ := vpt
def kernelStackSize : ℕ := 8 * pageSize

/-- Where `fault_handler` stops. -/
inductive FaultPanic
  /-- `same va is faulted for 3 successive times` -/
  | repeatedFault
  /-- `Kernel: stack overflow exception!` -/
  | stackOverflow
  /-- `User: stack underflow exception!` -/
  | stackUnderflow
  /-- in another function -/
  | other (p : Panic)
deriving DecidableEq

/-- The machine with the running environment and the globals of `fault_handler`. -/
structure FaultState where
  machine : Machine
  curenv : ℕ
  lastFaultVa : ℕ
  numRepeatedFault : ℤ

abbrev FaultKernel (α : Type) := Prog FaultState FaultPanic α

def onFault {α : Type} (x : Kernel α) : FaultKernel α := do
  let s ← get
  match x.run s.machine with
  | .ok (a, m) =>
    set { s with machine := m }
    return a
  | .error e => throw (.other e)

/-- `num_repeated_fault` is an `int8`. -/
def countFault (faultVa : ℕ) : FaultKernel Unit := do
  let s ← get
  if s.lastFaultVa = faultVa then
    set { s with numRepeatedFault := (s.numRepeatedFault + 1).bmod 256 }
    if (s.numRepeatedFault + 1).bmod 256 = 3 then throw .repeatedFault
  else set { s with numRepeatedFault := 0 }
  modify fun s => { s with lastFaultVa := faultVa }

/-- The faulted address is in a table that is missing, or its page is. -/
def handleFault (e faultVa : ℕ) : Kernel Unit := do
  let dir := ((← get).envs e).envPageDirectory
  let w ← readEntry dir (pdx faultVa)
  if ¬HasPerm w permPresent then
    modifyEnv e fun v => { v with tableFaultsCounter := u32 (v.tableFaultsCounter + 1) }
    tableFaultHandler e faultVa
  else
    let perms := (← ptGetPagePermissions dir faultVa).getD (2 ^ 32 - 1)
    if HasPerm perms permPresent then throw .accessRights
    modifyEnv e fun v => { v with pageFaultsCounter := u32 (v.pageFaultsCounter + 1) }
    pageFaultHandler e faultVa

def faultHandler (userTrap : Bool) (faultVa : ℕ) : FaultKernel Unit := do
  countFault faultVa
  if userTrap then
    if ustackTop ≤ faultVa then throw .stackUnderflow
  else if faultVa < kernelStackTop - kernelStackSize ∧ userLimit ≤ faultVa then throw .stackOverflow
  onFault (handleFault (← get).curenv faultVa)

end FosKernel.Machine
