import FosKernel.Boot
import FosKernel.SemaphoreTable
import FosKernel.SharedMemory

/-!
# Names that are in no table

`waitSemaphore`, `signalSemaphore` and `getSharedObject` take what the lookup returns
as an index. For a name that is in no table that is an error code. Here the functions
also note the index of each entry of `semaphores` or `shares` that they read or write.
-/

namespace FosKernel.MissingNames
open FailingPrograms PageEntries Scheduler
open SharedMemory (Share eSharedMemNotExists)

/-- A run over `σ` notes indices, and may end without a result. -/
abbrev Traced (σ : Type) := StateT σ (OptionT (StateM (List ℤ)))

variable {σ α β : Type}

/-- The result with the state, if there is one, and the indices after those of `l`. -/
def Traced.exec (x : Traced σ α) (s : σ) (l : List ℤ) : Option (α × σ) × List ℤ := ((x.run s).run).run l

def touch (i : ℤ) : Traced σ Unit := modifyThe (List ℤ) (· ++ [i])

/-- `semaphores[i]`, which the run does not survive outside the array. -/
def semaphoreAt (i : ℤ) : Traced Scheduler.State ℕ := do
  touch i
  if 0 ≤ i ∧ i < (← get).maxSemaphores then return i.toNat else failure

/-- The loop of `get_semaphore_object_ID` from `i` on. -/
def semaphoreIDFrom (ownerID : ℤ) (name : String) : ℕ → ℕ → Traced Scheduler.State ℤ
  | 0, _ => return eSemaphoreNotExists
  | n + 1, i => do
    let j ← semaphoreAt i
    let v := (← get).semaphores j
    if v.empty then semaphoreIDFrom ownerID name n (i + 1)
    else if v.ownerID = ownerID ∧ v.name = name then return i
    else semaphoreIDFrom ownerID name n (i + 1)

def semaphoreID (ownerID : ℤ) (name : String) : Traced Scheduler.State ℤ := do
  semaphoreIDFrom ownerID name (← get).maxSemaphores 0

def waitSemaphore (ownerEnvID : ℤ) (semaphoreName : String) : Traced Scheduler.State Unit := do
  let myenv := (← get).curenv
  let sem ← semaphoreID ownerEnvID semaphoreName
  let j ← semaphoreAt sem
  let res := int32 (((← get).semaphores j).value - 1)
  modify (·.setValue j res)
  if res < 0 then
    let j ← semaphoreAt sem
    modify (enqueue · (.sem j) myenv)
    match myenv with
    | some e => modify fun s => { s.setStatus e .blocked with curenv := none }
    | none => failure
  modify fosScheduler

def signalSemaphore (ownerEnvID : ℤ) (semaphoreName : String) : Traced Scheduler.State Unit := do
  let sem ← semaphoreID ownerEnvID semaphoreName
  let j ← semaphoreAt sem
  let res := int32 (((← get).semaphores j).value + 1)
  modify (·.setValue j res)
  if res ≤ 0 then
    let j ← semaphoreAt sem
    let (s, myenv) := dequeue (← get) (.sem j)
    set (schedInsertReady s myenv)
    match myenv with
    | some e => modify (·.setStatus e .ready)
    | none => failure

/-- `shares[i]`, of which the memory around the array can be read as well. -/
def shareAt (i : ℤ) : Traced SharedMemory.State Share := do
  touch i
  return (← get).shares i

/-- The loop of `get_share_object_ID` from `i` on. -/
def shareIDFrom (ownerID : ℤ) (name : String) : ℕ → ℕ → Traced SharedMemory.State ℤ
  | 0, _ => return eSharedMemNotExists
  | n + 1, i => do
    let v ← shareAt i
    if v.empty then shareIDFrom ownerID name n (i + 1)
    else if v.ownerID = ownerID ∧ name = v.name then return i
    else shareIDFrom ownerID name n (i + 1)

def shareID (ownerID : ℤ) (name : String) : Traced SharedMemory.State ℤ := do
  shareIDFrom ownerID name (← get).maxShares 0

/-- A function of the memory manager, which does not know the table. -/
def onMachine (x : Machine.Kernel α) : Traced SharedMemory.State α := do
  let s ← get
  match x.run s.machine with
  | .ok (a, m) =>
    set { s with machine := m }
    return a
  | .error _ => failure

/-- The loop of `getSharedObject`. -/
def getSharedPages (ret : ℤ) (dir stop : ℕ) : ℕ → ℕ → ℕ → Traced SharedMemory.State Unit
  | 0, i, _ => if i < stop then failure else pure ()
  | n + 1, i, counter =>
    if i < stop then do
      let myshare ← shareAt ret
      let permission := if myshare.isWritable = 1 then permPresent ||| permUser ||| permWriteable
        else permPresent ||| permUser
      onMachine (SharedMemory.getSharedPage dir myshare.framesStorage permission i counter)
      getSharedPages ret dir stop n (u32 (i + pageSize)) (counter + 1)
    else pure ()

def getSharedObject (ownerID : ℤ) (shareName : String) (va : ℕ) : Traced SharedMemory.State ℤ := do
  let ret ← shareID ownerID shareName
  let myshare ← shareAt ret
  let endVa := u32 (roundUp (unsigned myshare.size) pageSize + va)
  if ret ≠ eSharedMemNotExists then
    let s ← get
    getSharedPages ret (s.machine.envs s.curenv).envPageDirectory endVa (2 ^ 20) va 0
    let myshare ← shareAt ret
    modify (·.setShare ret { myshare with references := u32 (myshare.references + 1) })
    return ret
  else return eSharedMemNotExists

namespace Traced

variable {x : Traced σ α} {f : α → Traced σ β} {a : α} {s t : σ} {l l' : List ℤ}

theorem bind_some (h : x.exec s l = (some (a, t), l')) : Traced.exec (x >>= f) s l = (f a).exec t l' := by
  unfold exec at h ⊢
  rw [StateT.run_bind, OptionT.run_bind, Option.elimM, StateT.run_bind, h]
  rfl

theorem bind_none (h : x.exec s l = (none, l')) : Traced.exec (x >>= f) s l = (none, l') := by
  unfold exec at h ⊢
  rw [StateT.run_bind, OptionT.run_bind, Option.elimM, StateT.run_bind, h]
  rfl

@[simp] theorem exec_pure (a : α) : exec (pure a) s l = (some (a, s), l) := rfl
@[simp] theorem exec_get : exec get s l = (some (s, s), l) := rfl
@[simp] theorem exec_set : exec (set t) s l = (some (⟨⟩, t), l) := rfl
@[simp] theorem exec_modify (g : σ → σ) : exec (modify g) s l = (some (⟨⟩, g s), l) := rfl
@[simp] theorem exec_failure : exec (failure : Traced σ α) s l = (none, l) := rfl
@[simp] theorem exec_touch (i : ℤ) : exec (touch i) s l = (some (⟨⟩, s), l ++ [i]) := rfl

end Traced

variable {s : Scheduler.State} {o : ℤ} {m : String} {n k j : ℕ} {i : ℤ} {l : List ℤ} {hit : ℕ → Bool}

/-- All indices are those of a table of `n` entries. -/
def Inside (n : ℕ) (v : List ℤ) : Prop := ∀ i ∈ v, 0 ≤ i ∧ i < n

@[simp] theorem inside_nil : Inside n [] := by simp [Inside]

@[simp] theorem inside_append {v w : List ℤ} : Inside n (v ++ w) ↔ Inside n v ∧ Inside n w :=
  List.forall_mem_append

@[simp] theorem inside_cons {v : List ℤ} : Inside n (i :: v) ↔ (0 ≤ i ∧ i < n) ∧ Inside n v :=
  List.forall_mem_cons

/-- The entries that a lookup looks at, in order: those up to the first hit. -/
def visited (hit : ℕ → Bool) : ℕ → ℕ → List ℤ
  | 0, _ => []
  | n + 1, i => i :: if hit i then [] else visited hit n (i + 1)

theorem mem_visited (h : i ∈ visited hit n k) : 0 ≤ i ∧ i < (k + n : ℕ) := by
  induction n generalizing k with
  | zero => cases h
  | succ n ih =>
    rw [visited] at h
    rcases List.mem_cons.mp h with rfl | h
    · omega
    · split at h
      · cases h
      · have := ih h
        omega

def semaphoreHit (s : Scheduler.State) (ownerID : ℤ) (name : String) (i : ℕ) : Bool :=
  !(s.semaphores i).empty && (s.semaphores i).ownerID == ownerID && (s.semaphores i).name == name

theorem semaphoreAt_inside (hj : j < s.maxSemaphores) : (semaphoreAt j).exec s l = (some (j, s), l ++ [(j : ℤ)]) := by
  rw [semaphoreAt, Traced.bind_some (Traced.exec_touch _), Traced.bind_some Traced.exec_get,
    if_pos ⟨Int.natCast_nonneg j, by exact_mod_cast hj⟩]
  rfl

theorem semaphoreAt_outside (hi : ¬(0 ≤ i ∧ i < s.maxSemaphores)) :
    (semaphoreAt i).exec s l = (none, l ++ [i]) := by
  rw [semaphoreAt, Traced.bind_some (Traced.exec_touch _), Traced.bind_some Traced.exec_get, if_neg hi]
  rfl

theorem semaphoreIDFrom_exec (hk : k + n ≤ s.maxSemaphores) : (semaphoreIDFrom o m n k).exec s l =
    (some (semaphoreCode ((List.range' k n).find? (semaphoreHit s o m)), s), l ++ visited (semaphoreHit s o m) n k) := by
  induction n generalizing k l with
  | zero => simp [semaphoreIDFrom, visited, semaphoreCode]
  | succ n ih =>
    rw [semaphoreIDFrom, Traced.bind_some (semaphoreAt_inside (by omega)), Traced.bind_some Traced.exec_get,
      List.range'_succ, List.find?_cons, visited]
    by_cases he : (s.semaphores k).empty
    · have hhit : semaphoreHit s o m k = false := by simp [semaphoreHit, he]
      simp only [he, if_true, hhit, Bool.false_eq_true, if_false]
      rw [ih (by omega), List.append_assoc, List.singleton_append]
    · by_cases hm : (s.semaphores k).ownerID = o ∧ (s.semaphores k).name = m
      · have hhit : semaphoreHit s o m k = true := by simp [semaphoreHit, he, hm]
        simp [he, hm, hhit, semaphoreCode]
      · have hhit : semaphoreHit s o m k = false := by
          simp only [semaphoreHit, Bool.and_eq_false_iff, beq_eq_false_iff_ne, ne_eq]
          tauto
        simp only [he, hm, if_false, hhit, Bool.false_eq_true]
        rw [ih (by omega), List.append_assoc, List.singleton_append]

theorem semaphoreID_exec (s : Scheduler.State) (o : ℤ) (m : String) (l : List ℤ) : ∃ v, Inside s.maxSemaphores v ∧
    (semaphoreID o m).exec s l = (some (semaphoreCode (getSemaphoreObjectID s o m), s), l ++ v) := by
  refine ⟨visited (semaphoreHit s o m) s.maxSemaphores 0, fun i hi => ?_, ?_⟩
  · have := mem_visited hi
    omega
  · rw [semaphoreID, Traced.bind_some Traced.exec_get, semaphoreIDFrom_exec (by omega), getSemaphoreObjectID,
      List.range_eq_range']
    rfl

/-- A call on a semaphore of the table does what it does without notes, and stays in the table. -/
theorem waitSemaphore_found (h : getSemaphoreObjectID s o m = some j) : ∃ v, Inside s.maxSemaphores v ∧
    (waitSemaphore o m).exec s l = ((Scheduler.waitSemaphore s o m).map fun t => ((), t), l ++ v) := by
  have hj := (usedFor_of_getSemaphoreObjectID h).1
  obtain ⟨v, hv, hid⟩ := semaphoreID_exec s o m l
  rw [h] at hid
  rw [waitSemaphore, Traced.bind_some Traced.exec_get, Traced.bind_some hid, semaphoreCode,
    Traced.bind_some (semaphoreAt_inside hj), Traced.bind_some Traced.exec_get, Traced.bind_some (Traced.exec_modify _)]
  rw [Scheduler.waitSemaphore, h]
  set res := int32 ((s.semaphores j).value - 1)
  have hj' : j < (s.setValue j res).maxSemaphores := hj
  simp only [Option.bind_eq_bind, Option.bind_some]
  by_cases hneg : res < 0
  · rw [if_pos hneg, if_pos hneg, Traced.bind_some (semaphoreAt_inside hj'), Traced.bind_some (Traced.exec_modify _)]
    refine ⟨v ++ [(j : ℤ)] ++ [(j : ℤ)], by simp [hv, hj], ?_⟩
    simp only [← List.append_assoc]
    cases hc : s.curenv with
    | none =>
      simp only [Traced.bind_none Traced.exec_failure]
      rfl
    | some e =>
      simp only [Traced.bind_some (Traced.exec_modify _)]
      rfl
  · rw [if_neg hneg, if_neg hneg]
    refine ⟨v ++ [(j : ℤ)], by simp [hv, hj], ?_⟩
    rw [← List.append_assoc]
    rfl

theorem signalSemaphore_found (h : getSemaphoreObjectID s o m = some j) : ∃ v, Inside s.maxSemaphores v ∧
    (signalSemaphore o m).exec s l = ((Scheduler.signalSemaphore s o m).map fun t => ((), t), l ++ v) := by
  have hj := (usedFor_of_getSemaphoreObjectID h).1
  obtain ⟨v, hv, hid⟩ := semaphoreID_exec s o m l
  rw [h] at hid
  rw [signalSemaphore, Traced.bind_some hid, semaphoreCode,
    Traced.bind_some (semaphoreAt_inside hj), Traced.bind_some Traced.exec_get, Traced.bind_some (Traced.exec_modify _)]
  rw [Scheduler.signalSemaphore, h]
  set res := int32 ((s.semaphores j).value + 1)
  have hj' : j < (s.setValue j res).maxSemaphores := hj
  simp only [Option.bind_eq_bind, Option.bind_some]
  by_cases hpos : res ≤ 0
  · rw [if_pos hpos, if_pos hpos, Traced.bind_some (semaphoreAt_inside hj'), Traced.bind_some Traced.exec_get]
    refine ⟨v ++ [(j : ℤ)] ++ [(j : ℤ)], by simp [hv, hj], ?_⟩
    simp only [← List.append_assoc]
    rcases hd : dequeue (s.setValue j res) (.sem j) with ⟨t, _ | e⟩ <;> rfl
  · rw [if_neg hpos, if_neg hpos]
    refine ⟨v ++ [(j : ℤ)], by simp [hv, hj], ?_⟩
    rw [← List.append_assoc]
    rfl

theorem semaphore_missing (h : ¬InUse s o m) : ∃ v,
    (waitSemaphore o m).exec s l = (none, l ++ v ++ [eSemaphoreNotExists]) ∧
      (signalSemaphore o m).exec s l = (none, l ++ v ++ [eSemaphoreNotExists]) := by
  obtain ⟨v, -, hid⟩ := semaphoreID_exec s o m l
  rw [getSemaphoreObjectID_eq_none.mpr h] at hid
  have hout {l : List ℤ} : (semaphoreAt (semaphoreCode none)).exec s l = (none, l ++ [eSemaphoreNotExists]) :=
    semaphoreAt_outside fun hin => absurd hin.1 (by decide)
  refine ⟨v, ?_, ?_⟩
  · rw [waitSemaphore, Traced.bind_some Traced.exec_get, Traced.bind_some hid, Traced.bind_none hout]
  · rw [signalSemaphore, Traced.bind_some hid, Traced.bind_none hout]

section Shares

variable {s : SharedMemory.State} {ret : ℤ} {dir stop va : ℕ}

theorem shareAt_exec : (shareAt i).exec s l = (some (s.shares i, s), l ++ [i]) := rfl

def shareCode : Option ℕ → ℤ
  | some i => i
  | none => eSharedMemNotExists

theorem shareIDFrom_exec : (shareIDFrom o m n k).exec s l =
    (some (shareCode ((List.range' k n).find? (s.hit o m)), s), l ++ visited (s.hit o m) n k) := by
  induction n generalizing k l with
  | zero => simp [shareIDFrom, visited, shareCode]
  | succ n ih =>
    rw [shareIDFrom, Traced.bind_some shareAt_exec, List.range'_succ, List.find?_cons, visited]
    by_cases he : (s.shares k).empty
    · have hhit : s.hit o m k = false := by simp [SharedMemory.State.hit, he]
      simp only [he, if_true, hhit, Bool.false_eq_true, if_false]
      rw [ih, List.append_assoc, List.singleton_append]
    · by_cases hm : (s.shares k).ownerID = o ∧ m = (s.shares k).name
      · have hhit : s.hit o m k = true := by simp [SharedMemory.State.hit, he, hm.1, ← hm.2]
        simp [he, hm.1, ← hm.2, hhit, shareCode]
      · have hhit : s.hit o m k = false := by
          simp only [SharedMemory.State.hit, Bool.and_eq_false_iff, beq_eq_false_iff_ne, ne_eq]
          tauto
        simp only [he, hm, if_false, hhit, Bool.false_eq_true]
        rw [ih, List.append_assoc, List.singleton_append]

theorem shareID_exec (s : SharedMemory.State) (o : ℤ) (m : String) (l : List ℤ) : ∃ v, Inside s.maxShares v ∧
    (shareID o m).exec s l = (some (SharedMemory.getShareObjectID s o m, s), l ++ v) := by
  refine ⟨visited (s.hit o m) s.maxShares 0, fun i hi => ?_, ?_⟩
  · have := mem_visited hi
    omega
  · rw [shareID, Traced.bind_some Traced.exec_get, shareIDFrom_exec, SharedMemory.getShareObjectID,
      List.range_eq_range']
    rfl

/-- What a function of the memory manager leaves of the state. -/
def afterMachine (s : SharedMemory.State) (r : Except Machine.Panic (α × Machine)) : Option (α × SharedMemory.State) :=
  r.toOption.map fun p => (p.1, { s with machine := p.2 })

theorem onMachine_exec (x : Machine.Kernel α) : (onMachine x).exec s l = (afterMachine s (x.run s.machine), l) := by
  rw [onMachine, Traced.bind_some Traced.exec_get]
  rcases hx : x.run s.machine with e | ⟨a, mm⟩ <;> rfl

theorem onMachine_run (x : Machine.Kernel α) :
    ((SharedMemory.onMachine x).run s).toOption = afterMachine s (x.run s.machine) := by
  rw [SharedMemory.onMachine, run_bind_ok run_get]
  rcases hx : x.run s.machine with e | ⟨a, mm⟩ <;> rfl

/-- The permissions that the pages of an object get. -/
def sharePerm (v : Share) : ℕ :=
  if v.isWritable = 1 then permPresent ||| permUser ||| permWriteable else permPresent ||| permUser

theorem getSharedPages_exec (s : SharedMemory.State) (l : List ℤ) (ret : ℤ) (dir stop n k c : ℕ) : ∃ w, (∀ i ∈ w, i = ret) ∧ (getSharedPages ret dir stop n k c).exec s l =
    (afterMachine s ((Machine.forPages (SharedMemory.getSharedPage dir (s.shares ret).framesStorage
      (sharePerm (s.shares ret))) stop n k c).run s.machine), l ++ w) := by
  induction n generalizing k c s l with
  | zero =>
    refine ⟨[], by simp, ?_⟩
    rw [getSharedPages, Machine.forPages, List.append_nil]
    split <;> rfl
  | succ n ih =>
    rw [getSharedPages, Machine.forPages]
    by_cases hk : k < stop
    · rw [if_pos hk, if_pos hk, Traced.bind_some shareAt_exec]
      have hpage := onMachine_exec (s := s) (l := l ++ [ret])
        (SharedMemory.getSharedPage dir (s.shares ret).framesStorage (sharePerm (s.shares ret)) k c)
      rcases hx : (SharedMemory.getSharedPage dir (s.shares ret).framesStorage (sharePerm (s.shares ret)) k c).run
          s.machine with e | ⟨u, mm⟩
      · rw [hx] at hpage
        refine ⟨[ret], by simp, ?_⟩
        rw [run_bind_error hx]
        exact Traced.bind_none hpage
      · rw [hx] at hpage
        obtain ⟨w, hw, hrun⟩ := ih (s := { s with machine := mm }) (l := l ++ [ret]) (k := u32 (k + pageSize)) (c := c + 1)
        refine ⟨ret :: w, by simpa using hw, ?_⟩
        rw [List.append_assoc, List.singleton_append] at hrun
        rw [run_bind_ok hx]
        exact (Traced.bind_some hpage).trans hrun
    · rw [if_neg hk, if_neg hk]
      exact ⟨[], by simp, by rw [List.append_nil]; rfl⟩

/-- The call does what it does without notes. It looks at the table, and then at the entry that the result
of the lookup names. -/
theorem getSharedObject_exec (s : SharedMemory.State) (o : ℤ) (m : String) (va : ℕ) (l : List ℤ) :
    ∃ v w, Inside s.maxShares v ∧ (∀ i ∈ w, i = SharedMemory.getShareObjectID s o m) ∧
      SharedMemory.getShareObjectID s o m ∈ w ∧
      (getSharedObject o m va).exec s l = (((SharedMemory.getSharedObject o m va).run s).toOption, l ++ (v ++ w)) := by
  obtain ⟨v, hv, hid⟩ := shareID_exec s o m l
  rw [getSharedObject, Traced.bind_some hid, Traced.bind_some shareAt_exec]
  rw [SharedMemory.getSharedObject, run_bind_ok run_get]
  set ret := SharedMemory.getShareObjectID s o m
  by_cases hret : ret ≠ eSharedMemNotExists
  · simp only [if_pos hret]
    rw [Traced.bind_some Traced.exec_get]
    set dir := (s.machine.envs s.curenv).envPageDirectory
    set stop := u32 (roundUp (unsigned (s.shares ret).size) pageSize + va)
    obtain ⟨w, hw, hloop⟩ := getSharedPages_exec s (l ++ v ++ [ret]) ret dir stop (2 ^ 20) va 0
    have hmachine := onMachine_run (s := s) (Machine.forPages (SharedMemory.getSharedPage dir (s.shares ret).framesStorage
      (sharePerm (s.shares ret))) stop (2 ^ 20) va 0)
    rw [sharePerm] at hloop hmachine
    rw [← hmachine] at hloop
    rcases hx : (SharedMemory.onMachine (Machine.forPages (SharedMemory.getSharedPage dir (s.shares ret).framesStorage
      (sharePerm (s.shares ret))) stop (2 ^ 20) va 0)).run s with e | ⟨u, t⟩
    · rw [sharePerm] at hx
      rw [hx] at hloop
      refine ⟨v, ret :: w, hv, by simpa using hw, by simp, ?_⟩
      rw [Traced.bind_none hloop, run_bind_error hx]
      simp [Except.toOption]
    · rw [sharePerm] at hx
      rw [hx] at hloop
      refine ⟨v, ret :: w ++ [ret], hv, ?_, by simp, ?_⟩
      · simpa [or_imp, forall_and] using hw
      · rw [Traced.bind_some hloop, Traced.bind_some shareAt_exec, Traced.bind_some (Traced.exec_modify _), run_bind_ok hx]
        simp [Except.toOption]
        rfl
  · simp only [if_neg hret]
    exact ⟨v, [ret], hv, by simp, by simp, by rw [← List.append_assoc]; rfl⟩

end Shares

/-- `semaphores` with its queues, and `shares`. -/
structure Tables where
  semaphores : Scheduler.State
  shares : SharedMemory.State

inductive Call
  | waitSemaphore (ownerEnvID : ℤ) (semaphoreName : String)
  | signalSemaphore (ownerEnvID : ℤ) (semaphoreName : String)
  | getSharedObject (ownerID : ℤ) (shareName : String) (va : ℕ)

namespace Call

def accesses (s : Tables) : Call → List ℤ
  | waitSemaphore o m => ((MissingNames.waitSemaphore o m).exec s.semaphores []).2
  | signalSemaphore o m => ((MissingNames.signalSemaphore o m).exec s.semaphores []).2
  | getSharedObject o m va => ((MissingNames.getSharedObject o m va).exec s.shares []).2

def entries (s : Tables) : Call → ℕ
  | waitSemaphore .. | signalSemaphore .. => s.semaphores.maxSemaphores
  | getSharedObject .. => s.shares.maxShares

def Found (s : Tables) : Call → Prop
  | waitSemaphore o m | signalSemaphore o m => InUse s.semaphores o m
  | getSharedObject o m _ => ∃ i < s.shares.maxShares, s.shares.hit o m i = true

/-- The code that the lookup returns for a missing name. -/
def notExists : Call → ℤ
  | waitSemaphore .. | signalSemaphore .. => eSemaphoreNotExists
  | getSharedObject .. => eSharedMemNotExists

def Unchanged (s : Tables) : Call → Prop
  | waitSemaphore o m => ((MissingNames.waitSemaphore o m).exec s.semaphores []).1 = some ((), s.semaphores)
  | signalSemaphore o m => ((MissingNames.signalSemaphore o m).exec s.semaphores []).1 = some ((), s.semaphores)
  | getSharedObject o m va =>
    ((MissingNames.getSharedObject o m va).exec s.shares []).1 = some (eSharedMemNotExists, s.shares)

end Call

structure Safe (s : Tables) (c : Call) : Prop where
  inside : Inside (c.entries s) (c.accesses s)
  missing : ¬c.Found s → c.Unchanged s

section Lookup

variable {s : SharedMemory.State}

theorem getShareObjectID_of_found (h : ∃ i < s.maxShares, s.hit o m i = true) :
    0 ≤ SharedMemory.getShareObjectID s o m ∧ SharedMemory.getShareObjectID s o m < s.maxShares := by
  obtain ⟨i, hi, hhit⟩ := h
  unfold SharedMemory.getShareObjectID
  split
  · rename_i j hj
    have := List.mem_range.mp (List.mem_of_find?_eq_some hj)
    omega
  · rename_i hnone
    exact absurd hhit (List.find?_eq_none.mp hnone i (List.mem_range.mpr hi))

theorem getShareObjectID_of_not_found (h : ¬∃ i < s.maxShares, s.hit o m i = true) :
    SharedMemory.getShareObjectID s o m = eSharedMemNotExists := by
  have hnone : (List.range s.maxShares).find? (s.hit o m) = none :=
    List.find?_eq_none.mpr fun i hi hhit => h ⟨i, List.mem_range.mp hi, hhit⟩
  rw [SharedMemory.getShareObjectID, hnone]

/-- Of a missing object `getSharedObject` reads an entry before the array, and then
reports that there is none. -/
theorem getSharedObject_missing (va : ℕ) (h : ¬∃ i < s.maxShares, s.hit o m i = true) :
    (SharedMemory.getSharedObject o m va).run s = .ok (eSharedMemNotExists, s) := by
  rw [SharedMemory.getSharedObject, run_bind_ok run_get, getShareObjectID_of_not_found h]
  rfl

end Lookup

variable {s : Tables} {c : Call}

theorem inside_of_found (h : c.Found s) : Inside (c.entries s) (c.accesses s) := by
  cases c with
  | waitSemaphore o m =>
    obtain ⟨j, hj⟩ := Option.ne_none_iff_exists'.mp fun hnone => getSemaphoreObjectID_eq_none.mp hnone h
    obtain ⟨v, hv, hrun⟩ := waitSemaphore_found (l := []) hj
    rwa [Call.accesses, hrun]
  | signalSemaphore o m =>
    obtain ⟨j, hj⟩ := Option.ne_none_iff_exists'.mp fun hnone => getSemaphoreObjectID_eq_none.mp hnone h
    obtain ⟨v, hv, hrun⟩ := signalSemaphore_found (l := []) hj
    rwa [Call.accesses, hrun]
  | getSharedObject o m va =>
    obtain ⟨v, w, hv, hw, -, hrun⟩ := getSharedObject_exec s.shares o m va []
    rw [Call.accesses, hrun, List.nil_append, inside_append]
    exact ⟨hv, fun i hi => hw i hi ▸ getShareObjectID_of_found h⟩

theorem notExists_mem (h : ¬c.Found s) : c.notExists ∈ c.accesses s := by
  cases c with
  | waitSemaphore o m =>
    obtain ⟨v, hrun, -⟩ := semaphore_missing (l := []) h
    simp [Call.accesses, hrun, Call.notExists]
  | signalSemaphore o m =>
    obtain ⟨v, -, hrun⟩ := semaphore_missing (l := []) h
    simp [Call.accesses, hrun, Call.notExists]
  | getSharedObject o m va =>
    obtain ⟨v, w, -, -, hmem, hrun⟩ := getSharedObject_exec s.shares o m va []
    rw [Call.accesses, hrun, List.nil_append, Call.notExists]
    exact List.mem_append_right _ (getShareObjectID_of_not_found h ▸ hmem)

theorem notExists_neg (c : Call) : c.notExists < 0 := by
  cases c <;> simp only [Call.notExists, eSemaphoreNotExists, eSharedMemNotExists] <;> decide

/-- A call is safe exactly when the name is in its table. Otherwise the code of the lookup is among the indices,
and only `getSharedObject` then returns and changes nothing. -/
theorem safe_iff_found (s : Tables) (c : Call) : (Safe s c ↔ c.Found s) ∧
    (¬c.Found s → c.notExists ∈ c.accesses s ∧ (c.Unchanged s ↔ ∃ o m va, c = .getSharedObject o m va)) := by
  refine ⟨⟨fun h => ?_, fun h => ⟨inside_of_found h, fun hnot => absurd h hnot⟩⟩, fun h => ⟨notExists_mem h, ?_⟩⟩
  · by_contra hnot
    have := h.inside _ (notExists_mem hnot)
    have := notExists_neg c
    omega
  · cases c with
    | waitSemaphore o m =>
      obtain ⟨v, hrun, -⟩ := semaphore_missing (l := []) h
      simp [Call.Unchanged, hrun]
    | signalSemaphore o m =>
      obtain ⟨v, -, hrun⟩ := semaphore_missing (l := []) h
      simp [Call.Unchanged, hrun]
    | getSharedObject o m va =>
      obtain ⟨v, w, -, -, -, hrun⟩ := getSharedObject_exec s.shares o m va []
      simp [Call.Unchanged, hrun, getSharedObject_missing va h, Except.toOption]

/-- The tables after boot, with two semaphores and two shares that are empty. -/
def emptyTables : Tables where
  semaphores := createSemaphoresArray idle 2
  shares := SharedMemory.createSharesArray ⟨Machine.bootMachine, 0, fun _ => .cleared, 0⟩ 2

def createdTables : Tables :=
  { emptyTables with semaphores := (createSemaphore emptyTables.semaphores 5 "mutex" 1).elim emptyTables.semaphores Prod.fst }

theorem safe_iff_found_created : Safe createdTables (.waitSemaphore 5 "mutex") ∧
    Call.accesses createdTables (.waitSemaphore 5 "mutex") = [0, 0] ∧ ¬Safe createdTables (.signalSemaphore 6 "mutex") := by
  refine ⟨(safe_iff_found _ _).1.mpr ⟨0, show _ ∧ _ ∧ _ ∧ _ by decide +kernel⟩, by decide +kernel, fun h => ?_⟩
  exact getSemaphoreObjectID_eq_none.mp (by decide +kernel) ((safe_iff_found _ _).1.mp h)

/-- A wait on a semaphore that does not exist is not safe. -/
theorem waitMissing_not_safe : ¬∀ s c, Safe s c := by
  intro h
  have hsafe := (h emptyTables (.waitSemaphore 5 "mutex")).inside
  have hmem := notExists_mem (s := emptyTables) (c := .waitSemaphore 5 "mutex")
    (getSemaphoreObjectID_eq_none.mp (by decide +kernel))
  exact absurd (hsafe _ hmem).1 (by decide)

end FosKernel.MissingNames
