import FosKernel.CStrings
import FosKernel.SemaphoreTable
import FosKernel.SharedObjects

/-!
# The names of shared objects and semaphores

`strcpy` copies a name of any length into a field of 64 bytes. The entries of both tables
are the bytes of their structures; padding counts as part of an entry.
-/

namespace FosKernel.ObjectNames
open FailingPrograms Machine CStrings

/-- The offsets of the fields of `struct Share`. -/
def ShareOffset.ownerID : ℕ := 0
def ShareOffset.name : ℕ := 4
def ShareOffset.size : ℕ := 68
def ShareOffset.references : ℕ := 72
def ShareOffset.isWritable : ℕ := 76
def ShareOffset.empty : ℕ := 77
def ShareOffset.framesStorage : ℕ := 80
def sizeofShare : ℕ := 84

/-- `mem` is the memory around the table, which lies apart from the frames and page
tables of `machine`. -/
structure State where
  machine : Machine
  curenv : ℕ
  mem : Memory
  shares : ℕ
  maxShares : ℕ

abbrev Sharing (α : Type) := Prog State Panic α

def onMachine {α : Type} (x : Kernel α) : Sharing α := do
  let s ← get
  match x.run s.machine with
  | .ok (a, m) =>
    set { s with machine := m }
    return a
  | .error e => throw e

/-- `&shares[i]` -/
def State.share (s : State) (i : ℕ) : ℕ := s.shares + sizeofShare * i

def State.store (s : State) (p : ℕ) (l : List UInt8) : State := { s with mem := CStrings.store s.mem p l }

def State.hit (s : State) (ownerID : ℤ) (name : CString) (i : ℕ) : Bool :=
  s.mem (s.share i + ShareOffset.empty) == 0 && word s.mem (s.share i + ShareOffset.ownerID) == unsigned ownerID &&
    strcmp s.mem name.1 (s.share i + ShareOffset.name) == 0

/-- The result is an index or `E_SHARED_MEM_NOT_EXISTS`. -/
def getShareObjectID (s : State) (ownerID : ℤ) (name : CString) : ℤ :=
  match (List.range s.maxShares).find? (s.hit ownerID name) with
  | some i => i
  | none => SharedMemory.eSharedMemNotExists

/-- The result is an index or `E_NO_SHARE`. -/
def allocateShareObject : Sharing ℤ := do
  let s ← get
  match (List.range s.maxShares).find? fun i => s.mem (s.share i + ShareOffset.empty) ≠ 0 with
  | none => return SharedMemory.eNoShare
  | some i =>
    modify fun s => s.store (s.share i + ShareOffset.empty) [0]
    let framesStorage ← onMachine SharedMemory.createFramesStorage
    modify fun s => s.store (s.share i + ShareOffset.framesStorage) (wordBytes framesStorage)
    onMachine (clearPage framesStorage)
    return i

def getSizeOfSharedObject (s : State) (ownerID : ℤ) (shareName : CString) : ℤ :=
  let shareObjectID := getShareObjectID s ownerID shareName
  if shareObjectID = SharedMemory.eSharedMemNotExists then SharedMemory.eSharedMemNotExists
  else Scheduler.int32 (word s.mem (s.share shareObjectID.toNat + ShareOffset.size))

/-- The assignments to the new entry before the name is copied. -/
def assignShare (mem : Memory) (myshare : ℕ) (ownerID : ℤ) (size isWritable : ℕ) : Memory :=
  let mem := store mem (myshare + ShareOffset.ownerID) (wordBytes (unsigned ownerID))
  let mem := store mem (myshare + ShareOffset.size) (wordBytes size)
  let mem := store mem (myshare + ShareOffset.isWritable) [UInt8.ofNat isWritable]
  store mem (myshare + ShareOffset.references) (wordBytes 1)

def createSharedObject (ownerID : ℤ) (shareName : CString) (size isWritable va : ℕ) : Sharing ℤ := do
  let myenv := (← get).curenv
  if getShareObjectID (← get) ownerID shareName ≠ SharedMemory.eSharedMemNotExists then
    return SharedMemory.eSharedMemExists
  let ret ← allocateShareObject
  if ret ≠ SharedMemory.eNoShare then
    let s ← get
    let myshare := s.share ret.toNat
    onMachine (forPages (SharedMemory.createSharedPage (s.machine.envs myenv).envPageDirectory
      (word s.mem (myshare + ShareOffset.framesStorage))) (u32 (va + size)) (2 ^ 20) va 0)
    modify fun s => { s with mem := assignShare s.mem myshare ownerID size isWritable }
    modify fun s => { s with mem := strcpy s.mem (myshare + ShareOffset.name) shareName }
    return ret
  else return SharedMemory.eNoShare

/-- The fields of an entry except the name. -/
structure Share where
  ownerID : ℕ
  size : ℕ
  references : ℕ
  isWritable : UInt8
  empty : UInt8
  framesStorage : ℕ
deriving DecidableEq

def readShare (mem : Memory) (p : ℕ) : Share :=
  ⟨word mem (p + ShareOffset.ownerID), word mem (p + ShareOffset.size), word mem (p + ShareOffset.references),
    mem (p + ShareOffset.isWritable), mem (p + ShareOffset.empty), word mem (p + ShareOffset.framesStorage)⟩

/-- Entry `i` has the values that were assigned, the object is found with its size, and no
other entry is different. -/
structure ShareIntact (s s' : State) (i : ℕ) (ownerID : ℤ) (name : CString) (size isWritable framesStorage : ℕ) :
    Prop where
  fields : readShare s'.mem (s'.share i) =
    ⟨unsigned ownerID, u32 size, 1, UInt8.ofNat isWritable, 0, u32 framesStorage⟩
  size : getSizeOfSharedObject s' ownerID name = Scheduler.int32 (u32 size)
  others : ∀ j < s.maxShares, j ≠ i → ∀ k < sizeofShare, s'.mem (s.share j + k) = s.mem (s.share j + k)

/-- What the copy writes behind the field is what is there: the size, and then the
references. -/
def ShareFits (name : CString) (size : ℕ) : Prop := name.bytes.drop 64 <+: wordBytes size ++ wordBytes 1

section SharedObjects

variable {s t : State} {ownerID : ℤ} {name : CString} {size isWritable va i j p k : ℕ} {mem mem' : Memory}

theorem onMachine_sat {α : Type} (x : Kernel α) (s : State) : Sat (fun _ => True) (onMachine x) s
    fun a t => ∃ m, x.run s.machine = .ok (a, m) ∧ t = { s with machine := m } := by
  rw [onMachine]
  refine .bind_ok run_get ?_
  split
  · next a m hx => exact .bind_ok (run_set) (.pure ⟨m, hx, rfl⟩)
  · exact .throw trivial

/-- The entry is the first empty one, and its frames storage is new. -/
structure Allocated (s t : State) (i framesStorage : ℕ) : Prop where
  lt : i < s.maxShares
  storage : ∃ m, SharedMemory.createFramesStorage.run s.machine = .ok (framesStorage, m)
  mem : t.mem = store (store s.mem (s.share i + ShareOffset.empty) [0]) (s.share i + ShareOffset.framesStorage)
    (wordBytes framesStorage)
  shares : t.shares = s.shares
  maxShares : t.maxShares = s.maxShares
  empty : s.mem (s.share i + ShareOffset.empty) ≠ 0

theorem allocateShareObject_sat (s : State) : Sat (fun _ => True) allocateShareObject s fun r t => 0 ≤ r →
    ∃ i framesStorage, r = (i : ℕ) ∧ Allocated s t i framesStorage := by
  rw [allocateShareObject]
  refine .bind_ok run_get ?_
  split
  · exact .pure fun h => absurd h (by decide)
  · next i hfind =>
    have hi := List.mem_range.mp (List.mem_of_find?_eq_some hfind)
    have hempty := List.find?_some hfind
    refine .bind_ok (run_modify _) (.bind (onMachine_sat _ _) ?_)
    rintro framesStorage _ ⟨m, hm, rfl⟩
    refine .bind_ok (run_modify _) (.bind (onMachine_sat _ _) ?_)
    rintro _ _ ⟨m', -, rfl⟩
    exact .pure fun _ => ⟨i, framesStorage, rfl, hi, ⟨m, hm⟩, rfl, rfl, rfl, by simpa using hempty⟩

theorem createSharedObject_sat (s : State) (ownerID : ℤ) (name : CString) (size isWritable va : ℕ) :
    Sat (fun _ => True) (createSharedObject ownerID name size isWritable va) s fun r t => 0 ≤ r →
      ∃ i framesStorage u, r = (i : ℕ) ∧ Allocated s u i framesStorage ∧
        getShareObjectID s ownerID name = SharedMemory.eSharedMemNotExists ∧
        t.mem = strcpy (assignShare u.mem (s.share i) ownerID size isWritable) (s.share i + ShareOffset.name) name ∧
        t.shares = s.shares ∧ t.maxShares = s.maxShares := by
  rw [createSharedObject]
  refine .bind_ok run_get (.bind_ok run_get (.ite (fun _ => .pure fun h => absurd h (by decide)) fun hID => ?_))
  refine .bind (allocateShareObject_sat s) ?_
  intro r u hr
  refine .ite (fun hne => ?_) fun _ => .pure fun h => absurd h (by decide)
  refine .bind_ok run_get (.bind (onMachine_sat _ _) ?_)
  rintro _ _ ⟨m, -, rfl⟩
  refine .bind_ok (run_modify _) (.bind_ok (run_modify _) (.pure fun hpos => ?_))
  obtain ⟨i, framesStorage, rfl, hu⟩ := hr hpos
  refine ⟨i, framesStorage, u, rfl, hu, not_not.mp hID, ?_, hu.shares, hu.maxShares⟩
  simp only [State.share, hu.shares, Int.toNat_natCast]

section Copying

variable {u : State} {framesStorage : ℕ}

theorem readShare_assignShare (h : Allocated s u i framesStorage) (ownerID : ℤ) (size isWritable : ℕ) :
    readShare (assignShare u.mem (s.share i) ownerID size isWritable) (s.share i) =
      ⟨u32 (unsigned ownerID), u32 size, u32 1, UInt8.ofNat isWritable, 0, u32 framesStorage⟩ := by
  simp (disch := omega) only [readShare, assignShare, h.mem, ShareOffset.ownerID, ShareOffset.size,
    ShareOffset.references, ShareOffset.isWritable, ShareOffset.empty, ShareOffset.framesStorage,
    word_storeWord_of_not, word_storeByte_of_not, storeWord_of_not, storeByte_of_not, word_store_self, storeByte_self, u32]

theorem assignShare_of_not (h : Allocated s u i framesStorage) {a : ℕ}
    (ha : a < s.share i ∨ s.share i + sizeofShare ≤ a) :
    assignShare u.mem (s.share i) ownerID size isWritable a = s.mem a := by
  rw [sizeofShare] at ha
  simp (disch := omega) only [assignShare, h.mem, ShareOffset.ownerID, ShareOffset.size,
    ShareOffset.references, ShareOffset.isWritable, ShareOffset.empty, ShareOffset.framesStorage,
    storeWord_of_not, storeByte_of_not]

theorem ShareFits.strcpy_eq (h : ShareFits name size) (hsize : word mem (p + ShareOffset.size) = u32 size)
    (hrefs : word mem (p + ShareOffset.references) = u32 1) {a : ℕ} (ha : a < p + 4 ∨ p + 68 ≤ a) :
    strcpy mem (p + ShareOffset.name) name a = mem a := by
  rw [strcpy, ShareOffset.name]
  rcases ha with ha | ha
  · exact store_of_not (.inl ha)
  · refine store_eq_of (w := 64) (fun k hk hle => ?_) (by omega)
    have hdrop : k - 64 < (name.bytes.drop 64).length := by rw [List.length_drop]; omega
    have hget := h.getElem hdrop
    rw [List.getElem_drop] at hget
    simp only [Nat.add_sub_cancel' hle] at hget
    rw [hget, ← words_getElem hsize hrefs]
    congr 1
    simp only [ShareOffset.size]
    omega

theorem shareFits_of (hsize : word (strcpy mem (p + ShareOffset.name) name) (p + ShareOffset.size) = u32 size)
    (hrefs : word (strcpy mem (p + ShareOffset.name) name) (p + ShareOffset.references) = u32 1) :
    ShareFits name size := by
  have hlen : (wordBytes size ++ wordBytes 1).length = 8 := rfl
  have hcopy : ∀ k (hk : k < name.bytes.length), 64 ≤ k → ∀ hk' : k - 64 < (wordBytes size ++ wordBytes 1).length,
      name.bytes[k] = (wordBytes size ++ wordBytes 1)[k - 64] := fun k hk hle hk' => by
    rw [← words_getElem hsize hrefs, strcpy, ShareOffset.size, ShareOffset.name,
      show p + 68 + (k - 64) = p + 4 + k by omega, store_getElem hk]
  have hbytes := name.length_bytes
  -- byte 73 of the entry is the second byte of the references, which is 0
  have hshort : name.1.length ≤ 69 := by
    by_contra hlong
    refine name.bytes_ne (k := 69) (by omega) (by omega) ?_
    rw [hcopy 69 (by omega) (by omega) (by omega)]
    rfl
  rw [ShareFits, List.prefix_iff_getElem]
  refine ⟨by rw [List.length_drop]; omega, fun k hk => ?_⟩
  rw [List.length_drop] at hk
  rw [List.getElem_drop]
  exact (hcopy (64 + k) (by omega) (by omega) (by omega)).trans (by simp)

theorem hit_iff : s.hit ownerID name i = true ↔ s.mem (s.share i + ShareOffset.empty) = 0 ∧
    word s.mem (s.share i + ShareOffset.ownerID) = unsigned ownerID ∧
    HoldsString s.mem (s.share i + ShareOffset.name) name.1 := by
  simp only [State.hit, Bool.and_eq_true, beq_iff_eq, strcmp_eq_zero name.2, and_assoc]

theorem hit_congr (hp : t.share i = s.share i)
    (hmem : ∀ k < sizeofShare, t.mem (s.share i + k) = s.mem (s.share i + k)) :
    t.hit ownerID name i = s.hit ownerID name i := by
  rw [sizeofShare] at hmem
  have hempty := hmem ShareOffset.empty (by decide)
  have howner : word t.mem (s.share i + ShareOffset.ownerID) = word s.mem (s.share i + ShareOffset.ownerID) :=
    word_congr fun k hk => hmem k (by omega)
  rw [Bool.eq_iff_iff, hit_iff, hit_iff, hp, hempty, howner]
  refine and_congr_right fun hzero => and_congr_right fun _ => ?_
  have hname (k : ℕ) : s.share i + ShareOffset.name + k = s.share i + (4 + k) := by
    rw [ShareOffset.name, Nat.add_assoc]
  have hend : s.mem (s.share i + ShareOffset.name + 73) = 0 := by rw [hname]; exact hzero
  have hend' : t.mem (s.share i + ShareOffset.name + 73) = 0 := by
    rw [hname]
    exact hempty.trans hzero
  refine ⟨fun h => h.congr fun k hk => ?_, fun h => h.congr fun k hk => ?_⟩
  · have := HoldsString.length_le h hend'
    rw [hname]
    exact (hmem _ (by omega)).symm
  · have := HoldsString.length_le h hend
    rw [hname]
    exact hmem _ (by omega)

theorem getShareObjectID_eq (hi : i < s.maxShares) (h : s.hit ownerID name i = true)
    (hbefore : ∀ j < i, s.hit ownerID name j ≠ true) : getShareObjectID s ownerID name = (i : ℕ) := by
  have hfind : (List.range s.maxShares).find? (s.hit ownerID name) = some i :=
    List.find?_range_eq_some.mpr ⟨h, List.mem_range.mpr hi, fun j hj => by simpa using hbefore j hj⟩
  rw [getShareObjectID, hfind]

theorem not_hit_of (h : getShareObjectID s ownerID name = SharedMemory.eSharedMemNotExists) (hi : i < s.maxShares) :
    s.hit ownerID name i ≠ true := by
  rw [getShareObjectID] at h
  split at h
  · next j _ => exact absurd h (by simp only [SharedMemory.eSharedMemNotExists]; omega)
  · next hnone => exact List.find?_eq_none.mp hnone i (List.mem_range.mpr hi)

theorem State.share_apart (s : State) (h : j ≠ i) (hk : k < sizeofShare) :
    s.share j + k < s.share i ∨ s.share i + sizeofShare ≤ s.share j + k := by
  simp only [State.share, sizeofShare] at hk ⊢
  omega

theorem shareIntact_of_fits (h : Allocated s u i framesStorage)
    (hID : getShareObjectID s ownerID name = SharedMemory.eSharedMemNotExists)
    (hmem : t.mem = strcpy (assignShare u.mem (s.share i) ownerID size isWritable) (s.share i + ShareOffset.name) name)
    (hshares : t.shares = s.shares) (hmax : t.maxShares = s.maxShares) (hfits : ShareFits name size) :
    ShareIntact s t i ownerID name size isWritable framesStorage := by
  have hshare (j : ℕ) : t.share j = s.share j := by rw [State.share, State.share, hshares]
  have hread := readShare_assignShare h ownerID size isWritable
  simp only [readShare, Share.mk.injEq] at hread
  obtain ⟨howner, hsize, hrefs, hwritable, hempty, hstorage⟩ := hread
  have hkeep : ∀ a, a < s.share i + 4 ∨ s.share i + 68 ≤ a →
      t.mem a = assignShare u.mem (s.share i) ownerID size isWritable a := fun a ha => by
    rw [hmem, hfits.strcpy_eq hsize hrefs ha]
  have hword (o : ℕ) (ho : o + 4 ≤ 4 ∨ 68 ≤ o) : word t.mem (s.share i + o) =
      word (assignShare u.mem (s.share i) ownerID size isWritable) (s.share i + o) :=
    word_congr fun k hk => hkeep _ (by omega)
  have hothers : ∀ j < s.maxShares, j ≠ i → ∀ k < sizeofShare, t.mem (s.share j + k) = s.mem (s.share j + k) :=
    fun j hj hne k hk => by
      have hapart := s.share_apart hne hk
      rw [hkeep _ (by simp only [sizeofShare] at hapart; omega), assignShare_of_not h hapart]
  have hfields : readShare t.mem (t.share i) =
      ⟨unsigned ownerID, u32 size, 1, UInt8.ofNat isWritable, 0, u32 framesStorage⟩ := by
    rw [readShare, hshare, hword _ (by decide), hword _ (by decide), hword _ (by decide), hword _ (by decide),
      hkeep _ (.inr (by simp only [ShareOffset.isWritable]; omega)),
      hkeep _ (.inr (by simp only [ShareOffset.empty]; omega)), howner, hsize, hrefs, hwritable, hempty, hstorage,
      u32_of_lt (unsigned_lt ownerID)]
    rfl
  refine ⟨hfields, ?_, hothers⟩
  simp only [readShare, Share.mk.injEq] at hfields
  have hhit : t.hit ownerID name i = true := by
    refine hit_iff.mpr ⟨hfields.2.2.2.2.1, hfields.1, ?_⟩
    rw [hmem, hshare]
    exact holdsString_strcpy _ _ name
  have hfound : getShareObjectID t ownerID name = (i : ℕ) :=
    getShareObjectID_eq (hmax ▸ h.lt) hhit fun j hj => by
      have hlt := hj.trans h.lt
      rw [hit_congr (hshare j) (hothers j hlt (by omega))]
      exact not_hit_of hID hlt
  rw [getSizeOfSharedObject, hfound, if_neg (by simp only [SharedMemory.eSharedMemNotExists]; omega), Int.toNat_natCast,
    hfields.2.1]

theorem createSharedObject_intact_iff {r : ℤ}
    (hrun : (createSharedObject ownerID name size isWritable va).run s = .ok (r, t)) (hr : 0 ≤ r) :
    ∃ (i framesStorage : ℕ) (m : Machine), r = i ∧
      SharedMemory.createFramesStorage.run s.machine = .ok (framesStorage, m) ∧
      (ShareIntact s t i ownerID name size isWritable framesStorage ↔ ShareFits name size) := by
  obtain ⟨i, framesStorage, u, rfl, hu, hID, hmem, hshares, hmax⟩ :=
    (createSharedObject_sat s ownerID name size isWritable va).ok hrun hr
  obtain ⟨m, hm⟩ := hu.storage
  refine ⟨i, framesStorage, m, rfl, hm, fun hintact => ?_, shareIntact_of_fits hu hID hmem hshares hmax⟩
  have hfields := hintact.fields
  have hshare : t.share i = s.share i := by rw [State.share, State.share, hshares]
  simp only [readShare, Share.mk.injEq, hmem, hshare] at hfields
  exact shareFits_of hfields.2.1 hfields.2.2.1

end Copying

end SharedObjects

/-- The offsets of the fields of `struct Semaphore` and of its queue. -/
def SemaphoreOffset.ownerID : ℕ := 0
def SemaphoreOffset.name : ℕ := 4
def SemaphoreOffset.envQueue : ℕ := 68
def SemaphoreOffset.value : ℕ := 84
def SemaphoreOffset.empty : ℕ := 88
def sizeofSemaphore : ℕ := 92

def QueueOffset.lhFirst : ℕ := 0
def QueueOffset.lhLast : ℕ := 4
def QueueOffset.size : ℕ := 12

structure Semaphores where
  mem : Memory
  semaphores : ℕ
  maxSemaphores : ℕ

/-- `&semaphores[i]` -/
def Semaphores.semaphore (s : Semaphores) (i : ℕ) : ℕ := s.semaphores + sizeofSemaphore * i

def listInit (mem : Memory) (head : ℕ) : Memory :=
  let mem := store mem (head + QueueOffset.lhFirst) (wordBytes 0)
  let mem := store mem (head + QueueOffset.lhLast) (wordBytes 0)
  store mem (head + QueueOffset.size) (wordBytes 0)

/-- One round of the loop of `create_semaphores_array`. -/
def clearSemaphore (mem : Memory) (p : ℕ) : Memory :=
  let mem := memset mem p 0 sizeofSemaphore
  let mem := store mem (p + SemaphoreOffset.empty) [1]
  listInit mem (p + SemaphoreOffset.envQueue)

/-- The array is at `semaphores`, in memory of any content. -/
def createSemaphoresArray (mem : Memory) (semaphores numOfSemaphores : ℕ) : Semaphores :=
  ⟨(List.range numOfSemaphores).foldl (fun mem i => clearSemaphore mem (semaphores + sizeofSemaphore * i)) mem,
    semaphores, numOfSemaphores⟩

def Semaphores.hit (s : Semaphores) (ownerID : ℤ) (name : CString) (i : ℕ) : Bool :=
  s.mem (s.semaphore i + SemaphoreOffset.empty) == 0 &&
    word s.mem (s.semaphore i + SemaphoreOffset.ownerID) == unsigned ownerID &&
    strcmp s.mem name.1 (s.semaphore i + SemaphoreOffset.name) == 0

/-- The result is an index or `E_SEMAPHORE_NOT_EXISTS`. -/
def getSemaphoreObjectID (s : Semaphores) (ownerID : ℤ) (name : CString) : ℤ :=
  match (List.range s.maxSemaphores).find? (s.hit ownerID name) with
  | some i => i
  | none => Scheduler.eSemaphoreNotExists

/-- The result is `none` where `krealloc` panics. -/
def allocateSemaphoreObject (s : Semaphores) : Option (Semaphores × ℤ) :=
  match (List.range s.maxSemaphores).find? fun i => s.mem (s.semaphore i + SemaphoreOffset.empty) ≠ 0 with
  | some i => some ({ s with mem := store s.mem (s.semaphore i + SemaphoreOffset.empty) [0] }, i)
  | none => none

def assignSemaphore (mem : Memory) (p : ℕ) (ownerEnvID : ℤ) (semaphoreName : CString) (initialValue : ℕ) : Memory :=
  let mem := store mem (p + SemaphoreOffset.ownerID) (wordBytes (unsigned ownerEnvID))
  let mem := strcpy mem (p + SemaphoreOffset.name) semaphoreName
  store mem (p + SemaphoreOffset.value) (wordBytes initialValue)

def createSemaphore (s : Semaphores) (ownerEnvID : ℤ) (semaphoreName : CString) (initialValue : ℕ) :
    Option (Semaphores × ℤ) :=
  if getSemaphoreObjectID s ownerEnvID semaphoreName = Scheduler.eSemaphoreExists then
    some (s, Scheduler.eSemaphoreExists)
  else do
    let (s, obj) ← allocateSemaphoreObject s
    if obj = Scheduler.eNoSemaphore then return (s, Scheduler.eNoSemaphore)
    return ({ s with mem := assignSemaphore s.mem (s.semaphore obj.toNat) ownerEnvID semaphoreName initialValue }, obj)

def freeSemaphoreObject (s : Semaphores) (semaphoreObjectID : ℕ) : Semaphores × ℤ :=
  if s.maxSemaphores ≤ semaphoreObjectID then (s, Scheduler.eSemaphoreNotExists)
  else ({ s with mem := clearSemaphore s.mem (s.semaphore semaphoreObjectID) }, 0)

structure EmptyQueue (mem : Memory) (head : ℕ) : Prop where
  lhFirst : word mem (head + QueueOffset.lhFirst) = 0
  lhLast : word mem (head + QueueOffset.lhLast) = 0
  size : word mem (head + QueueOffset.size) = 0

/-- Semaphore `i` has an empty queue and the value, and no other entry is different. -/
structure SemaphoreIntact (s s' : Semaphores) (i initialValue : ℕ) : Prop where
  queue : EmptyQueue s'.mem (s'.semaphore i + SemaphoreOffset.envQueue)
  value : word s'.mem (s'.semaphore i + SemaphoreOffset.value) = u32 initialValue
  others : ∀ j < s.maxSemaphores, j ≠ i → ∀ k < sizeofSemaphore,
    s'.mem (s.semaphore j + k) = s.mem (s.semaphore j + k)

/-- A call of `createSemaphore`, with the table that it finds. -/
structure CreateCall where
  table : Semaphores
  ownerEnvID : ℤ
  semaphoreName : CString
  initialValue : ℕ

def CreateCall.Intact (c : CreateCall) : Prop := ∀ t i, createSemaphore c.table c.ownerEnvID c.semaphoreName
  c.initialValue = some (t, i) → 0 ≤ i → SemaphoreIntact c.table t i.toNat c.initialValue

/-- Runs of the table, with the semaphores that were created. Waiting and signalling
change the queues and values of semaphores in use, and memory outside the table. -/
inductive SemaphoreRun : Semaphores → List CreateCall → Prop
  | start (mem : Memory) (semaphores numOfSemaphores : ℕ) :
    SemaphoreRun (createSemaphoresArray mem semaphores numOfSemaphores) []
  | create {s t : Semaphores} {calls : List CreateCall} (ownerEnvID : ℤ) (semaphoreName : CString)
    (initialValue : ℕ) {i : ℤ} : SemaphoreRun s calls →
    createSemaphore s ownerEnvID semaphoreName initialValue = some (t, i) → 0 ≤ i →
    SemaphoreRun t (calls ++ [⟨s, ownerEnvID, semaphoreName, initialValue⟩])
  | free {s : Semaphores} {calls : List CreateCall} (i : ℕ) : SemaphoreRun s calls →
    SemaphoreRun (freeSemaphoreObject s i).1 calls
  | use {s : Semaphores} {calls : List CreateCall} (mem : Memory) : SemaphoreRun s calls →
    (∀ i < s.maxSemaphores, ∀ k < sizeofSemaphore, mem (s.semaphore i + k) = s.mem (s.semaphore i + k) ∨
      s.mem (s.semaphore i + SemaphoreOffset.empty) = 0 ∧ SemaphoreOffset.envQueue ≤ k ∧ k < SemaphoreOffset.empty) →
    SemaphoreRun { s with mem := mem } calls

section Semaphores

variable {s t : Semaphores} {calls : List CreateCall} {ownerID : ℤ} {name : CString} {initialValue i j n p k a : ℕ}
  {mem mem' : Memory}

theorem EmptyQueue.congr (h : EmptyQueue mem p) (hmem : ∀ k < 16, mem' (p + k) = mem (p + k)) : EmptyQueue mem' p := by
  have hword (o : ℕ) (ho : o ≤ 12) : word mem' (p + o) = word mem (p + o) :=
    word_congr fun k hk => by rw [Nat.add_assoc, hmem _ (by omega)]
  exact ⟨(hword _ (by decide)).trans h.lhFirst, (hword _ (by decide)).trans h.lhLast, (hword _ (by decide)).trans h.size⟩

theorem emptyQueue_listInit (mem : Memory) (p : ℕ) : EmptyQueue (listInit mem p) p := by
  constructor <;>
  · simp (disch := omega) only [listInit, QueueOffset.lhFirst, QueueOffset.lhLast, QueueOffset.size,
      word_storeWord_of_not, word_store_self, Nat.zero_mod]

theorem clearSemaphore_of_not (h : a < p ∨ p + sizeofSemaphore ≤ a) : clearSemaphore mem p a = mem a := by
  rw [sizeofSemaphore] at h
  simp (disch := omega) only [clearSemaphore, listInit, memset, SemaphoreOffset.empty, SemaphoreOffset.envQueue,
    QueueOffset.lhFirst, QueueOffset.lhLast, QueueOffset.size, storeWord_of_not, storeByte_of_not]
  exact store_of_not (by rw [List.length_replicate, sizeofSemaphore]; omega)

theorem emptyQueue_clearSemaphore (mem : Memory) (p : ℕ) :
    EmptyQueue (clearSemaphore mem p) (p + SemaphoreOffset.envQueue) := emptyQueue_listInit _ _

theorem Semaphores.semaphore_apart (s : Semaphores) (h : j ≠ i) (hk : k < sizeofSemaphore) :
    s.semaphore j + k < s.semaphore i ∨ s.semaphore i + sizeofSemaphore ≤ s.semaphore j + k := by
  simp only [Semaphores.semaphore, sizeofSemaphore] at hk ⊢
  omega

/-- The entry is empty, and then has the values that were assigned. -/
structure CreatedAt (s t : Semaphores) (ownerID : ℤ) (name : CString) (initialValue i : ℕ) : Prop where
  lt : i < s.maxSemaphores
  empty : s.mem (s.semaphore i + SemaphoreOffset.empty) ≠ 0
  result : t = ⟨assignSemaphore (store s.mem (s.semaphore i + SemaphoreOffset.empty) [0]) (s.semaphore i) ownerID name
    initialValue, s.semaphores, s.maxSemaphores⟩

theorem createSemaphore_cases {r : ℤ} (h : createSemaphore s ownerID name initialValue = some (t, r)) (hr : 0 ≤ r) :
    ∃ i : ℕ, r = i ∧ CreatedAt s t ownerID name initialValue i := by
  rw [createSemaphore] at h
  split at h
  · cases h
    exact absurd hr (by decide)
  · rw [allocateSemaphoreObject] at h
    cases hfind : (List.range s.maxSemaphores).find? (fun i => s.mem (s.semaphore i + SemaphoreOffset.empty) ≠ 0) with
    | none =>
      rw [hfind] at h
      exact absurd h (by simp)
    | some i =>
      have hi := List.mem_range.mp (List.mem_of_find?_eq_some hfind)
      have hempty := List.find?_some hfind
      have hcode : (i : ℤ) ≠ Scheduler.eNoSemaphore := by
        simp only [Scheduler.eNoSemaphore]
        omega
      rw [hfind] at h
      simp only [Option.bind_eq_bind, Option.bind_some, if_neg hcode, Int.toNat_natCast] at h
      cases h
      exact ⟨i, rfl, hi, by simpa using hempty, rfl⟩

section Created

variable (h : CreatedAt s t ownerID name initialValue i)
include h

theorem CreatedAt.semaphore (j : ℕ) : t.semaphore j = s.semaphore j := by rw [h.result]; rfl

theorem CreatedAt.mem_of_short (hname : name.1.length ≤ 64) (ha : a < s.semaphore i ∨ s.semaphore i + 68 ≤ a ∧
    s.semaphore i + 4 + name.1.length < a ∧ a < s.semaphore i + 84 ∨ s.semaphore i + sizeofSemaphore ≤ a) :
    t.mem a = s.mem a := by
  have hlen := name.length_bytes
  rw [sizeofSemaphore] at ha
  simp (disch := omega) only [h.result, assignSemaphore, strcpy, SemaphoreOffset.ownerID, SemaphoreOffset.name,
    SemaphoreOffset.value, SemaphoreOffset.empty, storeWord_of_not]
  rw [store_of_not (by omega)]
  simp (disch := omega) only [storeWord_of_not, storeByte_of_not]

theorem CreatedAt.mem_behind (hk : 64 < name.bytes.length) :
    t.mem (s.semaphore i + SemaphoreOffset.envQueue) = name.bytes[64] := by
  simp (disch := omega) only [h.result, assignSemaphore, strcpy, SemaphoreOffset.ownerID, SemaphoreOffset.name,
    SemaphoreOffset.value, SemaphoreOffset.empty, SemaphoreOffset.envQueue, storeWord_of_not]
  exact store_getElem (p := s.semaphore i + 4) hk

theorem CreatedAt.emptyQueue (hname : name.1.length ≤ 64)
    (hq : EmptyQueue s.mem (s.semaphore i + SemaphoreOffset.envQueue)) :
    EmptyQueue t.mem (s.semaphore i + SemaphoreOffset.envQueue) := by
  have hkeep (k : ℕ) (hk : 0 < k) (hlt : k < 16) : t.mem (s.semaphore i + SemaphoreOffset.envQueue + k) =
      s.mem (s.semaphore i + SemaphoreOffset.envQueue + k) :=
    h.mem_of_short hname (by simp only [SemaphoreOffset.envQueue]; omega)
  have hword (o : ℕ) (ho : 0 < o) (hlt : o ≤ 12) : word t.mem (s.semaphore i + SemaphoreOffset.envQueue + o) =
      word s.mem (s.semaphore i + SemaphoreOffset.envQueue + o) :=
    word_congr fun k hk => by rw [Nat.add_assoc, hkeep _ (by omega) (by omega)]
  refine ⟨word_eq_zero.mpr fun k hk => ?_, (hword _ (by decide) (by decide)).trans hq.lhLast,
    (hword _ (by decide) (by decide)).trans hq.size⟩
  have hzero := word_eq_zero.mp hq.lhFirst k hk
  rw [QueueOffset.lhFirst, Nat.add_zero] at hzero ⊢
  rcases Nat.eq_zero_or_pos k with rfl | hpos
  · rcases hname.eq_or_lt with heq | hlt
    · have hlen := name.length_bytes
      rw [Nat.add_zero, h.mem_behind (by omega)]
      simp [CString.bytes, heq]
    · rw [h.mem_of_short hname (by simp only [SemaphoreOffset.envQueue]; omega), hzero]
  · rw [hkeep k hpos (by omega), hzero]

theorem CreatedAt.intact_iff (hq : EmptyQueue s.mem (s.semaphore i + SemaphoreOffset.envQueue)) :
    SemaphoreIntact s t i initialValue ↔ name.1.length ≤ 64 := by
  have hlen := name.length_bytes
  refine ⟨fun hintact => ?_, fun hname => ⟨?_, ?_, fun j _ hne k hk => ?_⟩⟩
  · by_contra hlong
    have hfirst := word_eq_zero.mp hintact.queue.lhFirst 0 (by omega)
    rw [h.semaphore, QueueOffset.lhFirst, Nat.add_zero, h.mem_behind (by omega)] at hfirst
    exact name.bytes_ne (by omega) _ hfirst
  · rw [h.semaphore]
    exact h.emptyQueue hname hq
  · rw [h.semaphore, h.result]
    exact word_store_self _ _ _
  · have hapart := s.semaphore_apart hne hk
    exact h.mem_of_short hname (by omega)

end Created

def FreeQueues (s : Semaphores) : Prop := ∀ i < s.maxSemaphores,
  s.mem (s.semaphore i + SemaphoreOffset.empty) ≠ 0 → EmptyQueue s.mem (s.semaphore i + SemaphoreOffset.envQueue)

theorem EmptyQueue.of_entry (h : EmptyQueue mem (p + SemaphoreOffset.envQueue))
    (hmem : ∀ k < sizeofSemaphore, mem' (p + k) = mem (p + k)) : EmptyQueue mem' (p + SemaphoreOffset.envQueue) :=
  h.congr fun k hk => by rw [Nat.add_assoc, hmem _ (by simp only [SemaphoreOffset.envQueue, sizeofSemaphore]; omega)]

theorem freeQueues_create (mem : Memory) (p n : ℕ) : FreeQueues (createSemaphoresArray mem p n) := by
  intro i hi hempty
  clear hempty
  change i < n at hi
  simp only [createSemaphoresArray, Semaphores.semaphore]
  induction n with
  | zero => omega
  | succ n ih =>
    rw [List.range_succ, List.foldl_append, List.foldl_cons, List.foldl_nil]
    by_cases heq : i = n
    · rw [heq]
      exact emptyQueue_clearSemaphore _ _
    · refine EmptyQueue.of_entry (ih (by omega)) fun k hk => clearSemaphore_of_not ?_
      simp only [sizeofSemaphore] at hk ⊢
      omega

theorem FreeQueues.clear (h : FreeQueues s) (i : ℕ) : FreeQueues (freeSemaphoreObject s i).1 := by
  rw [freeSemaphoreObject]
  split_ifs
  · exact h
  · intro j hj hempty
    by_cases heq : j = i
    · rw [heq]
      exact emptyQueue_clearSemaphore _ _
    · have hkeep : ∀ k < sizeofSemaphore, clearSemaphore s.mem (s.semaphore i) (s.semaphore j + k) =
          s.mem (s.semaphore j + k) := fun k hk => clearSemaphore_of_not (s.semaphore_apart heq hk)
      exact (h j hj (hkeep SemaphoreOffset.empty (by decide) ▸ hempty)).of_entry hkeep

theorem FreeQueues.created (h : FreeQueues s) (hc : CreatedAt s t ownerID name initialValue i)
    (hname : name.1.length ≤ 64) : FreeQueues t := by
  intro j hj hempty
  rw [hc.semaphore] at hempty ⊢
  by_cases heq : j = i
  · rw [heq]
    exact hc.emptyQueue hname (h i hc.lt hc.empty)
  · have hkeep : ∀ k < sizeofSemaphore, t.mem (s.semaphore j + k) = s.mem (s.semaphore j + k) := fun k hk => by
      have hapart := s.semaphore_apart heq hk
      exact hc.mem_of_short hname (by omega)
    refine (h j ?_ (hkeep SemaphoreOffset.empty (by decide) ▸ hempty)).of_entry hkeep
    rw [hc.result] at hj
    exact hj

theorem SemaphoreRun.freeQueues (h : SemaphoreRun s calls) (hnames : ∀ c ∈ calls, c.semaphoreName.1.length ≤ 64) :
    FreeQueues s := by
  induction h with
  | start mem p n => exact freeQueues_create mem p n
  | create ownerEnvID name initialValue _ hcall hpos ih =>
    obtain ⟨i, -, hc⟩ := createSemaphore_cases hcall hpos
    exact (ih fun c hc => hnames c (List.mem_append_left _ hc)).created hc
      (hnames _ (List.mem_append_right _ (List.mem_singleton.mpr rfl)))
  | free i _ ih => exact (ih hnames).clear i
  | use mem _ hmem ih =>
    intro i hi hempty
    have hsame := (hmem i hi SemaphoreOffset.empty (by decide)).resolve_right fun hused => absurd hused.2.2 (lt_irrefl _)
    have hne := fun hzero => hempty (hsame.trans hzero)
    exact (ih hnames i hi hne).of_entry fun k hk => (hmem i hi k hk).resolve_right fun hused => hne hused.1

theorem SemaphoreRun.intact_iff (h : SemaphoreRun s calls) :
    (∀ c ∈ calls, c.Intact) ↔ ∀ c ∈ calls, c.semaphoreName.1.length ≤ 64 := by
  induction h with
  | start => simp
  | create ownerEnvID name initialValue hrun hcall hpos ih =>
    obtain ⟨i, rfl, hc⟩ := createSemaphore_cases hcall hpos
    simp only [List.forall_mem_append, List.forall_mem_singleton, ih]
    refine and_congr_right fun hnames => ?_
    have hiff := hc.intact_iff (hrun.freeQueues hnames i hc.lt hc.empty)
    refine ⟨fun hintact => hiff.mp (hintact _ _ hcall hpos), fun hname t j ht _ => ?_⟩
    obtain ⟨rfl, rfl⟩ := Prod.ext_iff.mp (Option.some.inj (hcall.symm.trans ht))
    exact hiff.mpr hname
  | free _ _ ih => exact ih
  | use _ _ _ ih => exact ih

end Semaphores

/-- The copied name leaves a new object as it should be exactly when what it writes behind
its field is what is there, and new semaphores exactly when no name has more than 64
characters. -/
theorem names_intact_iff (s t : State) (ownerID : ℤ) (name : CString) (size isWritable va : ℕ) (r : ℤ)
    (u : Semaphores) (calls : List CreateCall) :
    ((createSharedObject ownerID name size isWritable va).run s = .ok (r, t) → 0 ≤ r →
      ∃ (i framesStorage : ℕ) (m : Machine), r = i ∧
        SharedMemory.createFramesStorage.run s.machine = .ok (framesStorage, m) ∧
        (ShareIntact s t i ownerID name size isWritable framesStorage ↔ ShareFits name size)) ∧
    (SemaphoreRun u calls →
      ((∀ c ∈ calls, c.Intact) ↔ ∀ c ∈ calls, c.semaphoreName.1.length ≤ 64)) :=
  ⟨createSharedObject_intact_iff, SemaphoreRun.intact_iff⟩

theorem forPages_nil {body : ℕ → ℕ → Kernel Unit} {stop n i c : ℕ} (h : ¬ i < stop) :
    forPages body stop n i c = pure () := by
  cases n <;> rw [forPages, if_neg h]

theorem onMachine_run {α : Type} {x : Kernel α} {s : State} {a : α} {m : Machine} (h : x.run s.machine = .ok (a, m)) :
    (onMachine x).run s = .ok (a, { s with machine := m }) := by
  rw [onMachine, run_bind_ok run_get]
  simp only [h]
  rfl

/-- An object without pages is created in a table with one entry. -/
theorem exists_created (name : CString) : ∃ s t : State, (createSharedObject 0 name 0 1 0).run s = .ok (0, t) := by
  obtain ⟨m, g, hsys, -, -, hstorage, -, hframes, hroom⟩ := exists_twoDirectories
  obtain ⟨p, u, hstore, f, hnew⟩ := ((SharedMemory.createFramesStorage_sat hsys).weaken fun e he => by
    rcases he with ⟨-, hlt⟩ | ⟨-, hno⟩
    · omega
    · exact hno (hroom.mono (by omega))).exists_ok
  obtain ⟨v, hclear, -⟩ := SharedMemory.clearStorage_run hnew hsys (hstorage 0)
  let s : State := ⟨m, 0, fun a => if a = 77 then 1 else 0, 0, 1⟩
  have hID : getShareObjectID s 0 name = SharedMemory.eSharedMemNotExists := by
    simp [getShareObjectID, State.hit, State.share, ShareOffset.empty, s]
  have hfind : (List.range s.maxShares).find? (fun i => s.mem (s.share i + ShareOffset.empty) ≠ 0) = some 0 := by
    simp [State.share, ShareOffset.empty, s]
  have halloc : Sat (fun _ => False) allocateShareObject s fun r _ => r = 0 := by
    rw [allocateShareObject]
    refine .bind_ok run_get ?_
    simp only [hfind]
    exact .bind_ok (run_modify _) (.bind_ok (onMachine_run hstore) (.bind_ok (run_modify _)
      (.bind_ok (onMachine_run hclear) (.pure rfl))))
  have hpages (w : ℕ → ℕ → Kernel Unit) (t : Machine) :
      (forPages w (u32 (0 + 0)) (2 ^ 20) 0 0).run t = .ok ((), t) := by
    rw [forPages_nil (by decide)]
    rfl
  have hsat : Sat (fun _ => False) (createSharedObject 0 name 0 1 0) s fun r _ => r = 0 := by
    rw [createSharedObject]
    refine .bind_ok run_get (.bind_ok run_get (.ite (fun hne => absurd hID hne) fun _ => .bind halloc fun r t hr => ?_))
    refine .ite (fun _ => ?_) fun hne => absurd (hr.trans_ne (by decide)) hne
    exact .bind_ok run_get (.bind_ok (onMachine_run (hpages _ _)) (.bind_ok (run_modify _)
      (.bind_ok (run_modify _) (.pure hr))))
  obtain ⟨r, t, hrun, rfl⟩ := hsat.exists_ok
  exact ⟨s, t, hrun⟩

/-- `n` times the character `a`. -/
def longName (n : ℕ) : CString := ⟨List.replicate n 97, fun c hc => List.eq_of_mem_replicate hc ▸ by decide⟩

def oneSemaphore : Semaphores := createSemaphoresArray (fun _ => 0) 0 1

theorem oneSemaphore_create (name : CString) : ∃ t, createSemaphore oneSemaphore 0 name 1 = some (t, 0) := by
  have hempty : oneSemaphore.mem (oneSemaphore.semaphore 0 + SemaphoreOffset.empty) = 1 := by decide
  have hhit : oneSemaphore.hit 0 name 0 = false := by
    rw [Semaphores.hit, hempty]
    rfl
  have hrange : List.range oneSemaphore.maxSemaphores = [0] := by decide
  have hID : getSemaphoreObjectID oneSemaphore 0 name ≠ Scheduler.eSemaphoreExists := by
    rw [getSemaphoreObjectID, hrange, List.find?_cons_of_neg (by rw [hhit]; decide), List.find?_nil]
    decide
  rw [createSemaphore, if_neg hID, allocateSemaphoreObject, hrange, List.find?_cons_of_pos (by rw [hempty]; decide)]
  exact ⟨_, rfl⟩

/-- A short name, and a name whose end falls on the low byte of the size. -/
theorem names_intact_iff_short : (∃ s t m p, (createSharedObject 0 (longName 64) 0 1 0).run s = .ok (0, t) ∧
      SharedMemory.createFramesStorage.run s.machine = .ok (p, m) ∧ ShareIntact s t 0 0 (longName 64) 0 1 p) ∧
    ∃ s, SemaphoreRun s [⟨oneSemaphore, 0, longName 64, 1⟩] ∧
      ∀ c ∈ [(⟨oneSemaphore, 0, longName 64, 1⟩ : CreateCall)], c.Intact := by
  refine ⟨?_, ?_⟩
  · obtain ⟨s, t, hrun⟩ := exists_created (longName 64)
    obtain ⟨i, p, m, hi, hstore, hiff⟩ := (names_intact_iff s t 0 (longName 64) 0 1 0 0 ⟨fun _ => 0, 0, 1⟩ []).1 hrun le_rfl
    obtain rfl : i = 0 := by exact_mod_cast hi.symm
    exact ⟨s, t, m, p, hrun, hstore, hiff.mpr (by rw [ShareFits]; decide)⟩
  · obtain ⟨t, ht⟩ := oneSemaphore_create (longName 64)
    have hrun := (SemaphoreRun.start (fun _ => 0) 0 1).create 0 (longName 64) 1 ht le_rfl
    obtain ⟨s, u, -⟩ := exists_created (longName 64)
    exact ⟨t, hrun, ((names_intact_iff s u 0 (longName 64) 0 1 0 0 t _).2 hrun).mpr (by simp [longName])⟩

/-- A name of 70 characters makes the size another one, and a name of 65 characters makes
the queue of a semaphore one with a first element. -/
theorem names_too_long :
    (∃ s t m p, (createSharedObject 0 (longName 70) 0 1 0).run s = .ok (0, t) ∧
      SharedMemory.createFramesStorage.run s.machine = .ok (p, m) ∧ ¬ ShareIntact s t 0 0 (longName 70) 0 1 p) ∧
    ∃ s calls, SemaphoreRun s calls ∧ ¬ ∀ c ∈ calls, c.Intact := by
  refine ⟨?_, ?_⟩
  · obtain ⟨s, t, hrun⟩ := exists_created (longName 70)
    obtain ⟨i, p, m, hi, hstore, hiff⟩ := createSharedObject_intact_iff hrun le_rfl
    obtain rfl : i = 0 := by exact_mod_cast hi.symm
    exact ⟨s, t, m, p, hrun, hstore, fun hintact => absurd (hiff.mp hintact) (by rw [ShareFits]; decide)⟩
  · obtain ⟨t, ht⟩ := oneSemaphore_create (longName 65)
    have hrun := (SemaphoreRun.start (fun _ => 0) 0 1).create 0 (longName 65) 1 ht le_rfl
    exact ⟨t, _, hrun, fun hall => absurd (hrun.intact_iff.mp hall _ (List.mem_singleton.mpr rfl)) (by decide)⟩

end FosKernel.ObjectNames
