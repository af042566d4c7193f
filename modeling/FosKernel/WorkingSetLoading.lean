import FosKernel.AddressSpaces
import FosKernel.PageFileImages

/-!
# The working set of a new environment

`env_create` puts the pages of a program into the first slots of the working set, as many
as the slots allow, and the page of the stack into the slot after them. To what loading
does to memory and to the page file this adds the entries of the user pages, and what is
done before and after the loop over the segments. The LRU lists are off, and neither
frames nor the kernel heap run out.
-/

namespace FosKernel.ProgramLoading.EnvCreate
open FailingPrograms PageEntries Machine

/-- `CreateEnv` refuses larger working sets, and no others. -/
def pwsMaxSize : ℕ := 5000

/-- The environment with the low twelve bits of the entries of its user pages, 0 where
there is no entry. -/
structure NewEnv extends EnvLoad where
  perms : ℕ → ℕ

abbrev Creator (α : Type) := Prog NewEnv LoadPanic α

def load {α : Type} (m : Loader α) : Creator α := fun s =>
  match m.run s.toEnvLoad with
  | .ok (a, l) => .ok (a, { s with toEnvLoad := l })
  | .error e => .error e

/-- Changes the entry of the page at an address. -/
def updateEntry (va : ℕ) (f : ℕ → ℕ) : Creator Unit :=
  modify fun s => { s with
    perms := Function.update s.perms (va / pageSize) (f (s.perms (va / pageSize))) }

def writeByte (va : ℕ) (b : UInt8) : Creator Unit := do
  load (ProgramLoading.writeByte va b)
  updateEntry va fun w => setPerm w (permUsed ||| permModified)

def loadtimeMapFrame (p : Page) (va perm : ℕ) : Creator Unit := do
  load (ProgramLoading.loadtimeMapFrame p va)
  updateEntry va fun _ => perm ||| permPresent

def mapNewFrame (va : ℕ) : Creator Unit := do
  let p ← load allocateFrame
  loadtimeMapFrame p va (permUser ||| permWriteable)

def allocateSegmentPage (sva i : ℕ) : Creator Unit := do
  let va := pageOf sva i
  mapNewFrame va
  load (addToWorkingSet va)
  load (addToTableWorkingSet va)

def programSegmentAllocMapCopyWorkingset (x : Elf) (seg : ProgramSegment) : Creator ℕ := do
  let vaddr := seg.virtualAddress
  let endVaddr := roundUp (u32 (vaddr + seg.sizeInMemory)) pageSize
  let sva := roundDown vaddr pageSize
  let allocatedPages := min (numOfPages sva endVaddr) (segmentLimit (← get).toEnvLoad sva)
  forRange (allocateSegmentPage sva) 0 allocatedPages
  let stop := sva + allocatedPages * pageSize
  let copied := min stop (u32 (vaddr + seg.sizeInFile)) - vaddr
  forRange (fun i => writeByte (vaddr + i) (x.byte (seg.ptrStart + i))) 0 copied
  forRange (fun i => writeByte (vaddr + copied + i) 0) 0 (stop - (vaddr + copied))
  return allocatedPages

/-- Parts [1] to [4] of the loop over the segments. -/
def writeSegment (x : Elf) (seg : ProgramSegment) : Loader Unit := do
  let src ← writeFirstPage x seg
  let src ← writeMiddlePages x seg src
  writeLastPage x seg src
  writeRemainingArea seg

def loadSegment (x : Elf) (seg : ProgramSegment) : Creator Unit := do
  let allocatedPages ← programSegmentAllocMapCopyWorkingset x seg
  modify fun s => { s with remainingWSPages := u32 (s.remainingWSPages + 2 ^ 32 - allocatedPages) }
  load (writeSegment x seg)

def loadSegments (x : Elf) : List ProgramSegment → Creator Unit
  | [] => pure ()
  | seg :: segs => do
    loadSegment x seg
    loadSegments x segs

/-- The entries that `share_pws_at_user_space` copies. -/
def sharedEntries (size p : ℕ) : ℕ :=
  if userHeapMax / pageSize ≤ p ∧
      p < userHeapMax / pageSize + roundUp (sizeOfWorkingSetElement * size) pageSize / pageSize then
    permUser ||| permPresent
  else 0

def initializeEnvironment : Creator Unit :=
  modify fun s => { s with
    pageFile := fun _ => none
    pages := fun _ => none
    perms := sharedEntries s.pageWSMaxSize
    ptrPageWorkingSet := fun i => if i < s.pageWSMaxSize then ⟨0, true, 0⟩ else s.ptrPageWorkingSet i
    pageLastWSIndex := 0
    ptrTws := fun i => if i < twsMaxSize then ⟨0, true, 0⟩ else s.ptrTws i
    tableLastWSIndex := 0
    nNewPageAdded := 0 }

/-- One round of the loop that resets the modified bits. -/
def clearModified (i : ℕ) : Creator Unit := do
  let w := (← get).ptrPageWorkingSet i
  if w.empty = false then updateEntry w.virtualAddress fun p => clearPerm p permModified

/-- A failed assertion is one of the two about the index and the address. -/
def envPageWsSetEntry (i va : ℕ) : Creator Unit := do
  if (← get).pageWSMaxSize ≤ i then throw .assertion
  if userTop ≤ va then throw .assertion
  modify fun s => { s with
    ptrPageWorkingSet := Function.update s.ptrPageWorkingSet i ⟨roundDown va pageSize, false, 0x80000000⟩ }

/-- `page_last_WS_index` moves on. -/
def advanceIndex : Creator Unit := do
  if (← get).pageWSMaxSize = 0 then throw .divideError
  modify fun s => { s with pageLastWSIndex := u32 (s.pageLastWSIndex + 1) % s.pageWSMaxSize }

/-- `memset(va, 0, len)` -/
@[irreducible] def memsetZero (va len : ℕ) : Creator Unit := forRange (fun i => writeByte (va + i) 0) 0 len

def createStack : Creator Unit := do
  modify fun s => { s with initNumStackPages := 1 }
  mapNewFrame stackVa
  memsetZero stackVa pageSize
  envPageWsSetEntry (← get).pageLastWSIndex stackVa
  advanceIndex
  load (pfAddEmptyEnvPage stackVa)

/-- The entry point is set where the magic number is right. -/
def envCreate (x : Elf) (progName : String) (pageWSSize : ℕ) : Creator Unit := do
  modify fun s => { s with progName := progName, pageWSMaxSize := pageWSSize }
  initializeEnvironment
  if x.eMagic ≠ elfMagic then throw .badMagic
  modify fun s => { s with
    remainingWSPages := u32 (s.pageWSMaxSize + 2 ^ 32 - 1)
    lastTableNumber := 0xffffffff }
  loadSegments x (programSegments x)
  forRange clearModified 0 pageWSSize
  createStack

section Forgetting

variable {α β : Type} {m : Loader α} {m' : Creator α}

/-- Without the entries, `m'` does what `m` does. -/
def Forgets (m' : Creator α) (m : Loader α) : Prop :=
  ∀ s, (m'.run s).map (fun r => (r.1, r.2.toEnvLoad)) = m.run s.toEnvLoad

theorem forgets_load (m : Loader α) : Forgets (load m) m := by
  intro s
  change Except.map _ (load m s) = _
  rw [load]
  cases m.run s.toEnvLoad with
  | error e => rfl
  | ok r => rfl

theorem forgets_pure (a : α) : Forgets (pure a) (pure a) := fun _ => rfl

theorem Forgets.bind {f : α → Loader β} {f' : α → Creator β} (h : Forgets m' m) (hf : ∀ a, Forgets (f' a) (f a)) :
    Forgets (m' >>= f') (m >>= f) := by
  intro s
  have hs := h s
  rcases hm : m'.run s with e | ⟨a, t⟩
  · rw [hm] at hs
    rw [run_bind_error hm, run_bind_error hs.symm]
    rfl
  · rw [hm] at hs
    rw [run_bind_ok hm, run_bind_ok hs.symm]
    exact hf a t

theorem Forgets.updateEntry {m : Loader Unit} {m' : Creator Unit} (h : Forgets m' m) (va : ℕ) (f : ℕ → ℕ) :
    Forgets (do m'; updateEntry va f) m := by
  rw [← bind_pure_unit (x := m)]
  exact h.bind fun _ _ => rfl

theorem Forgets.forRange {body : ℕ → Loader PUnit} {body' : ℕ → Creator PUnit}
    (h : ∀ i, Forgets (body' i) (body i)) (i n : ℕ) :
    Forgets (FailingPrograms.forRange body' i n) (FailingPrograms.forRange body i n) := by
  induction n generalizing i with
  | zero => exact forgets_pure _
  | succ n ih => exact (h i).bind fun _ => ih (i + 1)

theorem forgets_writeByte (va : ℕ) (b : UInt8) : Forgets (writeByte va b) (ProgramLoading.writeByte va b) :=
  (forgets_load _).updateEntry va _

theorem forgets_allocateSegmentPage (sva i : ℕ) :
    Forgets (allocateSegmentPage sva i) (ProgramLoading.allocateSegmentPage sva i) := by
  simp only [allocateSegmentPage, mapNewFrame, bind_assoc]
  refine (forgets_load _).bind fun p => Forgets.bind ((forgets_load _).updateEntry _ _) fun _ => ?_
  exact (forgets_load _).bind fun _ => forgets_load _

theorem forgets_allocMapCopy (x : Elf) (seg : ProgramSegment) :
    Forgets (programSegmentAllocMapCopyWorkingset x seg) (ProgramLoading.programSegmentAllocMapCopyWorkingset x seg) := by
  intro s
  simp only [programSegmentAllocMapCopyWorkingset, ProgramLoading.programSegmentAllocMapCopyWorkingset]
  rw [run_bind_ok run_get, run_bind_ok run_get]
  refine Forgets.bind (Forgets.forRange (forgets_allocateSegmentPage _) _ _) (fun _ => ?_) s
  refine (Forgets.forRange (fun _ => forgets_writeByte _ _) _ _).bind fun _ => ?_
  exact (Forgets.forRange (fun _ => forgets_writeByte _ _) _ _).bind fun _ => forgets_pure _

theorem forgets_loadSegment (x : Elf) (seg : ProgramSegment) :
    Forgets (loadSegment x seg) (ProgramLoading.loadSegment x seg) :=
  (forgets_allocMapCopy x seg).bind fun _ => Forgets.bind (fun _ => rfl) fun _ => forgets_load (writeSegment x seg)

/-- The segments are loaded as without the entries. -/
theorem forgets_loadSegments (x : Elf) (segs : List ProgramSegment) :
    Forgets (loadSegments x segs) (ProgramLoading.loadSegments x segs) := by
  induction segs with
  | nil => exact forgets_pure _
  | cons seg segs ih => exact (forgets_loadSegment x seg).bind fun _ => ih

end Forgetting

/-- The pages of a segment that are loaded when so many slots are left for segments. -/
def segmentPages (progName : String) (remaining : ℕ) (seg : ProgramSegment) : List ℕ :=
  List.range' seg.firstPage (min (seg.stopPage - seg.firstPage)
    (if roundDown seg.virtualAddress pageSize = 0x200000 ∧ progName ≠ "tpp" then min remaining 6 else remaining))

def loadedPages (progName : String) : ℕ → List ProgramSegment → List ℕ
  | _, [] => []
  | remaining, seg :: segs => segmentPages progName remaining seg ++
      loadedPages progName (remaining - (segmentPages progName remaining seg).length) segs

/-- How often the page table changes along some pages, after the table `d`. -/
def tableChanges : ℕ → List ℕ → ℕ
  | _, [] => 0
  | d, p :: ps => (if p / 1024 = d then 0 else 1) + tableChanges (p / 1024) ps

def lastTable (d : ℕ) (L : List ℕ) : ℕ := L.foldl (fun _ p => p / 1024) d

/-- `lastTableNumber` at first -/
def noTable : ℕ := 0xffffffff

def coveredPages (x : Elf) : List ℕ :=
  (programSegments x).flatMap fun seg => List.range' seg.firstPage (seg.stopPage - seg.firstPage)

/-- The number of 4 MB regions with pages of the program. -/
def regions (x : Elf) : ℕ := ((coveredPages x).map (· / 1024)).dedup.length

/-- A program whose segments lie below the user heap, have no page in common, and need
fewer page tables than the table working set holds. -/
structure ProgramImage (x : Elf) : Prop where
  magic : x.eMagic = elfMagic
  filesz : ∀ seg ∈ programSegments x, seg.sizeInFile ≤ seg.sizeInMemory
  below : ∀ seg ∈ programSegments x, seg.virtualAddress + seg.sizeInMemory ≤ userHeapStart
  disjoint : (programSegments x).Pairwise fun seg seg' => ∀ p, Covers seg p → ¬Covers seg' p
  few : regions x < twsMaxSize

def slotPage (t : NewEnv) (i : ℕ) : ℕ := (t.ptrPageWorkingSet i).virtualAddress / pageSize

/-- The first `m` slots hold pages that are mapped, one of them the page of the stack, and
nothing else is mapped. -/
structure Filled (s t : NewEnv) (pageWSSize m : ℕ) : Prop where
  size : t.pageWSMaxSize = pageWSSize
  inside : ∀ i, pageWSSize ≤ i → t.ptrPageWorkingSet i = s.ptrPageWorkingSet i
  pos : 1 ≤ m
  le : m ≤ pageWSSize
  used : ∀ i < pageWSSize, (t.ptrPageWorkingSet i).empty = false ↔ i < m
  aligned : ∀ i < m, (t.ptrPageWorkingSet i).virtualAddress = pageSize * slotPage t i
  distinct : ∀ i < m, ∀ j < m, slotPage t i = slotPage t j → i = j
  mapped : ∀ i < m, HasPerm (t.perms (slotPage t i)) permPresent ∧
    HasPerm (t.perms (slotPage t i)) permWriteable ∧ HasPerm (t.perms (slotPage t i)) permUser
  stack : ∃ i < m, (t.ptrPageWorkingSet i).virtualAddress = stackVa
  others : ∀ p < userTop / pageSize, ¬UserPagesWS (pageSize * p) → (∀ i < m, slotPage t i ≠ p) →
    t.perms p = 0
  hand : t.pageLastWSIndex = m % pageWSSize

/-- The environment is created, and its working set is as it should be. -/
def FillsWorkingSet (x : Elf) (progName : String) (pageWSSize : ℕ) (s : NewEnv) : Prop :=
  ∃ t, (envCreate x progName pageWSSize).run s = .ok ((), t) ∧ ∃ m, Filled s t pageWSSize m

variable {x : Elf} {seg : ProgramSegment} {segs : List ProgramSegment} {progName : String}
  {L T : List ℕ} {d i n p r va sva pageWSSize : ℕ} {base s t : NewEnv}

theorem mem_segmentPages (h : p ∈ segmentPages progName r seg) : Covers seg p := by
  simp only [segmentPages, List.mem_range'_1, ProgramSegment.firstPage, ProgramSegment.stopPage] at h
  simp only [Covers, pageSize]
  omega

theorem length_segmentPages_le (progName : String) (r : ℕ) (seg : ProgramSegment) :
    (segmentPages progName r seg).length ≤ r := by
  rw [segmentPages, List.length_range']
  split
  · omega
  · omega

theorem length_loadedPages_le (progName : String) (r : ℕ) (segs : List ProgramSegment) :
    (loadedPages progName r segs).length ≤ r := by
  induction segs generalizing r with
  | nil => exact Nat.zero_le r
  | cons seg segs ih =>
    have hle := length_segmentPages_le progName r seg
    have hrest := ih (r - (segmentPages progName r seg).length)
    rw [loadedPages, List.length_append]
    omega

theorem mem_loadedPages (h : p ∈ loadedPages progName r segs) : ∃ seg ∈ segs, Covers seg p := by
  induction segs generalizing r with
  | nil => cases h
  | cons seg segs ih =>
    rw [loadedPages, List.mem_append] at h
    rcases h with h | h
    · exact ⟨seg, List.mem_cons_self, mem_segmentPages h⟩
    · obtain ⟨seg', hseg, hc⟩ := ih h
      exact ⟨seg', List.mem_cons_of_mem _ hseg, hc⟩

theorem nodup_loadedPages (h : segs.Pairwise fun seg seg' => ∀ p, Covers seg p → ¬Covers seg' p) :
    (loadedPages progName r segs).Nodup := by
  induction segs generalizing r with
  | nil => exact List.nodup_nil
  | cons seg segs ih =>
    obtain ⟨hseg, hsegs⟩ := List.pairwise_cons.mp h
    rw [loadedPages]
    refine List.Nodup.append List.nodup_range' (ih hsegs) fun p hp hp' => ?_
    obtain ⟨seg', hmem, hc⟩ := mem_loadedPages hp'
    exact hseg seg' hmem p (mem_segmentPages hp) hc

theorem tableChanges_append (d : ℕ) (L M : List ℕ) :
    tableChanges d (L ++ M) = tableChanges d L + tableChanges (lastTable d L) M := by
  induction L generalizing d with
  | nil => simp [tableChanges, lastTable]
  | cons p L ih =>
    rw [List.cons_append, tableChanges, tableChanges, ih, lastTable, lastTable, List.foldl_cons, Nat.add_assoc]

theorem lastTable_append (d : ℕ) (L : List ℕ) (p : ℕ) : lastTable d (L ++ [p]) = p / 1024 := by
  rw [lastTable, List.foldl_append]
  rfl

theorem tableChanges_le_of_prefix (h : L <+: T) : tableChanges d L ≤ tableChanges d T := by
  obtain ⟨M, rfl⟩ := h
  rw [tableChanges_append]
  exact Nat.le_add_right _ _

variable {tol : LoadPanic → Prop}

theorem load_run {α : Type} {m : Loader α} {a : α} {l : EnvLoad} (h : m.run s.toEnvLoad = .ok (a, l)) :
    (load m).run s = .ok (a, { s with toEnvLoad := l }) := by
  change load m s = _
  rw [load, h]

theorem load_error {α : Type} {m : Loader α} {e : LoadPanic} (h : m.run s.toEnvLoad = .error e) :
    (load m).run s = .error e := by
  change load m s = _
  rw [load, h]

theorem load_sat {α : Type} {m : Loader α} {Q : α → EnvLoad → Prop} (h : Sat tol m s.toEnvLoad Q) :
    Sat tol (load m) s fun a t => Q a t.toEnvLoad ∧ t = { s with toEnvLoad := t.toEnvLoad } := by
  rcases hm : m.run s.toEnvLoad with e | ⟨a, l⟩
  · exact .of_error (load_error hm) (h.error hm)
  · exact .of_ok (load_run hm) ⟨h.ok hm, rfl⟩

def OnlyMemory (s t : NewEnv) : Prop := t = { s with pages := t.pages, perms := t.perms }

theorem OnlyMemory.trans {u : NewEnv} (h : OnlyMemory s t) (h' : OnlyMemory t u) : OnlyMemory s u := by
  rw [OnlyMemory, h', h]

def userEntry : ℕ := permUser ||| permWriteable ||| permPresent

/-- The pages of `L` are mapped, and the other entries are as in `base`. -/
structure Mapped (base : NewEnv) (L : List ℕ) (s : NewEnv) : Prop where
  pages : ∀ p ∈ L, s.pages p ≠ none
  perms : ∀ p ∈ L, HasPerm (s.perms p) userEntry
  others : ∀ p, p ∉ L → s.perms p = base.perms p

theorem HasPerm.setPerm {w perm : ℕ} (h : HasPerm w perm) (m : ℕ) : HasPerm (PageEntries.setPerm w m) perm := by
  rw [PageEntries.setPerm, Nat.or_comm]
  exact h.or_left

theorem userEntry_clearPerm {w : ℕ} (h : HasPerm w userEntry) : HasPerm (clearPerm w permModified) userEntry := by
  simp only [userEntry, hasPerm_or, hasPerm_present, hasPerm_writeable, hasPerm_user] at h ⊢
  obtain ⟨⟨hu, hw⟩, hp⟩ := h
  simp only [testBit_clearPerm (show 0 < 32 by decide), testBit_clearPerm (show 1 < 32 by decide),
    testBit_clearPerm (show 2 < 32 by decide), hu, hw, hp]
  decide

theorem Mapped.update (h : Mapped base L s) (hp : p ∈ L) {w : ℕ} (hw : HasPerm w userEntry)
    (hpages : ∀ q ∈ L, t.pages q ≠ none) (hperms : t.perms = Function.update s.perms p w) : Mapped base L t := by
  refine ⟨hpages, fun q hq => ?_, fun q hq => ?_⟩
  · rw [hperms]
    by_cases heq : q = p
    · rw [heq, Function.update_self]
      exact hw
    · rw [Function.update_of_ne heq]
      exact h.perms q hq
  · rw [hperms, Function.update_of_ne (show q ≠ p from fun heq => hq (heq ▸ hp))]
    exact h.others q hq

theorem writeByte_sat (h : Mapped base L s) (hva : va / pageSize ∈ L) (b : UInt8) :
    Sat tol (writeByte va b) s fun _ t => Mapped base L t ∧ OnlyMemory s t := by
  obtain ⟨q, hq⟩ := Option.ne_none_iff_exists'.mp (h.pages _ hva)
  have hrun : (ProgramLoading.writeByte va b).run s.toEnvLoad = .ok ((), { s.toEnvLoad with
      pages := Function.update s.pages (va / pageSize) (some (setByte q va b)) }) := by
    rw [ProgramLoading.writeByte, run_bind_ok run_get]
    simp only [hq]
    rfl
  refine .bind_ok (load_run hrun) (.of_ok (run_modify _) ⟨?_, rfl⟩)
  refine h.update hva (HasPerm.setPerm (h.perms _ hva) _) (fun p hp => ?_) rfl
  simp only [Function.update_apply]
  split
  · exact Option.some_ne_none _
  · exact h.pages p hp

theorem writeBytes_sat (h : Mapped base L s) (hva : ∀ i < n, (va + i) / pageSize ∈ L) (f : ℕ → UInt8) :
    Sat tol (forRange (fun i => writeByte (va + i) (f i)) 0 n) s fun _ t => Mapped base L t ∧ OnlyMemory s t :=
  Sat.forRange (fun _ t => Mapped base L t ∧ OnlyMemory s t) ⟨h, rfl⟩ fun k t _ hk ht =>
    (writeByte_sat ht.1 (hva k (by omega)) (f k)).mono fun _ _ hu => ⟨hu.1, ht.2.trans hu.2⟩

theorem memsetZero_sat (h : Mapped base L s) (hva : ∀ i < n, (va + i) / pageSize ∈ L) :
    Sat tol (memsetZero va n) s fun _ t => Mapped base L t ∧ OnlyMemory s t := by
  unfold memsetZero
  exact writeBytes_sat h hva fun _ => 0

theorem mapNewFrame_sat (h : Mapped base L s) (hp : va / pageSize = p) :
    Sat tol (mapNewFrame va) s fun _ t => Mapped base (L ++ [p]) t ∧
      t = { s with framesTaken := t.framesTaken, pages := t.pages, perms := t.perms } := by
  refine .bind_ok (load_run rfl) (.bind_ok (load_run rfl) (.of_ok (run_modify _) ⟨⟨fun q hq => ?_,
    fun q hq => ?_, fun q hq => ?_⟩, rfl⟩))
  · simp only [hp, Function.update_apply]
    split
    · exact Option.some_ne_none _
    · rename_i hne
      exact h.pages q ((List.mem_append.mp hq).resolve_right fun hq => hne (List.mem_singleton.mp hq))
  · simp only [hp, Function.update_apply]
    split
    · decide
    · rename_i hne
      exact h.perms q ((List.mem_append.mp hq).resolve_right fun hq => hne (List.mem_singleton.mp hq))
  · rw [List.mem_append, List.mem_singleton, not_or] at hq
    simp only [hp, Function.update_of_ne hq.2]
    exact h.others q hq.1

/-- The pages of `L` are in the first slots, and the other slots are as in `base`. -/
structure Listed (base : NewEnv) (L : List ℕ) (s : NewEnv) : Prop where
  size : s.pageWSMaxSize = base.pageWSMaxSize
  name : s.progName = base.progName
  slots : ∀ i, s.ptrPageWorkingSet i = (L[i]?).elim (base.ptrPageWorkingSet i) fun p => ⟨pageSize * p, false, 0⟩
  hand : s.pageLastWSIndex = L.length

/-- The table working set did not fill up. -/
structure Tables (L : List ℕ) (s : NewEnv) : Prop where
  few : tableChanges noTable L < twsMaxSize
  next : s.tableLastWSIndex = tableChanges noTable L
  last : s.lastTableNumber = lastTable noTable L

/-- After the pages of `L` were loaded. -/
structure Loading (base : NewEnv) (L : List ℕ) (s : NewEnv) : Prop
    extends Listed base L s, Tables L s, Mapped base L s

/-- Loading `T` may stop when the working set has no slot, or the tables fill theirs. -/
def MayStop (base : NewEnv) (T : List ℕ) (_ : LoadPanic) : Prop :=
  base.pageWSMaxSize = 0 ∨ twsMaxSize ≤ tableChanges noTable T

theorem addToWorkingSet_run (hsize : s.pageWSMaxSize ≠ 0) (va : ℕ) :
    (addToWorkingSet va).run s.toEnvLoad = .ok ((), { s.toEnvLoad with
      ptrPageWorkingSet := Function.update s.ptrPageWorkingSet s.pageLastWSIndex ⟨va, false, 0⟩
      pageLastWSIndex := u32 (s.pageLastWSIndex + 1) % s.pageWSMaxSize }) := by
  rw [addToWorkingSet, run_bind_ok (run_modify _), run_bind_ok run_get]
  simp only [hsize, if_false]
  rfl

theorem addToWorkingSet_error (hsize : s.pageWSMaxSize = 0) (va : ℕ) :
    (addToWorkingSet va).run s.toEnvLoad = .error .divideError := by
  rw [addToWorkingSet, run_bind_ok (run_modify _), run_bind_ok run_get]
  simp only [hsize, if_true]
  rfl

theorem addToTableWorkingSet_new {l : EnvLoad} (h : pdx va ≠ l.lastTableNumber) :
    (addToTableWorkingSet va).run l = if u32 (l.tableLastWSIndex + 1) % twsMaxSize = 0 then .error .tableWorkingSet
      else .ok ((), { l with
        ptrTws := Function.update l.ptrTws l.tableLastWSIndex ⟨roundDown va ptSize, false, 0⟩
        tableLastWSIndex := u32 (l.tableLastWSIndex + 1) % twsMaxSize
        lastTableNumber := pdx va }) := by
  rw [addToTableWorkingSet, run_bind_ok run_get, if_pos h, run_bind_ok (run_modify _), run_bind_ok run_get]
  split
  · rfl
  · rfl

theorem slots_append (h : ∀ i, s.ptrPageWorkingSet i = (L[i]?).elim (base.ptrPageWorkingSet i) fun p => ⟨pageSize * p, false, 0⟩)
    (p i : ℕ) : Function.update s.ptrPageWorkingSet L.length ⟨pageSize * p, false, 0⟩ i =
      ((L ++ [p])[i]?).elim (base.ptrPageWorkingSet i) fun p => ⟨pageSize * p, false, 0⟩ := by
  rcases lt_trichotomy i L.length with hlt | rfl | hgt
  · rw [Function.update_of_ne hlt.ne, h, List.getElem?_append_left hlt]
  · rw [Function.update_self, List.getElem?_concat_length]
    rfl
  · rw [Function.update_of_ne hgt.ne', h, List.getElem?_eq_none hgt.le,
      List.getElem?_eq_none (by rw [List.length_append, List.length_singleton]; omega)]

theorem Tables.add_sat (h : Tables L s) (hp : p < 2 ^ 20) (hT : L ++ [p] <+: T) :
    Sat (MayStop base T) (load (addToTableWorkingSet (pageSize * p))) s fun _ t => Tables (L ++ [p]) t ∧
      t = { s with ptrTws := t.ptrTws, tableLastWSIndex := t.tableLastWSIndex, lastTableNumber := t.lastTableNumber } := by
  have hpdx : pdx (pageSize * p) = p / 1024 := by
    simp only [pdx, pageSize]
    omega
  have hnext : tableChanges noTable (L ++ [p]) = tableChanges noTable L + if p / 1024 = lastTable noTable L then 0 else 1 := by
    rw [tableChanges_append]
    rfl
  have hfew := h.few
  by_cases hlast : p / 1024 = lastTable noTable L
  · have hrun : (addToTableWorkingSet (pageSize * p)).run s.toEnvLoad = .ok ((), s.toEnvLoad) := by
      rw [addToTableWorkingSet, run_bind_ok run_get, hpdx, h.last, if_neg (not_not_intro hlast)]
      rfl
    rw [if_pos hlast, Nat.add_zero] at hnext
    refine .of_ok (load_run hrun) ⟨⟨hnext ▸ hfew, by rw [hnext]; exact h.next, ?_⟩, rfl⟩
    rw [lastTable_append, hlast]
    exact h.last
  · rw [if_neg hlast] at hnext
    have hindex : u32 (s.tableLastWSIndex + 1) % twsMaxSize = tableChanges noTable (L ++ [p]) % twsMaxSize := by
      have hsmall : tableChanges noTable L < 50 := hfew
      rw [h.next, u32_of_lt (by omega), hnext]
    have hne : pdx (pageSize * p) ≠ s.lastTableNumber := by
      rw [hpdx, h.last]
      exact hlast
    have hrun := addToTableWorkingSet_new hne
    by_cases hfull : tableChanges noTable (L ++ [p]) = twsMaxSize
    · -- the last slot for tables was taken
      rw [hindex, hfull, Nat.mod_self, if_pos rfl] at hrun
      exact .of_error (load_error hrun) (.inr (hfull ▸ tableChanges_le_of_prefix hT))
    · have hlt : tableChanges noTable (L ++ [p]) < twsMaxSize := by omega
      rw [hindex, Nat.mod_eq_of_lt hlt, if_neg (by omega)] at hrun
      exact .of_ok (load_run hrun) ⟨⟨hlt, rfl, by rw [lastTable_append]; exact hpdx⟩, rfl⟩

theorem Listed.congr (h : Listed base L s) (hsize : t.pageWSMaxSize = s.pageWSMaxSize) (hname : t.progName = s.progName)
    (hslots : t.ptrPageWorkingSet = s.ptrPageWorkingSet) (hhand : t.pageLastWSIndex = s.pageLastWSIndex) :
    Listed base L t :=
  ⟨hsize.trans h.size, hname.trans h.name, fun i => hslots ▸ h.slots i, hhand.trans h.hand⟩

theorem Tables.congr (h : Tables L s) (hnext : t.tableLastWSIndex = s.tableLastWSIndex)
    (hlast : t.lastTableNumber = s.lastTableNumber) : Tables L t :=
  ⟨h.few, hnext.trans h.next, hlast.trans h.last⟩

theorem Mapped.congr (h : Mapped base L s) (hpages : t.pages = s.pages) (hperms : t.perms = s.perms) :
    Mapped base L t := ⟨hpages ▸ h.pages, hperms ▸ h.perms, hperms ▸ h.others⟩

theorem Loading.memory (h : Loading base L s) (hm : Mapped base L t) (ht : OnlyMemory s t) : Loading base L t := by
  refine ⟨h.toListed.congr ?_ ?_ ?_ ?_, h.toTables.congr ?_ ?_, hm⟩
  all_goals rw [ht]

/-- A page more is loaded, unless the working set has no slot or the tables fill theirs. -/
theorem Loading.allocate_sat (h : Loading base L s) (hva : pageOf sva i = pageSize * p) (hp : p < 2 ^ 20)
    (hT : L ++ [p] <+: T) (hroom : base.pageWSMaxSize = 0 ∨ L.length + 1 < base.pageWSMaxSize)
    (hsize : base.pageWSMaxSize ≤ pwsMaxSize) :
    Sat (MayStop base T) (allocateSegmentPage sva i) s fun _ t => Loading base (L ++ [p]) t ∧
      t.remainingWSPages = s.remainingWSPages := by
  have hpage : pageSize * p / pageSize = p := Nat.mul_div_cancel_left p (by decide)
  simp only [allocateSegmentPage, hva]
  refine (mapNewFrame_sat h.toMapped hpage).bind fun _ t ⟨hmap, ht⟩ => ?_
  have hlist : Listed base L t := h.toListed.congr (by rw [ht]) (by rw [ht]) (by rw [ht]) (by rw [ht])
  have htables : Tables L t := h.toTables.congr (by rw [ht]) (by rw [ht])
  have hremaining : t.remainingWSPages = s.remainingWSPages := by rw [ht]
  rcases Nat.eq_zero_or_pos base.pageWSMaxSize with hzero | hpos
  · exact .of_error (run_bind_error (load_error (addToWorkingSet_error (hlist.size.trans hzero) _))) (.inl hzero)
  · have hne : t.pageWSMaxSize ≠ 0 := by
      rw [hlist.size]
      omega
    refine .bind_ok (load_run (addToWorkingSet_run hne _)) ?_
    refine Sat.mono (Tables.add_sat ?_ hp hT) fun _ u ⟨hu, hframe⟩ => ⟨⟨⟨?_, ?_, fun j => ?_, ?_⟩, hu, ?_⟩, ?_⟩
    · exact htables.congr rfl rfl
    · rw [hframe]
      exact hlist.size
    · rw [hframe]
      exact hlist.name
    · rw [hframe, ← slots_append hlist.slots, ← hlist.hand]
    · rw [hframe, List.length_append, List.length_singleton]
      change u32 (t.pageLastWSIndex + 1) % t.pageWSMaxSize = L.length + 1
      simp only [pwsMaxSize] at hsize
      rw [hlist.hand, hlist.size, u32_of_lt (by omega), Nat.mod_eq_of_lt (by omega)]
    · exact hmap.congr (by rw [hframe]) (by rw [hframe])
    · rw [hframe]
      exact hremaining

theorem Loading.segment_sat (h : Loading base L s) (hseg : Placed seg)
    (hT : L ++ segmentPages s.progName s.remainingWSPages seg <+: T)
    (hroom : base.pageWSMaxSize = 0 ∨ s.remainingWSPages + L.length + 1 = base.pageWSMaxSize)
    (hsize : base.pageWSMaxSize ≤ pwsMaxSize) (x : Elf) :
    Sat (MayStop base T) (programSegmentAllocMapCopyWorkingset x seg) s fun n t =>
      n = (segmentPages s.progName s.remainingWSPages seg).length ∧
      Loading base (L ++ segmentPages s.progName s.remainingWSPages seg) t ∧
      t.remainingWSPages = s.remainingWSPages := by
  have hlt := hseg.lt
  have hsva : roundDown seg.virtualAddress pageSize = pageSize * seg.firstPage := roundDown_page _
  have hend : roundUp (u32 (seg.virtualAddress + seg.sizeInMemory)) pageSize = pageSize * seg.stopPage := by
    rw [u32_of_lt (by omega), roundUp_page (by omega)]
    rfl
  have hpages : numOfPages (pageSize * seg.firstPage) (pageSize * seg.stopPage) = seg.stopPage - seg.firstPage := by
    rw [numOfPages, ← Nat.mul_sub]
    exact page_div _
  have hstop : seg.stopPage ≤ 2 ^ 20 := by
    simp only [ProgramSegment.stopPage]
    omega
  set M := segmentPages s.progName s.remainingWSPages seg with hM
  set k := M.length with hk
  have hMk : M = List.range' seg.firstPage k := by
    rw [hk, hM, segmentPages, List.length_range']
  have hlimit : min (seg.stopPage - seg.firstPage) (segmentLimit s.toEnvLoad (pageSize * seg.firstPage)) = k := by
    rw [hk, hM, segmentPages, List.length_range', segmentLimit, ← hsva]
  have hkstop : k ≤ seg.stopPage - seg.firstPage := hlimit ▸ Nat.min_le_left _ _
  have hkroom : k ≤ s.remainingWSPages := length_segmentPages_le _ _ _
  simp only [programSegmentAllocMapCopyWorkingset, hsva, hend, hpages, hseg.end_eq]
  refine .bind_ok run_get ?_
  rw [hlimit]
  refine Sat.bind (Sat.forRange (fun n t => Loading base (L ++ List.range' seg.firstPage n) t ∧
    t.remainingWSPages = s.remainingWSPages) ⟨by rwa [List.range'_zero, List.append_nil], rfl⟩ ?_) fun _ t ht => ?_
  · intro n t _ hn ht
    have hn' : L ++ List.range' seg.firstPage n ++ [seg.firstPage + n] = L ++ List.range' seg.firstPage (n + 1) := by
      rw [List.range'_1_concat, List.append_assoc]
    refine (ht.1.allocate_sat (p := seg.firstPage + n) (pageOf_page (by omega)) (by omega) ?_ ?_ hsize).mono
      fun _ u hu => ⟨hn' ▸ hu.1, hu.2.trans ht.2⟩
    · refine hn' ▸ List.IsPrefix.trans ?_ hT
      refine (List.prefix_append_right_inj L).mpr ⟨List.range' (seg.firstPage + (n + 1)) (k - (n + 1)), ?_⟩
      have hnk : n + 1 ≤ k := by omega
      rw [hMk, List.range'_append_1, Nat.add_sub_cancel' hnk]
    · rw [List.length_append, List.length_range']
      omega
  · rw [Nat.zero_add, ← hMk] at ht
    have hmem (a : ℕ) (hle : seg.virtualAddress ≤ a) (hlt : a < pageSize * seg.firstPage + k * pageSize) :
        a / pageSize ∈ L ++ M := by
      refine List.mem_append_right _ ?_
      rw [hMk, List.mem_range'_1]
      simp only [ProgramSegment.firstPage, pageSize] at hlt ⊢
      omega
    refine (writeBytes_sat ht.1.toMapped (fun i hi => hmem _ (by omega) (by omega)) _).bind ?_
    rintro _ u ⟨hu, hu'⟩
    refine (writeBytes_sat hu (fun i hi => hmem _ (by omega) (by omega)) _).bind ?_
    rintro _ v ⟨hv, hv'⟩
    refine .pure ⟨rfl, ht.1.memory hv (hu'.trans hv'), ?_⟩
    rw [hu'.trans hv']
    exact ht.2

section Files

variable {l l' : EnvLoad}

/-- Only the page file and what it is written from changed. -/
def OnlyFile (l l' : EnvLoad) : Prop :=
  l' = { l with pageFile := l'.pageFile, ptrTempPage := l'.ptrTempPage, nNewPageAdded := l'.nNewPageAdded }

theorem OnlyFile.trans {l'' : EnvLoad} (h : OnlyFile l l') (h' : OnlyFile l' l'') : OnlyFile l l'' := by
  rw [OnlyFile, h', h]

theorem pfAddEnvPage_onlyFile (l : EnvLoad) (va : ℕ) (q : Page) :
    Sat (fun _ => kernelBase ≤ va) (pfAddEnvPage va q) l fun _ l' => OnlyFile l l' := by
  unfold pfAddEnvPage
  split
  · exact .of_error rfl (by assumption)
  · exact .of_ok rfl rfl

theorem pfAddEmptyEnvPage_onlyFile (l : EnvLoad) (va : ℕ) :
    Sat (fun _ => kernelBase ≤ va) (pfAddEmptyEnvPage va) l fun _ l' => OnlyFile l l' := by
  unfold pfAddEmptyEnvPage
  refine .bind_ok run_get ?_
  split
  · refine .bind_ok run_set ((pfAddEnvPage_onlyFile _ _ _).mono fun _ l' h => ?_)
    rw [OnlyFile, h]
  · exact pfAddEnvPage_onlyFile _ _ _

theorem forRange_onlyFile {body : ℕ → Loader PUnit} (hbody : ∀ i l, Ends (body i) l fun _ l' => OnlyFile l l')
    (l : EnvLoad) : Ends (forRange body i n) l fun _ l' => OnlyFile l l' :=
  Sat.forRange (fun _ l' => OnlyFile l l') rfl fun k l' _ _ h => (hbody k l').mono fun _ _ h' => h.trans h'

theorem copyToTempPage_onlyFile (x : Elf) (src dst i : ℕ) (l : EnvLoad) :
    Ends (copyToTempPage x src dst i) l fun _ l' => OnlyFile l l' := .of_ok rfl rfl

theorem writeSegment_onlyFile (x : Elf) (seg : ProgramSegment) (l : EnvLoad) :
    Ends (writeSegment x seg) l fun _ l' => OnlyFile l l' := by
  have hadd (va : ℕ) (q : Page) (l : EnvLoad) : Ends (pfAddEnvPage va q) l fun _ l' => OnlyFile l l' :=
    (pfAddEnvPage_onlyFile l va q).weaken fun _ _ => trivial
  have hclear (l : EnvLoad) : Ends clearTempPage l fun _ l' => OnlyFile l l' := .of_ok rfl rfl
  have hcopy (src dst n : ℕ) (l : EnvLoad) := forRange_onlyFile (i := 0) (n := n) (copyToTempPage_onlyFile x src dst) l
  have hfirst (l : EnvLoad) : Ends (writeFirstPage x seg) l fun _ l' => OnlyFile l l' := by
    unfold writeFirstPage
    refine (hclear l).bind fun _ l₁ h₁ => (hcopy _ _ _ l₁).bind fun _ l₂ h₂ => .bind_ok run_get ?_
    exact (hadd _ _ _).bind fun _ l₃ h₃ => .pure ((h₁.trans h₂).trans h₃)
  have hmiddle (src : ℕ) (l : EnvLoad) : Ends (writeMiddlePages x seg src) l fun _ l' => OnlyFile l l' := by
    unfold writeMiddlePages
    exact (forRange_onlyFile (fun _ l => hadd _ _ l) l).bind fun _ l₁ h₁ => .pure h₁
  have hlast (src : ℕ) (l : EnvLoad) : Ends (writeLastPage x seg src) l fun _ l' => OnlyFile l l' := by
    unfold writeLastPage
    refine (hclear l).bind fun _ l₁ h₁ => (hcopy _ _ _ l₁).bind fun _ l₂ h₂ => .bind_ok run_get ?_
    exact (hadd _ _ _).mono fun _ l₃ h₃ => (h₁.trans h₂).trans h₃
  have hrest (l : EnvLoad) : Ends (writeRemainingArea seg) l fun _ l' => OnlyFile l l' := by
    unfold writeRemainingArea
    exact forRange_onlyFile (fun _ l => (pfAddEmptyEnvPage_onlyFile l _).weaken fun _ _ => trivial) l
  unfold writeSegment
  refine (hfirst l).bind fun src₁ l₁ h₁ => (hmiddle src₁ l₁).bind fun src₂ l₂ h₂ => ?_
  exact (hlast src₂ l₂).bind fun _ l₃ h₃ => (hrest l₃).mono fun _ l₄ h₄ => ((h₁.trans h₂).trans h₃).trans h₄

theorem writeSegment_sat (h : Placed seg) (hbelow : seg.virtualAddress + seg.sizeInMemory < kernelBase)
    (x : Elf) (l : EnvLoad) : Sat tol (writeSegment x seg) l fun _ l' => OnlyFile l l' := by
  have hreturns : Sat seg.AtKernel (writeSegment x seg) l fun _ _ => True := by
    unfold writeSegment
    refine (h.writeFirstPage_sat x l).bind fun src₁ l₁ _ => (h.writeMiddlePages_sat x src₁ l₁).bind fun src₂ l₂ _ => ?_
    exact (h.writeLastPage_sat x src₂ l₂).bind fun _ l₃ _ => (h.writeRemainingArea_sat l₃).mono fun _ _ _ => trivial
  obtain ⟨a, l', hrun, -⟩ := (hreturns.weaken fun _ he => absurd he (not_le.mpr hbelow)).exists_ok
  exact .of_ok hrun ((writeSegment_onlyFile x seg l).ok hrun)

end Files

theorem Loading.file (h : Loading base L s) (ht : OnlyFile s.toEnvLoad t.toEnvLoad) (hperms : t.perms = s.perms) :
    Loading base L t := by
  refine ⟨h.toListed.congr ?_ ?_ ?_ ?_, h.toTables.congr ?_ ?_, h.toMapped.congr ?_ hperms⟩
  all_goals rw [ht]

/-- What is left of the slots for segments. -/
structure Budget (base : NewEnv) (L : List ℕ) (s : NewEnv) : Prop where
  lt : s.remainingWSPages < 2 ^ 32
  room : base.pageWSMaxSize = 0 ∨ s.remainingWSPages + L.length + 1 = base.pageWSMaxSize

theorem Loading.loadSegment_sat (h : Loading base L s) (hb : Budget base L s) (hseg : Placed seg)
    (hbelow : seg.virtualAddress + seg.sizeInMemory < kernelBase)
    (hT : L ++ segmentPages s.progName s.remainingWSPages seg <+: T)
    (hsize : base.pageWSMaxSize ≤ pwsMaxSize) (x : Elf) :
    Sat (MayStop base T) (loadSegment x seg) s fun _ t =>
      Loading base (L ++ segmentPages s.progName s.remainingWSPages seg) t ∧
      Budget base (L ++ segmentPages s.progName s.remainingWSPages seg) t ∧
      t.remainingWSPages = s.remainingWSPages - (segmentPages s.progName s.remainingWSPages seg).length := by
  have hle := length_segmentPages_le s.progName s.remainingWSPages seg
  have hlt := hb.lt
  have hroom := hb.room
  unfold loadSegment
  refine (h.segment_sat hseg hT hroom hsize x).bind ?_
  rintro n t ⟨hn, ht, hrem⟩
  generalize segmentPages s.progName s.remainingWSPages seg = M at *
  have hrest : u32 (t.remainingWSPages + 2 ^ 32 - n) = s.remainingWSPages - M.length := by
    rw [hn, hrem, u32]
    omega
  have hmodify : (modify fun s : NewEnv => { s with
      remainingWSPages := u32 (s.remainingWSPages + 2 ^ 32 - n) } : Creator PUnit).run t =
      .ok (⟨⟩, { t with remainingWSPages := s.remainingWSPages - M.length }) := by
    simp only [run_modify, hrest]
  refine .bind_ok hmodify (Sat.mono (load_sat (writeSegment_sat hseg hbelow x _)) ?_)
  rintro _ u ⟨hfile, hu⟩
  have hrest' : u.remainingWSPages = s.remainingWSPages - M.length := by rw [hfile]
  refine ⟨Loading.file ?_ hfile (by rw [hu]), ⟨by omega, ?_⟩, hrest'⟩
  · exact ⟨ht.toListed.congr rfl rfl rfl rfl, ht.toTables.congr rfl rfl, ht.toMapped.congr rfl rfl⟩
  · rw [hrest', List.length_append]
    omega

theorem Loading.loadSegments_sat (h : Loading base L s) (hb : Budget base L s) (hsegs : ∀ seg ∈ segs, Placed seg ∧
    seg.virtualAddress + seg.sizeInMemory < kernelBase) (hsize : base.pageWSMaxSize ≤ pwsMaxSize) (x : Elf)
    (hT : L ++ loadedPages base.progName s.remainingWSPages segs = T) :
    Sat (MayStop base T) (loadSegments x segs) s fun _ t => Loading base T t := by
  induction segs generalizing L s with
  | nil => exact .pure (hT ▸ (List.append_nil L).symm ▸ h)
  | cons seg segs ih =>
    obtain ⟨hseg, hbelow⟩ := hsegs seg List.mem_cons_self
    rw [loadedPages, ← List.append_assoc, ← h.name] at hT
    refine (h.loadSegment_sat hb hseg hbelow ⟨_, hT⟩ hsize x).bind fun _ t ⟨ht, hbt, hrem⟩ => ?_
    refine ih ht hbt (fun seg' hs => hsegs seg' (List.mem_cons_of_mem _ hs)) ?_
    rw [hrem, ← h.name]
    exact hT

theorem Loading.clearModified_sat (h : Loading base L s) (hi : (base.ptrPageWorkingSet i).empty = true) :
    Sat tol (clearModified i) s fun _ t => Loading base L t := by
  unfold clearModified
  refine .bind_ok run_get (.ite (fun he => ?_) fun _ => .pure h)
  have hslot := h.slots i
  cases hp : L[i]? with
  | none =>
    rw [hp] at hslot
    rw [hslot] at he
    exact absurd (hi.symm.trans he) (by decide)
  | some p =>
    rw [hp] at hslot
    have hmem : p ∈ L := List.mem_of_getElem? hp
    have hpage : (s.ptrPageWorkingSet i).virtualAddress / pageSize = p := by
      rw [hslot]
      exact Nat.mul_div_cancel_left p (by decide)
    refine .of_ok (run_modify _) (h.memory ?_ rfl)
    exact h.toMapped.update hmem (userEntry_clearPerm (h.perms p hmem)) h.pages (by rw [hpage])

def stackPage : ℕ := stackVa / pageSize

/-- After the stack was put into slot `n`. -/
structure Stacked (base : NewEnv) (L : List ℕ) (n : ℕ) (s t : NewEnv) : Prop extends Mapped base L t where
  pos : 0 < base.pageWSMaxSize
  size : t.pageWSMaxSize = base.pageWSMaxSize
  slots : t.ptrPageWorkingSet = Function.update s.ptrPageWorkingSet n ⟨stackVa, false, 0x80000000⟩
  hand : t.pageLastWSIndex = (n + 1) % base.pageWSMaxSize

theorem envPageWsSetEntry_run (hi : i < s.pageWSMaxSize) (hva : va < userTop) :
    (envPageWsSetEntry i va).run s = .ok ((), { s with
      ptrPageWorkingSet := Function.update s.ptrPageWorkingSet i ⟨roundDown va pageSize, false, 0x80000000⟩ }) := by
  rw [envPageWsSetEntry, run_bind_ok run_get, if_neg (not_le.mpr hi), if_neg (not_le.mpr hva)]
  rfl

theorem envPageWsSetEntry_error (hi : s.pageWSMaxSize ≤ i) (va : ℕ) :
    (envPageWsSetEntry i va).run s = .error .assertion := by
  rw [envPageWsSetEntry, run_bind_ok run_get, if_pos hi]
  rfl

theorem advanceIndex_run (h : s.pageWSMaxSize ≠ 0) : advanceIndex.run s = .ok ((), { s with
    pageLastWSIndex := u32 (s.pageLastWSIndex + 1) % s.pageWSMaxSize }) := by
  rw [advanceIndex, run_bind_ok run_get, if_neg h]
  rfl

theorem stackPage_eq : stackPage = 0xEEBFD := by decide

theorem stackVa_eq : stackVa = pageSize * 0xEEBFD := by decide

theorem Loading.createStack_sat (h : Loading base L s)
    (hroom : base.pageWSMaxSize = 0 ∨ L.length < base.pageWSMaxSize) (hsize : base.pageWSMaxSize ≤ pwsMaxSize) :
    Sat (MayStop base T) createStack s fun _ t => Stacked base (L ++ [stackPage]) L.length s t := by
  have hmap : Mapped base L { s with initNumStackPages := 1 } := h.toMapped.congr rfl rfl
  have hstack : stackVa / pageSize = stackPage := rfl
  have hpage : ∀ i < pageSize, (stackVa + i) / pageSize ∈ L ++ [stackPage] := fun i hi =>
    List.mem_append_right _ (List.mem_singleton.mpr (by
      rw [stackVa_eq, Nat.mul_add_div (by decide), Nat.div_eq_of_lt hi, Nat.add_zero, ← stackPage_eq]))
  unfold createStack
  refine .bind_ok (run_modify _) ((mapNewFrame_sat hmap hstack).bind fun _ t ⟨ht, hframe⟩ => ?_)
  refine (memsetZero_sat ht hpage).bind fun _ u ⟨hu, hmem⟩ => ?_
  have hus : u.pageWSMaxSize = base.pageWSMaxSize ∧ u.pageLastWSIndex = L.length ∧
      u.ptrPageWorkingSet = s.ptrPageWorkingSet := by
    rw [hmem, hframe]
    exact ⟨h.size, h.hand, rfl⟩
  obtain ⟨hus, hhand, hslots⟩ := hus
  refine .bind_ok run_get ?_
  rcases Nat.eq_zero_or_pos base.pageWSMaxSize with hzero | hpos
  · exact .of_error (run_bind_error (envPageWsSetEntry_error (by omega) _)) (.inl hzero)
  · refine .bind_ok (envPageWsSetEntry_run (by omega) (by decide)) ?_
    refine .bind_ok (advanceIndex_run (by change u.pageWSMaxSize ≠ 0; omega)) ?_
    refine Sat.mono (load_sat ((pfAddEmptyEnvPage_onlyFile _ stackVa).weaken fun _ he => absurd he (by decide)))
      fun _ v ⟨hfile, hv⟩ => ⟨hu.congr (by rw [hfile]) (by rw [hv]), hpos, ?_, ?_, ?_⟩
    · rw [hfile]
      exact hus
    · rw [hfile, hhand, ← hslots, stackVa_eq, roundDown_of_dvd ⟨_, rfl⟩]
    · rw [hfile]
      change u32 (u.pageLastWSIndex + 1) % u.pageWSMaxSize = _
      simp only [pwsMaxSize] at hsize
      rw [hhand, hus, u32_of_lt (by omega)]

def NewEnv.start (s : NewEnv) (progName : String) (pageWSSize : ℕ) : NewEnv := { s with
  progName := progName
  pageWSMaxSize := pageWSSize
  pageFile := fun _ => none
  pages := fun _ => none
  perms := sharedEntries pageWSSize
  ptrPageWorkingSet := fun i => if i < pageWSSize then ⟨0, true, 0⟩ else s.ptrPageWorkingSet i
  pageLastWSIndex := 0
  ptrTws := fun i => if i < twsMaxSize then ⟨0, true, 0⟩ else s.ptrTws i
  tableLastWSIndex := 0
  nNewPageAdded := 0
  remainingWSPages := u32 (pageWSSize + 2 ^ 32 - 1)
  lastTableNumber := noTable }

theorem start_loading (s : NewEnv) (progName : String) (pageWSSize : ℕ) :
    Loading (s.start progName pageWSSize) [] (s.start progName pageWSSize) :=
  ⟨⟨rfl, rfl, fun _ => rfl, rfl⟩, ⟨by decide, rfl, rfl⟩, ⟨fun _ h => (List.not_mem_nil h).elim,
    fun _ h => (List.not_mem_nil h).elim, fun _ _ => rfl⟩⟩

theorem remaining_start (hpos : 0 < pageWSSize) (hsize : pageWSSize ≤ pwsMaxSize) :
    u32 (pageWSSize + 2 ^ 32 - 1) = pageWSSize - 1 := by
  simp only [pwsMaxSize] at hsize
  rw [u32]
  omega

theorem start_budget (s : NewEnv) (progName : String) (hsize : pageWSSize ≤ pwsMaxSize) :
    Budget (s.start progName pageWSSize) [] (s.start progName pageWSSize) := by
  have hr : (s.start progName pageWSSize).remainingWSPages = u32 (pageWSSize + 2 ^ 32 - 1) := rfl
  have hn : (s.start progName pageWSSize).pageWSMaxSize = pageWSSize := rfl
  refine ⟨hr ▸ Nat.mod_lt _ (by decide), ?_⟩
  rw [hr, hn, List.length_nil]
  rcases Nat.eq_zero_or_pos pageWSSize with hzero | hpos
  · exact .inl hzero
  · rw [remaining_start hpos hsize]
    omega

theorem envCreate_run (hmagic : x.eMagic = elfMagic) (s : NewEnv) (progName : String) (pageWSSize : ℕ) :
    (envCreate x progName pageWSSize).run s = (do
      loadSegments x (programSegments x)
      forRange clearModified 0 pageWSSize
      createStack : Creator Unit).run (s.start progName pageWSSize) := by
  rw [envCreate, run_bind_ok (run_modify _), initializeEnvironment, run_bind_ok (run_modify _),
    if_neg (not_not_intro hmagic), run_bind_ok (run_modify _)]
  rfl

theorem sharedEntries_eq_zero (hsize : pageWSSize ≤ pwsMaxSize) (hp : ¬UserPagesWS (pageSize * p)) :
    sharedEntries pageWSSize p = 0 := by
  have hround : roundUp (sizeOfWorkingSetElement * pageWSSize) pageSize ≤ sizeOfWorkingSetElement * pwsMaxSize + pageSize :=
    (roundDown_le _ _).trans ((Nat.mod_le _ _).trans (by simp only [sizeOfWorkingSetElement, pageSize]; omega))
  rw [sharedEntries, if_neg]
  rintro ⟨hle, hlt⟩
  have hlo : userHeapMax = 0xA0000000 := rfl
  have hhi : ustackBottom = 0xA0062000 := by decide
  simp only [UserPagesWS, hlo, hhi, sizeOfWorkingSetElement, pwsMaxSize, pageSize] at *
  omega

theorem Stacked.filled (h : Stacked (s.start progName pageWSSize) (L ++ [stackPage]) L.length base t)
    (hl : Listed (s.start progName pageWSSize) L base) (hlt : L.length < pageWSSize) (hnodup : L.Nodup)
    (hbelow : ∀ p ∈ L, p < stackPage) (hsize : pageWSSize ≤ pwsMaxSize) : Filled s t pageWSSize (L.length + 1) := by
  have hlen : (L ++ [stackPage]).length = L.length + 1 := by rw [List.length_append, List.length_singleton]
  have hslot (i : ℕ) (hi : i < (L ++ [stackPage]).length) :
      (t.ptrPageWorkingSet i).virtualAddress = pageSize * (L ++ [stackPage])[i] ∧
      (t.ptrPageWorkingSet i).empty = false := by
    rw [h.slots]
    rcases Nat.lt_or_ge i L.length with hlt | hge
    · rw [Function.update_of_ne hlt.ne, hl.slots, List.getElem?_eq_getElem hlt, List.getElem_append_left hlt]
      exact ⟨rfl, rfl⟩
    · obtain rfl : i = L.length := by omega
      rw [Function.update_self, List.getElem_concat_length rfl]
      exact ⟨by rw [stackPage_eq]; exact stackVa_eq, rfl⟩
  have hother (i : ℕ) (hi : L.length < i) : t.ptrPageWorkingSet i =
      if i < pageWSSize then ⟨0, true, 0⟩ else s.ptrPageWorkingSet i := by
    rw [h.slots, Function.update_of_ne hi.ne', hl.slots, List.getElem?_eq_none hi.le]
    rfl
  have hpage (i : ℕ) (hi : i < (L ++ [stackPage]).length) : slotPage t i = (L ++ [stackPage])[i] := by
    rw [slotPage, (hslot i hi).1]
    exact Nat.mul_div_cancel_left _ (by decide)
  have hnodup' : (L ++ [stackPage]).Nodup := by
    rw [List.nodup_append_comm, List.singleton_append, List.nodup_cons]
    exact ⟨fun hmem => absurd (hbelow _ hmem) (lt_irrefl _), hnodup⟩
  refine ⟨h.size, fun i hi => ?_, Nat.succ_pos _, hlt, fun i hi => ?_, fun i hi => ?_, fun i hi j hj heq => ?_,
    fun i hi => ?_, ⟨L.length, Nat.lt_succ_self _, ?_⟩, fun p hp hws hne => ?_, h.hand⟩
  · rw [hother i (by omega), if_neg (by omega)]
  · rcases Nat.lt_or_ge i (L.length + 1) with hlt' | hge
    · exact ⟨fun _ => hlt', fun _ => (hslot i (by omega)).2⟩
    · rw [hother i (by omega), if_pos hi]
      exact ⟨fun he => absurd he (by decide), fun hlt' => absurd hlt' (not_lt.mpr hge)⟩
  · rw [(hslot i (by omega)).1, hpage i (by omega)]
  · rw [hpage i (by omega), hpage j (by omega)] at heq
    exact (List.Nodup.getElem_inj_iff hnodup').mp heq
  · rw [hpage i (by omega)]
    have hperm := h.perms _ (List.getElem_mem (l := L ++ [stackPage]) (n := i) (by omega))
    simp only [userEntry, hasPerm_or] at hperm
    exact ⟨hperm.2, hperm.1.2, hperm.1.1⟩
  · rw [(hslot L.length (by omega)).1, List.getElem_concat_length rfl, stackPage_eq]
    exact stackVa_eq.symm
  · have hmem : p ∉ L ++ [stackPage] := fun hmem => by
      obtain ⟨i, hi, rfl⟩ := List.getElem_of_mem hmem
      exact hne i (by omega) (hpage i hi)
    rw [h.others p hmem]
    exact sharedEntries_eq_zero hsize hws

/-- What loading leaves, unless it stops. -/
theorem envCreate_sat (hx : ProgramImage x) (hsize : pageWSSize ≤ pwsMaxSize) (s : NewEnv) (progName : String) :
    Sat (MayStop (s.start progName pageWSSize)
        (loadedPages progName (u32 (pageWSSize + 2 ^ 32 - 1)) (programSegments x)))
      (envCreate x progName pageWSSize) s fun _ t => 0 < pageWSSize ∧
        tableChanges noTable (loadedPages progName (u32 (pageWSSize + 2 ^ 32 - 1)) (programSegments x)) < twsMaxSize ∧
        ∃ m, Filled s t pageWSSize m := by
  set T := loadedPages progName (u32 (pageWSSize + 2 ^ 32 - 1)) (programSegments x) with hT
  set base := s.start progName pageWSSize with hbase
  have hsegs : ∀ seg ∈ programSegments x, Placed seg ∧ seg.virtualAddress + seg.sizeInMemory < kernelBase := by
    intro seg hseg
    have hbelow := (hx.below seg hseg).trans_lt (show userHeapStart < kernelBase by decide)
    exact ⟨⟨hx.filesz seg hseg, hbelow.le⟩, hbelow⟩
  refine Sat.of_run (envCreate_run hx.magic s progName pageWSSize) ?_
  refine ((start_loading s progName pageWSSize).loadSegments_sat (start_budget s progName hsize) hsegs hsize x rfl).bind
    fun _ t ht => ?_
  have hclear : Sat (MayStop base T) (forRange clearModified 0 pageWSSize) t fun _ u => Loading base T u := by
    refine Sat.forRange (fun _ u => Loading base T u) ht fun i u _ hi hu => hu.clearModified_sat ?_
    rw [Nat.zero_add] at hi
    change (if i < pageWSSize then (⟨0, true, 0⟩ : WorkingSetElement) else s.ptrPageWorkingSet i).empty = true
    rw [if_pos hi]
  have hroom : pageWSSize = 0 ∨ T.length < pageWSSize := by
    rcases Nat.eq_zero_or_pos pageWSSize with hzero | hpos
    · exact .inl hzero
    · have hle := length_loadedPages_le progName (u32 (pageWSSize + 2 ^ 32 - 1)) (programSegments x)
      rw [remaining_start hpos hsize] at hT hle
      rw [hT]
      omega
  have hbelow : ∀ p ∈ T, p < stackPage := by
    intro p hp
    obtain ⟨seg, hseg, hc⟩ := mem_loadedPages hp
    have hheap := hx.below seg hseg
    rw [stackPage_eq]
    simp only [Covers, userHeapStart, pageSize] at hc hheap
    omega
  refine hclear.bind fun _ u hu => (hu.createStack_sat hroom hsize).mono fun _ v hv => ?_
  have hpos : 0 < pageWSSize := hv.pos
  have hnodup : T.Nodup := nodup_loadedPages hx.disjoint
  exact ⟨hpos, ht.few, _, hv.filled hu.toListed (hroom.resolve_left hpos.ne') hnodup hbelow hsize⟩

theorem fillsWorkingSet_of_few (hx : ProgramImage x) (hpos : 0 < pageWSSize) (hsize : pageWSSize ≤ pwsMaxSize)
    (hfew : tableChanges noTable (loadedPages progName (pageWSSize - 1) (programSegments x)) < twsMaxSize) (s : NewEnv) :
    FillsWorkingSet x progName pageWSSize s := by
  have hsat := envCreate_sat hx hsize s progName
  rw [remaining_start hpos hsize] at hsat
  obtain ⟨_, t, hrun, -, -, hfilled⟩ := (hsat.weaken fun e he => by
    rcases he with hzero | hmany
    · exact hpos.ne' hzero
    · exact absurd hfew (not_lt.mpr hmany)).exists_ok
  exact ⟨t, hrun, hfilled⟩

/-- The working set of a new environment is as it should be exactly when it has a slot and
the loaded pages go from one 4 MB region to another fewer than 50 times, the first of them
included. -/
theorem fillsWorkingSet_iff (hx : ProgramImage x) (hsize : pageWSSize ≤ pwsMaxSize) (progName : String) (s : NewEnv) :
    FillsWorkingSet x progName pageWSSize s ↔ 1 ≤ pageWSSize ∧
      tableChanges noTable (loadedPages progName (pageWSSize - 1) (programSegments x)) < twsMaxSize := by
  constructor
  · rintro ⟨t, hrun, -⟩
    obtain ⟨hpos, hfew, -⟩ := (envCreate_sat hx hsize s progName).ok hrun
    rw [remaining_start hpos hsize] at hfew
    exact ⟨hpos, hfew⟩
  · rintro ⟨hpos, hfew⟩
    exact fillsWorkingSet_of_few hx hpos hsize hfew s

theorem tableChanges_of_sorted (h : (p :: L).Pairwise (· ≤ ·)) :
    tableChanges (p / 1024) L + 1 = ((p :: L).map (· / 1024)).toFinset.card := by
  induction L generalizing p with
  | nil => rfl
  | cons q L ih =>
    obtain ⟨hp, hq⟩ := List.pairwise_cons.mp h
    have hpq := hp q List.mem_cons_self
    rw [tableChanges, List.map_cons, List.toFinset_cons, Nat.add_assoc, ih hq]
    by_cases heq : q / 1024 = p / 1024
    · rw [if_pos heq, Nat.zero_add, Finset.insert_eq_of_mem]
      rw [← heq, List.mem_toFinset]
      exact List.mem_map_of_mem List.mem_cons_self
    · rw [if_neg heq, Finset.card_insert_of_notMem, Nat.add_comm]
      rw [List.mem_toFinset, List.mem_map]
      rintro ⟨r, hr, hrp⟩
      have hqr : q ≤ r := by
        rcases List.mem_cons.mp hr with rfl | hr
        · exact le_rfl
        · exact (List.pairwise_cons.mp hq).1 r hr
      omega

theorem loadedPages_sorted (hdis : segs.Pairwise fun seg seg' => ∀ p, Covers seg p → ¬Covers seg' p)
    (hasc : segs.Pairwise fun seg seg' => seg.virtualAddress ≤ seg'.virtualAddress) :
    (loadedPages progName r segs).Pairwise (· ≤ ·) := by
  induction segs generalizing r with
  | nil => exact List.Pairwise.nil
  | cons seg segs ih =>
    obtain ⟨hseg, hdis⟩ := List.pairwise_cons.mp hdis
    obtain ⟨hfirst, hasc⟩ := List.pairwise_cons.mp hasc
    rw [loadedPages, List.pairwise_append]
    refine ⟨List.pairwise_le_range', ih hdis hasc, fun p hp q hq => ?_⟩
    obtain ⟨seg', hmem, hc⟩ := mem_loadedPages hq
    have hp := mem_segmentPages hp
    have hle := hfirst seg' hmem
    -- otherwise `q` would be a page of both
    by_contra hlt
    refine hseg seg' hmem q ?_ hc
    simp only [Covers, pageSize] at hp hc ⊢
    omega

theorem loadedPages_subset (h : p ∈ loadedPages progName r (programSegments x)) : p ∈ coveredPages x := by
  obtain ⟨seg, hseg, hc⟩ := mem_loadedPages h
  refine List.mem_flatMap.mpr ⟨seg, hseg, ?_⟩
  simp only [Covers, pageSize] at hc
  simp only [List.mem_range'_1, ProgramSegment.firstPage, ProgramSegment.stopPage]
  omega

/-- An image whose segments are in the order of their addresses is loaded whenever the
working set has a slot. -/
theorem fillsWorkingSet_of_ascending (hx : ProgramImage x) (hpos : 0 < pageWSSize) (hsize : pageWSSize ≤ pwsMaxSize)
    (hasc : (programSegments x).Pairwise fun seg seg' => seg.virtualAddress ≤ seg'.virtualAddress)
    (progName : String) (s : NewEnv) : FillsWorkingSet x progName pageWSSize s := by
  refine fillsWorkingSet_of_few hx hpos hsize ?_ s
  have hsorted : (loadedPages progName (pageWSSize - 1) (programSegments x)).Pairwise (· ≤ ·) :=
    loadedPages_sorted hx.disjoint hasc
  have hsub : ((loadedPages progName (pageWSSize - 1) (programSegments x)).map (· / 1024)).toFinset.card ≤ regions x := by
    rw [regions, ← List.card_toFinset]
    refine Finset.card_le_card fun d hd => ?_
    obtain ⟨p, hp, rfl⟩ := List.mem_map.mp (List.mem_toFinset.mp hd)
    exact List.mem_toFinset.mpr (List.mem_map_of_mem (loadedPages_subset hp))
  cases hL : loadedPages progName (pageWSSize - 1) (programSegments x) with
  | nil => decide
  | cons p L =>
    rw [hL] at hsorted hsub
    have hchange := tableChanges_of_sorted hsorted
    have hfew := hx.few
    rw [tableChanges]
    split
    · omega
    · omega

/-- But for one page, the page file and the memory are the same. -/
structure SameImage (p : ℕ) (l l' : EnvLoad) : Prop where
  pageFile : ∀ q, q ≠ p → l'.pageFile q = l.pageFile q
  pages : ∀ q, q ≠ p → l'.pages q = l.pages q
  size : l'.pageWSMaxSize = l.pageWSMaxSize

theorem SameImage.refl (p : ℕ) (l : EnvLoad) : SameImage p l l := ⟨fun _ _ => rfl, fun _ _ => rfl, rfl⟩

theorem SameImage.symm {l l' : EnvLoad} (h : SameImage p l l') : SameImage p l' l :=
  ⟨fun q hq => (h.pageFile q hq).symm, fun q hq => (h.pages q hq).symm, h.size.symm⟩

theorem SameImage.trans {l l' l'' : EnvLoad} (h : SameImage p l l') (h' : SameImage p l' l'') : SameImage p l l'' :=
  ⟨fun q hq => (h'.pageFile q hq).trans (h.pageFile q hq), fun q hq => (h'.pages q hq).trans (h.pages q hq),
    h'.size.trans h.size⟩

theorem loaded_congr {l l' : EnvLoad} (h : Loaded x l) (hsame : SameImage p l l')
    (hp : ∀ seg ∈ programSegments x, ¬Covers seg p) : Loaded x l' := by
  have hne {seg : ProgramSegment} (hseg : seg ∈ programSegments x) {q : ℕ} (hq : Covers seg q) : q ≠ p := by
    rintro rfl
    exact hp seg hseg hq
  refine ⟨fun seg hseg a hc => ?_, fun seg hseg a hle hlt => ?_, fun seg hseg a b hle hlt hb => ?_⟩
  · rw [hsame.pageFile _ (hne hseg hc)]
    exact h.file seg hseg a hc
  · rw [hsame.pageFile _ (hne hseg (covers_of_mem hle hlt))]
    exact h.present seg hseg a hle hlt
  · have hoff := hne hseg (covers_of_mem hle hlt)
    rw [readByte, hsame.pages _ hoff] at hb
    rw [hsame.pageFile _ hoff]
    exact h.resident seg hseg a b hle hlt hb

theorem loadtimeMapFrame_same (q : Page) (va : ℕ) (l : EnvLoad) :
    Sat tol (ProgramLoading.loadtimeMapFrame q va) l fun _ l' => SameImage (va / pageSize) l l' :=
  .of_ok (run_modify _) ⟨fun _ _ => rfl, fun _ hq => Function.update_of_ne hq .., rfl⟩

theorem pfAddEmptyEnvPage_same (hva : va < kernelBase) (l : EnvLoad) :
    Sat tol (pfAddEmptyEnvPage va) l fun _ l' => SameImage (va / pageSize) l l' := by
  unfold pfAddEmptyEnvPage pfAddEnvPage
  refine .bind_ok run_get ?_
  simp only [if_neg (not_le.mpr hva)]
  split
  · exact .bind_ok run_set (.of_ok (run_modify _) ⟨fun _ hq => Function.update_of_ne hq .., fun _ _ => rfl, rfl⟩)
  · exact .of_ok (run_modify _) ⟨fun _ hq => Function.update_of_ne hq .., fun _ _ => rfl, rfl⟩

/-- The loader without entries adds its stack. -/
theorem plainStack_same {l : EnvLoad} (h : l.pageWSMaxSize ≠ 0) :
    Sat tol ProgramLoading.createStack l fun _ l' => SameImage stackPage l l' := by
  unfold ProgramLoading.createStack
  refine .bind_ok (run_modify _) (.bind_ok rfl ((loadtimeMapFrame_same zeroPage stackVa _).bind fun _ l' hl' => ?_))
  have hsize : l'.pageWSMaxSize ≠ 0 := by
    rw [hl'.size]
    exact h
  refine .bind_ok (addToWorkingSet_run (s := ⟨l', fun _ => 0⟩) hsize stackVa) ?_
  refine (pfAddEmptyEnvPage_same (by decide) _).mono fun _ l'' hl'' => ?_
  have hstart : SameImage stackPage l l' := ⟨hl'.pageFile, hl'.pages, hl'.size⟩
  exact hstart.trans ⟨hl''.pageFile, hl''.pages, hl''.size⟩

theorem writeByte_same (va : ℕ) (b : UInt8) (s : NewEnv) : Sat (fun _ => True) (writeByte va b) s fun _ t =>
    SameImage (va / pageSize) s.toEnvLoad t.toEnvLoad := by
  have hplain : Sat (fun _ => True) (ProgramLoading.writeByte va b) s.toEnvLoad fun _ l =>
      SameImage (va / pageSize) s.toEnvLoad l := by
    unfold ProgramLoading.writeByte
    refine .bind_ok run_get ?_
    split
    · exact .throw trivial
    · exact .of_ok (run_modify _) ⟨fun _ _ => rfl, fun _ hq => Function.update_of_ne hq .., rfl⟩
  exact (load_sat hplain).bind fun _ t ht => .of_ok (run_modify _) ht.1

theorem memsetZero_same (s : NewEnv) : Sat (fun _ => True) (memsetZero stackVa pageSize) s fun _ t =>
    SameImage stackPage s.toEnvLoad t.toEnvLoad := by
  unfold memsetZero
  refine Sat.forRange (fun _ (t : NewEnv) => SameImage stackPage s.toEnvLoad t.toEnvLoad) (.refl _ _) fun k t _ hk ht => ?_
  have hpage : (stackVa + k) / pageSize = stackPage := by
    rw [stackVa_eq, Nat.mul_add_div (by decide), Nat.div_eq_of_lt (by omega), Nat.add_zero, stackPage_eq]
  exact (writeByte_same _ 0 t).mono fun _ u hu => ht.trans (hpage ▸ hu)

theorem createStack_same (s : NewEnv) : Sat (fun _ => True) createStack s fun _ t =>
    s.pageWSMaxSize ≠ 0 ∧ SameImage stackPage s.toEnvLoad t.toEnvLoad := by
  unfold createStack
  refine .bind_ok (run_modify _) (Sat.bind (R := fun _ t => SameImage stackPage s.toEnvLoad t.toEnvLoad) ?_ fun _ t ht => ?_)
  · refine .bind_ok (load_run rfl) (.bind_ok (load_run rfl) (.of_ok (run_modify _) ?_))
    exact ⟨fun _ _ => rfl, fun _ hq => Function.update_of_ne hq .., rfl⟩
  refine (memsetZero_same t).bind fun _ u hu => .bind_ok run_get ?_
  have hsu := ht.trans hu
  refine Sat.bind (R := fun _ v => SameImage stackPage s.toEnvLoad v.toEnvLoad) ?_ fun _ v hv => ?_
  · unfold envPageWsSetEntry
    refine .bind_ok run_get (.ite (fun _ => .of_error rfl trivial) fun _ => ?_)
    refine .ite (fun _ => .of_error rfl trivial) fun _ => .of_ok (run_modify _) ?_
    exact ⟨hsu.pageFile, hsu.pages, hsu.size⟩
  by_cases hzero : v.pageWSMaxSize = 0
  · have hstop : advanceIndex.run v = .error .divideError := by
      rw [advanceIndex, run_bind_ok run_get, if_pos hzero]
      rfl
    exact .of_error (run_bind_error hstop) trivial
  · refine .bind_ok (advanceIndex_run hzero) ?_
    refine (load_sat (pfAddEmptyEnvPage_same (by decide) _)).mono fun _ w hw => ⟨?_, ?_⟩
    · rw [← hv.size]
      exact hzero
    · exact hv.trans ⟨hw.1.pageFile, hw.1.pages, hw.1.size⟩

theorem clearModified_toEnvLoad (n : ℕ) (s : NewEnv) : Sat (fun _ => True) (forRange clearModified 0 n) s fun _ t =>
    t.toEnvLoad = s.toEnvLoad := by
  refine Sat.forRange (fun _ (t : NewEnv) => t.toEnvLoad = s.toEnvLoad) rfl fun k t _ _ ht => ?_
  unfold clearModified
  exact .bind_ok run_get (.ite (fun _ => .of_ok (run_modify _) ht) fun _ => .pure ht)

/-- A program that `env_create` has loaded is in the page file and in memory as it is in its image, exactly when no page of a
segment is written wrongly. -/
theorem envCreate_loaded_iff (hx : ProgramImage x) (hpos : ∀ seg ∈ programSegments x, 0 < seg.sizeInFile)
    (hzero : s.ptrZeroPage = zeroPage) (hrun : (envCreate x progName pageWSSize).run s = .ok ((), t)) :
    Loaded x t.toEnvLoad ↔ LoadsRight x := by
  have hwell : WellFormed x := ⟨fun seg hseg => ⟨hpos seg hseg, hx.filesz seg hseg⟩, hx.disjoint⟩
  have hfresh : Fresh (s.start progName pageWSSize).toEnvLoad := ⟨fun _ => rfl, fun _ => rfl, hzero⟩
  have hstack : ∀ seg ∈ programSegments x, ¬Covers seg stackPage := by
    intro seg hseg hc
    have hbelow := hx.below seg hseg
    rw [stackPage_eq] at hc
    simp only [Covers, userHeapStart, pageSize] at hc hbelow
    omega
  rw [envCreate_run hx.magic] at hrun
  rcases hload : (loadSegments x (programSegments x)).run (s.start progName pageWSSize) with e | ⟨⟨⟩, u⟩
  · rw [run_bind_error hload] at hrun
    cases hrun
  have hplain := forgets_loadSegments x (programSegments x) (s.start progName pageWSSize)
  rw [hload] at hplain
  have hrest : Sat (fun _ => True) (do
      forRange clearModified 0 pageWSSize
      createStack : Creator Unit) u fun _ t => u.pageWSMaxSize ≠ 0 ∧ SameImage stackPage u.toEnvLoad t.toEnvLoad :=
    (clearModified_toEnvLoad pageWSSize u).bind fun _ v hv => hv ▸ createStack_same v
  rw [run_bind_ok hload] at hrun
  obtain ⟨hsize, hsame⟩ := hrest.ok hrun
  have hadd : Sat (fun _ => False) ProgramLoading.createStack u.toEnvLoad fun _ l => SameImage stackPage u.toEnvLoad l :=
    plainStack_same hsize
  obtain ⟨⟨⟩, l, hcreate, hsame'⟩ := hadd.exists_ok
  -- the loader without entries starts where the loop over the segments does
  have hprogram : (loadProgram x).run (s.start progName pageWSSize).toEnvLoad = .ok ((), l) := by
    rw [loadProgram, if_neg (not_not_intro hx.magic), run_bind_ok (run_modify _)]
    exact (run_bind_ok hplain.symm).trans hcreate
  have hall := hsame'.symm.trans hsame
  exact ⟨fun h => (loaded_congr h hall.symm hstack).loadsRight hwell hfresh hprogram,
    fun h => loaded_congr (h.loaded hwell hfresh hprogram) hall hstack⟩

theorem programImage_oneByte : ProgramImage (oneByte 0x800000) where
  magic := rfl
  filesz := fun seg hseg => ((wellFormed_oneByte _).filesz seg hseg).2
  below := by
    rw [programSegments_oneByte]
    decide
  disjoint := (wellFormed_oneByte _).disjoint
  few := by
    rw [regions, coveredPages, programSegments_oneByte]
    decide

def emptyEnv : NewEnv := ⟨stackOnly, fun _ => 0⟩

/-- Two slots hold a page of the program and the page of the stack. -/
theorem fillsWorkingSet_iff_two : FillsWorkingSet (oneByte 0x800000) "tst" 2 emptyEnv :=
  (fillsWorkingSet_iff programImage_oneByte (by decide) "tst" emptyEnv).mpr
    ⟨by decide, by rw [programSegments_oneByte]; decide⟩

/-- A working set without slots, which the command accepts, stops the kernel. -/
theorem emptyWorkingSet_stops : ¬∀ x progName pageWSSize s, ProgramImage x → pageWSSize ≤ pwsMaxSize →
    FillsWorkingSet x progName pageWSSize s := by
  intro hall
  obtain ⟨t, hrun, -⟩ := hall _ "tst" 0 emptyEnv programImage_oneByte (by decide)
  exact absurd ((envCreate_sat programImage_oneByte (by decide) emptyEnv "tst").ok hrun).1 (lt_irrefl 0)

end FosKernel.ProgramLoading.EnvCreate
