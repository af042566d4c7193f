import FosKernel.SchedulerQueues

/-!
# The table of semaphores

`createSemaphore` compares the result of the lookup with the code that it is to
return itself, and `krealloc`, which is to grow a full table, is not implemented.
-/

namespace FosKernel.Scheduler
open IntrusiveList

variable {s s' : State} {i n : ℕ} {ownerID : ℤ} {name : String} {initialValue : ℕ}

def eNoSemaphore : ℤ := -11
def eSemaphoreExists : ℤ := -12
def eSemaphoreNotExists : ℤ := -13

/-- The `int` that `get_semaphore_object_ID` returns. -/
def semaphoreCode : Option ℕ → ℤ
  | some i => i
  | none => eSemaphoreNotExists

/-- A semaphore after `memset`, marked as empty. -/
def Semaphore.cleared : Semaphore := ⟨0, "", 0, true⟩

def State.setSemaphore (s : State) (i : ℕ) (v : Semaphore) : State :=
  { s with semaphores := Function.update s.semaphores i v }

/-- One round of the loop of `create_semaphores_array`. -/
def clearSemaphore (s : State) (i : ℕ) : State :=
  { s.setSemaphore i .cleared with store := s.store.init (.sem i) }

def createSemaphoresArray (s : State) (numOfSemaphores : ℕ) : State :=
  (List.range numOfSemaphores).foldl clearSemaphore { s with maxSemaphores := numOfSemaphores }

/-- The result is `none` where `krealloc` panics. -/
def allocateSemaphoreObject (s : State) : Option (State × ℤ) :=
  match (List.range s.maxSemaphores).find? fun i => (s.semaphores i).empty with
  | some i => some (s.setSemaphore i { s.semaphores i with empty := false }, i)
  | none => none

def createSemaphore (s : State) (ownerEnvID : ℤ) (semaphoreName : String) (initialValue : ℕ) :
    Option (State × ℤ) :=
  if semaphoreCode (getSemaphoreObjectID s ownerEnvID semaphoreName) = eSemaphoreExists then
    some (s, eSemaphoreExists)
  else do
    let (s, obj) ← allocateSemaphoreObject s
    if obj = eNoSemaphore then return (s, eNoSemaphore)
    let i := obj.toNat
    return (s.setSemaphore i
      { s.semaphores i with ownerID := ownerEnvID, name := semaphoreName, value := int32 initialValue }, obj)

def freeSemaphoreObject (s : State) (semaphoreObjectID : ℕ) : State × ℤ :=
  if s.maxSemaphores ≤ semaphoreObjectID then (s, eSemaphoreNotExists)
  else (clearSemaphore s semaphoreObjectID, 0)

/-- Entry `i` is used for the name. -/
def UsedFor (s : State) (ownerID : ℤ) (name : String) (i : ℕ) : Prop :=
  i < s.maxSemaphores ∧ (s.semaphores i).empty = false ∧ (s.semaphores i).ownerID = ownerID ∧
    (s.semaphores i).name = name

def InUse (s : State) (ownerID : ℤ) (name : String) : Prop := ∃ i, UsedFor s ownerID name i

def Full (s : State) : Prop := ∀ i < s.maxSemaphores, (s.semaphores i).empty = false

def UniqueNames (s : State) : Prop :=
  ∀ o n i j, UsedFor s o n i → UsedFor s o n j → i = j

/-- What `createSemaphore` is to do. -/
structure CreateContract (s : State) (ownerID : ℤ) (name : String) (initialValue : ℕ) : Prop where
  inUse : InUse s ownerID name → createSemaphore s ownerID name initialValue = some (s, eSemaphoreExists)
  full : ¬InUse s ownerID name → Full s →
    createSemaphore s ownerID name initialValue = some (s, eNoSemaphore)
  created : ¬InUse s ownerID name → ¬Full s → ∃ i < s.maxSemaphores, (s.semaphores i).empty = true ∧
    s.queue (.sem i) = [] ∧
    createSemaphore s ownerID name initialValue =
      some (s.setSemaphore i ⟨ownerID, name, int32 initialValue, false⟩, (i : ℤ)) ∧
    getSemaphoreObjectID (s.setSemaphore i ⟨ownerID, name, int32 initialValue, false⟩) ownerID name =
      some i

theorem getSemaphoreObjectID_eq_none : getSemaphoreObjectID s ownerID name = none ↔ ¬InUse s ownerID name := by
  simp only [getSemaphoreObjectID, List.find?_eq_none, List.mem_range, InUse, UsedFor, not_exists,
    Bool.and_eq_true, Bool.not_eq_true', beq_iff_eq]
  exact forall_congr' fun i => by tauto

theorem usedFor_of_getSemaphoreObjectID (h : getSemaphoreObjectID s ownerID name = some i) :
    UsedFor s ownerID name i := by
  have hmem := List.mem_of_find?_eq_some h
  have hhit := List.find?_some h
  simp only [Bool.and_eq_true, Bool.not_eq_true', beq_iff_eq] at hhit
  exact ⟨List.mem_range.mp hmem, hhit.1.1, hhit.1.2, hhit.2⟩

theorem semaphoreCode_ne (o : Option ℕ) : semaphoreCode o ≠ eSemaphoreExists := by
  cases o with
  | none => decide
  | some i =>
    simp only [semaphoreCode, eSemaphoreExists]
    omega

variable (ownerID name initialValue) in
theorem createSemaphore_eq (h : ¬Full s) : ∃ i < s.maxSemaphores, (s.semaphores i).empty = true ∧
    createSemaphore s ownerID name initialValue =
      some (s.setSemaphore i ⟨ownerID, name, int32 initialValue, false⟩, (i : ℤ)) := by
  have hex : ∃ i, (List.range s.maxSemaphores).find? (fun i => (s.semaphores i).empty) = some i := by
    simp only [Full, not_forall] at h
    obtain ⟨i, hi, he⟩ := h
    rw [← Option.isSome_iff_exists, List.find?_isSome]
    exact ⟨i, List.mem_range.mpr hi, by simpa using he⟩
  obtain ⟨i, hi⟩ := hex
  have hempty : (s.semaphores i).empty = true := by simpa using List.find?_some hi
  refine ⟨i, List.mem_range.mp (List.mem_of_find?_eq_some hi), hempty, ?_⟩
  have hcode : (i : ℤ) ≠ eNoSemaphore := by
    simp only [eNoSemaphore]
    omega
  simp [createSemaphore, semaphoreCode_ne, allocateSemaphoreObject, hi, hcode, State.setSemaphore]

theorem createSemaphore_full (h : Full s) : createSemaphore s ownerID name initialValue = none := by
  have hnone : (List.range s.maxSemaphores).find? (fun i => (s.semaphores i).empty) = none := by
    simpa [List.find?_eq_none, Full] using h
  simp [createSemaphore, semaphoreCode_ne, allocateSemaphoreObject, hnone]

theorem createSemaphore_pos {r : ℤ} (h : createSemaphore s ownerID name initialValue = some (s', r)) : 0 ≤ r := by
  by_cases hfull : Full s
  · rw [createSemaphore_full hfull] at h
    cases h
  · obtain ⟨i, -, -, hnew⟩ := createSemaphore_eq ownerID name initialValue hfull
    obtain ⟨-, rfl⟩ := Prod.mk.inj (Option.some.inj (hnew.symm.trans h))
    exact Int.natCast_nonneg i

/-- The name is not in use and there is room for it. -/
def Creatable (s : State) (ownerID : ℤ) (name : String) : Prop := ¬InUse s ownerID name ∧ ¬Full s

/-- No two entries have one name, and nobody waits. -/
structure Table (s : State) : Prop where
  unique : UniqueNames s
  queues : ∀ i < s.maxSemaphores, (s.store.head (.sem i)).first = none

theorem Table.queue (h : Table s) (hi : i < s.maxSemaphores) : s.queue (.sem i) = [] := by
  rw [State.queue, State.first, h.queues i hi]
  rfl

theorem usedFor_setSemaphore {v : Semaphore} {o : ℤ} {m : String} {j : ℕ} :
    UsedFor (s.setSemaphore i v) o m j ↔ j < s.maxSemaphores ∧
      (j = i ∧ v.empty = false ∧ v.ownerID = o ∧ v.name = m ∨ j ≠ i ∧ UsedFor s o m j) := by
  by_cases hji : j = i
  · subst hji
    simp [UsedFor, State.setSemaphore]
  · simp only [UsedFor, State.setSemaphore, Function.update_of_ne hji, hji]
    tauto

theorem getSemaphoreObjectID_created (h : ¬InUse s ownerID name) (hi : i < s.maxSemaphores) {v : ℤ} :
    getSemaphoreObjectID (s.setSemaphore i ⟨ownerID, name, v, false⟩) ownerID name = some i := by
  have hused : UsedFor (s.setSemaphore i ⟨ownerID, name, v, false⟩) ownerID name i :=
    usedFor_setSemaphore.mpr ⟨hi, .inl ⟨rfl, rfl, rfl, rfl⟩⟩
  rcases hj : getSemaphoreObjectID (s.setSemaphore i ⟨ownerID, name, v, false⟩) ownerID name with _ | j
  · exact absurd ⟨i, hused⟩ (getSemaphoreObjectID_eq_none.mp hj)
  · obtain ⟨-, ⟨rfl, -⟩ | ⟨-, hold⟩⟩ := usedFor_setSemaphore.mp (usedFor_of_getSemaphoreObjectID hj)
    · rfl
    · exact absurd ⟨j, hold⟩ h

/-- The contract is met exactly when the name is not in use and there is room. -/
theorem createContract_iff (h : Table s) :
    CreateContract s ownerID name initialValue ↔ Creatable s ownerID name := by
  constructor
  · intro hc
    constructor
    · intro huse
      have hrun := hc.inUse huse
      by_cases hfull : Full s
      · rw [createSemaphore_full hfull] at hrun
        cases hrun
      · obtain ⟨i, -, -, hnew⟩ := createSemaphore_eq ownerID name initialValue hfull
        rw [hnew] at hrun
        have hcode : (i : ℤ) = eSemaphoreExists := (Prod.mk.inj (Option.some.inj hrun)).2
        simp only [eSemaphoreExists] at hcode
        omega
    · intro hfull
      by_cases huse : InUse s ownerID name
      · have hrun := hc.inUse huse
        rw [createSemaphore_full hfull] at hrun
        cases hrun
      · have hrun := hc.full huse hfull
        rw [createSemaphore_full hfull] at hrun
        cases hrun
  · rintro ⟨huse, hfull⟩
    refine ⟨fun h => absurd h huse, fun _ h => absurd h hfull, fun _ _ => ?_⟩
    obtain ⟨i, hi, he, hrun⟩ := createSemaphore_eq ownerID name initialValue hfull
    exact ⟨i, hi, he, h.queue hi, hrun, getSemaphoreObjectID_created huse hi⟩

/-- Runs in which each creation finds the table as `ok` says. -/
inductive TableRun (ok : State → ℤ → String → Prop) (s₀ : State) (numOfSemaphores : ℕ) : State → Prop
  | start : TableRun ok s₀ numOfSemaphores (createSemaphoresArray s₀ numOfSemaphores)
  | create {s s' : State} {ownerID : ℤ} {name : String} {initialValue : ℕ} {r : ℤ} :
    TableRun ok s₀ numOfSemaphores s → name.utf8ByteSize < 64 → ok s ownerID name →
    createSemaphore s ownerID name initialValue = some (s', r) → TableRun ok s₀ numOfSemaphores s'
  | free {s : State} (semaphoreObjectID : ℕ) : TableRun ok s₀ numOfSemaphores s →
    TableRun ok s₀ numOfSemaphores (freeSemaphoreObject s semaphoreObjectID).1

theorem createSemaphoresArray_cleared (s : State) (n : ℕ) : (createSemaphoresArray s n).maxSemaphores = n ∧
    ∀ i < n, (createSemaphoresArray s n).semaphores i = .cleared ∧
      ((createSemaphoresArray s n).store.head (.sem i)).first = none := by
  have hloop (k : ℕ) (t : State) : let t' := (List.range k).foldl clearSemaphore t
      t'.maxSemaphores = t.maxSemaphores ∧ ∀ i < k, t'.semaphores i = .cleared ∧
        (t'.store.head (.sem i)).first = none := by
    induction k with
    | zero => simp
    | succ k ih =>
      obtain ⟨hmax, hclear⟩ := ih
      rw [List.range_succ, List.foldl_append, List.foldl_cons, List.foldl_nil]
      refine ⟨hmax, fun i hi => ?_⟩
      by_cases hik : i = k
      · subst hik
        simp [clearSemaphore, State.setSemaphore, Store.init]
      · obtain ⟨h₁, h₂⟩ := hclear i (by omega)
        simp [clearSemaphore, State.setSemaphore, Store.init, hik, h₁, h₂]
  exact hloop n { s with maxSemaphores := n }

theorem createSemaphoresArray_table (s : State) (n : ℕ) : Table (createSemaphoresArray s n) := by
  obtain ⟨hmax, hclear⟩ := createSemaphoresArray_cleared s n
  refine ⟨fun o m i j hi => ?_, fun i hi => (hclear i (hmax ▸ hi)).2⟩
  have he := hi.2.1
  rw [(hclear i (hmax ▸ hi.1)).1] at he
  cases he

theorem Table.create (h : Table s) (hok : Creatable s ownerID name) {r : ℤ}
    (hrun : createSemaphore s ownerID name initialValue = some (s', r)) : Table s' := by
  obtain ⟨i, hi, -, hnew⟩ := createSemaphore_eq ownerID name initialValue hok.2
  obtain ⟨rfl, -⟩ := Prod.mk.inj (Option.some.inj (hnew.symm.trans hrun))
  refine ⟨fun o m j k hj hk => ?_, h.queues⟩
  obtain ⟨-, hj'⟩ := usedFor_setSemaphore.mp hj
  obtain ⟨-, hk'⟩ := usedFor_setSemaphore.mp hk
  rcases hj' with ⟨rfl, -, rfl, rfl⟩ | ⟨-, hj'⟩
  · rcases hk' with ⟨rfl, -⟩ | ⟨-, hk'⟩
    · rfl
    · exact absurd ⟨k, hk'⟩ hok.1
  · rcases hk' with ⟨rfl, -, rfl, rfl⟩ | ⟨-, hk'⟩
    · exact absurd ⟨j, hj'⟩ hok.1
    · exact h.unique o m j k hj' hk'

theorem Table.free (h : Table s) (i : ℕ) : Table (freeSemaphoreObject s i).1 := by
  unfold freeSemaphoreObject
  split
  · exact h
  · refine ⟨fun o m j k hj hk => ?_, fun j hj => ?_⟩
    · have hold {j : ℕ} (hj : UsedFor (clearSemaphore s i) o m j) : UsedFor s o m j := by
        have hj' : UsedFor (s.setSemaphore i .cleared) o m j := hj
        obtain ⟨-, ⟨-, he, -⟩ | ⟨-, hold⟩⟩ := usedFor_setSemaphore.mp hj'
        · cases he
        · exact hold
      exact h.unique o m j k (hold hj) (hold hk)
    · have := h.queues j hj
      by_cases hji : j = i
      · simp [clearSemaphore, Store.init, hji]
      · simp [clearSemaphore, Store.init, hji, this]

/-- As long as only new names are created and the table has room, names stay
unique, and a creation meets its contract exactly if it is such a creation. -/
theorem semaphoreTable_contract {s₀ : State} (hr : TableRun Creatable s₀ n s) :
    UniqueNames s ∧ ∀ ownerID name initialValue,
      CreateContract s ownerID name initialValue ↔ Creatable s ownerID name := by
  have ht : Table s := by
    induction hr with
    | start => exact createSemaphoresArray_table s₀ n
    | create _ _ hok hrun ih => exact ih.create hok hrun
    | free i _ ih => exact ih.free i
  exact ⟨ht.unique, fun _ _ _ => createContract_iff ht⟩

def idle : State where
  store := ⟨fun _ => none, fun _ => none, fun _ => ⟨none, none, 0⟩⟩
  envId _ := 0
  envStatus _ := .free
  envRuns _ := 0
  curenv := none
  schedulerStatus := .stopped
  semaphores _ := .cleared
  maxSemaphores := 0

/-- One creation after the other of the same name. -/
def createTwice : Option (State × ℤ) := do
  let (s, _) ← createSemaphore (createSemaphoresArray idle 2) 5 "mutex" 1
  createSemaphore s 5 "mutex" 1

theorem createTwice_not_unique : ¬∀ s, TableRun (fun _ _ _ => True) idle 2 s →
    UniqueNames s ∧ ∀ ownerID name initialValue, CreateContract s ownerID name initialValue := by
  intro h
  obtain ⟨⟨s, r⟩, hs⟩ : ∃ p, createSemaphore (createSemaphoresArray idle 2) 5 "mutex" 1 = some p :=
    ⟨_, rfl⟩
  have hrun : TableRun (fun _ _ _ => True) idle 2 s := .create .start (by decide) trivial hs
  have huse : InUse s 5 "mutex" := by
    obtain ⟨rfl, -⟩ := Prod.mk.inj (Option.some.inj hs)
    exact ⟨0, by decide, rfl, rfl, rfl⟩
  have hexists := ((h s hrun).2 5 "mutex" 1).inUse huse
  have hcode : createTwice.map Prod.snd = some 1 := by decide +kernel
  rw [createTwice, hs] at hcode
  simp [hexists, eSemaphoreExists] at hcode

theorem semaphoreTable_contract_create : ∃ s, TableRun Creatable idle 2 s ∧
    getSemaphoreObjectID s 5 "mutex" = some 0 ∧ UniqueNames s ∧ CreateContract s 5 "barrier" 0 := by
  obtain ⟨⟨s, r⟩, hs⟩ : ∃ p, createSemaphore (createSemaphoresArray idle 2) 5 "mutex" 1 = some p :=
    ⟨_, rfl⟩
  have hok : Creatable (createSemaphoresArray idle 2) 5 "mutex" :=
    ⟨getSemaphoreObjectID_eq_none.mp (by decide +kernel), fun h => absurd (h 0 (by decide)) (by decide)⟩
  have hrun : TableRun Creatable idle 2 s := .create .start (by decide) hok hs
  have hcontract := semaphoreTable_contract hrun
  obtain ⟨rfl, -⟩ := Prod.mk.inj (Option.some.inj hs)
  refine ⟨_, hrun, by decide +kernel, hcontract.1, (hcontract.2 5 "barrier" 0).mpr
    ⟨getSemaphoreObjectID_eq_none.mp (by decide +kernel), fun h => absurd (h 1 (by decide)) (by decide)⟩⟩

end FosKernel.Scheduler
