import Mathlib.Data.Int.Basic
import FosKernel.IntrusiveList
import FosKernel.Memlayout

/-!
# The scheduler and the semaphores

An environment is named by its index in `envs`. All queues share the link field
of `struct Env`. A function that may follow a NULL pointer, or index the array
of semaphores by an error code, returns an `Option`.
-/

namespace FosKernel.Scheduler
open IntrusiveList

/-- Round robin has one ready queue. -/
inductive Queue | new | ready | exit | sem (i : ℕ) deriving DecidableEq, Repr

inductive EnvStatus | free | ready | runnable | blocked | new | exit | unknown
  deriving DecidableEq, Repr

inductive SchedulerStatus | uninitialized | stopped | started deriving DecidableEq, Repr

/-- The `env_queue` of the semaphore is the queue of its index. -/
structure Semaphore where
  ownerID : ℤ
  name : String
  value : ℤ
  empty : Bool
  deriving DecidableEq, Repr

structure State where
  store : Store Queue ℕ
  envId : ℕ → ℤ
  envStatus : ℕ → EnvStatus
  envRuns : ℕ → ℕ
  curenv : Option ℕ
  schedulerStatus : SchedulerStatus
  semaphores : ℕ → Semaphore
  maxSemaphores : ℕ

/-- The bytes set aside for `envs`, so a bound on `NENV`. -/
def envsBytes : ℕ := ptSize / 4

/-- The value an `int` holds after `n` was computed for it. -/
def int32 (n : ℤ) : ℤ := n.bmod (2 ^ 32)

theorem int32_eq {n : ℤ} (h : -2 ^ 31 ≤ n) (h' : n < 2 ^ 31) : int32 n = n := by
  simp only [int32, Int.bmod]
  omega

theorem int32_unsigned (n : ℤ) : int32 (unsigned n : ℤ) = int32 n := by
  have h : ((unsigned n : ℕ) : ℤ) = n % 2 ^ 32 := by
    rw [unsigned]
    omega
  rw [h, int32, int32]
  exact Int.emod_bmod n (2 ^ 32)

theorem unsigned_int32 (n : ℤ) : unsigned (int32 n) = unsigned n := by
  simp only [unsigned, int32, Int.bmod]
  split <;> omega

namespace State

def setStatus (s : State) (e : ℕ) (st : EnvStatus) : State :=
  { s with envStatus := Function.update s.envStatus e st }

def insertHead (s : State) (k : Queue) (e : ℕ) : State :=
  { s with store := s.store.insertHead k e }

def remove (s : State) (k : Queue) (e : ℕ) : State :=
  { s with store := s.store.remove k e }

def first (s : State) (k : Queue) : Option ℕ := (s.store.head k).first

/-- The environments of a queue in the order of their `next` links. -/
def queue (s : State) (k : Queue) : List ℕ := walk s.store.next envsBytes (s.first k)

/-- `LIST_FOREACH` over one of the queues, with further loop variables in `σ`. -/
def forEach {σ β : Type*} (s : State) (view : σ → State) (k : Queue)
    (body : ℕ → σ → Option (Flow σ β)) (init : σ) : Option (σ × Option β) :=
  IntrusiveList.forEach (fun t => (view t).store.next) body envsBytes (s.first k) init

end State

def enqueue (s : State) (k : Queue) : Option ℕ → State
  | some env => s.insertHead k env
  | none => s

def dequeue (s : State) (k : Queue) : State × Option ℕ :=
  match (s.store.head k).last with
  | some envItem => (s.remove k envItem, some envItem)
  | none => (s, none)

/-- `env_run` up to the return to user mode -/
def envRun (s : State) (e : ℕ) : State :=
  let s := if s.curenv = some e then s else
    { s with curenv := some e, envRuns := Function.update s.envRuns e (u32 (s.envRuns e + 1)) }
  s.setStatus e .runnable

/-- Round robin. The function does not return; the result is the state in which
the next environment, or the command prompt, runs. -/
def fosScheduler (s : State) : State :=
  let s := { s with schedulerStatus := .started }
  let s := enqueue s .ready s.curenv
  match dequeue s .ready with
  | (s, some nextEnv) => envRun s nextEnv
  | (s, none) => { s with curenv := none, schedulerStatus := .stopped }

def schedInsertReady (s : State) : Option ℕ → State
  | some env => enqueue (s.setStatus env .ready) .ready (some env)
  | none => s

def schedInsertNew (s : State) : Option ℕ → State
  | some env => enqueue (s.setStatus env .new) .new (some env)
  | none => s

def schedInsertExit (s : State) : Option ℕ → State
  | some env => enqueue (s.setStatus env .exit) .exit (some env)
  | none => s

def schedRemoveNew (s : State) : Option ℕ → State
  | some env => (s.remove .new env).setStatus env .unknown
  | none => s

def schedNewEnv (s : State) (e : Option ℕ) : State := schedInsertNew s e

def invokeIfStopped (s : State) : State :=
  if s.schedulerStatus = .stopped then fosScheduler s else s

def runAllBody (ptrEnv : ℕ) (s : State) : Option (Flow State Unit) :=
  some (.next (schedInsertReady (schedRemoveNew s (some ptrEnv)) (some ptrEnv)))

def schedRunAll (s : State) : Option State := do
  let (s, _) ← s.forEach id .new runAllBody s
  return invokeIfStopped s

/-- The loop is left at the match, through `break` or because `fos_scheduler`
does not return. -/
def runEnvBody (envId : ℤ) (ptrEnv : ℕ) (s : State) : Option (Flow State Unit) :=
  some (if s.envId ptrEnv = envId then
    .exit (invokeIfStopped (schedInsertReady (schedRemoveNew s (some ptrEnv)) (some ptrEnv))) ()
  else .next s)

def schedRunEnv (s : State) (envId : ℤ) : Option State := do
  let (s, _) ← s.forEach id .new (runEnvBody envId) s
  return s

/-- The loop over the new queue notes a match in `found` and goes on. -/
def exitNewBody (envId : ℤ) (ptrEnv : ℕ) : State × Bool → Option (Flow (State × Bool) Unit)
  | (s, found) => some (.next
    (if s.envId ptrEnv = envId then (schedRemoveNew s (some ptrEnv), true) else (s, found)))

def exitReadyBody (envId : ℤ) (ptrEnv : ℕ) (s : State) : Option (Flow State ℕ) :=
  some (if s.envId ptrEnv = envId then .exit (s.remove .ready ptrEnv) ptrEnv else .next s)

/-- How a function ends that may have called `fos_scheduler`. -/
inductive Ended
  | returned (s : State)
  | switched (s : State)

/-- The end of `sched_exit_env`, once the environment was found. -/
def exitFound (s : State) (ptrEnv : Option ℕ) (envId : ℤ) : Option Ended := do
  let s := schedInsertExit s ptrEnv
  let cur ← s.curenv
  return if s.envId cur = envId then .switched (fosScheduler { s with curenv := none })
    else .returned s

/-- After the loop over the new queue `ptr_env` is NULL. -/
def schedExitEnv (s : State) (envId : ℤ) : Option Ended := do
  let ((s, found), _) ← s.forEach Prod.fst .new (exitNewBody envId) (s, false)
  if found then exitFound s none envId
  else
    match ← s.forEach id .ready (exitReadyBody envId) s with
    | (s, some ptrEnv) => exitFound s (some ptrEnv) envId
    | (s, none) => do
      let cur ← s.curenv
      if s.envId cur = envId then exitFound s (some cur) envId else return .returned s

def exitAllBody (ptrEnv : ℕ) (s : State) : Option (Flow State Unit) :=
  some (.next (schedInsertExit (s.remove .ready ptrEnv) (some ptrEnv)))

def schedExitAllReadyEnvs (s : State) : Option State :=
  if (s.store.head .ready).size = 0 then some s
  else do
    let (s, _) ← s.forEach id .ready exitAllBody s
    return s

def envExit (s : State) : Option State := do
  let cur ← s.curenv
  match ← schedExitEnv s (s.envId cur) with
  | .returned s => return fosScheduler s
  | .switched s => return s

def getSemaphoreObjectID (s : State) (ownerID : ℤ) (name : String) : Option ℕ :=
  (List.range s.maxSemaphores).find? fun i =>
    !(s.semaphores i).empty && (s.semaphores i).ownerID == ownerID && (s.semaphores i).name == name

def State.setValue (s : State) (sem : ℕ) (v : ℤ) : State :=
  { s with semaphores := Function.update s.semaphores sem { s.semaphores sem with value := v } }

def waitSemaphore (s : State) (ownerEnvID : ℤ) (semaphoreName : String) : Option State := do
  let myenv := s.curenv
  let sem ← getSemaphoreObjectID s ownerEnvID semaphoreName
  let res := int32 ((s.semaphores sem).value - 1)
  let s := s.setValue sem res
  let s ← if res < 0 then do
      let s := enqueue s (.sem sem) myenv
      let e ← myenv
      some { s.setStatus e .blocked with curenv := none }
    else some s
  return fosScheduler s

def signalSemaphore (s : State) (ownerEnvID : ℤ) (semaphoreName : String) : Option State := do
  let sem ← getSemaphoreObjectID s ownerEnvID semaphoreName
  let res := int32 ((s.semaphores sem).value + 1)
  let s := s.setValue sem res
  if res ≤ 0 then do
    let (s, myenv) := dequeue s (.sem sem)
    let s := schedInsertReady s myenv
    let e ← myenv
    return s.setStatus e .ready
  else return s

end FosKernel.Scheduler
