import FosKernel.SchedulerQueues

/-!
# Runs of the scheduler and the semaphore protocol

The steps are the calls that the command prompt, the clock and the running
environment make. A history records which environments were created and, for
each semaphore, who waited, blocked, was released and signalled.
-/

namespace FosKernel.Scheduler
open IntrusiveList

inductive Op
  | newEnv (e : ℕ) (id : ℤ)
  | runEnv (id : ℤ)
  | runAll
  | tick
  | wait (ownerEnvID : ℤ) (semaphoreName : String)
  | signal (ownerEnvID : ℤ) (semaphoreName : String)
  | exitAllReady
  | exit

/-- A new environment gets its identifier before it is inserted. -/
def step (s : State) : Op → Option State
  | .newEnv e id =>
    some (schedNewEnv { s with envId := Function.update s.envId e id } (some e))
  | .runEnv id => schedRunEnv s id
  | .runAll => schedRunAll s
  | .tick => some (fosScheduler s)
  | .wait ownerEnvID semaphoreName => waitSemaphore s ownerEnvID semaphoreName
  | .signal ownerEnvID semaphoreName => signalSemaphore s ownerEnvID semaphoreName
  | .exitAllReady => schedExitAllReadyEnvs s
  | .exit => envExit s

def Op.created : Op → List ℕ
  | .newEnv e _ => [e]
  | _ => []

def Op.waitsOn (s : State) : Op → Option ℕ
  | .wait ownerEnvID semaphoreName => getSemaphoreObjectID s ownerEnvID semaphoreName
  | _ => none

def Op.signalsOn (s : State) : Op → Option ℕ
  | .signal ownerEnvID semaphoreName => getSemaphoreObjectID s ownerEnvID semaphoreName
  | _ => none

/-- Environments are created once and with a new identifier, semaphores exist,
and only a running environment makes system calls. -/
def Legal (s : State) (created : List ℕ) : Op → Prop
  | .newEnv e id => e < envsBytes ∧ e ∉ created ∧ ∀ x ∈ created, s.envId x ≠ id
  | .wait ownerEnvID semaphoreName =>
    s.curenv ≠ none ∧ getSemaphoreObjectID s ownerEnvID semaphoreName ≠ none
  | .signal ownerEnvID semaphoreName =>
    s.curenv ≠ none ∧ getSemaphoreObjectID s ownerEnvID semaphoreName ≠ none
  | .exit => s.curenv ≠ none
  | _ => True

variable {s s' : State} {q q' : Queue → List ℕ}

/-- What a call does to the semaphores and their queues. -/
inductive Effect (s : State) (q : Queue → List ℕ) (op : Op) (s' : State) (q' : Queue → List ℕ) :
    Prop
  | other (hw : op.waitsOn s = none) (hs : op.signalsOn s = none)
      (hsem : s'.semaphores = s.semaphores) (hq : ∀ i, q' (.sem i) = q (.sem i))
  | pass {i e : ℕ} (hw : op.waitsOn s = some i) (hcur : s.curenv = some e)
      (hv : 0 ≤ int32 ((s.semaphores i).value - 1))
      (hsem : s'.semaphores = (s.setValue i (int32 ((s.semaphores i).value - 1))).semaphores)
      (hq : ∀ j, q' (.sem j) = q (.sem j))
  | block {i e : ℕ} (hw : op.waitsOn s = some i) (hcur : s.curenv = some e)
      (hv : int32 ((s.semaphores i).value - 1) < 0)
      (hsem : s'.semaphores = (s.setValue i (int32 ((s.semaphores i).value - 1))).semaphores)
      (hqi : q' (.sem i) = e :: q (.sem i)) (hq : ∀ j, j ≠ i → q' (.sem j) = q (.sem j))
  | post {i : ℕ} (hs : op.signalsOn s = some i) (hv : 0 < int32 ((s.semaphores i).value + 1))
      (hsem : s'.semaphores = (s.setValue i (int32 ((s.semaphores i).value + 1))).semaphores)
      (hq : q' = q)
  | release {i e : ℕ} {as : List ℕ} (hs : op.signalsOn s = some i)
      (hv : int32 ((s.semaphores i).value + 1) ≤ 0)
      (hsem : s'.semaphores = (s.setValue i (int32 ((s.semaphores i).value + 1))).semaphores)
      (hqi : q (.sem i) = as ++ [e])
      (hq : q' = Function.update (Function.update q (.sem i) as) .ready (e :: q .ready))

structure Keeps (s : State) (q : Queue → List ℕ) (op : Op) (s' : State) (q' : Queue → List ℕ) :
    Prop where
  coherent : Coherent s'.store s'.curenv s'.envId q'
  present : ∀ e, Present s'.curenv q' e ↔ e ∈ op.created ∨ Present s.curenv q e
  maxSemaphores : s'.maxSemaphores = s.maxSemaphores
  effect : Effect s q op s' q'

theorem Keeps.of_moves {op : Op} (h : Moves s q s' q') (hc : op.created = [])
    (hw : op.waitsOn s = none) (hs : op.signalsOn s = none) : Keeps s q op s' q' :=
  ⟨h.coherent, fun e => by simpa [hc] using h.present e, h.data.maxSemaphores,
    .other hw hs h.data.semaphores h.sems⟩

theorem waitSemaphore_keeps (h : Coherent s.store s.curenv s.envId q) {e i : ℕ} {o : ℤ} {n : String}
    (hcur : s.curenv = some e) (hi : getSemaphoreObjectID s o n = some i) :
    ∃ s' q', waitSemaphore s o n = some s' ∧ Keeps s q (.wait o n) s' q' := by
  by_cases hv : int32 ((s.semaphores i).value - 1) < 0
  · set s₁ : State := { (enqueue (s.setValue i (int32 ((s.semaphores i).value - 1))) (.sem i)
      (some e)).setStatus e .blocked with curenv := none } with hs₁
    obtain ⟨hcoh, hpres⟩ := (hcur ▸ h : Coherent s.store (some e) s.envId q).leave (.sem i)
    obtain ⟨q', hm, -⟩ := fosScheduler_moves (s := s₁) hcoh
    refine ⟨fosScheduler s₁, q', by simp [waitSemaphore, hcur, hi, hv, hs₁], hm.coherent,
      fun x => ?_, hm.data.maxSemaphores, .block hi hcur hv hm.data.semaphores ?_ fun j hj => ?_⟩
    · rw [hm.present x, hcur]
      simpa [Op.created] using hpres x
    · rw [hm.sems]
      simp
    · rw [hm.sems]
      simp [hj]
  · set s₁ := s.setValue i (int32 ((s.semaphores i).value - 1)) with hs₁
    obtain ⟨q', hm, -⟩ := fosScheduler_moves (s := s₁) h
    refine ⟨fosScheduler s₁, q', by simp [waitSemaphore, hi, hv, hs₁], hm.coherent, fun x => ?_,
      hm.data.maxSemaphores, .pass hi hcur (Int.not_lt.mp hv) hm.data.semaphores hm.sems⟩
    rw [hm.present x]
    simp [Op.created, hs₁, State.setValue]

theorem signalSemaphore_keeps (h : Coherent s.store s.curenv s.envId q) {i : ℕ} {o : ℤ} {n : String}
    (hi : getSemaphoreObjectID s o n = some i)
    (hq : int32 ((s.semaphores i).value + 1) ≤ 0 → q (.sem i) ≠ []) :
    ∃ s' q', signalSemaphore s o n = some s' ∧ Keeps s q (.signal o n) s' q' := by
  by_cases hv : int32 ((s.semaphores i).value + 1) ≤ 0
  · obtain ⟨as, e, hqi⟩ := (Store.eq_nil_or_concat (q (.sem i))).resolve_left (hq hv)
    obtain ⟨hcoh, hpres⟩ := h.move .ready hqi
    have hdeq := dequeue_eq (s := s.setValue i (int32 ((s.semaphores i).value + 1))) h.rep hqi
    set s₁ := (schedInsertReady ((s.setValue i (int32 ((s.semaphores i).value + 1))).remove
      (.sem i) e) (some e)).setStatus e .ready with hs₁
    have hrel : Keeps s q (.signal o n) s₁ _ := ⟨hcoh,
      fun x => (hpres x).trans (by simp [Op.created]), rfl, .release hi hv rfl hqi (by simp)⟩
    exact ⟨s₁, _, by simp [signalSemaphore, hi, hv, hdeq, hs₁], hrel⟩
  · refine ⟨s.setValue i (int32 ((s.semaphores i).value + 1)), q, by simp [signalSemaphore, hi, hv],
      h, fun x => ?_, rfl, .post hi (Int.not_le.mp hv) rfl rfl⟩
    simp [Op.created, State.setValue]

/-- A signal finds an environment to release whenever it looks for one. -/
def CanSignal (s : State) (q : Queue → List ℕ) (op : Op) : Prop :=
  ∀ i, op.signalsOn s = some i → int32 ((s.semaphores i).value + 1) ≤ 0 → q (.sem i) ≠ []

theorem signalSemaphore_none (h : Coherent s.store s.curenv s.envId q) {i : ℕ} {o : ℤ} {n : String}
    (hi : getSemaphoreObjectID s o n = some i) (hv : int32 ((s.semaphores i).value + 1) ≤ 0)
    (hq : q (.sem i) = []) : signalSemaphore s o n = none := by
  have hdeq := dequeue_nil (s := s.setValue i (int32 ((s.semaphores i).value + 1))) h.rep hq
  simp [signalSemaphore, hi, hv, hdeq]

theorem step_keeps {op : Op} {created : List ℕ} (h : Coherent s.store s.curenv s.envId q)
    (hcr : ∀ e, e ∈ created ↔ Present s.curenv q e) (hop : Legal s created op)
    (hsig : CanSignal s q op) : ∃ s' q', step s op = some s' ∧ Keeps s q op s' q' := by
  cases op with
  | newEnv e id =>
    obtain ⟨he, hnew, hid⟩ := hop
    obtain ⟨hcoh, hpres⟩ := schedNewEnv_coherent h he (fun hp => hnew ((hcr e).mpr hp))
      fun x hx => hid x ((hcr x).mpr hx)
    exact ⟨_, _, rfl, hcoh, fun x => by simpa [Op.created] using hpres x, rfl,
      .other rfl rfl rfl (by simp)⟩
  | runEnv id =>
    obtain ⟨s', q', hs', hm⟩ := schedRunEnv_moves h id
    exact ⟨s', q', hs', .of_moves hm rfl rfl rfl⟩
  | runAll =>
    obtain ⟨s', q', hs', hm⟩ := schedRunAll_moves h
    exact ⟨s', q', hs', .of_moves hm rfl rfl rfl⟩
  | tick =>
    obtain ⟨q', hm, -⟩ := fosScheduler_moves h
    exact ⟨_, q', rfl, .of_moves hm rfl rfl rfl⟩
  | wait o n =>
    obtain ⟨e, he⟩ := Option.ne_none_iff_exists'.mp hop.1
    obtain ⟨i, hi⟩ := Option.ne_none_iff_exists'.mp hop.2
    exact waitSemaphore_keeps h he hi
  | signal o n =>
    obtain ⟨i, hi⟩ := Option.ne_none_iff_exists'.mp hop.2
    exact signalSemaphore_keeps h hi (hsig i hi)
  | exitAllReady =>
    obtain ⟨s', q', hs', hm⟩ := schedExitAllReadyEnvs_moves h
    exact ⟨s', q', hs', .of_moves hm rfl rfl rfl⟩
  | exit =>
    obtain ⟨e, he⟩ := Option.ne_none_iff_exists'.mp hop
    obtain ⟨s', q', hs', hm⟩ := envExit_moves h he
    exact ⟨s', q', hs', .of_moves hm rfl rfl rfl⟩

theorem keeps_of_step {op : Op} {created : List ℕ} (h : Coherent s.store s.curenv s.envId q)
    (hcr : ∀ e, e ∈ created ↔ Present s.curenv q e) (hop : Legal s created op)
    (hs : step s op = some s') : ∃ q', Keeps s q op s' q' := by
  have hsig : CanSignal s q op := by
    intro i hi hv hq
    cases op with
    | signal o n =>
      rw [step, signalSemaphore_none h hi hv hq] at hs
      cases hs
    | _ => simp [Op.signalsOn] at hi
  obtain ⟨t, q', ht, hk⟩ := step_keeps h hcr hop hsig
  obtain rfl : t = s' := Option.some.inj (ht.symm.trans hs)
  exact ⟨q', hk⟩

/-- The calls at one semaphore: the environments that blocked and that were
released, in order, and those between their wait and their signal. `ordered`
says that so far only such environments have signalled. -/
structure Log where
  waits : ℕ
  signals : ℕ
  blocked : List ℕ
  released : List ℕ
  inside : List ℕ
  ordered : Bool

def Log.empty : Log := ⟨0, 0, [], [], [], true⟩

/-- The waits that did not block or whose environment was released. -/
def Log.completed (l : Log) : ℤ := l.waits - l.blocked.length + l.released.length

/-- The log is kept by observation of the queue before and after the call. -/
def Log.next (l : Log) (s : State) (op : Op) (s' : State) (i : ℕ) : Log :=
  let added := (s'.queue (.sem i)).filter (· ∉ s.queue (.sem i))
  let gone := (s.queue (.sem i)).filter (· ∉ s'.queue (.sem i))
  { waits := if op.waitsOn s = some i then l.waits + 1 else l.waits
    signals := if op.signalsOn s = some i then l.signals + 1 else l.signals
    blocked := l.blocked ++ added
    released := l.released ++ gone
    inside := gone ++
      if op.waitsOn s = some i ∧ added = [] then s.curenv.toList ++ l.inside
      else if op.signalsOn s = some i then s.curenv.elim l.inside l.inside.erase
      else l.inside
    ordered := l.ordered && (op.signalsOn s ≠ some i || s.curenv.any (· ∈ l.inside)) }

structure History where
  created : List ℕ
  log : ℕ → Log

inductive Run (s₀ : State) (created : List ℕ) : History → State → Prop
  | start : Run s₀ created ⟨created, fun _ => .empty⟩ s₀
  | step {h : History} {s s' : State} (op : Op) : Run s₀ created h s → Legal s h.created op →
    step s op = some s' →
    Run s₀ created ⟨op.created ++ h.created, fun i => (h.log i).next s op s' i⟩ s'

def State.HasSemaphore (s : State) (i : ℕ) : Prop :=
  i < s.maxSemaphores ∧ (s.semaphores i).empty = false

theorem hasSemaphore_of_getSemaphoreObjectID {o : ℤ} {n : String} {i : ℕ}
    (h : getSemaphoreObjectID s o n = some i) : s.HasSemaphore i := by
  have hp := List.find?_some h
  have hm := List.mem_of_find?_eq_some h
  simp only [Bool.and_eq_true, Bool.not_eq_eq_eq_not, Bool.not_true] at hp
  exact ⟨List.mem_range.mp hm, hp.1.1⟩

theorem hasSemaphore_of_waitsOn {op : Op} {i : ℕ} (h : op.waitsOn s = some i) :
    s.HasSemaphore i := by
  cases op with
  | wait o n => exact hasSemaphore_of_getSemaphoreObjectID h
  | _ => cases h

structure Start (s₀ : State) (created : List ℕ) : Prop where
  coherent : Coherent s₀.store s₀.curenv s₀.envId s₀.queue
  created : ∀ e, e ∈ created ↔ Present s₀.curenv s₀.queue e
  idle : ∀ i, s₀.queue (.sem i) = []

structure RunInv (h : History) (s : State) : Prop where
  coherent : Coherent s.store s.curenv s.envId s.queue
  created : ∀ e, e ∈ h.created ↔ Present s.curenv s.queue e
  blocked : ∀ i, s.queue (.sem i) ≠ [] → s.HasSemaphore i

theorem Keeps.hasSemaphore {op : Op} (h : Keeps s q op s' q') (i : ℕ) :
    s'.HasSemaphore i ↔ s.HasSemaphore i := by
  have hempty : (s'.semaphores i).empty = (s.semaphores i).empty := by
    have hset : ∀ j v, ((s.setValue j v).semaphores i).empty = (s.semaphores i).empty := by
      intro j v
      by_cases hj : i = j
      · subst hj
        simp [State.setValue]
      · simp [State.setValue, hj]
    cases h.effect with
    | other _ _ hsem => rw [hsem]
    | pass _ _ _ hsem => rw [hsem, hset]
    | block _ _ _ hsem => rw [hsem, hset]
    | post _ _ hsem => rw [hsem, hset]
    | release _ _ hsem => rw [hsem, hset]
  rw [State.HasSemaphore, State.HasSemaphore, h.maxSemaphores, hempty]

theorem Keeps.sem_ne_nil {op : Op} (h : Keeps s q op s' q') {i : ℕ} (hq : q' (.sem i) ≠ []) :
    q (.sem i) ≠ [] ∨ op.waitsOn s = some i := by
  cases h.effect with
  | other _ _ _ hq' => exact .inl (hq' i ▸ hq)
  | pass _ _ _ _ hq' => exact .inl (hq' i ▸ hq)
  | @block j e hw _ _ _ _ hq' =>
    by_cases hj : i = j
    · exact .inr (hj ▸ hw)
    · exact .inl (hq' i hj ▸ hq)
  | post _ _ _ hq' => exact .inl (hq' ▸ hq)
  | @release j e as _ _ _ hqj hq' =>
    by_cases hj : i = j
    · exact .inl (by rw [hj, hqj]; simp)
    · exact .inl (by simpa [hq', hj] using hq)

theorem RunInv.step {h : History} {op : Op} (inv : RunInv h s) (hop : Legal s h.created op)
    (hs : step s op = some s') :
    Keeps s s.queue op s' s'.queue ∧
      RunInv ⟨op.created ++ h.created, fun i => (h.log i).next s op s' i⟩ s' := by
  obtain ⟨q', hk⟩ := keeps_of_step inv.coherent inv.created hop hs
  obtain rfl : s'.queue = q' := hk.coherent.queue_eq
  refine ⟨hk, hk.coherent, fun e => ?_, fun i hi => ?_⟩
  · rw [hk.present e, List.mem_append, inv.created]
  · rw [hk.hasSemaphore]
    exact (hk.sem_ne_nil hi).elim (inv.blocked i) hasSemaphore_of_waitsOn

theorem Run.inv {s₀ : State} {created : List ℕ} {h : History} (h₀ : Start s₀ created)
    (hr : Run s₀ created h s) : RunInv h s := by
  induction hr with
  | start => exact ⟨h₀.coherent, h₀.created, fun i hi => absurd (h₀.idle i) hi⟩
  | step op _ hop hs ih => exact (ih.step hop hs).2

instance (s : State) (created : List ℕ) : (op : Op) → Decidable (Legal s created op)
  | .newEnv e id =>
    inferInstanceAs (Decidable (e < envsBytes ∧ e ∉ created ∧ ∀ x ∈ created, s.envId x ≠ id))
  | .wait o n => inferInstanceAs (Decidable (s.curenv ≠ none ∧ getSemaphoreObjectID s o n ≠ none))
  | .signal o n => inferInstanceAs (Decidable (s.curenv ≠ none ∧ getSemaphoreObjectID s o n ≠ none))
  | .exit => inferInstanceAs (Decidable (s.curenv ≠ none))
  | .runEnv _ | .runAll | .tick | .exitAllReady => inferInstanceAs (Decidable True)

/-- A run of legal calls with its history, `none` when a call is not legal or fails. -/
def runLegal (h : History) (s : State) : List Op → Option (History × State)
  | [] => some (h, s)
  | op :: ops =>
    if Legal s h.created op then
      step s op >>= fun s' =>
        runLegal ⟨op.created ++ h.created, fun i => (h.log i).next s op s' i⟩ s' ops
    else none

theorem run_of_runLegal {s₀ : State} {created : List ℕ} {h h' : History} {ops : List Op}
    (hr : Run s₀ created h s) (hrun : runLegal h s ops = some (h', s')) :
    Run s₀ created h' s' := by
  induction ops generalizing h s with
  | nil =>
    obtain ⟨rfl, rfl⟩ : h = h' ∧ s = s' := by simpa [runLegal] using hrun
    exact hr
  | cons op ops ih =>
    simp only [runLegal] at hrun
    split at hrun
    · obtain ⟨t, ht, hrun⟩ := Option.bind_eq_some_iff.mp hrun
      exact ih (.step op hr ‹_› ht) hrun
    · cases hrun

/-- Nobody yet, and one semaphore of value one. -/
def oneSemaphore : State where
  store := ⟨fun _ => none, fun _ => none, fun _ => ⟨none, none, 0⟩⟩
  envId _ := 0
  envStatus _ := .free
  envRuns _ := 0
  curenv := none
  schedulerStatus := .stopped
  semaphores _ := ⟨10, "mutex", 1, false⟩
  maxSemaphores := 1

/-- Two environments start, the first enters, the second blocks. -/
def contend : List Op :=
  [.newEnv 0 10, .newEnv 1 11, .runEnv 10, .runAll, .wait 10 "mutex", .wait 10 "mutex", .tick]

section Placement

/-- The places of an environment: the processor or one of the queues. -/
def At (s : State) : Option Queue → ℕ → Prop
  | none, e => s.curenv = some e
  | some k, e => e ∈ s.queue k

/-- All queues empty and nobody on the processor. -/
structure Initial (s₀ : State) : Prop where
  head : ∀ k, s₀.store.head k = ⟨none, none, 0⟩
  curenv : s₀.curenv = none

theorem Initial.start {s₀ : State} (h : Initial s₀) : Start s₀ [] := by
  have hcoh : Coherent s₀.store s₀.curenv s₀.envId fun _ => [] :=
    ⟨Store.represents_nil h.head, by simp, by simp [Present, h.curenv], by simp [Present, h.curenv]⟩
  have hq := hcoh.queue_eq
  exact ⟨hq ▸ hcoh, by simp [hq, Present, h.curenv], by simp [hq]⟩

/-- Every environment that was created is in one place, once, and the queues stay
well formed. Nothing but a signal without anyone to release can go wrong. -/
theorem runs_placed {s₀ : State} {h : History} (h₀ : Initial s₀) (hr : Run s₀ [] h s) :
    s.store.Represents s.queue ∧
    (∀ k, (s.store.head k).size = (s.queue k).length ∧ (s.queue k).Nodup) ∧
    (∀ e, e ∈ h.created ↔ ∃ p, At s p e) ∧ (∀ e ∈ h.created, ∃! p, At s p e) ∧
    (∀ i, s.queue (.sem i) ≠ [] → s.HasSemaphore i) ∧
    ∀ op, Legal s h.created op → op.signalsOn s = none → ∃ s', step s op = some s' := by
  have inv := hr.inv h₀.start
  have hrep := inv.coherent.rep
  have hat : ∀ e, Present s.curenv s.queue e ↔ ∃ p, At s p e := by
    intro e
    constructor
    · rintro (hc | ⟨k, hk⟩)
      · exact ⟨none, hc⟩
      · exact ⟨some k, hk⟩
    · rintro ⟨_ | k, hp⟩
      · exact .inl hp
      · exact .inr ⟨k, hp⟩
  refine ⟨hrep, fun k => ⟨by rw [(hrep.list k).head], (hrep.list k).nodup⟩,
    fun e => (inv.created e).trans (hat e), fun e he => ?_, inv.blocked, fun op hop hsig => ?_⟩
  · obtain ⟨p, hp⟩ := (hat e).mp ((inv.created e).mp he)
    refine ⟨p, hp, fun p' hp' => ?_⟩
    rcases p with _ | k <;> rcases p' with _ | k'
    · rfl
    · exact absurd hp' (inv.coherent.running e hp k')
    · exact absurd hp (inv.coherent.running e hp' k)
    · by_contra hne
      exact hrep.disjoint k' k (fun hk => hne (by rw [hk])) e hp' hp
  · obtain ⟨s', _, hs', -⟩ := step_keeps inv.coherent inv.created hop
      fun i hi => by simp [hsig] at hi
    exact ⟨s', hs'⟩

theorem runs_placed_contend : ∃ h s, Run oneSemaphore [] h s ∧ h.created = [1, 0] ∧
    s.queue (.sem 0) = [1] ∧ ∃! p, At s p 1 := by
  have hrun : (runLegal ⟨[], fun _ => .empty⟩ oneSemaphore contend).map
      (fun r => (r.1.created, r.2.queue (.sem 0))) = some ([1, 0], [1]) := by decide +kernel
  obtain ⟨⟨h, s⟩, hs, hobs⟩ := Option.map_eq_some_iff.mp hrun
  have hr := run_of_runLegal .start hs
  obtain ⟨hcreated, hq⟩ : h.created = [1, 0] ∧ s.queue (.sem 0) = [1] := by simpa using hobs
  have hplaced := runs_placed ⟨fun _ => rfl, rfl⟩ hr
  exact ⟨h, s, hr, hcreated, hq, hplaced.2.2.2.1 1 (by simp [hcreated])⟩

end Placement

section Accounting

/-- The value, the queue and the log of a semaphore agree. -/
structure Accounted (v₀ v : ℤ) (xs : List ℕ) (l : Log) : Prop where
  value : v = v₀ + l.signals - l.waits
  queue : (v < 0 ∧ (xs.length : ℤ) = -v) ∨ (0 ≤ v ∧ xs = [])
  fifo : l.blocked = l.released ++ xs.reverse
  inside : l.ordered = true →
    l.inside.length + l.signals + l.blocked.length = l.waits + l.released.length

theorem filter_not_mem_cons {xs : List ℕ} {e : ℕ} (he : e ∉ xs) :
    (e :: xs).filter (· ∉ xs) = [e] ∧ xs.filter (· ∉ e :: xs) = [] := by
  constructor
  · simp [he, List.filter_eq_nil_iff]
  · simp +contextual [List.filter_eq_nil_iff]

theorem filter_not_mem_concat {xs : List ℕ} {e : ℕ} (he : e ∉ xs) :
    (xs ++ [e]).filter (· ∉ xs) = [e] ∧ xs.filter (· ∉ xs ++ [e]) = [] := by
  constructor
  · simp [he, List.filter_eq_nil_iff]
  · simp +contextual [List.filter_eq_nil_iff]

variable {l : Log} {op : Op} {i : ℕ}

/-- A call that leaves the queue alone blocks and releases nobody. -/
theorem Log.next_of_same (l : Log) (op : Op) (hq : s'.queue (.sem i) = s.queue (.sem i)) :
    (l.next s op s' i).blocked = l.blocked ∧ (l.next s op s' i).released = l.released ∧
      (l.next s op s' i).inside =
        if op.waitsOn s = some i then s.curenv.toList ++ l.inside
        else if op.signalsOn s = some i then s.curenv.elim l.inside l.inside.erase else l.inside := by
  simp [Log.next, hq]

theorem Log.next_ordered (ho : (l.next s op s' i).ordered = true) :
    l.ordered = true ∧ (op.signalsOn s = some i → ∃ e, s.curenv = some e ∧ e ∈ l.inside) := by
  simp only [Log.next, Bool.and_eq_true, Bool.or_eq_true, decide_eq_true_eq, Option.any_eq_true,
    ne_eq] at ho
  refine ⟨ho.1, fun hs => ?_⟩
  obtain ⟨e, he, hm⟩ := ho.2.resolve_left (not_not_intro hs)
  exact ⟨e, he, hm⟩

theorem not_waitsOn_of_signalsOn {j : ℕ} (h : op.signalsOn s = some j) : op.waitsOn s = none := by
  cases op <;> first | rfl | cases h

theorem not_signalsOn_of_waitsOn {j : ℕ} (h : op.waitsOn s = some j) : op.signalsOn s = none := by
  cases op <;> first | rfl | cases h

private theorem Accounted.of_untouched {v₀ v v' : ℤ} (h : Accounted v₀ v (s.queue (.sem i)) l)
    (hw : op.waitsOn s ≠ some i) (hs : op.signalsOn s ≠ some i) (hv : v' = v)
    (hq : s'.queue (.sem i) = s.queue (.sem i)) :
    Accounted v₀ v' (s'.queue (.sem i)) (l.next s op s' i) := by
  obtain ⟨hb, hr, hin⟩ := Log.next_of_same l op hq
  rw [if_neg hw, if_neg hs] at hin
  have hwaits : (l.next s op s' i).waits = l.waits := if_neg hw
  have hsignals : (l.next s op s' i).signals = l.signals := if_neg hs
  refine ⟨?_, ?_, ?_, fun ho => ?_⟩
  · rw [hv, hwaits, hsignals, h.value]
  · rw [hv, hq]
    exact h.queue
  · rw [hb, hr, hq]
    exact h.fifo
  · rw [hin, hb, hr, hwaits, hsignals]
    exact h.inside (Log.next_ordered ho).1

theorem setValue_value (s : State) (i : ℕ) (v : ℤ) :
    ((s.setValue i v).semaphores i).value = v := by
  simp [State.setValue]

theorem setValue_value_of_ne (s : State) {i j : ℕ} (v : ℤ) (h : i ≠ j) :
    ((s.setValue j v).semaphores i).value = (s.semaphores i).value := by
  simp [State.setValue, h]

private theorem Accounted.pass {v₀ v : ℤ} {e : ℕ} (h : Accounted v₀ v (s.queue (.sem i)) l)
    (hw : op.waitsOn s = some i) (hcur : s.curenv = some e) (hv : 0 ≤ v - 1)
    (hq : s'.queue (.sem i) = s.queue (.sem i)) :
    Accounted v₀ (v - 1) (s'.queue (.sem i)) (l.next s op s' i) := by
  obtain ⟨hb, hr, hin⟩ := Log.next_of_same l op hq
  rw [if_pos hw, hcur] at hin
  have hwaits : (l.next s op s' i).waits = l.waits + 1 := if_pos hw
  have hsignals : (l.next s op s' i).signals = l.signals :=
    if_neg (by simp [not_signalsOn_of_waitsOn hw])
  have hnil : s.queue (.sem i) = [] := by
    rcases h.queue with ⟨hneg, -⟩ | ⟨-, hnil⟩
    · omega
    · exact hnil
  refine ⟨?_, .inr ⟨hv, hq.trans hnil⟩, ?_, fun ho => ?_⟩
  · rw [hwaits, hsignals, h.value]
    push_cast
    omega
  · rw [hb, hr, hq]
    exact h.fifo
  · have := h.inside (Log.next_ordered ho).1
    rw [hin, hb, hr, hwaits, hsignals]
    simp only [Option.toList_some, List.length_append, List.length_singleton]
    omega

private theorem Accounted.block {v₀ v : ℤ} {e : ℕ} (h : Accounted v₀ v (s.queue (.sem i)) l)
    (hw : op.waitsOn s = some i) (hv : v - 1 < 0) (he : e ∉ s.queue (.sem i))
    (hq : s'.queue (.sem i) = e :: s.queue (.sem i)) :
    Accounted v₀ (v - 1) (s'.queue (.sem i)) (l.next s op s' i) := by
  obtain ⟨hadd, hgone⟩ := filter_not_mem_cons he
  have hs : op.signalsOn s ≠ some i := by simp [not_signalsOn_of_waitsOn hw]
  have hwaits : (l.next s op s' i).waits = l.waits + 1 := if_pos hw
  have hsignals : (l.next s op s' i).signals = l.signals := if_neg hs
  have hb : (l.next s op s' i).blocked = l.blocked ++ [e] := by simp only [Log.next, hq, hadd]
  have hr : (l.next s op s' i).released = l.released := by
    simp only [Log.next, hq, hgone, List.append_nil]
  have hin : (l.next s op s' i).inside = l.inside := by
    simp only [Log.next, hq, hadd, hgone, List.nil_append, hs, if_false, reduceCtorEq, and_false]
  refine ⟨?_, .inl ⟨hv, ?_⟩, ?_, fun ho => ?_⟩
  · rw [hwaits, hsignals, h.value]
    push_cast
    omega
  · rw [hq, List.length_cons]
    rcases h.queue with ⟨-, hlen⟩ | ⟨hpos, hnil⟩
    · push_cast
      omega
    · rw [hnil]
      simp only [List.length_nil]
      omega
  · rw [hb, hr, hq, h.fifo]
    simp
  · have := h.inside (Log.next_ordered ho).1
    rw [hin, hb, hr, hwaits, hsignals]
    simp only [List.length_append, List.length_singleton]
    omega

/-- A signal with nobody to release. -/
private theorem Accounted.post {v₀ v : ℤ} (h : Accounted v₀ v (s.queue (.sem i)) l)
    (hs : op.signalsOn s = some i) (hv : 0 < v + 1)
    (hq : s'.queue (.sem i) = s.queue (.sem i)) :
    Accounted v₀ (v + 1) (s'.queue (.sem i)) (l.next s op s' i) := by
  have hw : op.waitsOn s ≠ some i := by simp [not_waitsOn_of_signalsOn hs]
  obtain ⟨hb, hr, hin⟩ := Log.next_of_same l op hq
  rw [if_neg hw, if_pos hs] at hin
  have hwaits : (l.next s op s' i).waits = l.waits := if_neg hw
  have hsignals : (l.next s op s' i).signals = l.signals + 1 := if_pos hs
  refine ⟨?_, .inr ⟨by omega, ?_⟩, ?_, fun ho => ?_⟩
  · rw [hwaits, hsignals, h.value]
    push_cast
    omega
  · rw [hq]
    rcases h.queue with ⟨hneg, -⟩ | ⟨-, hnil⟩
    · omega
    · exact hnil
  · rw [hb, hr, hq]
    exact h.fifo
  · obtain ⟨hord, hinside⟩ := Log.next_ordered ho
    obtain ⟨e, he, hm⟩ := hinside hs
    have := h.inside hord
    have hpos := List.length_pos_of_mem hm
    rw [hin, he, hb, hr, hwaits, hsignals]
    simp only [Option.elim_some, List.length_erase_of_mem hm]
    omega

private theorem Accounted.release {v₀ v : ℤ} {e : ℕ} {as : List ℕ}
    (h : Accounted v₀ v (s.queue (.sem i)) l) (hs : op.signalsOn s = some i) (hv : v + 1 ≤ 0)
    (he : e ∉ as) (hqs : s.queue (.sem i) = as ++ [e]) (hq : s'.queue (.sem i) = as) :
    Accounted v₀ (v + 1) (s'.queue (.sem i)) (l.next s op s' i) := by
  obtain ⟨hgone, hadd⟩ := filter_not_mem_concat he
  have hw : op.waitsOn s ≠ some i := by simp [not_waitsOn_of_signalsOn hs]
  have hwaits : (l.next s op s' i).waits = l.waits := if_neg hw
  have hsignals : (l.next s op s' i).signals = l.signals + 1 := if_pos hs
  have hb : (l.next s op s' i).blocked = l.blocked := by
    simp only [Log.next, hq, hqs, hadd, List.append_nil]
  have hr : (l.next s op s' i).released = l.released ++ [e] := by
    simp only [Log.next, hq, hqs, hgone]
  have hin : (l.next s op s' i).inside = [e] ++ s.curenv.elim l.inside l.inside.erase := by
    simp only [Log.next, hq, hqs, hgone, hw, false_and, if_false, if_pos hs]
  have hlen : ((as.length : ℤ) + 1) = -v := by
    rcases h.queue with ⟨-, hlen⟩ | ⟨hpos, -⟩
    · rw [hqs] at hlen
      simpa using hlen
    · omega
  refine ⟨?_, ?_, ?_, fun ho => ?_⟩
  · rw [hwaits, hsignals, h.value]
    push_cast
    omega
  · rw [hq]
    rcases as with _ | ⟨a, as⟩
    · exact .inr ⟨by simp at hlen; omega, rfl⟩
    · refine .inl ⟨?_, by omega⟩
      simp only [List.length_cons] at hlen
      push_cast at hlen
      omega
  · rw [hb, hr, hq, h.fifo, hqs]
    simp
  · obtain ⟨hord, hinside⟩ := Log.next_ordered ho
    obtain ⟨c, hc, hm⟩ := hinside hs
    have := h.inside hord
    have hpos := List.length_pos_of_mem hm
    rw [hin, hc, hb, hr, hwaits, hsignals]
    simp only [Option.elim_some, List.length_append, List.length_singleton,
      List.length_erase_of_mem hm]
    omega

/-- No more environments are blocked than fit in `envs`, so the value cannot wrap
when it is counted down. -/
private theorem Accounted.low {v₀ v : ℤ} (hcoh : Coherent s.store s.curenv s.envId s.queue)
    (h : Accounted v₀ v (s.queue (.sem i)) l) : -2 ^ 20 ≤ v := by
  have hlen : ((s.queue (.sem i)).length : ℤ) ≤ 2 ^ 20 := by
    have := hcoh.length_le (.sem i)
    simp only [envsBytes, ptSize, pageSize] at this
    omega
  rcases h.queue with ⟨-, hq⟩ | ⟨hpos, -⟩ <;> omega

theorem Accounted.step {v₀ : ℤ} (hk : Keeps s s.queue op s' s'.queue)
    (hcoh : Coherent s.store s.curenv s.envId s.queue)
    (h : Accounted v₀ (s.semaphores i).value (s.queue (.sem i)) l)
    (hb : v₀ + (l.next s op s' i).signals < 2 ^ 31) :
    Accounted v₀ (s'.semaphores i).value (s'.queue (.sem i)) (l.next s op s' i) := by
  have hlow := h.low hcoh
  have hval := h.value
  have hle : l.signals ≤ (l.next s op s' i).signals := by
    simp only [Log.next]
    split <;> omega
  have hwrap : int32 ((s.semaphores i).value - 1) = (s.semaphores i).value - 1 :=
    int32_eq (by omega) (by omega)
  cases hk.effect with
  | other hw hs hsem hq =>
    exact h.of_untouched (by simp [hw]) (by simp [hs]) (by rw [hsem]) (hq i)
  | @pass j e hw hcur hv hsem hq =>
    by_cases hj : i = j
    · subst hj
      rw [hwrap] at hv hsem
      rw [hsem, setValue_value]
      exact h.pass hw hcur hv (hq i)
    · refine h.of_untouched ?_ (by simp [not_signalsOn_of_waitsOn hw]) ?_ (hq i)
      · simpa [hw] using Ne.symm hj
      · rw [hsem, setValue_value_of_ne s _ hj]
  | @block j e hw hcur hv hsem hqi hq =>
    by_cases hj : i = j
    · subst hj
      rw [hwrap] at hv hsem
      rw [hsem, setValue_value]
      exact h.block hw hv (hcoh.running e hcur _) hqi
    · refine h.of_untouched ?_ (by simp [not_signalsOn_of_waitsOn hw]) ?_ (hq i hj)
      · simpa [hw] using Ne.symm hj
      · rw [hsem, setValue_value_of_ne s _ hj]
  | @post j hs hv hsem hq =>
    by_cases hj : i = j
    · subst hj
      have hsig : (l.next s op s' i).signals = l.signals + 1 := if_pos hs
      have hwrap' : int32 ((s.semaphores i).value + 1) = (s.semaphores i).value + 1 :=
        int32_eq (by omega) (by rw [hsig] at hb; push_cast at hb; omega)
      rw [hwrap'] at hv hsem
      rw [hsem, setValue_value]
      exact h.post hs hv (by rw [hq])
    · refine h.of_untouched (by simp [not_waitsOn_of_signalsOn hs]) ?_ ?_ (by rw [hq])
      · simpa [hs] using Ne.symm hj
      · rw [hsem, setValue_value_of_ne s _ hj]
  | @release j e as hs hv hsem hqi hq =>
    by_cases hj : i = j
    · subst hj
      have hsig : (l.next s op s' i).signals = l.signals + 1 := if_pos hs
      have hwrap' : int32 ((s.semaphores i).value + 1) = (s.semaphores i).value + 1 :=
        int32_eq (by omega) (by rw [hsig] at hb; push_cast at hb; omega)
      have he : e ∉ as := by
        have hnd := (hcoh.rep.list (.sem i)).nodup
        rw [hqi] at hnd
        exact fun hm => (List.nodup_append.mp hnd).2.2 e hm e (by simp) rfl
      rw [hwrap'] at hv hsem
      rw [hsem, setValue_value]
      exact h.release hs hv he hqi (by rw [hq]; simp)
    · refine h.of_untouched (by simp [not_waitsOn_of_signalsOn hs]) ?_ ?_ (by rw [hq]; simp [hj])
      · simpa [hs] using Ne.symm hj
      · rw [hsem, setValue_value_of_ne s _ hj]

/-- The account of every existing semaphore, over a run from a state in which
nobody is blocked. -/
theorem Run.accounted {s₀ : State} {created : List ℕ} {h : History} (h₀ : Start s₀ created)
    (hr : Run s₀ created h s) (hv : 0 ≤ (s₀.semaphores i).value)
    (hb : (s₀.semaphores i).value + (h.log i).signals < 2 ^ 31) :
    Accounted (s₀.semaphores i).value (s.semaphores i).value (s.queue (.sem i)) (h.log i) := by
  induction hr with
  | start =>
    exact ⟨by simp [Log.empty], .inr ⟨hv, h₀.idle i⟩, by simp [Log.empty, h₀.idle i],
      fun _ => by simp [Log.empty]⟩
  | @step h s s' op hr hop hs ih =>
    have hle : (h.log i).signals ≤ ((h.log i).next s op s' i).signals := by
      simp only [Log.next]
      split <;> omega
    simp only at hb
    have inv := hr.inv h₀
    exact (ih (by omega)).step (inv.step hop hs).1 inv.coherent hb

theorem Run.hasSemaphore {s₀ : State} {created : List ℕ} {h : History} (h₀ : Start s₀ created)
    (hr : Run s₀ created h s) (i : ℕ) : s.HasSemaphore i ↔ s₀.HasSemaphore i := by
  induction hr with
  | start => rfl
  | step op hr hop hs ih => rw [((hr.inv h₀).step hop hs).1.hasSemaphore, ih]

theorem hasSemaphore_of_signalsOn (h : op.signalsOn s = some i) : s.HasSemaphore i := by
  cases op with
  | signal o n => exact hasSemaphore_of_getSemaphoreObjectID h
  | _ => cases h

/-- The semaphore protocol, over every interleaving of the calls: the value counts,
the queue holds the environments that blocked and were not yet released in the
order in which they blocked, each signal releases exactly one of them if there is
one, waits complete at most as often as the value allows, and no call fails. -/
theorem semaphore_protocol {s₀ : State} {created : List ℕ} {h : History} (h₀ : Start s₀ created)
    (hr : Run s₀ created h s)
    (hv : ∀ i, s₀.HasSemaphore i → 0 ≤ (s₀.semaphores i).value)
    (hb : ∀ i, s₀.HasSemaphore i → (s₀.semaphores i).value + (h.log i).signals < 2 ^ 31) :
    (∀ i, s₀.HasSemaphore i →
      (s.semaphores i).value = (s₀.semaphores i).value + (h.log i).signals - (h.log i).waits ∧
      ((s.semaphores i).value < 0 →
        ((s.queue (.sem i)).length : ℤ) = -(s.semaphores i).value) ∧
      (0 ≤ (s.semaphores i).value → s.queue (.sem i) = []) ∧
      (h.log i).blocked = (h.log i).released ++ (s.queue (.sem i)).reverse ∧
      (h.log i).completed ≤ (s₀.semaphores i).value + (h.log i).signals ∧
      ((h.log i).ordered = true →
        ((h.log i).inside.length : ℤ) ≤ (s₀.semaphores i).value)) ∧
    (∀ op s' i, Legal s h.created op → step s op = some s' → op.signalsOn s = some i →
      (∀ as e, s.queue (.sem i) = as ++ [e] → s'.queue =
        Function.update (Function.update s.queue (.sem i) as) .ready (e :: s.queue .ready)) ∧
      (s.queue (.sem i) = [] → s'.queue = s.queue)) ∧
    ∀ op, Legal s h.created op →
      (∀ i, op.signalsOn s = some i → (s₀.semaphores i).value + (h.log i).signals + 1 < 2 ^ 31) →
      ∃ s', step s op = some s' := by
  have inv := hr.inv h₀
  have hacc := fun i hi => hr.accounted h₀ (hv i hi) (hb i hi)
  refine ⟨fun i hi => ?_, fun op s' i hop hs hi => ?_, fun op hop hbound => ?_⟩
  · obtain ⟨hval, hq, hfifo, hinside⟩ := hacc i hi
    have hlen := congrArg List.length hfifo
    simp only [List.length_append, List.length_reverse] at hlen
    refine ⟨hval, fun hneg => ?_, fun hpos => ?_, hfifo, ?_, fun ho => ?_⟩
    · exact (hq.resolve_right fun hr => absurd hneg (Int.not_lt.mpr hr.1)).2
    · exact (hq.resolve_left fun hr => absurd hr.1 (Int.not_lt.mpr hpos)).2
    · simp only [Log.completed]
      rcases hq with ⟨-, hq⟩ | ⟨hpos, hnil⟩
      · omega
      · rw [hnil, List.length_nil] at hlen
        omega
    · have := hinside ho
      rcases hq with ⟨-, hq⟩ | ⟨hpos, hnil⟩
      · omega
      · rw [hnil, List.length_nil] at hlen
        omega
  · obtain ⟨hk, -⟩ := inv.step hop hs
    have hi₀ := (hr.hasSemaphore h₀ i).mp (hasSemaphore_of_signalsOn hi)
    have hw := not_waitsOn_of_signalsOn hi
    cases hk.effect with
    | other _ hno => simp [hno] at hi
    | pass hyes => simp [hw] at hyes
    | block hyes => simp [hw] at hyes
    | @post j hj hpos hsem hq =>
      obtain rfl : i = j := Option.some.inj (hi.symm.trans hj)
      have hlow := (hacc i hi₀).low inv.coherent
      refine ⟨fun as e hqi => ?_, fun _ => hq⟩
      rcases (hacc i hi₀).queue with ⟨hneg, -⟩ | ⟨-, hnil⟩
      · rw [int32_eq (by omega) (by omega)] at hpos
        omega
      · rw [hnil] at hqi
        simp at hqi
    | @release j f bs hj hneg hsem hqj hq =>
      obtain rfl : i = j := Option.some.inj (hi.symm.trans hj)
      refine ⟨fun as e hqi => ?_, fun hnil => ?_⟩
      · obtain ⟨rfl, he⟩ := List.append_inj' (hqi.symm.trans hqj) rfl
        obtain rfl : e = f := List.singleton_injective he
        exact hq
      · rw [hnil] at hqj
        simp at hqj
  · have hsig : CanSignal s s.queue op := by
      intro i hi hneg hnil
      have hi₀ := (hr.hasSemaphore h₀ i).mp (hasSemaphore_of_signalsOn hi)
      have hlow := (hacc i hi₀).low inv.coherent
      have hval := (hacc i hi₀).value
      have hlt := hbound i hi
      rw [int32_eq (by omega) (by omega)] at hneg
      rcases (hacc i hi₀).queue with ⟨-, hlen⟩ | ⟨hpos, -⟩
      · rw [hnil, List.length_nil] at hlen
        omega
      · omega
    obtain ⟨s', _, hs', -⟩ := step_keeps inv.coherent inv.created hop hsig
    exact ⟨s', hs'⟩

theorem semaphore_protocol_contend : ∃ h s, Run oneSemaphore [] h s ∧
    (s.semaphores 0).value = -1 ∧ (h.log 0).blocked = [1] ∧ (h.log 0).inside.length ≤ 1 := by
  have hrun : (runLegal ⟨[], fun _ => .empty⟩ oneSemaphore contend).map
      (fun r => ((r.1.log 0).waits, (r.1.log 0).signals, (r.1.log 0).blocked, (r.1.log 0).ordered)) =
      some (2, 0, [1], true) := by decide +kernel
  obtain ⟨⟨h, s⟩, hs, hobs⟩ := Option.map_eq_some_iff.mp hrun
  have hr := run_of_runLegal .start hs
  obtain ⟨hw, hsig, hb, ho⟩ : (h.log 0).waits = 2 ∧ (h.log 0).signals = 0 ∧
      (h.log 0).blocked = [1] ∧ (h.log 0).ordered = true := by simpa using hobs
  have hzero : ∀ i, oneSemaphore.HasSemaphore i → i = 0 := fun i hi => Nat.lt_one_iff.mp hi.1
  have hprot := semaphore_protocol (Initial.start ⟨fun _ => rfl, rfl⟩) hr
    (fun i _ => by simp [oneSemaphore]) (fun i hi => by simp [hzero i hi, hsig, oneSemaphore])
  obtain ⟨hval, -, -, -, -, hin⟩ := hprot.1 0 ⟨by decide, rfl⟩
  refine ⟨h, s, hr, by rw [hval, hw, hsig]; rfl, hb, ?_⟩
  have hle : ((h.log 0).inside.length : ℤ) ≤ 1 := hin ho
  exact_mod_cast hle

end Accounting

end FosKernel.Scheduler
