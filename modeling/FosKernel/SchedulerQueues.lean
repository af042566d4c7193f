import Mathlib.Data.List.Perm.Subperm
import FosKernel.Scheduler

/-!
# What the scheduler does to its queues

Each routine moves environments between queues and the processor. None of them
loses an environment or links one twice.
-/

namespace FosKernel.Scheduler
open IntrusiveList

def Present (cur : Option ℕ) (q : Queue → List ℕ) (e : ℕ) : Prop := cur = some e ∨ ∃ k, e ∈ q k

/-- The queues are well formed, the running environment is on none of them, and
environments have different identifiers. -/
structure Coherent (t : Store Queue ℕ) (cur : Option ℕ) (ids : ℕ → ℤ) (q : Queue → List ℕ) :
    Prop where
  rep : t.Represents q
  running : ∀ e, cur = some e → ∀ k, e ∉ q k
  bound : ∀ e, Present cur q e → e < envsBytes
  distinct : ∀ e e', Present cur q e → Present cur q e' → ids e = ids e' → e = e'

variable {t : Store Queue ℕ} {cur : Option ℕ} {ids : ℕ → ℤ} {q : Queue → List ℕ} {s : State}

namespace Coherent

theorem of_present {t' : Store Queue ℕ} {cur' : Option ℕ} {q' : Queue → List ℕ}
    (h : Coherent t cur ids q) (rep : t'.Represents q')
    (hcur : ∀ e, cur' = some e → ∀ k, e ∉ q' k)
    (hp : ∀ e, Present cur' q' e → Present cur q e) : Coherent t' cur' ids q' :=
  ⟨rep, hcur, fun e he => h.bound e (hp e he),
    fun e e' he he' hid => h.distinct e e' (hp e he) (hp e' he') hid⟩

theorem length_le (h : Coherent t cur ids q) (k : Queue) : (q k).length ≤ envsBytes := by
  have hsub : q k ⊆ List.range envsBytes := fun e he =>
    List.mem_range.mpr (h.bound e (.inr ⟨k, he⟩))
  simpa using ((h.rep.list k).nodup.subperm hsub).length_le

theorem queue_eq (h : Coherent s.store s.curenv s.envId q) : s.queue = q := by
  funext k
  rw [State.queue, State.first, (h.rep.list k).head]
  refine walk_eq (fun as x bs he => ?_) (h.length_le k)
  exact (he ▸ h.rep.list k : s.store.IsList k (as ++ x :: bs)).links.2

theorem move (h : Coherent t cur ids q) {k : Queue} (k' : Queue) {as bs : List ℕ} {e : ℕ}
    (hq : q k = as ++ e :: bs) :
    let q₁ := Function.update q k (as ++ bs)
    let q₂ := Function.update q₁ k' (e :: q₁ k')
    Coherent ((t.remove k e).insertHead k' e) cur ids q₂ ∧
      ∀ x, Present cur q₂ x ↔ Present cur q x := by
  intro q₁ q₂
  have hout : ∀ k, e ∉ q₁ k := by
    intro k' hk'
    exact ((h.rep.exists_mem_remove hq).mp ⟨k', hk'⟩).1 rfl
  have hin : ∃ k, e ∈ q k := ⟨k, by simp [hq]⟩
  have hmem : ∀ x, (∃ k, x ∈ q₂ k) ↔ ∃ k, x ∈ q k := by
    intro x
    rw [Store.exists_mem_cons, h.rep.exists_mem_remove hq]
    by_cases hx : x = e
    · subst hx
      simpa using hin
    · simp [hx]
  have hp : ∀ x, Present cur q₂ x ↔ Present cur q x := fun x => or_congr Iff.rfl (hmem x)
  refine ⟨h.of_present ((h.rep.remove hq).insertHead k' hout) (fun x hx k hk => ?_)
    (fun x => (hp x).mp), hp⟩
  obtain ⟨k, hk⟩ := (hmem x).mp ⟨k, hk⟩
  exact h.running x hx k hk

theorem leave {e : ℕ} (h : Coherent t (some e) ids q) (k : Queue) :
    Coherent (t.insertHead k e) none ids (Function.update q k (e :: q k)) ∧
      ∀ x, Present none (Function.update q k (e :: q k)) x ↔ Present (some e) q x := by
  have hp : ∀ x, Present none (Function.update q k (e :: q k)) x ↔ Present (some e) q x := by
    intro x
    simp only [Present, Store.exists_mem_cons, reduceCtorEq, false_or, Option.some.injEq,
      eq_comm (a := e)]
  exact ⟨h.of_present (h.rep.insertHead k (h.running e rfl)) (by simp) fun x => (hp x).mp, hp⟩

theorem enter (h : Coherent t none ids q) {k : Queue} {as bs : List ℕ} {e : ℕ}
    (hq : q k = as ++ e :: bs) :
    Coherent (t.remove k e) (some e) ids (Function.update q k (as ++ bs)) ∧
      ∀ x, Present (some e) (Function.update q k (as ++ bs)) x ↔ Present none q x := by
  have hp : ∀ x, Present (some e) (Function.update q k (as ++ bs)) x ↔ Present none q x := by
    intro x
    simp only [Present, h.rep.exists_mem_remove hq, reduceCtorEq, false_or, Option.some.injEq]
    by_cases hx : e = x
    · subst hx
      simpa using ⟨k, by simp [hq]⟩
    · simp [hx, Ne.symm hx]
  refine ⟨h.of_present (h.rep.remove hq) (fun x hx k' hk' => ?_) fun x => (hp x).mp, hp⟩
  exact ((h.rep.exists_mem_remove hq).mp ⟨k', hk'⟩).1 (Option.some.inj hx).symm

end Coherent

/-- The fields that the scheduler leaves alone. -/
structure SameData (s s' : State) : Prop where
  envId : s'.envId = s.envId
  semaphores : s'.semaphores = s.semaphores
  maxSemaphores : s'.maxSemaphores = s.maxSemaphores

theorem SameData.trans {s s' s'' : State} (h : SameData s s') (h' : SameData s' s'') :
    SameData s s'' :=
  ⟨h'.envId.trans h.envId, h'.semaphores.trans h.semaphores,
    h'.maxSemaphores.trans h.maxSemaphores⟩

/-- A routine that moves environments about and leaves the semaphores alone. -/
structure Moves (s : State) (q : Queue → List ℕ) (s' : State) (q' : Queue → List ℕ) : Prop where
  coherent : Coherent s'.store s'.curenv s'.envId q'
  present : ∀ e, Present s'.curenv q' e ↔ Present s.curenv q e
  data : SameData s s'
  sems : ∀ i, q' (.sem i) = q (.sem i)

theorem Moves.trans {s s' s'' : State} {q q' q'' : Queue → List ℕ} (h : Moves s q s' q')
    (h' : Moves s' q' s'' q'') : Moves s q s'' q'' :=
  ⟨h'.coherent, fun e => (h'.present e).trans (h.present e), h.data.trans h'.data,
    fun i => (h'.sems i).trans (h.sems i)⟩

theorem Moves.refl (h : Coherent s.store s.curenv s.envId q) : Moves s q s q :=
  ⟨h, fun _ => Iff.rfl, ⟨rfl, rfl, rfl⟩, fun _ => rfl⟩

theorem dequeue_eq (h : s.store.Represents q) {k : Queue} {as : List ℕ} {e : ℕ}
    (hq : q k = as ++ [e]) : dequeue s k = (s.remove k e, some e) := by
  simp [dequeue, (h.list k).head, hq]

theorem dequeue_nil (h : s.store.Represents q) {k : Queue} (hq : q k = []) :
    dequeue s k = (s, none) := by
  simp [dequeue, (h.list k).head, hq]

theorem fosScheduler_some {s₁ t : State} {n : ℕ}
    (hs₁ : s₁ = enqueue { s with schedulerStatus := .started } .ready s.curenv)
    (h : dequeue s₁ .ready = (t, some n)) : fosScheduler s = envRun t n := by
  simp only [fosScheduler, ← hs₁, h]

theorem fosScheduler_none {s₁ t : State}
    (hs₁ : s₁ = enqueue { s with schedulerStatus := .started } .ready s.curenv)
    (h : dequeue s₁ .ready = (t, none)) :
    fosScheduler s = { t with curenv := none, schedulerStatus := .stopped } := by
  simp only [fosScheduler, ← hs₁, h]

/-- The environment that has waited longest runs next; the running one is the
last to wait. -/
theorem fosScheduler_moves (h : Coherent s.store s.curenv s.envId q) :
    ∃ q', Moves s q (fosScheduler s) q' ∧
      q' .ready = (s.curenv.toList ++ q .ready).dropLast ∧
      (fosScheduler s).curenv = (s.curenv.toList ++ q .ready).getLast? ∧
      (∀ k, k ≠ .ready → q' k = q k) ∧
      ∀ e, (fosScheduler s).curenv ≠ some e → (fosScheduler s).envStatus e = s.envStatus e := by
  obtain ⟨s₁, q₁, hs₁, hcoh, hpres, hdata, hready, hrest, hstat⟩ : ∃ s₁ q₁,
      s₁ = enqueue { s with schedulerStatus := .started } .ready s.curenv ∧
      Coherent s₁.store none s₁.envId q₁ ∧ (∀ e, Present none q₁ e ↔ Present s.curenv q e) ∧
      SameData s s₁ ∧ q₁ .ready = s.curenv.toList ++ q .ready ∧ (∀ k, k ≠ .ready → q₁ k = q k) ∧
      s₁.envStatus = s.envStatus := by
    rcases Option.eq_none_or_eq_some s.curenv with hc | ⟨e, hc⟩
    · refine ⟨{ s with schedulerStatus := .started }, q, by rw [hc]; rfl, hc ▸ h, fun e => ?_,
        ⟨rfl, rfl, rfl⟩, by simp [hc], fun _ _ => rfl, rfl⟩
      rw [hc]
    · obtain ⟨hcoh, hpres⟩ := (hc ▸ h : Coherent s.store (some e) s.envId q).leave .ready
      refine ⟨({ s with schedulerStatus := .started } : State).insertHead .ready e, _,
        by rw [hc]; rfl, hcoh, fun x => ?_, ⟨rfl, rfl, rfl⟩, by simp [hc],
        fun k hk => by simp [hk], rfl⟩
      rw [hc]
      exact hpres x
  have hsems (i : ℕ) : q₁ (.sem i) = q (.sem i) := hrest _ (by simp)
  rcases Store.eq_nil_or_concat (q₁ .ready) with hnil | ⟨as, n, hq⟩
  · rw [fosScheduler_none hs₁ (dequeue_nil hcoh.rep hnil), ← hready, hnil]
    exact ⟨q₁, ⟨hcoh, hpres, ⟨hdata.envId, hdata.semaphores, hdata.maxSemaphores⟩, hsems⟩,
      by simp [hnil], rfl, hrest, fun e _ => congrFun hstat e⟩
  · have hsched := fosScheduler_some hs₁ (dequeue_eq hcoh.rep hq)
    obtain ⟨hcoh₂, hpres₂⟩ := hcoh.enter hq
    have hcur : (fosScheduler s).curenv = some n := by
      rw [hsched]
      simp only [envRun, State.setStatus]
      split <;> simp_all
    have hstore : (fosScheduler s).store = s₁.store.remove .ready n := by
      rw [hsched]
      simp only [envRun, State.setStatus]
      split <;> rfl
    have hdata₂ : SameData s₁ (fosScheduler s) := by
      rw [hsched]
      simp only [envRun, State.setStatus]
      split <;> exact ⟨rfl, rfl, rfl⟩
    have hstat₂ : (fosScheduler s).envStatus = Function.update s.envStatus n .runnable := by
      rw [hsched, ← hstat]
      simp only [envRun, State.setStatus]
      split <;> rfl
    refine ⟨Function.update q₁ .ready (as ++ []),
      ⟨?_, fun e => ?_, hdata.trans hdata₂, fun i => ?_⟩, ?_, ?_, fun k hk => ?_, fun e he => ?_⟩
    · rw [hcur, hstore, hdata₂.envId]
      exact hcoh₂
    · rw [hcur]
      exact (hpres₂ e).trans (hpres e)
    · simpa using hsems i
    · simp [← hready, hq]
    · rw [hcur, ← hready, hq]
      simp
    · rw [Function.update_of_ne hk]
      exact hrest k hk
    · have hne : e ≠ n := fun hen => he (hen ▸ hcur)
      rw [hstat₂, Function.update_of_ne hne]

theorem invokeIfStopped_moves (h : Coherent s.store s.curenv s.envId q) :
    ∃ q', Moves s q (invokeIfStopped s) q' := by
  unfold invokeIfStopped
  split
  · obtain ⟨q', h', -⟩ := fosScheduler_moves h
    exact ⟨q', h'⟩
  · exact ⟨q, .refl h⟩

section Loops

variable {σ β : Type*} {v : σ → State} {f : ℕ → σ → Option (Flow σ β)} {i : σ} {k : Queue}

theorem next_eq (h : t.Represents q) {l bs : List ℕ} {x : ℕ} (hq : q k = l ++ x :: bs) :
    t.next x = bs.head? :=
  (hq ▸ h.list k : t.IsList k (l ++ x :: bs)).links.2

theorem forEach_first (h : Coherent s.store s.curenv s.envId q) (hv : v i = s) {as bs : List ℕ}
    {x : ℕ} (hq : q k = as ++ x :: bs) (hskip : ∀ y ∈ as, f y i = some (.next i)) {t : σ} {r : β}
    (hx : f x i = some (.exit t r)) : s.forEach v k f i = some (t, some r) := by
  have hlen := h.length_le k
  unfold State.forEach
  rw [State.first, (h.rep.list k).head, hq]
  rw [hq] at hlen
  exact IntrusiveList.forEach_first
    (fun as' y bs' he => by simpa [hv] using next_eq h.rep (hq.trans he)) hskip hx hlen

theorem forEach_none (h : Coherent s.store s.curenv s.envId q) (hv : v i = s)
    (hskip : ∀ y ∈ q k, f y i = some (.next i)) : s.forEach v k f i = some (i, none) := by
  unfold State.forEach
  rw [State.first, (h.rep.list k).head]
  exact IntrusiveList.forEach_none
    (fun as' y bs' he => by simpa [hv] using next_eq h.rep he) hskip (h.length_le k)

theorem forEach_moveAll (h : Coherent s.store s.curenv s.envId q) {k k' : Queue} (hk : k ≠ k')
    (hsem : ∀ i, k ≠ .sem i ∧ k' ≠ .sem i) {f : ℕ → State → Option (Flow State Unit)}
    (hf : ∀ e s, ∃ s', f e s = some (.next s') ∧ SameData s s' ∧ s'.curenv = s.curenv ∧
      s'.store = (s.store.remove k e).insertHead k' e) :
    ∃ s' q', s.forEach id k f s = some (s', none) ∧ Moves s q s' q' ∧ q' k = [] ∧
      q' k' = (q k).reverse ++ q k' ∧ s'.curenv = s.curenv := by
  have hrun := IntrusiveList.forEach_run (g := fun t => t.store.next) (f := f)
    (E := fun _ _ => False)
    (R := fun xs s' => ∃ q', Moves s q s' q' ∧ q' k = xs ∧ s'.curenv = s.curenv ∧
      ∃ ys, q k = ys ++ xs ∧ q' k' = ys.reverse ++ q k')
    (fun x xs s' ⟨q', hm, hx, _⟩ => next_eq hm.coherent.rep (hx.trans (List.nil_append _).symm))
    (fun x xs s' ⟨q', hm, hx, hc, ys, hys, hk'⟩ => .inl ?_) (l := q k) (s := s)
    ⟨q, .refl h, rfl, rfl, [], rfl, rfl⟩ (h.length_le k)
  · rcases hrun with ⟨s', hs', q', hm, hx, hc, ys, hys, hk'⟩ | ⟨_, _, _, hF⟩
    · refine ⟨s', q', ?_, hm, hx, ?_, hc⟩
      · rw [State.forEach, State.first, (h.rep.list k).head]
        exact hs'
      · rw [hk', hys, List.append_nil]
    · exact hF.elim
  · obtain ⟨s'', hs'', hdata, hcur, hstore⟩ := hf x s'
    obtain ⟨hcoh, hpres⟩ := hm.coherent.move k' (show q' k = [] ++ x :: xs from hx)
    have hstep : Moves s' q' s'' (Function.update (Function.update q' k xs) k'
        (x :: Function.update q' k xs k')) := by
      refine ⟨?_, ?_, hdata, fun i => ?_⟩
      · rw [hstore, hcur, hdata.envId]
        exact hcoh
      · rw [hcur]
        exact hpres
      · simp [(hsem i).1.symm, (hsem i).2.symm]
    refine ⟨s'', hs'', _, hm.trans hstep, ?_, hcur.trans hc, ys ++ [x], ?_, ?_⟩
    · simp [hk]
    · simp [hys]
    · simp [hk.symm, hk']

end Loops

theorem schedRunAll_moves (h : Coherent s.store s.curenv s.envId q) :
    ∃ s' q', schedRunAll s = some s' ∧ Moves s q s' q' := by
  obtain ⟨s₁, q₁, hloop, hm, -⟩ := forEach_moveAll h (show Queue.new ≠ .ready by decide) (by simp)
    (f := runAllBody) (fun e s => ⟨_, rfl, ⟨rfl, rfl, rfl⟩, rfl, rfl⟩)
  obtain ⟨q', hm'⟩ := invokeIfStopped_moves hm.coherent
  exact ⟨_, q', by simp [schedRunAll, hloop], hm.trans hm'⟩

theorem schedExitAllReadyEnvs_moves (h : Coherent s.store s.curenv s.envId q) :
    ∃ s' q', schedExitAllReadyEnvs s = some s' ∧ Moves s q s' q' := by
  unfold schedExitAllReadyEnvs
  split
  · exact ⟨s, q, rfl, .refl h⟩
  · obtain ⟨s₁, q₁, hloop, hm, -⟩ := forEach_moveAll h (show Queue.ready ≠ .exit by decide)
      (by simp) (f := exitAllBody) (fun e s => ⟨_, rfl, ⟨rfl, rfl, rfl⟩, rfl, rfl⟩)
    exact ⟨s₁, q₁, by simp [hloop], hm⟩

theorem exists_first {p : ℕ → Prop} [DecidablePred p] (xs : List ℕ) :
    (∃ as x bs, xs = as ++ x :: bs ∧ p x ∧ ∀ y ∈ as, ¬ p y) ∨ ∀ x ∈ xs, ¬ p x := by
  induction xs with
  | nil => simp
  | cons x xs ih =>
    by_cases hx : p x
    · exact .inl ⟨[], x, xs, rfl, hx, by simp⟩
    · rcases ih with ⟨as, y, bs, rfl, hy, has⟩ | hnone
      · exact .inl ⟨x :: as, y, bs, rfl, hy, by simpa [hx] using has⟩
      · exact .inr (by simpa [hx] using hnone)

theorem schedRunEnv_moves (h : Coherent s.store s.curenv s.envId q) (envId : ℤ) :
    ∃ s' q', schedRunEnv s envId = some s' ∧ Moves s q s' q' := by
  rcases exists_first (p := fun e => s.envId e = envId) (q .new) with
    ⟨as, e, bs, hq, he, has⟩ | hnone
  · obtain ⟨hcoh, hpres⟩ := h.move .ready hq
    set s₁ := schedInsertReady (schedRemoveNew s (some e)) (some e) with hs₁
    obtain ⟨q', hm⟩ := invokeIfStopped_moves (s := s₁) hcoh
    have hloop := forEach_first (v := id) (i := s) h rfl hq (f := runEnvBody envId)
      (fun y hy => by simp [runEnvBody, has y hy]) (t := invokeIfStopped s₁) (r := ())
      (by simp [runEnvBody, he, hs₁])
    have hstep : Moves s q s₁ _ := ⟨hcoh, hpres, ⟨rfl, rfl, rfl⟩, by simp⟩
    exact ⟨_, q', by simp [schedRunEnv, hloop], hstep.trans hm⟩
  · have hloop := forEach_none (v := id) (i := s) h rfl (k := .new) (f := runEnvBody envId)
      (fun y hy => by simp [runEnvBody, hnone y hy])
    exact ⟨s, q, by simp [schedRunEnv, hloop], .refl h⟩

/-- The running environment is on no queue, so `sched_exit_env` finds it last. -/
theorem envExit_moves (h : Coherent s.store s.curenv s.envId q) {e : ℕ} (hcur : s.curenv = some e) :
    ∃ s' q', envExit s = some s' ∧ Moves s q s' q' := by
  have hne : ∀ k, ∀ y ∈ q k, s.envId y ≠ s.envId e := fun k y hy hid =>
    h.running e hcur k (h.distinct y e (.inr ⟨k, hy⟩) (.inl hcur) hid ▸ hy)
  have hnew := forEach_none (v := Prod.fst) (i := (s, false)) h rfl (k := .new)
    (f := exitNewBody (s.envId e)) (fun y hy => by simp [exitNewBody, hne _ y hy])
  have hready := forEach_none (v := id) (i := s) h rfl (k := .ready)
    (f := exitReadyBody (s.envId e)) (fun y hy => by simp [exitReadyBody, hne _ y hy])
  set s₁ : State := { schedInsertExit s (some e) with curenv := none } with hs₁
  have hexit : envExit s = some (fosScheduler s₁) := by
    simp [envExit, hcur, schedExitEnv, hnew, hready, exitFound, schedInsertExit, enqueue,
      State.setStatus, State.insertHead, hs₁]
  obtain ⟨hcoh, hpres⟩ := (hcur ▸ h : Coherent s.store (some e) s.envId q).leave .exit
  obtain ⟨q', hm, -⟩ := fosScheduler_moves (s := s₁) hcoh
  have hstep : Moves s q s₁ _ := ⟨hcoh, by rw [hcur]; exact hpres, ⟨rfl, rfl, rfl⟩, by simp⟩
  exact ⟨_, q', hexit, hstep.trans hm⟩

theorem schedNewEnv_coherent (h : Coherent s.store s.curenv s.envId q) {e : ℕ} {i : ℤ}
    (he : e < envsBytes) (hnew : ¬ Present s.curenv q e)
    (hid : ∀ x, Present s.curenv q x → s.envId x ≠ i) :
    let s' := schedNewEnv { s with envId := Function.update s.envId e i } (some e)
    let q' := Function.update q .new (e :: q .new)
    Coherent s'.store s'.curenv s'.envId q' ∧
      ∀ x, Present s'.curenv q' x ↔ x = e ∨ Present s.curenv q x := by
  intro s' q'
  have hout : ∀ k, e ∉ q k := fun k hk => hnew (.inr ⟨k, hk⟩)
  have hp : ∀ x, Present s'.curenv q' x ↔ x = e ∨ Present s.curenv q x := by
    intro x
    change s.curenv = some x ∨ _ ↔ _
    rw [Store.exists_mem_cons]
    simp only [Present]
    tauto
  have hkeep : ∀ x, Present s.curenv q x → Function.update s.envId e i x = s.envId x := by
    intro x hx
    exact Function.update_of_ne (fun hxe : x = e => hnew (hxe ▸ hx)) _ _
  refine ⟨⟨h.rep.insertHead .new hout, fun x hx k hk => ?_, fun x hx => ?_, fun x y hx hy hxy => ?_⟩,
    hp⟩
  · rcases Store.exists_mem_cons.mp ⟨k, hk⟩ with rfl | ⟨k, hk⟩
    · exact hnew (.inl hx)
    · exact h.running x hx k hk
  · rcases (hp x).mp hx with rfl | hx
    · exact he
    · exact h.bound x hx
  · change Function.update s.envId e i x = Function.update s.envId e i y at hxy
    rcases (hp x).mp hx with hxe | hx' <;> rcases (hp y).mp hy with hye | hy'
    · rw [hxe, hye]
    · rw [hxe, Function.update_self, hkeep y hy'] at hxy
      exact absurd hxy.symm (hid y hy')
    · rw [hye, Function.update_self, hkeep x hx'] at hxy
      exact absurd hxy (hid x hx')
    · rw [hkeep x hx', hkeep y hy'] at hxy
      exact h.distinct x y hx' hy' hxy

end FosKernel.Scheduler
