import FosKernel.SemaphoreProtocol

/-!
# Leaving through `sched_exit_env`

The loop over the new queue leaves its cursor at NULL, so an environment found
there is unlinked and inserted nowhere.
-/

namespace FosKernel.Scheduler
open IntrusiveList

variable {s s' : State} {e c : ℕ} {envId : ℤ}

def Ended.state : Ended → State
  | .returned s => s
  | .switched s => s

/-- The environment went to the exit queue, and nothing else moved. -/
structure MovedToExit (s s' : State) (e : ℕ) : Prop where
  coherent : Coherent s'.store s'.curenv s'.envId s'.queue
  exit : (s'.queue .exit).count e = 1
  elsewhere : ∀ k, k ≠ .exit → e ∉ s'.queue k
  others : ∀ k, (s'.queue k).erase e = (s.queue k).erase e
  status : s'.envStatus = Function.update s.envStatus e .exit
  data : SameData s s'

/-- Whether `sched_exit_env` looks at the environment. -/
def Findable (s : State) (e : ℕ) : Prop := e ∈ s.queue .new ∨ e ∈ s.queue .ready ∨ s.curenv = some e

/-- What `sched_exit_env` is to do with an identifier. The scheduler runs once
more if the running environment leaves. -/
structure ExitsExactly (s : State) (envId : ℤ) : Prop where
  found : ∀ e, Findable s e → s.envId e = envId → ∃ r s', schedExitEnv s envId = some r ∧
    MovedToExit s s' e ∧
    (s.curenv ≠ some e ∧ s'.curenv = s.curenv ∧ r = .returned s' ∨
      s.curenv = some e ∧ s'.curenv = none ∧ r = .switched (fosScheduler s')) ∧
    (r.state.queue .exit).count e = 1 ∧ (∀ k, k ≠ .exit → e ∉ r.state.queue k) ∧
    r.state.envStatus e = .exit ∧ r.state.curenv ≠ some e ∧
    ∀ x, Present r.state.curenv r.state.queue x ↔ Present s.curenv s.queue x
  missing : (∀ e, Findable s e → s.envId e ≠ envId) → schedExitEnv s envId = some (.returned s)

section Loops

variable (h : Coherent s.store s.curenv s.envId s.queue)
include h

private theorem exitNew_none (hne : ∀ y ∈ s.queue .new, s.envId y ≠ envId) :
    s.forEach Prod.fst .new (exitNewBody envId) (s, false) = some ((s, false), none) :=
  forEach_none h rfl fun y hy => by simp [exitNewBody, hne y hy]

private theorem exitReady_none (hne : ∀ y ∈ s.queue .ready, s.envId y ≠ envId) :
    s.forEach id .ready (exitReadyBody envId) s = some (s, none) :=
  forEach_none h rfl fun y hy => by simp [exitReadyBody, hne y hy]

private theorem distinct_of_mem {k k' : Queue} {x : ℕ} (he : e ∈ s.queue k) (hx : x ∈ s.queue k')
    (hid : s.envId x = s.envId e) : x = e :=
  h.distinct x e (.inr ⟨k', hx⟩) (.inr ⟨k, he⟩) hid

private theorem exitNew_found (he : e ∈ s.queue .new) (hid : s.envId e = envId) :
    s.forEach Prod.fst .new (exitNewBody envId) (s, false) =
      some ((schedRemoveNew s (some e), true), none) := by
  obtain ⟨as, bs, hq⟩ := List.append_of_mem he
  have hnd := (h.rep.list .new).nodup
  rw [hq] at hnd
  have hrep := h.rep.remove hq
  have hother (x : ℕ) (hx : x ∈ as ∨ x ∈ bs) : s.envId x ≠ envId := by
    have hmem : x ∈ s.queue .new := by
      rw [hq]
      simp only [List.mem_append, List.mem_cons]
      tauto
    intro hxid
    obtain rfl := distinct_of_mem h he hmem (hxid.trans hid.symm)
    have hnot := List.nodup_cons.mp (List.nodup_middle.mp hnd)
    exact hnot.1 (List.mem_append.mpr hx)
  have hrun := IntrusiveList.forEach_run (g := fun t : State × Bool => t.1.store.next)
    (f := exitNewBody envId) (E := fun _ _ => False)
    (R := fun xs t => (∃ ys zs, as = ys ++ zs ∧ xs = zs ++ e :: bs ∧ t = (s, false)) ∨
      ∃ ys, bs = ys ++ xs ∧ t = (schedRemoveNew s (some e), true))
    (fun x xs t => ?_) (fun x xs t => ?_) (l := s.queue .new) (s := (s, false))
    (.inl ⟨[], as, rfl, hq, rfl⟩) (h.length_le .new)
  · rcases hrun with ⟨t, ht, ⟨ys, zs, -, hnil, -⟩ | ⟨ys, -, rfl⟩⟩ | ⟨-, -, -, hF⟩
    · simp at hnil
    · rw [State.forEach, State.first, (h.rep.list .new).head]
      exact ht
    · exact hF.elim
  · rintro (⟨ys, zs, has, hxs, rfl⟩ | ⟨ys, hbs, rfl⟩)
    · refine next_eq h.rep (l := ys) (k := .new) ?_
      rw [hq, has, hxs, List.append_assoc]
    · refine next_eq (k := .new) (l := as ++ ys) hrep ?_
      rw [Function.update_self, hbs, List.append_assoc]
  · rintro (⟨ys, zs, has, hxs, rfl⟩ | ⟨ys, hbs, rfl⟩)
    · cases zs with
      | nil =>
        obtain ⟨rfl, rfl⟩ := List.cons.inj hxs
        exact .inl ⟨_, by simp [exitNewBody, hid], .inr ⟨[], rfl, rfl⟩⟩
      | cons z zs =>
        obtain ⟨rfl, htail⟩ := List.cons.inj hxs
        exact .inl ⟨_, by simp [exitNewBody, hother x (.inl (by simp [has]))],
          .inl ⟨ys ++ [x], zs, by simp [has], htail, rfl⟩⟩
    · refine .inl ⟨_, ?_, .inr ⟨ys ++ [x], by simp [hbs], rfl⟩⟩
      simp [exitNewBody, schedRemoveNew, State.setStatus, State.remove,
        hother x (.inr (by simp [hbs]))]

end Loops

theorem schedExitEnv_new (h : Coherent s.store s.curenv s.envId s.queue) (hc : s.curenv = some c)
    (he : e ∈ s.queue .new) (hid : s.envId e = envId) :
    schedExitEnv s envId = some (.returned (schedRemoveNew s (some e))) := by
  have hcid : s.envId c ≠ envId := fun hcid =>
    h.running c hc .new (h.distinct e c (.inr ⟨.new, he⟩) (.inl hc) (hid.trans hcid.symm) ▸ he)
  simp [schedExitEnv, exitNew_found h he hid, exitFound, schedInsertExit, schedRemoveNew,
    State.setStatus, State.remove, hc, hcid]

private theorem MovedToExit.of_queues (h : Coherent s.store s.curenv s.envId s.queue)
    (hout : e ∉ s.queue .exit) (hcoh : Coherent s'.store s'.curenv s'.envId s'.queue)
    (hexit : s'.queue .exit = e :: s.queue .exit)
    (hrest : ∀ k, k ≠ .exit → s'.queue k = (s.queue k).erase e)
    (hstatus : s'.envStatus = Function.update s.envStatus e .exit) (hdata : SameData s s') :
    MovedToExit s s' e := by
  have hnot (k : Queue) : e ∉ (s.queue k).erase e := (h.rep.list k).nodup.not_mem_erase
  refine ⟨hcoh, ?_, fun k hk => ?_, fun k => ?_, hstatus, hdata⟩
  · rw [hexit, List.count_cons_self, List.count_eq_zero_of_not_mem hout]
  · rw [hrest k hk]
    exact hnot k
  · by_cases hk : k = .exit
    · rw [hk, hexit, List.erase_cons_head, List.erase_of_not_mem hout]
    · rw [hrest k hk, List.erase_of_not_mem (hnot k)]

private theorem notMem_of_ne (h : Coherent s.store s.curenv s.envId s.queue) {k k' : Queue}
    (he : e ∈ s.queue k) (hk : k' ≠ k) : e ∉ s.queue k' :=
  h.rep.disjoint k k' hk.symm e he

theorem schedExitEnv_ready (h : Coherent s.store s.curenv s.envId s.queue) (hc : s.curenv = some c)
    (he : e ∈ s.queue .ready) (hid : s.envId e = envId) :
    ∃ s', schedExitEnv s envId = some (.returned s') ∧ MovedToExit s s' e ∧ s'.curenv = s.curenv ∧
      ∀ x, Present s'.curenv s'.queue x ↔ Present s.curenv s.queue x := by
  have hnew (y : ℕ) (hy : y ∈ s.queue .new) : s.envId y ≠ envId := fun hyid => by
    obtain rfl := distinct_of_mem h he hy (hyid.trans hid.symm)
    exact notMem_of_ne h he (by simp) hy
  have hcid : s.envId c ≠ envId := fun hcid =>
    h.running c hc .ready (h.distinct e c (.inr ⟨.ready, he⟩) (.inl hc) (hid.trans hcid.symm) ▸ he)
  obtain ⟨as, bs, hq⟩ := List.append_of_mem he
  have hnd := (h.rep.list .ready).nodup
  rw [hq] at hnd
  have has : e ∉ as := fun hm => (List.nodup_cons.mp (List.nodup_middle.mp hnd)).1 (by simp [hm])
  have hloop := forEach_first (v := id) (i := s) h rfl hq (f := exitReadyBody envId)
    (fun y hy => by
      have hy' : y ∈ s.queue .ready := by simp [hq, hy]
      have hyid : s.envId y ≠ envId := fun hyid =>
        has (distinct_of_mem h he hy' (hyid.trans hid.symm) ▸ hy)
      simp [exitReadyBody, hyid])
    (t := s.remove .ready e) (r := e) (by simp [exitReadyBody, hid])
  obtain ⟨hcoh, hpres⟩ := h.move .exit hq
  set s' := schedInsertExit (s.remove .ready e) (some e) with hs'
  have hqueue : s'.queue = _ := hcoh.queue_eq (s := s')
  rw [← hqueue] at hcoh hpres
  have hcur : s'.curenv = s.curenv := rfl
  refine ⟨s', ?_, .of_queues h (notMem_of_ne h he (by simp)) hcoh ?_ (fun k hk => ?_) rfl
    ⟨rfl, rfl, rfl⟩, rfl, hpres⟩
  · have hid' : s'.envId c ≠ envId := hcid
    simp [schedExitEnv, exitNew_none h hnew, hloop, exitFound, ← hs', hcur, hc, hid']
  · rw [hqueue]
    simp
  · rw [hqueue, Function.update_of_ne hk]
    by_cases hr : k = .ready
    · subst hr
      rw [Function.update_self, hq, List.erase_append_right _ has, List.erase_cons_head]
    · rw [Function.update_of_ne hr, List.erase_of_not_mem (notMem_of_ne h he hr)]

theorem schedExitEnv_curenv (h : Coherent s.store s.curenv s.envId s.queue) (hc : s.curenv = some e)
    (hid : s.envId e = envId) :
    ∃ s', schedExitEnv s envId = some (.switched (fosScheduler s')) ∧ MovedToExit s s' e ∧
      s'.curenv = none ∧ ∀ x, Present s'.curenv s'.queue x ↔ Present s.curenv s.queue x := by
  have hne (k : Queue) (y : ℕ) (hy : y ∈ s.queue k) : s.envId y ≠ envId := fun hyid =>
    h.running e hc k (h.distinct y e (.inr ⟨k, hy⟩) (.inl hc) (hyid.trans hid.symm) ▸ hy)
  obtain ⟨hcoh, hpres⟩ := (hc ▸ h : Coherent s.store (some e) s.envId s.queue).leave .exit
  set s' : State := { schedInsertExit s (some e) with curenv := none } with hs'
  have hqueue : s'.queue = _ := hcoh.queue_eq (s := s')
  rw [← hqueue] at hcoh hpres
  refine ⟨s', ?_, .of_queues h (h.running e hc .exit) hcoh ?_ (fun k hk => ?_) rfl
    ⟨rfl, rfl, rfl⟩, rfl, hc ▸ hpres⟩
  · simp [schedExitEnv, exitNew_none h (hne .new), exitReady_none h (hne .ready), exitFound, hc, hid,
      schedInsertExit, enqueue, State.setStatus, State.insertHead, hs']
  · rw [hqueue]
    simp
  · rw [hqueue, Function.update_of_ne hk, List.erase_of_not_mem (h.running e hc k)]

private theorem fosScheduler_exited (hm : MovedToExit s s' e) (hc : s'.curenv = none) :
    ((fosScheduler s').queue .exit).count e = 1 ∧
      (∀ k, k ≠ .exit → e ∉ (fosScheduler s').queue k) ∧ (fosScheduler s').envStatus e = .exit ∧
      (fosScheduler s').curenv ≠ some e ∧ ∀ x, Present (fosScheduler s').curenv (fosScheduler s').queue x ↔
        Present s'.curenv s'.queue x := by
  obtain ⟨q', hq', hready, hcur, hrest, hstat⟩ := fosScheduler_moves hm.coherent
  rw [hc, Option.toList_none, List.nil_append] at hready hcur
  have hqueue : (fosScheduler s').queue = q' := hq'.coherent.queue_eq
  have hnot := hm.elsewhere .ready (by simp)
  have hne : (fosScheduler s').curenv ≠ some e := fun he =>
    hnot (List.mem_of_getLast? (hcur.symm.trans he))
  refine ⟨?_, fun k hk => ?_, ?_, hne, fun x => hqueue ▸ hq'.present x⟩
  · rw [hqueue, hrest .exit (by simp)]
    exact hm.exit
  · rw [hqueue]
    by_cases hr : k = .ready
    · rw [hr, hready]
      exact fun hmem => hnot ((List.dropLast_sublist _).subset hmem)
    · rw [hrest k hr]
      exact hm.elsewhere k hk
  · rw [hstat e hne, hm.status, Function.update_self]

theorem not_exitsExactly_of_new (h : Coherent s.store s.curenv s.envId s.queue) (hc : s.curenv = some c)
    (he : e ∈ s.queue .new) (hid : s.envId e = envId) : ¬ExitsExactly s envId := by
  intro hx
  obtain ⟨r, -, hr, -, -, hcount, -⟩ := hx.found e (.inl he) hid
  obtain rfl := Option.some.inj ((schedExitEnv_new h hc he hid).symm.trans hr)
  obtain ⟨as, bs, hq⟩ := List.append_of_mem he
  have hrep := h.rep.remove hq
  have hcoh : Coherent (s.store.remove .new e) s.curenv s.envId
      (Function.update s.queue .new (as ++ bs)) := by
    have hsub (x : ℕ) (hx : ∃ k, x ∈ Function.update s.queue .new (as ++ bs) k) : ∃ k, x ∈ s.queue k :=
      ((h.rep.exists_mem_remove hq).mp hx).2
    refine h.of_present hrep (fun x hx k hk => ?_) fun x hx => hx.imp_right (hsub x)
    obtain ⟨k', hk'⟩ := hsub x ⟨k, hk⟩
    exact h.running x hx k' hk'
  have hqueue : (schedRemoveNew s (some e)).queue = _ := hcoh.queue_eq (s := schedRemoveNew s (some e))
  have hout : e ∉ s.queue .exit := notMem_of_ne h he (by simp)
  rw [Ended.state, hqueue, Function.update_of_ne (by simp), List.count_eq_zero_of_not_mem hout] at hcount
  cases hcount

/-- `sched_exit_env` does what it is to do exactly for the identifiers that no
environment of the new queue has. -/
theorem exitsExactly_iff (h : Coherent s.store s.curenv s.envId s.queue) (hc : s.curenv = some c)
    (envId : ℤ) : ExitsExactly s envId ↔ ∀ e ∈ s.queue .new, s.envId e ≠ envId := by
  refine ⟨fun hx e he hid => not_exitsExactly_of_new h hc he hid hx, fun hnew => ⟨?_, fun hnone => ?_⟩⟩
  · rintro e (he | he | he) hid
    · exact absurd hid (hnew e he)
    · obtain ⟨s', hrun, hm, hcur, hpres⟩ := schedExitEnv_ready h hc he hid
      have hne : s.curenv ≠ some e := fun hce => h.running e hce .ready he
      refine ⟨_, s', hrun, hm, .inl ⟨hne, hcur, rfl⟩, hm.exit, hm.elsewhere, ?_, hcur ▸ hne, hpres⟩
      rw [Ended.state, hm.status, Function.update_self]
    · obtain ⟨s', hrun, hm, hcur, hpres⟩ := schedExitEnv_curenv h he hid
      obtain ⟨h₁, h₂, h₃, h₄, h₅⟩ := fosScheduler_exited hm hcur
      exact ⟨_, s', hrun, hm, .inr ⟨he, hcur, rfl⟩, h₁, h₂, h₃, h₄, fun x => (h₅ x).trans (hpres x)⟩
  · have hready : ∀ y ∈ s.queue .ready, s.envId y ≠ envId := fun y hy => hnone y (.inr (.inl hy))
    have hcid : s.envId c ≠ envId := hnone c (.inr (.inr hc))
    simp [schedExitEnv, exitNew_none h hnew, exitReady_none h hready, hc, hcid]

/-- Environment 0 runs, and environment 1 is new. -/
def oneNew : State :=
  let s := { oneSemaphore with curenv := some 0, envId := fun _ => 4096 }
  schedNewEnv { s with envId := Function.update s.envId 1 4097 } (some 1)

theorem oneNew_coherent : Coherent oneNew.store oneNew.curenv oneNew.envId oneNew.queue ∧
    oneNew.queue .new = [1] := by
  have hbase : Coherent oneSemaphore.store (some 0) (fun _ => (4096 : ℤ)) fun _ => [] := by
    have hp (e : ℕ) (he : Present (some 0) (fun _ : Queue => []) e) : e = 0 := by
      simpa [Present, eq_comm] using he
    refine ⟨Store.represents_nil fun _ => rfl, by simp, fun e he => ?_, fun e e' he he' _ => ?_⟩
    · rw [hp e he]
      decide
    · rw [hp e he, hp e' he']
  obtain ⟨hcoh, -⟩ := schedNewEnv_coherent (e := 1) (i := 4097)
    (s := { oneSemaphore with curenv := some 0, envId := fun _ => 4096 }) hbase (by decide)
    (by simp [Present]) (by simp)
  have hq : oneNew.queue = Function.update (fun _ => []) .new [1] := hcoh.queue_eq (s := oneNew)
  exact ⟨hq ▸ hcoh, by rw [hq, Function.update_self]⟩

theorem not_exitsExactly_oneNew : ¬ExitsExactly oneNew 4097 :=
  not_exitsExactly_of_new oneNew_coherent.1 (c := 0) rfl (e := 1) (by simp [oneNew_coherent.2]) rfl

/-- The running environment does leave. -/
theorem exitsExactly_iff_oneNew : ExitsExactly oneNew 4096 := by
  refine (exitsExactly_iff oneNew_coherent.1 (c := 0) rfl 4096).mpr fun e he => ?_
  obtain rfl : e = 1 := by simpa [oneNew_coherent.2] using he
  decide

end FosKernel.Scheduler
