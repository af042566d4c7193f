import Mathlib.Data.List.Rotate
import FosKernel.SchedulerQueues

/-!
# Round robin

A call of `fos_scheduler` turns the circle of the running and the ready
environments by one place. As many calls as there are environments make a full
turn.
-/

namespace FosKernel.Scheduler
open IntrusiveList

variable {s : State} {q : Queue → List ℕ}

/-- The environments in the order in which round robin will select them: the ready ones from the
longest waiting on, and last the running one. -/
def State.turns (s : State) : List ℕ := (s.queue .ready).reverse ++ s.curenv.toList

/-- The scheduler stops exactly when it selects nobody. -/
theorem fosScheduler_status (s : State) : (fosScheduler s).schedulerStatus =
    if (fosScheduler s).curenv = none then .stopped else .started := by
  have hdequeue (t : State) : (dequeue t .ready).1.schedulerStatus = t.schedulerStatus := by
    rw [dequeue]
    split <;> rfl
  have henqueue (t : State) (o : Option ℕ) :
      (enqueue t .ready o).schedulerStatus = t.schedulerStatus := by
    cases o <;> rfl
  have hstarted : (dequeue (enqueue { s with schedulerStatus := .started } .ready s.curenv)
      .ready).1.schedulerStatus = .started := by rw [hdequeue, henqueue]
  rw [fosScheduler]
  generalize dequeue (enqueue { s with schedulerStatus := .started } .ready s.curenv) .ready = r at *
  obtain ⟨t, _ | e⟩ := r
  · simp
  · simp only [envRun, State.setStatus]
    split <;> simp_all

theorem fosScheduler_turn (h : Coherent s.store s.curenv s.envId s.queue) :
    let t := fosScheduler s
    Coherent t.store t.curenv t.envId t.queue ∧ t.curenv = s.turns.head? ∧
      t.turns = s.turns.rotate 1 ∧ (∀ k, k ≠ .ready → t.queue k = s.queue k) ∧
      t.schedulerStatus = if s.turns = [] then .stopped else .started := by
  obtain ⟨q, hm, hready, hcur, hrest, -⟩ := fosScheduler_moves h
  have hq : (fosScheduler s).queue = q := hm.coherent.queue_eq
  have hcur' : (fosScheduler s).curenv = s.turns.head? := by
    rw [hcur, State.turns, ← List.head?_reverse]
    cases s.curenv <;> simp
  refine ⟨hq ▸ hm.coherent, hcur', ?_, fun k hk => hq ▸ hrest k hk, ?_⟩
  · have hrev : s.turns = (s.curenv.toList ++ s.queue .ready).reverse := by
      cases hc : s.curenv <;> simp [State.turns, hc]
    rw [State.turns, hq, hready, hcur, hrev]
    rcases Store.eq_nil_or_concat (s.curenv.toList ++ s.queue .ready) with hnil | ⟨xs, x, hx⟩
    · simp [hnil]
    · rw [hx]
      simp
  · simp only [fosScheduler_status, hcur', List.head?_eq_none_iff]

/-- `i` calls turn the circle by `i` places. -/
theorem fosScheduler_turns (h : Coherent s.store s.curenv s.envId s.queue) (i : ℕ) :
    let t := fosScheduler^[i] s
    Coherent t.store t.curenv t.envId t.queue ∧ t.turns = s.turns.rotate i ∧
      ∀ k, k ≠ .ready → t.queue k = s.queue k := by
  induction i with
  | zero => exact ⟨h, by simp, fun _ _ => rfl⟩
  | succ i ih =>
    obtain ⟨hcoh, hturns, hrest⟩ := ih
    obtain ⟨hcoh', -, hturns', hrest', -⟩ := fosScheduler_turn hcoh
    simp only [Function.iterate_succ_apply']
    refine ⟨hcoh', ?_, fun k hk => (hrest' k hk).trans (hrest k hk)⟩
    rw [hturns', hturns, List.rotate_rotate]

/-- Nobody is twice in turn. -/
theorem Coherent.turns_nodup (h : Coherent s.store s.curenv s.envId s.queue) : s.turns.Nodup := by
  refine List.nodup_append.mpr ⟨List.nodup_reverse.mpr (h.rep.list .ready).nodup, ?_, ?_⟩
  · cases s.curenv <;> simp
  · rintro x hx y hy rfl
    exact h.running x (by simpa using hy) .ready (by simpa using hx)

/-- With `n` environments ready and one running, `n + 1` calls select each of them once, from the
longest waiting to the one that was running, and restore the ready queue. With none running a call
selects the longest waiting one and stops if there is none. -/
theorem fosScheduler_rotates (h : Coherent s.store s.curenv s.envId s.queue) :
    (∀ e, s.curenv = some e →
      let order := (s.queue .ready).reverse ++ [e]
      order.Nodup ∧
      (∀ i (hi : i < order.length), (fosScheduler^[i + 1] s).curenv = some order[i] ∧
        (fosScheduler^[i + 1] s).schedulerStatus = .started) ∧
      (fosScheduler^[(s.queue .ready).length + 1] s).curenv = some e ∧
      (fosScheduler^[(s.queue .ready).length + 1] s).queue = s.queue) ∧
    (s.curenv = none →
      (fosScheduler s).curenv = (s.queue .ready).getLast? ∧
      (fosScheduler s).queue .ready = (s.queue .ready).dropLast ∧
      ((fosScheduler s).schedulerStatus = .stopped ↔ s.queue .ready = [])) := by
  refine ⟨fun e he => ?_, fun hnone => ?_⟩
  · have horder : s.turns = (s.queue .ready).reverse ++ [e] := by rw [State.turns, he]; rfl
    have hne : s.turns ≠ [] := by simp [horder]
    have hlen : s.turns.length = (s.queue .ready).length + 1 := by simp [horder]
    have hselect : ∀ i (hi : i < s.turns.length), (fosScheduler^[i + 1] s).curenv = some s.turns[i] ∧
        (fosScheduler^[i + 1] s).schedulerStatus = .started := by
      intro i hi
      obtain ⟨hcoh, hturns, -⟩ := fosScheduler_turns h i
      obtain ⟨-, hcur, -, -, hstatus⟩ := fosScheduler_turn hcoh
      rw [Function.iterate_succ_apply', hcur, hstatus, hturns, List.head?_rotate hi,
        List.getElem?_eq_getElem hi, if_neg (by simpa [List.rotate_eq_nil_iff] using hne)]
      exact ⟨rfl, rfl⟩
    have hlast : (fosScheduler^[(s.queue .ready).length + 1] s).curenv = some e := by
      rw [(hselect _ (by omega)).1]
      simp [horder]
    simp only [← horder]
    refine ⟨h.turns_nodup, hselect, hlast, funext fun k => ?_⟩
    obtain ⟨-, hturns, hrest⟩ := fosScheduler_turns h ((s.queue .ready).length + 1)
    by_cases hk : k = .ready
    · rw [← hlen, List.rotate_length, State.turns, hlen, hlast, horder] at hturns
      subst hk
      exact List.reverse_injective (List.append_left_injective _ hturns)
    · exact hrest k hk
  · obtain ⟨-, hcur, hturns, -, hstatus⟩ := fosScheduler_turn h
    have horder : s.turns = (s.queue .ready).reverse := by simp [State.turns, hnone]
    obtain ⟨q, hm, hready, -⟩ := fosScheduler_moves h
    rw [horder] at hcur hstatus
    refine ⟨by rw [hcur, List.head?_reverse], ?_, ?_⟩
    · rw [hm.coherent.queue_eq, hready, hnone]
      rfl
    · simp only [hstatus, List.reverse_eq_nil_iff]
      split <;> simp_all

/-- Environment 0 runs; 1 and then 2 became ready. -/
def twoReady : State where
  store := ((⟨fun _ => none, fun _ => none, fun _ => ⟨none, none, 0⟩⟩ : Store Queue ℕ).insertHead
    .ready 1).insertHead .ready 2
  envId e := e
  envStatus _ := .ready
  envRuns _ := 0
  curenv := some 0
  schedulerStatus := .started
  semaphores _ := ⟨0, "", 0, true⟩
  maxSemaphores := 0

theorem twoReady_coherent :
    Coherent twoReady.store twoReady.curenv twoReady.envId twoReady.queue ∧
      twoReady.queue .ready = [2, 1] := by
  have hrep := ((Store.represents_nil (s := ⟨fun _ => none, fun _ => none, fun _ => ⟨none, none, 0⟩⟩)
    fun _ : Queue => rfl).insertHead .ready (x := 1) (by simp)).insertHead .ready (x := 2) (by
      intro k
      by_cases hk : k = .ready <;> simp [hk])
  change twoReady.store.Represents _ at hrep
  set q := Function.update (Function.update (fun _ : Queue => ([] : List ℕ)) .ready [1]) .ready [2, 1]
    with hqdef
  have hmem : ∀ e k, e ∈ q k → e = 1 ∨ e = 2 := by
    intro e k he
    by_cases hk : k = .ready
    · subst hk
      simpa [hqdef, or_comm] using he
    · simp [hqdef, hk] at he
  have hp : ∀ e, Present (some 0) q e → e < 3 := by
    rintro e (he | ⟨k, he⟩)
    · obtain rfl := Option.some.inj he
      decide
    · have := hmem e k he
      omega
  have hcoh : Coherent twoReady.store twoReady.curenv twoReady.envId q := by
    refine ⟨(by simpa [hqdef] using hrep : Store.Represents _ q), ?_, fun e he => (hp e he).trans (by decide), ?_⟩
    · rintro e he k hk
      have := hmem e k hk
      simp only [twoReady, Option.some.injEq] at he
      omega
    · intro e e' _ _ he
      exact Int.ofNat_inj.mp he
  have hq : twoReady.queue = q := hcoh.queue_eq
  exact ⟨hq ▸ hcoh, by simp [hq, hqdef]⟩

/-- Three calls select 1, 2 and 0. -/
theorem fosScheduler_rotates_twoReady :
    (fosScheduler^[1] twoReady).curenv = some 1 ∧ (fosScheduler^[2] twoReady).curenv = some 2 ∧
      (fosScheduler^[3] twoReady).curenv = some 0 ∧
      (fosScheduler^[3] twoReady).queue = twoReady.queue := by
  obtain ⟨hcoh, hready⟩ := twoReady_coherent
  obtain ⟨-, hselect, -, hqueue⟩ := (fosScheduler_rotates hcoh).1 0 rfl
  simp only [hready] at hselect hqueue
  exact ⟨(hselect 0 (by decide)).1, (hselect 1 (by decide)).1, (hselect 2 (by decide)).1, hqueue⟩

end FosKernel.Scheduler
