import Mathlib.Data.Nat.Notation
import Mathlib.Tactic.Common

/-!
# State programs that may fail

A program passes a state along and may stop in an error. `Sat` is the weakest
precondition of a postcondition, up to a set of tolerated errors.
-/

namespace FosKernel.FailingPrograms

abbrev Prog (σ ε α : Type) := StateT σ (Except ε) α

variable {σ τ ε α β : Type} {tol : ε → Prop} {s t : σ}

/-- From `s` the program returns with `Q`, or stops in a tolerated error. -/
def Sat (tol : ε → Prop) (x : Prog σ ε α) (s : σ) (Q : α → σ → Prop) : Prop :=
  match x.run s with
  | .ok (a, t) => Q a t
  | .error e => tol e

theorem run_bind_ok {x : Prog σ ε α} {f : α → Prog σ ε β} {a : α} (h : x.run s = .ok (a, t)) :
    (x >>= f).run s = (f a).run t := by
  rw [StateT.run_bind, h]
  rfl

theorem run_bind_error {x : Prog σ ε α} {f : α → Prog σ ε β} {e : ε} (h : x.run s = .error e) :
    (x >>= f).run s = .error e := by
  rw [StateT.run_bind, h]
  rfl

@[simp] theorem run_get : (get : Prog σ ε σ).run s = .ok (s, s) := rfl
@[simp] theorem run_set : (set t : Prog σ ε PUnit).run s = .ok (⟨⟩, t) := rfl
@[simp] theorem run_modify (f : σ → σ) : (modify f : Prog σ ε PUnit).run s = .ok (⟨⟩, f s) := rfl
@[simp] theorem run_pure (a : α) : (pure a : Prog σ ε α).run s = .ok (a, s) := rfl
@[simp] theorem run_throw (e : ε) : (throw e : Prog σ ε α).run s = .error e := rfl

namespace Sat

variable {x : Prog σ ε α} {Q R : α → σ → Prop}

theorem of_ok {a : α} (h : x.run s = .ok (a, t)) (hQ : Q a t) : Sat tol x s Q := by
  simpa [Sat, h] using hQ

theorem of_error {e : ε} (h : x.run s = .error e) (he : tol e) : Sat tol x s Q := by
  simpa [Sat, h] using he

theorem ok {a : α} (h : Sat tol x s Q) (hx : x.run s = .ok (a, t)) : Q a t := by
  simpa [Sat, hx] using h

theorem error {e : ε} (h : Sat tol x s Q) (hx : x.run s = .error e) : tol e := by
  simpa [Sat, hx] using h

theorem any (x : Prog σ ε α) (s : σ) : Sat (fun _ => True) x s fun _ _ => True := by
  rcases hx : x.run s with e | ⟨a, t⟩
  · exact of_error hx trivial
  · exact of_ok hx trivial

theorem of_run {y : Prog σ ε α} (h : x.run s = y.run t) (hy : Sat tol y t Q) : Sat tol x s Q := by
  rwa [Sat, h]

/-- Without tolerated errors the program returns. -/
theorem exists_ok (h : Sat (fun _ => False) x s Q) : ∃ a t, x.run s = .ok (a, t) ∧ Q a t := by
  rcases hx : x.run s with e | ⟨a, t⟩
  · exact (h.error hx).elim
  · exact ⟨a, t, rfl, h.ok hx⟩

theorem mono (h : Sat tol x s Q) (hQR : ∀ a t, Q a t → R a t) : Sat tol x s R := by
  rcases hx : x.run s with e | ⟨a, t⟩
  · exact of_error hx (h.error hx)
  · exact of_ok hx (hQR a t (h.ok hx))

theorem weaken {tol' : ε → Prop} (h : Sat tol x s Q) (htol : ∀ e, tol e → tol' e) :
    Sat tol' x s Q := by
  rcases hx : x.run s with e | ⟨a, t⟩
  · exact of_error hx (htol e (h.error hx))
  · exact of_ok hx (h.ok hx)

theorem and (h : Sat tol x s Q) (h' : Sat tol x s R) : Sat tol x s fun a t => Q a t ∧ R a t := by
  rcases hx : x.run s with e | ⟨a, t⟩
  · exact of_error hx (h.error hx)
  · exact of_ok hx ⟨h.ok hx, h'.ok hx⟩

theorem pure {a : α} (h : Q a s) : Sat tol (Pure.pure a : Prog σ ε α) s Q := h

theorem throw {e : ε} (h : tol e) : Sat tol (MonadExcept.throw e : Prog σ ε α) s Q := h

theorem bind {f : α → Prog σ ε β} {Q : β → σ → Prop} (hx : Sat tol x s R)
    (hf : ∀ a t, R a t → Sat tol (f a) t Q) : Sat tol (x >>= f) s Q := by
  rcases h : x.run s with e | ⟨a, t⟩
  · exact of_error (run_bind_error h) (hx.error h)
  · have := hf a t (hx.ok h)
    rwa [Sat, run_bind_ok h]

theorem bind_ok {f : α → Prog σ ε β} {Q : β → σ → Prop} {a : α} (h : x.run s = .ok (a, t))
    (hf : Sat tol (f a) t Q) : Sat tol (x >>= f) s Q := by
  rwa [Sat, run_bind_ok h]

theorem ite {c : Prop} [Decidable c] {y : Prog σ ε α} (hx : c → Sat tol x s Q)
    (hy : ¬c → Sat tol y s Q) : Sat tol (if c then x else y) s Q := by
  by_cases hc : c
  · rw [if_pos hc]
    exact hx hc
  · rw [if_neg hc]
    exact hy hc

end Sat

/-- Both programs stop in the same error, or they return the same with `R`. -/
def RunsAs (R : α → σ → τ → Prop) (x : Prog σ ε α) (s : σ) (y : Prog τ ε α) (t : τ) : Prop :=
  match x.run s, y.run t with
  | .ok (a, s'), .ok (b, t') => a = b ∧ R a s' t'
  | .error e, .error e' => e = e'
  | _, _ => False

namespace RunsAs

variable {R : α → σ → τ → Prop} {R' : β → σ → τ → Prop} {x : Prog σ ε α} {y : Prog τ ε α} {t : τ}

theorem of_ok {a : α} {s' : σ} {t' : τ} (hx : x.run s = .ok (a, s')) (hy : y.run t = .ok (a, t')) (h : R a s' t') :
    RunsAs R x s y t := by
  rw [RunsAs, hx, hy]
  exact ⟨rfl, h⟩

theorem of_error {e : ε} (hx : x.run s = .error e) (hy : y.run t = .error e) : RunsAs R x s y t := by
  rw [RunsAs, hx, hy]

theorem pure {a : α} (h : R a s t) : RunsAs R (Pure.pure a : Prog σ ε α) s (Pure.pure a : Prog τ ε α) t := ⟨rfl, h⟩

theorem bind {f : α → Prog σ ε β} {g : α → Prog τ ε β} (h : RunsAs R x s y t)
    (hfg : ∀ a s' t', R a s' t' → RunsAs R' (f a) s' (g a) t') : RunsAs R' (x >>= f) s (y >>= g) t := by
  rcases hx : x.run s with e | ⟨a, s'⟩ <;> rcases hy : y.run t with e' | ⟨b, t'⟩ <;> rw [RunsAs, hx, hy] at h
  · exact of_error (run_bind_error hx) (h ▸ run_bind_error hy)
  · exact h.elim
  · exact h.elim
  · obtain ⟨rfl, hR⟩ := h
    have := hfg a s' t' hR
    rwa [RunsAs, run_bind_ok hx, run_bind_ok hy]

theorem bind_ok {f : α → Prog σ ε β} {δ : Type} {z : Prog τ ε δ} {g : δ → Prog τ ε β} {a : α} {d : δ} {s' : σ} {t' : τ}
    (hx : x.run s = .ok (a, s')) (hz : z.run t = .ok (d, t')) (h : RunsAs R' (f a) s' (g d) t') :
    RunsAs R' (x >>= f) s (z >>= g) t := by
  rwa [RunsAs, run_bind_ok hx, run_bind_ok hz]

end RunsAs

/-- `body` for `i`, `i + 1`, …, `n` rounds. -/
def forRange (body : ℕ → Prog σ ε PUnit) : ℕ → ℕ → Prog σ ε PUnit
  | _, 0 => pure ⟨⟩
  | i, n + 1 => do
    body i
    forRange body (i + 1) n

/-- Whether one of the `n` tests from `i` on answers yes, tried in order. -/
def anyRange (test : ℕ → Prog σ ε Bool) : ℕ → ℕ → Prog σ ε Bool
  | _, 0 => pure false
  | i, n + 1 => do
    if ← test i then return true
    anyRange test (i + 1) n

/-- `body` for `i`, `i + 1`, …, `n` rounds, which pass a value along. -/
def foldRange (body : ℕ → β → Prog σ ε β) : ℕ → ℕ → β → Prog σ ε β
  | _, 0, b => pure b
  | i, n + 1, b => do foldRange body (i + 1) n (← body i b)

theorem forRange_succ (body : ℕ → Prog σ ε PUnit) (i n : ℕ) :
    forRange body i (n + 1) = (do body i; forRange body (i + 1) n) := rfl

theorem Sat.forRange {body : ℕ → Prog σ ε PUnit} (I : ℕ → σ → Prop) {i n : ℕ} (h : I i s)
    (step : ∀ k t, i ≤ k → k < i + n → I k t → Sat tol (body k) t fun _ t' => I (k + 1) t') :
    Sat tol (FailingPrograms.forRange body i n) s fun _ t => I (i + n) t := by
  induction n generalizing i s with
  | zero => exact Sat.pure h
  | succ n ih =>
    rw [forRange_succ]
    apply Sat.bind (step i s (Nat.le_refl _) (by omega) h)
    intro _ t ht
    have := ih ht fun k u hk hk' hu => step k u (by omega) (by omega) hu
    rwa [show i + 1 + n = i + (n + 1) by omega] at this

theorem forRange_run {body : ℕ → Prog σ ε PUnit} (g : ℕ → σ → σ) (I : ℕ → σ → Prop) {i n : ℕ}
    (h : I i s) (step : ∀ k t, i ≤ k → k < i + n → I k t →
      (body k).run t = .ok (⟨⟩, g k t) ∧ I (k + 1) (g k t)) :
    (forRange body i n).run s = .ok (⟨⟩, (List.range' i n).foldl (fun t k => g k t) s) := by
  induction n generalizing i s with
  | zero => rfl
  | succ n ih =>
    obtain ⟨hrun, hI⟩ := step i s (Nat.le_refl _) (by omega) h
    rw [forRange_succ, run_bind_ok hrun, List.range'_succ, List.foldl_cons]
    exact ih hI fun k t hk hk' ht => step k t (by omega) (by omega) ht

theorem anyRange_run {test : ℕ → Prog σ ε Bool} (b : ℕ → Bool) {i n : ℕ}
    (h : ∀ k, i ≤ k → k < i + n → (test k).run s = .ok (b k, s)) :
    (anyRange test i n).run s = .ok ((List.range' i n).any b, s) := by
  induction n generalizing i with
  | zero => rfl
  | succ n ih =>
    rw [anyRange, run_bind_ok (h i (Nat.le_refl _) (by omega)), List.range'_succ, List.any_cons]
    cases b i with
    | true => rfl
    | false => exact ih fun k hk hk' => h k (by omega) (by omega)

theorem anyRange_false {test : ℕ → Prog σ ε Bool} {i n : ℕ}
    (h : ∀ k, i ≤ k → k < i + n → (test k).run s = .ok (false, s)) :
    (anyRange test i n).run s = .ok (false, s) := by
  rw [anyRange_run (fun _ => false) h, List.any_eq_false.mpr (by simp)]

theorem anyRange_decide {test : ℕ → Prog σ ε Bool} {P : ℕ → Prop} [DecidablePred P] {n : ℕ}
    (h : ∀ k < n, (test k).run s = .ok (decide (P k), s)) :
    (anyRange test 0 n).run s = .ok (decide (∃ k < n, P k), s) := by
  rw [anyRange_run (fun k => decide (P k)) fun k _ hk => h k (by omega)]
  congr 2
  rw [Bool.eq_iff_iff, List.any_eq_true, decide_eq_true_iff]
  simp only [List.mem_range'_1, decide_eq_true_eq]
  constructor
  · rintro ⟨k, ⟨-, hk⟩, hP⟩
    exact ⟨k, by omega, hP⟩
  · rintro ⟨k, hk, hP⟩
    exact ⟨k, ⟨Nat.zero_le k, by omega⟩, hP⟩

theorem Sat.foldRange {body : ℕ → β → Prog σ ε β} (I : ℕ → β → σ → Prop) {i n : ℕ} {b : β} (h : I i b s)
    (step : ∀ k c t, i ≤ k → k < i + n → I k c t →
      Sat tol (body k c) t fun c' t' => I (k + 1) c' t') :
    Sat tol (FailingPrograms.foldRange body i n b) s fun c t => I (i + n) c t := by
  induction n generalizing i b s with
  | zero => exact Sat.pure h
  | succ n ih =>
    apply Sat.bind (step i b s (Nat.le_refl _) (by omega) h)
    intro c t ht
    have := ih ht fun k c' u hk hk' hu => step k c' u (by omega) (by omega) hu
    rwa [show i + 1 + n = i + (n + 1) by omega] at this

theorem foldRange_run (body : ℕ → β → Prog σ ε β) (c : ℕ → β) {i n : ℕ}
    (step : ∀ k, i ≤ k → k < i + n → (body k (c k)).run s = .ok (c (k + 1), s)) :
    (foldRange body i n (c i)).run s = .ok (c (i + n), s) := by
  induction n generalizing i with
  | zero => rfl
  | succ n ih =>
    have hrest := ih (i := i + 1) fun k hk hk' => step k (by omega) (by omega)
    rw [foldRange, run_bind_ok (step i (Nat.le_refl _) (by omega)), hrest,
      show i + 1 + n = i + (n + 1) by omega]

end FosKernel.FailingPrograms
