import FosKernel.Memlayout
import Mathlib.Data.Nat.Find
import Mathlib.Order.Monotone.Basic

/-!
# Sleeping on the cycle counter

`env_sleep` reads the counter until enough cycles have passed. Both the number of
cycles and the time that has passed are compared as 32-bit words.
-/

namespace FosKernel.Sleeping

def cyclesPerMillisec : ℕ := 10000

/-- `struct uint64` -/
structure Uint64 where
  low : ℕ
  hi : ℕ
  low_lt : low < 2 ^ 32
  hi_lt : hi < 2 ^ 32

def Uint64.val (x : Uint64) : ℕ := x.hi * 2 ^ 32 + x.low

/-- `res.low`; nothing reads `res.hi`. -/
def cyclesSince (baseTime currentTime : Uint64) : ℕ := u32 (currentTime.low + 2 ^ 32 - baseTime.low)

/-- The loop, `n` readings after the first one; the result is the number of the last
reading, if the loop has ended after `fuel` more readings. -/
def sleepLoop (time : ℕ → Uint64) (timeInCycles : ℕ) : ℕ → ℕ → ℕ → Option ℕ
  | fuel, cyclesCounter, n =>
    if cyclesCounter < timeInCycles then
      match fuel with
      | 0 => none
      | fuel + 1 => sleepLoop time timeInCycles fuel (cyclesSince (time 0) (time (n + 1))) (n + 1)
    else some n

def envSleep (time : ℕ → Uint64) (approxMilliSeconds fuel : ℕ) : Option ℕ :=
  sleepLoop time (u32 (approxMilliSeconds * cyclesPerMillisec)) fuel 0 0

variable {time : ℕ → Uint64} {ms n d : ℕ}

/-- `env_sleep` returns after the reading `n`. -/
def ReturnsAt (time : ℕ → Uint64) (ms n : ℕ) : Prop := ∃ fuel, envSleep time ms fuel = some n

/-- The cycles between the first reading and the reading `n`. -/
def elapsed (time : ℕ → Uint64) (n : ℕ) : ℕ := (time n).val - (time 0).val

/-- The reading `n` is the first that is `d` cycles ahead. -/
def FirstAt (time : ℕ → Uint64) (d n : ℕ) : Prop := d ≤ elapsed time n ∧ ∀ k < n, elapsed time k < d

/-- What `env_sleep` is to do with these readings. -/
structure Sleeps (time : ℕ → Uint64) (ms : ℕ) : Prop where
  notEarly : ∀ n, ReturnsAt time ms n → ms * cyclesPerMillisec ≤ elapsed time n
  wakes : ∀ n, FirstAt time (ms * cyclesPerMillisec) n → ReturnsAt time ms n

/-- The low words alone tell which readings come before the end of the sleep, and which
one is the first at its end. -/
structure LowWordsDecide (time : ℕ → Uint64) (d : ℕ) : Prop where
  before : ∀ n, elapsed time n < d → elapsed time n % 2 ^ 32 < d % 2 ^ 32
  first : ∀ n, FirstAt time d n → d % 2 ^ 32 ≤ elapsed time n % 2 ^ 32

theorem elapsed_zero : elapsed time 0 = 0 := Nat.sub_self _

theorem cyclesSince_eq (hmono : Monotone fun n => (time n).val) (n : ℕ) :
    cyclesSince (time 0) (time n) = elapsed time n % 2 ^ 32 := by
  have hle : (time 0).val ≤ (time n).val := hmono (Nat.zero_le n)
  have h₀ := (time 0).low_lt
  have hn := (time n).low_lt
  simp only [cyclesSince, elapsed, Uint64.val, u32] at *
  omega

theorem sleepLoop_eq_some (hmono : Monotone fun n => (time n).val) {t m : ℕ} :
    (∃ fuel, sleepLoop time t fuel (elapsed time m % 2 ^ 32) m = some n) ↔
      m ≤ n ∧ t ≤ elapsed time n % 2 ^ 32 ∧ ∀ k, m ≤ k → k < n → elapsed time k % 2 ^ 32 < t := by
  constructor
  · rintro ⟨fuel, h⟩
    induction fuel generalizing m with
    | zero =>
      rw [sleepLoop] at h
      split at h
      · cases h
      · cases h
        exact ⟨Nat.le_refl _, by omega, fun k _ _ => by omega⟩
    | succ fuel ih =>
      rw [sleepLoop] at h
      split at h
      · rename_i hlt
        rw [cyclesSince_eq hmono] at h
        obtain ⟨hle, hn, hk⟩ := ih h
        refine ⟨by omega, hn, fun k hmk hkn => ?_⟩
        rcases Nat.eq_or_lt_of_le hmk with rfl | hlt'
        · exact hlt
        · exact hk k hlt' hkn
      · cases h
        exact ⟨Nat.le_refl _, by omega, fun k _ _ => by omega⟩
  · rintro ⟨hmn, hn, hk⟩
    obtain ⟨j, rfl⟩ := Nat.exists_eq_add_of_le hmn
    refine ⟨j, ?_⟩
    clear hmn
    induction j generalizing m with
    | zero => rw [sleepLoop, if_neg (by simpa using hn), Nat.add_zero]
    | succ j ih =>
      rw [sleepLoop, if_pos (hk m (Nat.le_refl _) (by omega)), cyclesSince_eq hmono,
        show m + (j + 1) = m + 1 + j by omega]
      exact ih (by rwa [show m + 1 + j = m + (j + 1) by omega]) fun k hk' hkn => hk k (by omega) (by omega)

theorem returnsAt_iff (hmono : Monotone fun n => (time n).val) :
    ReturnsAt time ms n ↔ ms * cyclesPerMillisec % 2 ^ 32 ≤ elapsed time n % 2 ^ 32 ∧
      ∀ k < n, elapsed time k % 2 ^ 32 < ms * cyclesPerMillisec % 2 ^ 32 := by
  have h := sleepLoop_eq_some hmono (n := n) (t := u32 (ms * cyclesPerMillisec)) (m := 0)
  simp only [elapsed_zero, Nat.zero_mod, Nat.zero_le, true_and, true_implies] at h
  exact h

/-- A sleep of less than 430 seconds is never too short. -/
theorem lowWordsDecide_before (hd : d < 2 ^ 32) (h : elapsed time n < d) :
    elapsed time n % 2 ^ 32 < d % 2 ^ 32 := by
  omega

/-- A sleep is as long as it is to be exactly when the low words decide it. -/
theorem sleeps_iff (hmono : Monotone fun n => (time n).val) (ms : ℕ) :
    Sleeps time ms ↔ LowWordsDecide time (ms * cyclesPerMillisec) := by
  generalize hd : ms * cyclesPerMillisec = d
  have hret (n : ℕ) : ReturnsAt time ms n ↔ d % 2 ^ 32 ≤ elapsed time n % 2 ^ 32 ∧
      ∀ k < n, elapsed time k % 2 ^ 32 < d % 2 ^ 32 := hd ▸ returnsAt_iff hmono
  have hup {k n : ℕ} (h : k ≤ n) : elapsed time k ≤ elapsed time n := Nat.sub_le_sub_right (hmono h) _
  constructor
  · intro h
    obtain ⟨hearly, hwakes⟩ := h
    rw [hd] at hearly hwakes
    refine ⟨fun n hn => ?_, fun n hn => ((hret n).mp (hwakes n hn)).1⟩
    by_contra hge
    -- the loop ends with the first low word that is large enough
    have hex : ∃ k, d % 2 ^ 32 ≤ elapsed time k % 2 ^ 32 := ⟨n, by omega⟩
    obtain ⟨k, hk, hmin⟩ : ∃ k, d % 2 ^ 32 ≤ elapsed time k % 2 ^ 32 ∧
        ∀ j < k, ¬d % 2 ^ 32 ≤ elapsed time j % 2 ^ 32 := ⟨Nat.find hex, Nat.find_spec hex, fun _ => Nat.find_min hex⟩
    have hkn : k ≤ n := by
      by_contra hlt
      exact hmin n (by omega) (by omega)
    have := hearly k ((hret k).mpr ⟨hk, fun j hj => by have := hmin j hj; omega⟩)
    have := hup hkn
    omega
  · rintro ⟨hbefore, hfirst⟩
    refine ⟨fun n hn => ?_, fun n hn => ?_⟩
    · rw [hd]
      by_contra hlt
      have := ((hret n).mp hn).1
      have := hbefore n (by omega)
      omega
    · rw [hd] at hn
      exact (hret n).mpr ⟨hfirst n hn, fun k hk => hbefore k (hn.2 k hk)⟩

/-- A counter that is `n` cycles ahead at the second reading and stays there. -/
def twoReadings (n : Fin (2 ^ 32)) (k : ℕ) : Uint64 :=
  if k = 0 then ⟨0, 0, by decide, by decide⟩ else ⟨n.val, 0, n.isLt, by decide⟩

theorem elapsed_twoReadings (n : Fin (2 ^ 32)) (k : ℕ) :
    elapsed (twoReadings n) k = if k = 0 then 0 else n.val := by
  by_cases hk : k = 0 <;> simp [elapsed, twoReadings, Uint64.val, hk]

theorem monotone_twoReadings (n : Fin (2 ^ 32)) : Monotone fun k => (twoReadings n k).val := by
  intro j k hjk
  by_cases hk : k = 0
  · simp [hk, show j = 0 by omega]
  · by_cases hj : j = 0 <;> simp [twoReadings, Uint64.val, hj, hk]

theorem sleeps_iff_twoReadings : Sleeps (twoReadings 10000) 1 := by
  refine (sleeps_iff (monotone_twoReadings _) 1).mpr ⟨fun n => lowWordsDecide_before (by decide), fun n hn => ?_⟩
  have hn' := hn.1
  rw [elapsed_twoReadings] at hn' ⊢
  simp only [cyclesPerMillisec] at *
  split_ifs at hn' ⊢
  · omega
  · decide

/-- A sleep of 429.497 seconds is over after 2704 cycles. -/
theorem sleeps_early : ¬∀ time, Monotone (fun n => (time n).val) → ∀ ms < 2 ^ 32, Sleeps time ms := by
  intro hall
  have hmono := monotone_twoReadings 2704
  have h := (hall _ hmono 429497 (by decide)).notEarly 1 ((returnsAt_iff hmono).mpr ⟨by decide, fun k hk => ?_⟩)
  · exact absurd h (by decide)
  · obtain rfl : k = 0 := by omega
    decide

end FosKernel.Sleeping
