import Mathlib.Data.Nat.Bitwise

/-!
# Aging counters

A counter of `w + 1` bits is shifted right by `d` at each tick, and its top bit then says
whether there was a reference since the tick before. Compared as numbers, two counters are
ordered by their latest references, as far back as the bits of a tick are still there.
-/

namespace FosKernel.AgingCounters

variable {d w x y k j : ℕ} {r : Bool} {rs ss : List Bool}

def age (d w : ℕ) (r : Bool) (x : ℕ) : ℕ := if r then x >>> d ||| 2 ^ w else x >>> d

/-- The counter after ticks that are listed from the latest one on. -/
def aged (d w x : ℕ) : List Bool → ℕ
  | [] => x
  | r :: rs => age d w r (aged d w x rs)

theorem shiftRight_lt (hd : 0 < d) (hx : x < 2 ^ (w + 1)) : x >>> d < 2 ^ w := by
  rw [Nat.shiftRight_eq_div_pow, Nat.div_lt_iff_lt_mul (Nat.two_pow_pos d), ← Nat.pow_add]
  exact hx.trans_le (Nat.pow_le_pow_right (by decide) (by omega))

theorem age_lt (hd : 0 < d) (hx : x < 2 ^ (w + 1)) : age d w r x < 2 ^ (w + 1) := by
  have hlt : x >>> d < 2 ^ (w + 1) :=
    (shiftRight_lt hd hx).trans (Nat.pow_lt_pow_right (by decide) (Nat.lt_succ_self w))
  cases r with
  | false => exact hlt
  | true => exact Nat.or_lt_two_pow hlt (Nat.pow_lt_pow_right (by decide) (Nat.lt_succ_self w))

theorem aged_lt (hd : 0 < d) (hx : x < 2 ^ (w + 1)) (rs : List Bool) : aged d w x rs < 2 ^ (w + 1) := by
  induction rs with
  | nil => exact hx
  | cons r rs ih => exact age_lt hd ih

theorem testBit_age_top (hd : 0 < d) (hx : x < 2 ^ (w + 1)) : (age d w r x).testBit w = r := by
  have hold : (x >>> d).testBit w = false := Nat.testBit_lt_two_pow (shiftRight_lt hd hx)
  cases r with
  | false => exact hold
  | true => simp [age, hold]

theorem testBit_age (hj : j < w) : (age d w r x).testBit j = x.testBit (d + j) := by
  cases r with
  | false => simp [age]
  | true => simp [age, Nat.testBit_two_pow_of_ne (Nat.ne_of_gt hj)]

/-- Every `d`-th bit from the top is that of a tick, and those between are clear. -/
theorem testBit_aged (hd : 0 < d) (hx : x < 2 ^ (w + 1)) (hj : j ≤ w) (hlen : j / d < rs.length) :
    (aged d w x rs).testBit (w - j) = (decide (j % d = 0) && rs.getD (j / d) false) := by
  induction rs generalizing j with
  | nil => cases hlen
  | cons r rs ih =>
    have hlt := aged_lt hd hx rs
    rw [aged]
    by_cases h0 : j = 0
    · subst h0
      simp [testBit_age_top hd hlt]
    rw [testBit_age (by omega)]
    by_cases hjd : j < d
    · -- shifted in above the old top bit
      rw [Nat.testBit_lt_two_pow (hlt.trans_le (Nat.pow_le_pow_right (by decide) (by omega))), Nat.mod_eq_of_lt hjd]
      simp [h0]
    · obtain ⟨i, rfl⟩ : ∃ i, j = i + d := ⟨j - d, by omega⟩
      rw [Nat.add_div_right i hd] at hlen ⊢
      rw [Nat.add_mod_right, show d + (w - (i + d)) = w - i by omega]
      exact ih (by omega) (by simpa using hlen)

/-- The counter that was referenced at the latest tick where the histories differ is larger, if the
bit of that tick has not been shifted out. -/
theorem aged_lt_aged (hd : 0 < d) (hx : x < 2 ^ (w + 1)) (hy : y < 2 ^ (w + 1)) (hrs : k < rs.length)
    (hss : k < ss.length) (hk : k * d ≤ w) (hsame : ∀ m < k, rs.getD m false = ss.getD m false)
    (hr : rs.getD k false = false) (hs : ss.getD k false = true) : aged d w x rs < aged d w y ss := by
  have hmod : k * d % d = 0 := Nat.mul_mod_left k d
  have hdiv : k * d / d = k := Nat.mul_div_cancel k hd
  apply Nat.lt_of_testBit (w - k * d)
  · rw [testBit_aged hd hx hk (by rwa [hdiv]), hdiv, hr, Bool.and_false]
  · rw [testBit_aged hd hy hk (by rwa [hdiv]), hdiv, hs, hmod]
    rfl
  · intro i hi
    by_cases hw : w < i
    · have htop : 2 ^ (w + 1) ≤ 2 ^ i := Nat.pow_le_pow_right (by decide) hw
      rw [Nat.testBit_lt_two_pow ((aged_lt hd hx rs).trans_le htop),
        Nat.testBit_lt_two_pow ((aged_lt hd hy ss).trans_le htop)]
    · obtain ⟨j, hj, rfl⟩ : ∃ j ≤ w, i = w - j := ⟨w - i, Nat.sub_le w i, by omega⟩
      have hjk : j / d < k := (Nat.div_lt_iff_lt_mul hd).mpr (by omega)
      rw [testBit_aged hd hx hj (hjk.trans hrs), testBit_aged hd hy hj (hjk.trans hss), hsame _ hjk]

end FosKernel.AgingCounters
