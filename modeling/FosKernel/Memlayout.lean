import Mathlib.Algebra.Group.Int.Defs
import Mathlib.Algebra.Group.Nat.Defs

/-!
# Constants of the memory layout

Machine words are natural numbers below `2 ^ 32`; the operations that can wrap
say so.
-/

namespace FosKernel

/-- The value a `uint32` holds after `n` was computed for it. -/
def u32 (n : ℕ) : ℕ := n % 2 ^ 32

theorem u32_of_lt {n : ℕ} (h : n < 2 ^ 32) : u32 n = n := Nat.mod_eq_of_lt h

/-- An `int` as an `unsigned int`. -/
def unsigned (n : ℤ) : ℕ := (n % 2 ^ 32).toNat

theorem unsigned_natCast {n : ℕ} (h : n < 2 ^ 32) : unsigned n = n := by
  simp only [unsigned]
  omega

theorem unsigned_lt (n : ℤ) : unsigned n < 2 ^ 32 := by
  rw [unsigned]
  omega

def pageSize : ℕ := 4096
def ptSize : ℕ := 1024 * pageSize

def kernelBase : ℕ := 0xF0000000
def kernelHeapStart : ℕ := 0xF6000000
def kernelHeapMax : ℕ := 0xFFFFF000
def numOfKHeapPages : ℕ := (kernelHeapMax - kernelHeapStart) / pageSize
def userHeapStart : ℕ := 0x80000000
def userHeapMax : ℕ := 0xA0000000
def numOfUHeapPages : ℕ := (userHeapMax - userHeapStart) / pageSize

/-- `ROUNDDOWN` -/
def roundDown (a n : ℕ) : ℕ := a - a % n

/-- `ROUNDUP`, whose sum is a `uint32` -/
def roundUp (a n : ℕ) : ℕ := roundDown (u32 (a + n - 1)) n

theorem roundDown_dvd (a n : ℕ) : n ∣ roundDown a n := Nat.dvd_sub_mod a

theorem roundDown_le (a n : ℕ) : roundDown a n ≤ a := Nat.sub_le _ _

theorem roundDown_of_dvd {a n : ℕ} (h : n ∣ a) : roundDown a n = a := by
  simp [roundDown, Nat.mod_eq_zero_of_dvd h]

theorem le_roundDown {a b n : ℕ} (h : n ∣ b) (hle : b ≤ a) : b ≤ roundDown a n := by
  obtain ⟨k, rfl⟩ := h
  have hk : k ≤ a / n ∨ n = 0 := by
    rcases Nat.eq_zero_or_pos n with hn | hn
    · exact .inr hn
    · exact .inl ((Nat.le_div_iff_mul_le hn).mpr (by rwa [Nat.mul_comm]))
  rw [roundDown, Nat.sub_eq_of_eq_add (Nat.div_add_mod a n).symm]
  rcases hk with hk | rfl
  · exact Nat.mul_le_mul_left _ hk
  · simp

theorem roundUp_of_dvd {a n : ℕ} (hn : 0 < n) (h : n ∣ a) (hlt : a + n ≤ 2 ^ 32) : roundUp a n = a := by
  obtain ⟨k, rfl⟩ := h
  rw [roundUp, u32_of_lt (by omega), roundDown,
    show n * k + n - 1 = n - 1 + n * k by omega, Nat.add_mul_mod_self_left, Nat.mod_eq_of_lt (by omega)]
  omega

theorem le_roundUp {a n : ℕ} (hn : 0 < n) (hlt : a + n ≤ 2 ^ 32) : a ≤ roundUp a n := by
  rw [roundUp, u32_of_lt (by omega), roundDown]
  have := Nat.mod_lt (a + n - 1) hn
  omega

theorem roundUp_dvd (a n : ℕ) : n ∣ roundUp a n := roundDown_dvd _ n

end FosKernel
