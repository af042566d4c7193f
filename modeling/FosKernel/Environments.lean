import FosKernel.PageEntries
import FosKernel.Scheduler
import Mathlib.Tactic.Positivity
import Mathlib.Tactic.Ring

/-!
# The table of environments

An identifier has the slot's index in its low bits and a generation above. The
generation is computed from the identifier that the slot had before, which
`free_environment` clears together with the rest of the slot.
-/

namespace FosKernel.Environments
open Scheduler

/-- `while (x >>= 1)` with one variable that each round changes. -/
def shiftLoop (step : ℕ → ℕ) (x acc : ℕ) : ℕ :=
  if x / 2 = 0 then acc else shiftLoop step (x / 2) (step acc)
termination_by x

def nearestPow2Ceil (x : ℕ) : ℕ := if x ≤ 1 then 1 else shiftLoop (· <<< 1) (x - 1) 2

def log2Ceil (x : ℕ) : ℕ := if x ≤ 1 then 1 else shiftLoop (· + 1) (x - 1) 2

/-- `ENVGENSHIFT`, for `NENV` environments. -/
def envGenShift (nenv : ℕ) : ℕ := log2Ceil nenv

/-- `ENVX` -/
def envx (nenv : ℕ) (envid : ℤ) : ℕ := unsigned envid &&& (nearestPow2Ceil nenv - 1)

structure EnvTable where
  envId : ℕ → ℤ
  envParentId : ℕ → ℤ
  envStatus : ℕ → EnvStatus
  envFreeList : List ℕ
  curenv : Option ℕ

/-- One round of the loop of `env_init`. -/
def initEnv (s : EnvTable) (iEnv : ℕ) : EnvTable :=
  { s with
    envStatus := Function.update s.envStatus iEnv .free
    envId := Function.update s.envId iEnv 0
    envFreeList := iEnv :: s.envFreeList }

def envInit (nenv : ℕ) (s : EnvTable) : EnvTable :=
  (List.range nenv).reverse.foldl initEnv { s with envFreeList := [] }

/-- The result is `none` for `E_NO_FREE_ENV`. -/
def allocateEnvironment (s : EnvTable) : Option (EnvTable × ℕ) :=
  match s.envFreeList with
  | [] => none
  | e :: _ => some ({ s with envStatus := Function.update s.envStatus e .unknown }, e)

def nextGeneration (nenv : ℕ) (envId : ℤ) : ℤ :=
  let generation := int32 (PageEntries.clearPerm (unsigned (envId + 2 ^ envGenShift nenv))
    (nearestPow2Ceil nenv - 1))
  if generation ≤ 0 then 2 ^ envGenShift nenv else generation

/-- The part that concerns identifiers, status and free list. -/
def completeEnvironmentInitialization (nenv : ℕ) (s : EnvTable) (e : ℕ) : EnvTable :=
  { s with
    envId := Function.update s.envId e (int32 (unsigned (nextGeneration nenv (s.envId e)) ||| e))
    envParentId := Function.update s.envParentId e (match s.curenv with
      | none => 0
      | some c => s.envId c)
    envStatus := Function.update s.envStatus e .new
    envFreeList := s.envFreeList.erase e }

/-- The creation of an environment, which fails when there is no free slot. -/
def createEnvironment (nenv : ℕ) (s : EnvTable) : EnvTable :=
  match allocateEnvironment s with
  | none => s
  | some (s, e) => completeEnvironmentInitialization nenv s e

def freeEnvironment (s : EnvTable) (e : ℕ) : EnvTable :=
  { s with
    envId := Function.update s.envId e 0
    envParentId := Function.update s.envParentId e 0
    envStatus := Function.update s.envStatus e .free
    envFreeList := e :: s.envFreeList }

/-- The pair of the return value 0 and `*env_store`, or `none` for `E_BAD_ENV`. -/
def envid2env (nenv : ℕ) (s : EnvTable) (envid : ℤ) (checkperm : Bool) : Option (Option ℕ) :=
  if envid = 0 then some s.curenv
  else
    let e := envx nenv envid
    if s.envStatus e = .free ∨ s.envId e ≠ envid then none
    else if checkperm ∧ some e ≠ s.curenv ∧ s.curenv.map s.envId ≠ some (s.envParentId e) then none
    else some (some e)

variable {nenv e k : ℕ} {s s₀ : EnvTable} {freed : List ℤ}

theorem shiftLoop_eq (x a b : ℕ) (hx : 0 < x) : ∃ n, 2 ^ n ≤ x ∧ x < 2 ^ (n + 1) ∧
    shiftLoop (· <<< 1) x a = a * 2 ^ n ∧ shiftLoop (· + 1) x b = b + n := by
  induction x using Nat.strongRecOn generalizing a b with
  | ind x ih =>
    by_cases h : x / 2 = 0
    · refine ⟨0, hx, by omega, ?_, ?_⟩
      · rw [shiftLoop, if_pos h]
        omega
      · rw [shiftLoop, if_pos h]
        omega
    · obtain ⟨n, hlo, hhi, hpow, hlog⟩ := ih (x / 2) (by omega) (a <<< 1) (b + 1) (by omega)
      refine ⟨n + 1, ?_, ?_, ?_, ?_⟩
      · rw [pow_succ]
        omega
      · rw [pow_succ] at hhi ⊢
        omega
      · rw [shiftLoop, if_neg h, hpow, Nat.shiftLeft_eq, pow_one, pow_succ, Nat.mul_assoc, Nat.mul_comm 2]
      · rw [shiftLoop, if_neg h, hlog]
        omega

/-- The power of two is large enough for the indices, and the shift is one more
than its exponent. -/
theorem exists_exponent (hmax : nenv ≤ envsBytes) :
    ∃ k ≤ 20, nearestPow2Ceil nenv = 2 ^ k ∧ envGenShift nenv = k + 1 ∧ nenv ≤ 2 ^ k := by
  by_cases h1 : nenv ≤ 1
  · exact ⟨0, by omega, by simp [nearestPow2Ceil, h1], by simp [envGenShift, log2Ceil, h1], by omega⟩
  · obtain ⟨n, hlo, hhi, hpow, hlog⟩ := shiftLoop_eq (nenv - 1) 2 2 (by omega)
    have hn : n < 20 := by
      by_contra hge
      have := Nat.pow_le_pow_right (n := 2) (by decide) (Nat.le_of_not_lt hge)
      have hbytes : envsBytes = 2 ^ 20 := by decide
      omega
    refine ⟨n + 1, hn, ?_, ?_, by omega⟩
    · rw [nearestPow2Ceil, if_neg h1, hpow, pow_succ, Nat.mul_comm]
    · rw [envGenShift, log2Ceil, if_neg h1, hlog]
      omega

/-- `shiftLoop` with the overflow of its variables. -/
def shiftLoop32 (step : BitVec 32 → BitVec 32) (x acc : BitVec 32) : BitVec 32 :=
  if x >>> 1 = 0 then acc else shiftLoop32 step (x >>> 1) (step acc)
termination_by x.toNat
decreasing_by
  rename_i h
  have hx : (x >>> 1).toNat ≠ 0 := fun he => h (BitVec.eq_of_toNat_eq he)
  rw [BitVec.toNat_ushiftRight, Nat.shiftRight_eq_div_pow] at hx ⊢
  omega

def nearestPow2Ceil32 (x : BitVec 32) : BitVec 32 :=
  if x ≤ 1 then 1 else shiftLoop32 (· <<< 1) (x - 1) 2

def log2Ceil32 (x : BitVec 32) : BitVec 32 := if x ≤ 1 then 1 else shiftLoop32 (· + 1) (x - 1) 2

/-- One helper gives the least power of two from `x` on, and the other one its exponent. -/
structure HelpersAgree (x : BitVec 32) : Prop where
  least : IsLeast {p | x.toNat ≤ p ∧ ∃ k, p = 2 ^ k} (nearestPow2Ceil32 x).toNat
  exponent : 2 ^ (log2Ceil32 x).toNat = (nearestPow2Ceil32 x).toNat

theorem le_shiftLoop {step : ℕ → ℕ} (hstep : ∀ a, a ≤ step a) (x a : ℕ) : a ≤ shiftLoop step x a := by
  induction x using Nat.strongRecOn generalizing a with
  | ind x ih =>
    rw [shiftLoop]
    split
    · exact le_refl a
    · exact (hstep a).trans (ih (x / 2) (by omega) (step a))

theorem toNat_shiftLoop32 {step : ℕ → ℕ} {step32 : BitVec 32 → BitVec 32} (hle : ∀ a, a ≤ step a)
    (hstep : ∀ a, step a.toNat < 2 ^ 32 → (step32 a).toNat = step a.toNat) (x a : BitVec 32)
    (hlt : shiftLoop step x.toNat a.toNat < 2 ^ 32) :
    (shiftLoop32 step32 x a).toNat = shiftLoop step x.toNat a.toNat := by
  induction hn : x.toNat using Nat.strongRecOn generalizing x a with
  | ind n ih =>
    subst hn
    have hhalf : (x >>> 1).toNat = x.toNat / 2 := by
      rw [BitVec.toNat_ushiftRight, Nat.shiftRight_eq_div_pow, pow_one]
    have hzero : x >>> 1 = 0 ↔ x.toNat / 2 = 0 := by
      rw [← hhalf, BitVec.toNat_eq]
      rfl
    rw [shiftLoop] at hlt
    rw [shiftLoop32, shiftLoop]
    by_cases h : x.toNat / 2 = 0
    · rw [if_pos (hzero.mpr h), if_pos h]
    · rw [if_neg h] at hlt
      rw [if_neg (mt hzero.mp h), if_neg h]
      have ha := hstep a ((le_shiftLoop hle _ _).trans_lt hlt)
      rw [← hhalf, ← ha] at hlt ⊢
      exact ih _ (by omega) (x >>> 1) (step32 a) hlt rfl

theorem helpers_eq {x : BitVec 32} (hpos : 1 ≤ x.toNat) (hx : x.toNat ≤ 2 ^ 30) :
    ∃ k, x.toNat ≤ 2 ^ k ∧ (∀ m, x.toNat ≤ 2 ^ m → k ≤ m) ∧
      (nearestPow2Ceil32 x).toNat = 2 ^ k ∧ (log2Ceil32 x).toNat = k + 1 := by
  by_cases h1 : x ≤ 1
  · have hone : x.toNat ≤ 1 := h1
    exact ⟨0, by omega, fun m _ => Nat.zero_le m, by rw [nearestPow2Ceil32, if_pos h1]; rfl,
      by rw [log2Ceil32, if_pos h1]; rfl⟩
  · have hone : ¬x.toNat ≤ 1 := h1
    have hpred : (x - 1).toNat = x.toNat - 1 := BitVec.toNat_sub_of_le (show 1 ≤ x.toNat from hpos)
    obtain ⟨n, hlo, hhi, hpow, hlog⟩ := shiftLoop_eq (x.toNat - 1) 2 2 (by omega)
    have hn : n < 30 := (Nat.pow_lt_pow_iff_right (a := 2) (by decide)).mp (by omega)
    have hfits : 2 * 2 ^ n < 2 ^ 32 := by
      have := Nat.pow_lt_pow_right (a := 2) (by decide) hn
      omega
    have hdouble (a : ℕ) : a ≤ a <<< 1 := by
      rw [Nat.shiftLeft_eq]
      omega
    refine ⟨n + 1, by omega, fun m hm => ?_, ?_, ?_⟩
    · have hnm : n < m := (Nat.pow_lt_pow_iff_right (a := 2) (by decide)).mp (by omega)
      omega
    · have hloop : (shiftLoop32 (· <<< 1) (x - 1) 2).toNat = shiftLoop (· <<< 1) (x - 1).toNat 2 := by
        apply toNat_shiftLoop32 hdouble
        · intro a ha
          rw [BitVec.toNat_shiftLeft, Nat.mod_eq_of_lt ha]
        · rw [hpred]
          exact hpow ▸ hfits
      rw [nearestPow2Ceil32, if_neg h1, hloop, hpred, hpow]
      ring
    · have hloop : (shiftLoop32 (· + 1) (x - 1) 2).toNat = shiftLoop (· + 1) (x - 1).toNat 2 := by
        apply toNat_shiftLoop32 Nat.le_succ
        · intro a ha
          rw [BitVec.toNat_add]
          exact Nat.mod_eq_of_lt ha
        · rw [hpred]
          exact hlog ▸ (by omega)
      rw [log2Ceil32, if_neg h1, hloop, hpred, hlog]
      omega

/-- The power of two is the least one, but the count of bits is one more than its exponent. -/
theorem helpers_disagree (x : BitVec 32) (hpos : 1 ≤ x.toNat) (hx : x.toNat ≤ 2 ^ 30) :
    IsLeast {p | x.toNat ≤ p ∧ ∃ k, p = 2 ^ k} (nearestPow2Ceil32 x).toNat ∧
      2 ^ (log2Ceil32 x).toNat = 2 * (nearestPow2Ceil32 x).toNat ∧ ¬HelpersAgree x := by
  obtain ⟨k, hle, hleast, hpow, hlog⟩ := helpers_eq hpos hx
  have htwice : 2 ^ (log2Ceil32 x).toNat = 2 * (nearestPow2Ceil32 x).toNat := by
    rw [hlog, hpow, pow_succ, Nat.mul_comm]
  refine ⟨⟨⟨hpow ▸ hle, k, hpow⟩, ?_⟩, htwice, fun hagree => ?_⟩
  · rintro p ⟨hp, m, rfl⟩
    rw [hpow]
    exact Nat.pow_le_pow_right (by decide) (hleast m hp)
  · have hexp := hagree.exponent
    have := Nat.two_pow_pos k
    omega

theorem helpers_disagree_five : ¬HelpersAgree 5 := (helpers_disagree 5 (by decide) (by decide)).2.2

/-- The two bits counted for 2 are taken for its exponent. -/
theorem log2Ceil_two : ¬∀ x : BitVec 32, 1 ≤ x.toNat → x.toNat ≤ 2 ^ 30 → HelpersAgree x := by
  intro hall
  have hexp := (hall 2 (by decide) (by decide)).exponent
  have hpow : nearestPow2Ceil32 2 = 2 := by
    rw [nearestPow2Ceil32, if_neg (by decide), shiftLoop32, if_pos (by decide)]
  have hlog : log2Ceil32 2 = 2 := by
    rw [log2Ceil32, if_neg (by decide), shiftLoop32, if_pos (by decide)]
  rw [hpow, hlog] at hexp
  exact absurd hexp (by decide)

private theorem clearPerm_two_pow (hk : k ≤ 20) :
    PageEntries.clearPerm (2 ^ (k + 1)) (2 ^ k - 1) = 2 ^ (k + 1) := by
  apply Nat.eq_of_testBit_eq
  intro i
  by_cases hi : i < 32
  · rw [PageEntries.testBit_clearPerm hi, Nat.testBit_two_pow, Nat.testBit_two_pow_sub_one]
    by_cases hik : k + 1 = i
    · simp [← hik]
    · simp [hik]
  · have hlt : PageEntries.clearPerm (2 ^ (k + 1)) (2 ^ k - 1) < 2 ^ i :=
      (PageEntries.clearPerm_lt (Nat.pow_lt_pow_right (by decide) (by omega))).trans_le
        (Nat.pow_le_pow_right (by decide) (by omega))
    rw [Nat.testBit_lt_two_pow hlt, Nat.testBit_two_pow_of_ne (by omega)]

/-- A slot whose identifier is 0 always gets the same one next. -/
def firstId (k e : ℕ) : ℤ := 2 ^ (k + 1) + e

section FirstIds

variable (hk : k ≤ 20) (hpow : nearestPow2Ceil nenv = 2 ^ k) (hshift : envGenShift nenv = k + 1)
include hk

private theorem two_pow_bounds : 1 ≤ 2 ^ k ∧ 2 ^ k ≤ 2 ^ 20 :=
  ⟨Nat.one_le_two_pow, Nat.pow_le_pow_right (by decide) hk⟩

theorem firstId_eq (he : e < 2 ^ k) : firstId k e = ((2 ^ (k + 1) ||| e : ℕ) : ℤ) ∧
    2 ^ (k + 1) ||| e < 2 ^ 31 := by
  have hor : 2 ^ (k + 1) + e = 2 ^ (k + 1) ||| e := by
    have := Nat.two_pow_add_eq_or_of_lt (i := k + 1) (b := e) (by rw [pow_succ]; omega) 1
    simpa using this
  obtain ⟨-, hle⟩ := two_pow_bounds hk
  refine ⟨by rw [← hor, firstId]; push_cast; rfl, ?_⟩
  rw [← hor, pow_succ]
  omega

include hpow hshift

theorem nextGeneration_zero : nextGeneration nenv 0 = ((2 ^ (k + 1) : ℕ) : ℤ) := by
  obtain ⟨-, hle⟩ := two_pow_bounds hk
  have hlt : 2 ^ (k + 1) < 2 ^ 31 := Nat.pow_lt_pow_right (by decide) (by omega)
  have hword : unsigned (0 + 2 ^ envGenShift nenv) = 2 ^ (k + 1) := by
    rw [hshift, Int.zero_add, ← unsigned_natCast (n := 2 ^ (k + 1)) (by omega)]
    push_cast
    rfl
  have hpos : 0 < 2 ^ (k + 1) := Nat.two_pow_pos _
  rw [nextGeneration, hword, hpow, clearPerm_two_pow hk, int32_eq (by omega) (by omega)]
  rw [if_neg (by omega)]

theorem createdId (he : e < 2 ^ k) :
    int32 (unsigned (nextGeneration nenv 0) ||| e : ℕ) = firstId k e := by
  obtain ⟨heq, hlt⟩ := firstId_eq hk he
  have hlt' : 2 ^ (k + 1) < 2 ^ 31 := Nat.pow_lt_pow_right (by decide) (by omega)
  rw [nextGeneration_zero hk hpow hshift, unsigned_natCast (by omega), heq,
    int32_eq (by omega) (by omega)]

omit hshift in
theorem envx_firstId (he : e < 2 ^ k) : envx nenv (firstId k e) = e := by
  obtain ⟨heq, hlt⟩ := firstId_eq hk he
  rw [envx, heq, unsigned_natCast (by omega), hpow, Nat.and_two_pow_sub_one_eq_mod]
  have hor : 2 ^ (k + 1) ||| e = 2 ^ (k + 1) + e := by
    have := Nat.two_pow_add_eq_or_of_lt (i := k + 1) (b := e) (by rw [pow_succ]; omega) 1
    simpa using this.symm
  rw [hor, pow_succ, Nat.mul_add_mod, Nat.mod_eq_of_lt he]

end FirstIds

def Live (nenv : ℕ) (s : EnvTable) (e : ℕ) : Prop := e < nenv ∧ s.envStatus e ≠ .free

/-- Runs after `env_init`, with the identifiers of the environments that were freed.
The scheduler changes states and the running environment. -/
inductive EnvRun (ok : List ℤ → Prop) (nenv : ℕ) (s₀ : EnvTable) : List ℤ → EnvTable → Prop
  | init : EnvRun ok nenv s₀ [] (envInit nenv s₀)
  | create {freed : List ℤ} {s : EnvTable} : EnvRun ok nenv s₀ freed s → ok freed →
    EnvRun ok nenv s₀ freed (createEnvironment nenv s)
  | free {freed : List ℤ} {s : EnvTable} {e : ℕ} : EnvRun ok nenv s₀ freed s → Live nenv s e →
    EnvRun ok nenv s₀ (s.envId e :: freed) (freeEnvironment s e)
  | setStatus {freed : List ℤ} {s : EnvTable} {e : ℕ} (st : EnvStatus) : EnvRun ok nenv s₀ freed s →
    Live nenv s e → st ≠ .free →
    EnvRun ok nenv s₀ freed { s with envStatus := Function.update s.envStatus e st }
  | switch {freed : List ℤ} {s : EnvTable} (c : Option ℕ) : EnvRun ok nenv s₀ freed s →
    EnvRun ok nenv s₀ freed { s with curenv := c }

theorem EnvRun.mono {ok ok' : List ℤ → Prop} (hok : ∀ l, ok l → ok' l) (hrun : EnvRun ok nenv s₀ freed s) :
    EnvRun ok' nenv s₀ freed s := by
  induction hrun with
  | init => exact .init
  | create _ h ih => exact .create ih (hok _ h)
  | free _ he ih => exact .free ih he
  | setStatus st _ he hst ih => exact .setStatus st ih he hst
  | switch c _ ih => exact .switch c ih

structure IdsSound (nenv : ℕ) (freed : List ℤ) (s : EnvTable) : Prop where
  pos : ∀ e, Live nenv s e → 0 < s.envId e
  distinct : ∀ e e', Live nenv s e → Live nenv s e' → s.envId e = s.envId e' → e = e'
  index : ∀ e, Live nenv s e → envx nenv (s.envId e) = e
  found : ∀ e, Live nenv s e → envid2env nenv s (s.envId e) false = some (some e)
  stale : ∀ id ∈ freed, ∀ checkperm, envid2env nenv s id checkperm = none

/-- Every environment has the first identifier of its slot. -/
structure Inv (nenv k : ℕ) (freed : List ℤ) (s : EnvTable) : Prop where
  nodup : s.envFreeList.Nodup
  mem_free : ∀ e, e ∈ s.envFreeList ↔ e < nenv ∧ s.envStatus e = .free
  live : ∀ e, Live nenv s e → s.envId e = firstId k e
  fresh : ∀ e < nenv, s.envStatus e = .free → s.envId e = 0
  stale : ∀ id ∈ freed, ∃ e < nenv, id = firstId k e ∧ s.envStatus e = .free
  head : freed ≠ [] → ∃ e es, s.envFreeList = e :: es ∧ firstId k e ∈ freed

theorem envInit_spec (nenv : ℕ) (s : EnvTable) : (envInit nenv s).envFreeList = List.range nenv ∧
    ∀ e < nenv, (envInit nenv s).envStatus e = .free ∧ (envInit nenv s).envId e = 0 := by
  have hloop (l : List ℕ) (t : EnvTable) : (l.foldl initEnv t).envFreeList = l.reverse ++ t.envFreeList ∧
      ∀ e, e ∈ l ∨ t.envStatus e = .free ∧ t.envId e = 0 →
        (l.foldl initEnv t).envStatus e = .free ∧ (l.foldl initEnv t).envId e = 0 := by
    induction l generalizing t with
    | nil => simp
    | cons a l ih =>
      obtain ⟨hlist, hslot⟩ := ih (initEnv t a)
      refine ⟨by rw [List.foldl_cons, hlist]; simp [initEnv], fun e he => hslot e ?_⟩
      by_cases hea : e = a
      · subst hea
        simp [initEnv]
      · simpa [initEnv, hea] using he
  obtain ⟨hlist, hslot⟩ := hloop (List.range nenv).reverse { s with envFreeList := [] }
  exact ⟨by simpa [envInit] using hlist, fun e he => hslot e (.inl (by simpa using he))⟩

section Invariant

variable (hk : k ≤ 20) (hpow : nearestPow2Ceil nenv = 2 ^ k) (hshift : envGenShift nenv = k + 1)
  (hle : nenv ≤ 2 ^ k)

theorem Inv.envInit (s : EnvTable) : Inv nenv k [] (envInit nenv s) := by
  obtain ⟨hlist, hslot⟩ := envInit_spec nenv s
  refine ⟨by rw [hlist]; exact List.nodup_range, fun e => ?_, fun e he => absurd (hslot e he.1).1 he.2,
    fun e he _ => (hslot e he).2, by simp, by simp⟩
  rw [hlist, List.mem_range]
  exact ⟨fun he => ⟨he, (hslot e he).1⟩, fun he => he.1⟩

theorem Inv.free (h : Inv nenv k freed s) (he : Live nenv s e) :
    Inv nenv k (s.envId e :: freed) (freeEnvironment s e) := by
  have hnot : e ∉ s.envFreeList := fun hmem => he.2 ((h.mem_free e).1 hmem).2
  have hlive := h.live e he
  refine ⟨List.nodup_cons.2 ⟨hnot, h.nodup⟩, fun e' => ?_, fun e' he' => ?_, fun e' hlt hfree => ?_, ?_,
    fun _ => ⟨e, s.envFreeList, rfl, by simp [hlive]⟩⟩
  · by_cases hee : e' = e
    · subst hee
      simp [freeEnvironment, he.1]
    · simp [freeEnvironment, hee, h.mem_free]
  · by_cases hee : e' = e
    · subst hee
      exact absurd he'.2 (by simp [freeEnvironment])
    · simp only [freeEnvironment, Live, Function.update_of_ne hee] at he' ⊢
      exact h.live e' he'
  · by_cases hee : e' = e
    · simp [freeEnvironment, hee]
    · simp only [freeEnvironment, Function.update_of_ne hee] at hfree ⊢
      exact h.fresh e' hlt hfree
  · intro id hid
    rcases List.mem_cons.1 hid with rfl | hid
    · exact ⟨e, he.1, hlive, by simp [freeEnvironment]⟩
    · obtain ⟨e', hlt, hid', hfree⟩ := h.stale id hid
      have hee : e' ≠ e := fun heq => he.2 (heq ▸ hfree)
      exact ⟨e', hlt, hid', by simpa [freeEnvironment, hee] using hfree⟩

theorem Inv.setStatus (h : Inv nenv k freed s) (he : Live nenv s e) {st : EnvStatus} (hst : st ≠ .free) :
    Inv nenv k freed { s with envStatus := Function.update s.envStatus e st } := by
  have hiff (e' : ℕ) : Function.update s.envStatus e st e' = .free ↔ s.envStatus e' = .free := by
    by_cases hee : e' = e
    · subst hee
      simp [hst, he.2]
    · simp [hee]
  refine ⟨h.nodup, fun e' => ?_, fun e' he' => h.live e' ⟨he'.1, fun hfree => he'.2 ((hiff e').2 hfree)⟩,
    fun e' hlt hfree => h.fresh e' hlt ((hiff e').1 hfree), fun id hid => ?_, h.head⟩
  · simpa only [hiff] using h.mem_free e'
  · simpa only [hiff] using h.stale id hid

theorem Inv.switch (h : Inv nenv k freed s) (c : Option ℕ) : Inv nenv k freed { s with curenv := c } :=
  ⟨h.nodup, h.mem_free, h.live, h.fresh, h.stale, h.head⟩

include hk hpow hle

theorem Inv.sound (h : Inv nenv k freed s) : IdsSound nenv freed s := by
  have hlt {e : ℕ} (he : e < nenv) : e < 2 ^ k := he.trans_le hle
  have hpos {e : ℕ} : 0 < firstId k e := by
    have : (0 : ℤ) < 2 ^ (k + 1) := by positivity
    rw [firstId]
    omega
  have hindex {e : ℕ} (he : e < nenv) : envx nenv (firstId k e) = e := envx_firstId hk hpow (hlt he)
  refine ⟨fun e he => h.live e he ▸ hpos, fun e e' he he' hid => ?_, fun e he => ?_, fun e he => ?_,
    fun id hid b => ?_⟩
  · rw [h.live e he, h.live e' he'] at hid
    simpa [firstId] using hid
  · rw [h.live e he, hindex he.1]
  · rw [h.live e he, envid2env, if_neg hpos.ne', hindex he.1]
    simp [he.2, h.live e he]
  · obtain ⟨e, he, rfl, hfree⟩ := h.stale id hid
    rw [envid2env, if_neg hpos.ne', hindex he]
    simp [hfree]

include hshift

/-- The slot at the head of the free list becomes an environment with its first
identifier. -/
theorem createEnvironment_spec (h : Inv nenv k freed s) {es : List ℕ} (hhead : s.envFreeList = e :: es) :
    e < nenv ∧ (createEnvironment nenv s).envFreeList = es ∧
      (createEnvironment nenv s).envStatus = Function.update s.envStatus e .new ∧
      (createEnvironment nenv s).envId = Function.update s.envId e (firstId k e) := by
  have hmem := (h.mem_free e).1 (by simp [hhead])
  have hid := h.fresh e hmem.1 hmem.2
  refine ⟨hmem.1, ?_, ?_, ?_⟩
  · simp [createEnvironment, allocateEnvironment, completeEnvironmentInitialization, hhead]
  · simp [createEnvironment, allocateEnvironment, completeEnvironmentInitialization, hhead]
  · simp [createEnvironment, allocateEnvironment, completeEnvironmentInitialization, hhead, hid,
      createdId hk hpow hshift (hmem.1.trans_le hle)]

theorem Inv.create (h : Inv nenv k [] s) : Inv nenv k [] (createEnvironment nenv s) := by
  cases hhead : s.envFreeList with
  | nil =>
    have heq : createEnvironment nenv s = s := by simp [createEnvironment, allocateEnvironment, hhead]
    rwa [heq]
  | cons e es =>
    obtain ⟨hlt, hlist, hstatus, hid⟩ := createEnvironment_spec hk hpow hshift hle h hhead
    have hnodup := List.nodup_cons.1 (hhead ▸ h.nodup)
    refine ⟨hlist ▸ hnodup.2, fun e' => ?_, fun e' he' => ?_, fun e' hlt' hfree => ?_, by simp, by simp⟩
    · rw [hlist, hstatus]
      by_cases hee : e' = e
      · subst hee
        simp [hnodup.1]
      · simpa [hhead, hee] using h.mem_free e'
    · rw [hid]
      by_cases hee : e' = e
      · simp [hee]
      · rw [Live, hstatus, Function.update_of_ne hee] at he'
        rw [Function.update_of_ne hee, h.live e' he']
    · have hee : e' ≠ e := by
        rintro rfl
        simp [hstatus] at hfree
      rw [hstatus, Function.update_of_ne hee] at hfree
      rw [hid, Function.update_of_ne hee, h.fresh e' hlt' hfree]

theorem Inv.not_sound_create (h : Inv nenv k freed s) (hfreed : freed ≠ []) :
    ¬ IdsSound nenv freed (createEnvironment nenv s) := by
  intro hsound
  obtain ⟨e, es, hhead, hmem⟩ := h.head hfreed
  obtain ⟨hlt, -, hstatus, hid⟩ := createEnvironment_spec hk hpow hshift hle h hhead
  have hlive : Live nenv (createEnvironment nenv s) e := ⟨hlt, by simp [hstatus]⟩
  have hfound := hsound.found e hlive
  rw [hid, Function.update_self, hsound.stale _ hmem false] at hfound
  simp at hfound

theorem EnvRun.inv (hrun : EnvRun (· = []) nenv s₀ freed s) : Inv nenv k freed s := by
  induction hrun with
  | init => exact Inv.envInit s₀
  | create _ hok ih =>
    subst hok
    exact ih.create hk hpow hshift hle
  | free _ he ih => exact ih.free he
  | setStatus st _ he hst ih => exact ih.setStatus he hst
  | switch c _ ih => exact ih.switch c

end Invariant

/-- Identifiers are sound in every run that creates no environment after one was
freed, and the first creation after that breaks them. -/
theorem idsSound_create_iff (hmax : nenv ≤ envsBytes) (hrun : EnvRun (· = []) nenv s₀ freed s) :
    IdsSound nenv freed s ∧ (s.envFreeList ≠ [] →
      (IdsSound nenv freed (createEnvironment nenv s) ↔ freed = [])) := by
  obtain ⟨k, hk, hpow, hshift, hle⟩ := exists_exponent hmax
  have hinv := EnvRun.inv hk hpow hshift hle hrun
  refine ⟨hinv.sound hk hpow hle, fun _ => ⟨fun hsound => ?_, fun hfreed => ?_⟩⟩
  · by_contra hfreed
    exact hinv.not_sound_create hk hpow hshift hle hfreed hsound
  · subst hfreed
    exact (hinv.create hk hpow hshift hle).sound hk hpow hle

/-- The table before `env_init`. -/
def bssTable : EnvTable := ⟨fun _ => 0, fun _ => 0, fun _ => .free, [], none⟩

theorem createFree_run : ∃ id, EnvRun (· = []) 1024 bssTable [id]
    (freeEnvironment (createEnvironment 1024 (envInit 1024 bssTable)) 0) := by
  obtain ⟨k, hk, hpow, hshift, hle⟩ := exists_exponent (show 1024 ≤ envsBytes by decide)
  obtain ⟨hlist, -⟩ := envInit_spec 1024 bssTable
  obtain ⟨hlt, -, hstatus, -⟩ := createEnvironment_spec hk hpow hshift hle (Inv.envInit bssTable)
    (hlist.trans List.range_succ_eq_map)
  refine ⟨_, .free (.create .init rfl) ⟨hlt, ?_⟩⟩
  rw [hstatus]
  simp

/-- The witness frees an environment, after which no creation may follow. -/
theorem idsSound_create_iff_createFree : ∃ freed, freed ≠ [] ∧ IdsSound 1024 freed
    (freeEnvironment (createEnvironment 1024 (envInit 1024 bssTable)) 0) := by
  obtain ⟨id, hrun⟩ := createFree_run
  exact ⟨[id], by simp, (idsSound_create_iff (by decide) hrun).1⟩

/-- The identifier of the environment that was freed is accepted again. -/
theorem createFreeCreate_not_sound : ¬ ∀ freed s, EnvRun (fun _ => True) 1024 bssTable freed s →
    IdsSound 1024 freed s := by
  intro hall
  obtain ⟨k, hk, hpow, hshift, hle⟩ := exists_exponent (show 1024 ≤ envsBytes by decide)
  obtain ⟨id, hrun⟩ := createFree_run
  refine (EnvRun.inv hk hpow hshift hle hrun).not_sound_create hk hpow hshift hle (by simp)
    (hall _ _ (.create (hrun.mono fun _ _ => trivial) trivial))

end FosKernel.Environments
