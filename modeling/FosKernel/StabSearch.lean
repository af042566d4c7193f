import FosKernel.Memlayout
import Mathlib.Data.Int.LeastGreatest

/-!
# Looking up an address in the symbol table

`stab_binsearch` goes on with a larger key once it has met the address that it looks
for. The key is a pointer, so it grows by the size of what it points to.
-/

namespace FosKernel.StabSearch

/-- An entry, as far as the search looks at it. -/
structure Stab where
  nType : ℕ
  nValue : ℕ

/-- The table; what is outside of it is memory around it. The table fits in memory, so
that sums of two indices do not overflow. -/
abbrev Stabs := ℤ → Stab

/-- The variables of the loop, with the two regions at which the parameters point. -/
structure Search where
  l : ℤ
  r : ℤ
  anyMatches : Bool
  addr : ℕ
  regionLeft : ℤ
  regionRight : ℤ

/-- `while (m >= l && stabs[m].n_type != type) m--` -/
def matchFrom (stabs : Stabs) (type : ℕ) (l m : ℤ) : ℤ :=
  if l ≤ m ∧ (stabs m).nType ≠ type then matchFrom stabs type l (m - 1) else m
termination_by (m + 1 - l).toNat

def searchRound (stabs : Stabs) (type : ℕ) (s : Search) : Search :=
  let trueM := (s.l + s.r).tdiv 2
  let m := matchFrom stabs type s.l trueM
  if m < s.l then { s with l := trueM + 1 }
  else if (stabs m).nValue < s.addr then
    { s with anyMatches := true, regionLeft := m, l := trueM + 1 }
  else if (stabs m).nValue > s.addr then
    { s with anyMatches := true, regionRight := m - 1, r := m - 1 }
  else { s with anyMatches := true, regionLeft := m, l := m, addr := u32 (s.addr + 4) }

/-- The result is `none` if the loop has not ended after that many rounds. -/
def searchLoop (stabs : Stabs) (type : ℕ) : ℕ → Search → Option Search
  | 0, s => if s.l ≤ s.r then none else some s
  | n + 1, s => if s.l ≤ s.r then searchLoop stabs type n (searchRound stabs type s) else some s

/-- The new values of `*region_left` and `*region_right`. -/
def stabBinsearch (stabs : Stabs) (rounds : ℕ) (regionLeft regionRight : ℤ) (type addr : ℕ) : Option (ℤ × ℤ) := do
  let s ← searchLoop stabs type rounds ⟨regionLeft, regionRight, false, addr, regionLeft, regionRight⟩
  if !s.anyMatches then return (s.regionLeft, s.regionLeft - 1)
  return (matchFrom stabs type (s.regionLeft + 1) s.regionRight, s.regionRight)

variable {stabs : Stabs} {type addr : ℕ} {left right l r m k next i j : ℤ} {s : Search}

def Entry (stabs : Stabs) (type : ℕ) (left right i : ℤ) : Prop :=
  left ≤ i ∧ i ≤ right ∧ (stabs i).nType = type

/-- Entries of the type have increasing values, all of them addresses. -/
structure Increasing (stabs : Stabs) (type : ℕ) (left right : ℤ) : Prop where
  lt : ∀ i j, Entry stabs type left right i → Entry stabs type left right j → i < j →
    (stabs i).nValue < (stabs j).nValue
  word : ∀ i, (stabs i).nValue < 2 ^ 32

/-- `k` is the entry that contains the address. -/
structure Contains (stabs : Stabs) (type : ℕ) (left right : ℤ) (addr : ℕ) (k : ℤ) : Prop where
  entry : Entry stabs type left right k
  le : (stabs k).nValue ≤ addr
  last : ∀ i, Entry stabs type left right i → (stabs i).nValue ≤ addr → i ≤ k

/-- `next` is the entry after `k`. -/
structure IsNext (stabs : Stabs) (type : ℕ) (left right k next : ℤ) : Prop where
  entry : Entry stabs type left right next
  lt : k < next
  first : ∀ i, Entry stabs type left right i → k < i → next ≤ i

/-- The regions bracket the entry `k`. -/
structure Brackets (stabs : Stabs) (type : ℕ) (left right k : ℤ) (out : ℤ × ℤ) : Prop where
  left_eq : out.1 = k
  right_eq : ∀ next, IsNext stabs type left right k next → out.2 = next - 1
  right_end : (∀ next, ¬IsNext stabs type left right k next) → out.2 = right

/-- Halving the interval comes to the entry `next` before it comes to the entry `k`. -/
inductive MeetsNextFirst (stabs : Stabs) (type : ℕ) (k next : ℤ) : ℤ → ℤ → Prop
  | met {l r : ℤ} : matchFrom stabs type l ((l + r).tdiv 2) = next → MeetsNextFirst stabs type k next l r
  | lower {l r : ℤ} : (l + r).tdiv 2 < k → MeetsNextFirst stabs type k next ((l + r).tdiv 2 + 1) r →
    MeetsNextFirst stabs type k next l r
  | upper {l r : ℤ} : next < matchFrom stabs type l ((l + r).tdiv 2) →
    MeetsNextFirst stabs type k next l (matchFrom stabs type l ((l + r).tdiv 2) - 1) →
    MeetsNextFirst stabs type k next l r

/-- The next entry does not get in the way of a search that has met `k`: it is too far
away, or it was met before. The last case is an accident of two keys that wrap. -/
def Undisturbed (stabs : Stabs) (type addr : ℕ) (k next l r : ℤ) : Prop :=
  r < next ∨ addr + 4 < (stabs next).nValue ∨ MeetsNextFirst stabs type k next l r ∨
    next = k + 1 ∧ (stabs next).nValue = addr + 4 ∧ 2 ^ 32 ≤ addr + 8

/-- An entry at the address itself does not mislead the search. -/
def NotMisled (stabs : Stabs) (type : ℕ) (left right : ℤ) (addr : ℕ) (k l r : ℤ) : Prop :=
  (stabs k).nValue = addr → addr + 4 < 2 ^ 32 ∧
    ∀ next, IsNext stabs type left right k next → Undisturbed stabs type addr k next l r

theorem matchFrom_spec (stabs : Stabs) (type : ℕ) (l m : ℤ) : matchFrom stabs type l m ≤ m ∧
    (l ≤ matchFrom stabs type l m → (stabs (matchFrom stabs type l m)).nType = type) ∧
    ∀ i, l ≤ i → i ≤ m → (stabs i).nType = type → i ≤ matchFrom stabs type l m := by
  induction m using matchFrom.induct stabs type l with
  | case1 m h ih =>
    rw [matchFrom, if_pos h]
    refine ⟨by omega, ih.2.1, fun i hl hm ht => ih.2.2 i hl ?_ ht⟩
    have : i ≠ m := fun him => h.2 (him ▸ ht)
    omega
  | case2 m h =>
    rw [matchFrom, if_neg h]
    refine ⟨Int.le_refl m, fun hl => ?_, fun i _ hm _ => hm⟩
    by_contra ht
    exact h ⟨hl, ht⟩

/-- The scan stops in front of `l`. -/
theorem le_matchFrom (stabs : Stabs) (type : ℕ) (h : l ≤ m + 1) : l ≤ matchFrom stabs type l m + 1 := by
  induction m using matchFrom.induct stabs type l with
  | case1 m hm ih =>
    rw [matchFrom, if_pos hm]
    exact ih (by omega)
  | case2 m hm => rwa [matchFrom, if_neg hm]

theorem matchFrom_of_lt (stabs : Stabs) (type : ℕ) (h : m < l) : matchFrom stabs type l m = m := by
  rw [matchFrom, if_neg (by omega)]

theorem half_bounds (h0 : 0 ≤ l) (h : l ≤ r) : l ≤ (l + r).tdiv 2 ∧ (l + r).tdiv 2 ≤ r := by
  rw [Int.tdiv_eq_ediv_of_nonneg (by omega)]
  omega

structure Probed (stabs : Stabs) (type : ℕ) (l r trueM m : ℤ) : Prop where
  le : l ≤ trueM
  le_right : trueM ≤ r
  mem : l ≤ m
  mem_le : m ≤ trueM
  isType : (stabs m).nType = type
  last : ∀ i, l ≤ i → i ≤ trueM → (stabs i).nType = type → i ≤ m

theorem searchRound_cases (stabs : Stabs) (type : ℕ) (h0 : 0 ≤ s.l) (h : s.l ≤ s.r) :
    (∃ trueM, s.l ≤ trueM ∧ trueM ≤ s.r ∧ (∀ i, s.l ≤ i → i ≤ trueM → (stabs i).nType ≠ type) ∧
      trueM = (s.l + s.r).tdiv 2 ∧ searchRound stabs type s = { s with l := trueM + 1 }) ∨
    ∃ trueM m, Probed stabs type s.l s.r trueM m ∧ trueM = (s.l + s.r).tdiv 2 ∧
      m = matchFrom stabs type s.l trueM ∧
      ((stabs m).nValue < s.addr ∧ searchRound stabs type s =
          { s with anyMatches := true, regionLeft := m, l := trueM + 1 } ∨
        s.addr < (stabs m).nValue ∧ searchRound stabs type s =
          { s with anyMatches := true, regionRight := m - 1, r := m - 1 } ∨
        (stabs m).nValue = s.addr ∧ searchRound stabs type s =
          { s with anyMatches := true, regionLeft := m, l := m, addr := u32 (s.addr + 4) }) := by
  obtain ⟨hlo, hhi⟩ := half_bounds h0 h
  obtain ⟨hle, htype, hlast⟩ := matchFrom_spec stabs type s.l ((s.l + s.r).tdiv 2)
  by_cases hm : matchFrom stabs type s.l ((s.l + s.r).tdiv 2) < s.l
  · refine .inl ⟨_, hlo, hhi, fun i hl hi ht => ?_, rfl, by rw [searchRound, if_pos hm]⟩
    have := hlast i hl hi ht
    omega
  · refine .inr ⟨_, _, ⟨hlo, hhi, by omega, hle, htype (by omega), hlast⟩, rfl, rfl, ?_⟩
    rcases Nat.lt_trichotomy (stabs (matchFrom stabs type s.l ((s.l + s.r).tdiv 2))).nValue s.addr with hv | hv | hv
    · exact .inl ⟨hv, by rw [searchRound, if_neg hm, if_pos hv]⟩
    · exact .inr (.inr ⟨hv, by rw [searchRound, if_neg hm, if_neg (by omega), if_neg (by omega)]⟩)
    · exact .inr (.inl ⟨hv, by rw [searchRound, if_neg hm, if_neg (by omega), if_pos hv]⟩)

/-- What every round makes smaller: the interval, or whether its first entry is met. -/
def measure (stabs : Stabs) (type : ℕ) (s : Search) : ℕ :=
  2 * (s.r + 1 - s.l).toNat + if (stabs s.l).nType = type ∧ (stabs s.l).nValue = s.addr then 1 else 0

theorem measure_le (stabs : Stabs) (type : ℕ) (s : Search) : measure stabs type s ≤ 2 * (s.r + 1 - s.l).toNat + 1 := by
  rw [measure]
  split_ifs <;> omega

theorem searchRound_lt (h0 : 0 ≤ s.l) (h : s.l ≤ s.r) :
    measure stabs type (searchRound stabs type s) < measure stabs type s := by
  have hlow : 2 * (s.r + 1 - s.l).toNat ≤ measure stabs type s := Nat.le_add_right _ _
  have hup := measure_le stabs type (searchRound stabs type s)
  rcases searchRound_cases stabs type h0 h with ⟨trueM, hlo, hhi, -, -, hs⟩ | ⟨trueM, m, hp, -, -, hcase⟩
  · rw [hs] at hup ⊢
    simp only at hup
    omega
  · have hle := hp.le
    have hmem := hp.mem
    have hmem' := hp.mem_le
    have hright := hp.le_right
    rcases hcase with ⟨-, hs⟩ | ⟨-, hs⟩ | ⟨hv, hs⟩
    · rw [hs] at hup ⊢
      simp only at hup
      omega
    · rw [hs] at hup ⊢
      simp only at hup
      omega
    · -- the interval may stay, but its first entry is not met a second time
      have hne : (stabs m).nValue ≠ u32 (s.addr + 4) := by
        rw [hv, u32]
        omega
      rw [hs, measure]
      simp only
      rw [if_neg fun hc => hne hc.2]
      rcases Int.lt_or_eq_of_le hmem with hlt | heq
      · omega
      · rw [measure, heq, if_pos ⟨hp.isType, hv⟩]
        omega

theorem searchLoop_ends (P : Search → Prop) (hnonneg : ∀ s, P s → 0 ≤ s.l)
    (hstep : ∀ s, P s → s.l ≤ s.r → P (searchRound stabs type s)) (h : P s) :
    ∃ n t, searchLoop stabs type n s = some t ∧ P t ∧ t.r < t.l := by
  induction hμ : measure stabs type s using Nat.strongRecOn generalizing s with
  | ind μ ih =>
    by_cases hlr : s.l ≤ s.r
    · obtain ⟨n, t, hrun, ht⟩ := ih _ (hμ ▸ searchRound_lt (hnonneg s h) hlr) (hstep s h hlr) rfl
      exact ⟨n + 1, t, by rw [searchLoop, if_pos hlr, hrun], ht⟩
    · exact ⟨0, s, by rw [searchLoop, if_neg hlr], h, by omega⟩

theorem searchLoop_of_lt (stabs : Stabs) (type n : ℕ) (h : s.r < s.l) : searchLoop stabs type n s = some s := by
  cases n <;> rw [searchLoop, if_neg (by omega)]

theorem searchLoop_unique {n n' : ℕ} {t t' : Search} (h : searchLoop stabs type n s = some t)
    (h' : searchLoop stabs type n' s = some t') : t = t' := by
  induction n generalizing n' s with
  | zero =>
    rw [searchLoop] at h
    split_ifs at h with hlr
    rw [searchLoop_of_lt stabs type n' (by omega)] at h'
    exact Option.some.inj (h.symm.trans h')
  | succ n ih =>
    by_cases hlr : s.l ≤ s.r
    · rw [searchLoop, if_pos hlr] at h
      cases n' with
      | zero =>
        rw [searchLoop, if_pos hlr] at h'
        cases h'
      | succ n' =>
        rw [searchLoop, if_pos hlr] at h'
        exact ih h h'
    · rw [searchLoop_of_lt stabs type _ (by omega)] at h h'
      exact Option.some.inj (h.symm.trans h')

structure Shape (stabs : Stabs) (type : ℕ) (left right : ℤ) (s : Search) : Prop where
  right_eq : s.regionRight = s.r
  lower : left ≤ s.l
  upper : s.r ≤ right
  edge : s.r = right ∨ Entry stabs type left right (s.r + 1)

/-- The key is still the address, and no entry at it was met. -/
structure Searching (stabs : Stabs) (type : ℕ) (left right : ℤ) (addr : ℕ) (k : ℤ) (s : Search) : Prop
    extends Shape stabs type left right s where
  key : s.addr = addr
  le_right : k ≤ s.r
  before : ∀ i, Entry stabs type left right i → i < s.l → i ≤ k
  passed : k < s.l → (stabs k).nValue < addr ∧ s.regionLeft = k ∧ s.anyMatches = true

/-- The entry `k` was met, and what is left of the others is beyond the key. -/
structure Settled (stabs : Stabs) (type : ℕ) (left right k : ℤ) (s : Search) : Prop
    extends Shape stabs type left right s where
  any : s.anyMatches = true
  region : s.regionLeft = k
  le_left : k ≤ s.l
  le_right : k ≤ s.r
  before : ∀ i, Entry stabs type left right i → i < s.l → i ≤ k
  below : (stabs k).nValue < s.addr
  beyond : ∀ i, Entry stabs type left right i → k < i → i ≤ s.r → s.addr < (stabs i).nValue

/-- The entry `k` was met while the next one is not beyond the key. -/
structure Trailing (stabs : Stabs) (type : ℕ) (left right : ℤ) (addr : ℕ) (k next : ℤ) (s : Search) : Prop
    extends Shape stabs type left right s where
  any : s.anyMatches = true
  region : s.regionLeft = k
  le_left : k ≤ s.l
  le_next : s.l ≤ next
  next_le : next ≤ s.r
  key : s.addr = addr + 4

/-- A later entry was taken for the one that contains the address. -/
structure Misled (stabs : Stabs) (type : ℕ) (left right next : ℤ) (s : Search) : Prop
    extends Shape stabs type left right s where
  any : s.anyMatches = true
  next_le : next ≤ s.regionLeft
  le_left : s.regionLeft ≤ s.l
  le_right : s.regionLeft ≤ s.r
  entry : Entry stabs type left right s.regionLeft
  below : (stabs s.regionLeft).nValue < s.addr

/-- The key has wrapped when the entry `h` was met. -/
structure Wrapped (stabs : Stabs) (type : ℕ) (left right h : ℤ) (s : Search) : Prop
    extends Shape stabs type left right s where
  any : s.anyMatches = true
  region : s.regionLeft = h
  left_eq : s.l = h
  le_right : h ≤ s.r + 1
  entry : Entry stabs type left right h
  above : s.addr < (stabs h).nValue

/-- Two keys wrap next to each other, so that the search comes back to `k`. -/
def Accident (stabs : Stabs) (addr : ℕ) (k next : ℤ) : Prop :=
  next = k + 1 ∧ (stabs next).nValue = addr + 4 ∧ 2 ^ 32 ≤ addr + 8

/-- Where a search is that brackets `k` in the end if and only if `good`. -/
inductive Phase (stabs : Stabs) (type : ℕ) (left right : ℤ) (addr : ℕ) (k : ℤ) (good : Prop) (s : Search) : Prop
  | searching (hs : Searching stabs type left right addr k s)
      (hgood : good ↔ NotMisled stabs type left right addr k s.l s.r)
  | settled (hs : Settled stabs type left right k s) (hgood : good)
  | trailing {next : ℤ} (hs : Trailing stabs type left right addr k next s)
      (hnext : IsNext stabs type left right k next) (hle : (stabs next).nValue ≤ addr + 4)
      (hgood : good ↔ Accident stabs addr k next)
  | misled {next : ℤ} (hs : Misled stabs type left right next s) (hnext : IsNext stabs type left right k next)
      (hgood : ¬good)
  | wrapped {h : ℤ} (hs : Wrapped stabs type left right h s) (hle : k ≤ h) (hgood : good ↔ h = k + 1)

theorem Shape.left_mono (h : Shape stabs type left right s) {b : Bool} {x : ℤ} {a : ℕ} (hl : s.l ≤ l) :
    Shape stabs type left right { s with anyMatches := b, regionLeft := x, l := l, addr := a } :=
  ⟨h.right_eq, h.lower.trans hl, h.upper, h.edge⟩

theorem Shape.probed_entry (h : Shape stabs type left right s) {trueM : ℤ} (hp : Probed stabs type s.l s.r trueM m) :
    Entry stabs type left right m :=
  ⟨h.lower.trans hp.mem, (hp.mem_le.trans hp.le_right).trans h.upper, hp.isType⟩

theorem Shape.cut (h : Shape stabs type left right s) {trueM : ℤ} (hp : Probed stabs type s.l s.r trueM m) :
    Shape stabs type left right { s with anyMatches := true, regionRight := m - 1, r := m - 1 } := by
  have hm := h.probed_entry hp
  refine ⟨rfl, h.lower, ?_, .inr ?_⟩
  · have := hm.2.1
    simp only
    omega
  · rwa [show m - 1 + 1 = m by omega]

/-- An entry beyond `k` has one that comes next. -/
theorem exists_isNext (hi : Entry stabs type left right i) (hki : k < i) :
    ∃ next, IsNext stabs type left right k next ∧ next ≤ i := by
  obtain ⟨next, ⟨hnext, hlt⟩, hleast⟩ := Int.exists_least_of_bdd
    (P := fun j => Entry stabs type left right j ∧ k < j) ⟨k, fun j hj => hj.2.le⟩ ⟨i, hi, hki⟩
  exact ⟨next, ⟨hnext, hlt, fun j hj hkj => hleast j ⟨hj, hkj⟩⟩, hleast i ⟨hi, hki⟩⟩

theorem Increasing.le_of_value (h : Increasing stabs type left right) (hi : Entry stabs type left right i)
    (hj : Entry stabs type left right j) (hv : (stabs i).nValue ≤ (stabs j).nValue) : i ≤ j := by
  by_contra hlt
  have := h.lt j i hj hi (by omega)
  omega

/-- Below `k` the interval may lose its lower half. -/
theorem notMisled_raise {l r : ℤ} (hkm : (l + r).tdiv 2 < k) : NotMisled stabs type left right addr k l r ↔
    NotMisled stabs type left right addr k ((l + r).tdiv 2 + 1) r := by
  refine forall_congr' fun hv => and_congr_right fun _ => forall_congr' fun next => forall_congr' fun hnext => ?_
  have hkn := hnext.lt
  have hle := (matchFrom_spec stabs type l ((l + r).tdiv 2)).1
  refine or_congr_right (or_congr_right (or_congr_left ⟨fun hmeets => ?_, .lower hkm⟩))
  cases hmeets with
  | met h => omega
  | lower _ h => exact h
  | upper h _ => omega

/-- From an entry beyond `k` on the interval may lose the rest. -/
theorem notMisled_cut {l r : ℤ} (hm : matchFrom stabs type l ((l + r).tdiv 2) = m) (hkm : k < m)
    (hentry : Entry stabs type left right m) (hmr : m ≤ r) : NotMisled stabs type left right addr k l r ↔
      NotMisled stabs type left right addr k l (m - 1) := by
  refine forall_congr' fun hv => and_congr_right fun _ => forall_congr' fun next => forall_congr' fun hnext => ?_
  have hle := (matchFrom_spec stabs type l ((l + r).tdiv 2)).1
  have hnm := hnext.first m hentry hkm
  constructor
  · rintro (h | h | h | h)
    · omega
    · exact .inr (.inl h)
    · cases h with
      | met h => exact .inl (by omega)
      | lower h _ => omega
      | upper _ h => exact .inr (.inr (.inl (hm ▸ h)))
    · exact .inr (.inr (.inr h))
  · rintro (h | h | h | h)
    · exact .inr (.inr (.inl (.met (by omega))))
    · exact .inr (.inl h)
    · rcases Int.lt_or_eq_of_le hnm with hlt | heq
      · exact .inr (.inr (.inl (.upper (by rwa [hm]) (by rwa [hm]))))
      · exact .inr (.inr (.inl (.met (hm.trans heq.symm))))
    · exact .inr (.inr (.inr h))

section Steps

variable {next h : ℤ} (h0 : 0 ≤ left) (hlr : s.l ≤ s.r)
include h0 hlr

theorem Settled.step (hs : Settled stabs type left right k s) :
    Settled stabs type left right k (searchRound stabs type s) := by
  have hleft := hs.le_left
  rcases searchRound_cases stabs type (h0.trans hs.lower) hlr with
    ⟨trueM, hlo, hhi, hnone, -, hr⟩ | ⟨trueM, m, hp, -, -, hcase⟩
  · rw [hr]
    refine ⟨hs.left_mono (by omega), hs.any, hs.region, by simp only; omega, hs.le_right, fun i hi hlt => ?_,
      hs.below, hs.beyond⟩
    by_cases hil : i < s.l
    · exact hs.before i hi hil
    · exact absurd hi.2.2 (hnone i (by omega) (Int.lt_add_one_iff.mp hlt))
  · have hmem := hp.mem
    have hentry := hs.probed_entry hp
    have hmle := hp.mem_le
    have hmr := hp.le_right
    have hmk : k < m → s.addr < (stabs m).nValue := fun hlt => hs.beyond m hentry hlt (by omega)
    have hbelow := hs.below
    rcases hcase with ⟨hv, hr⟩ | ⟨hv, hr⟩ | ⟨hv, hr⟩
    · obtain rfl : k = m := by
        by_contra hne
        have := hmk (by omega)
        omega
      rw [hr]
      refine ⟨hs.left_mono (by have := hp.le; omega), rfl, rfl, by simp only; omega, hs.le_right, fun i hi hlt => ?_,
        hs.below, hs.beyond⟩
      by_cases hil : i < s.l
      · exact hs.before i hi hil
      · exact hp.last i (by omega) (Int.lt_add_one_iff.mp hlt) hi.2.2
    · have hne : k ≠ m := fun heq => by rw [← heq] at hv; omega
      rw [hr]
      exact ⟨hs.cut hp, rfl, hs.region, hs.le_left, by simp only; omega, hs.before, hs.below,
        fun i hi hki hle => hs.beyond i hi hki (by simp only at hle; omega)⟩
    · have hne : k ≠ m := fun heq => by rw [← heq] at hv; omega
      have := hmk (by omega)
      omega

theorem Wrapped.step (hinc : Increasing stabs type left right) (hs : Wrapped stabs type left right h s) :
    Wrapped stabs type left right h (searchRound stabs type s) := by
  have hleft := hs.left_eq
  rcases searchRound_cases stabs type (h0.trans hs.lower) hlr with
    ⟨trueM, hlo, hhi, hnone, -, hr⟩ | ⟨trueM, m, hp, -, -, hcase⟩
  · exact absurd hs.entry.2.2 (hnone h (by omega) (by omega))
  · have hmem := hp.mem
    have hentry := hs.probed_entry hp
    have habove := hs.above
    have hv : s.addr < (stabs m).nValue := by
      rcases Int.lt_or_eq_of_le hmem with hlt | heq
      · have := hinc.lt h m hs.entry hentry (by omega)
        omega
      · rwa [← heq, hleft]
    rcases hcase with ⟨hv', -⟩ | ⟨-, hr⟩ | ⟨hv', -⟩
    · omega
    · rw [hr]
      exact ⟨hs.cut hp, rfl, hs.region, hleft, by simp only; omega, hs.entry, hs.above⟩
    · omega

theorem Misled.step (hinc : Increasing stabs type left right) (hs : Misled stabs type left right next s) :
    Misled stabs type left right next (searchRound stabs type s) ∨
      ∃ h, next < h ∧ Wrapped stabs type left right h (searchRound stabs type s) := by
  have hnext := hs.next_le
  have hleft := hs.le_left
  have hright := hs.le_right
  have hbelow := hs.below
  rcases searchRound_cases stabs type (h0.trans hs.lower) hlr with
    ⟨trueM, hlo, hhi, hnone, -, hr⟩ | ⟨trueM, m, hp, -, -, hcase⟩
  · rw [hr]
    exact .inl ⟨hs.left_mono (by omega), hs.any, hs.next_le, by simp only; omega, hs.le_right, hs.entry, hs.below⟩
  · have hmem := hp.mem
    have hmle := hp.mem_le
    have hmr := hp.le_right
    have hentry := hs.probed_entry hp
    rcases hcase with ⟨hv, hr⟩ | ⟨hv, hr⟩ | ⟨hv, hr⟩
    · rw [hr]
      exact .inl ⟨hs.left_mono (by have := hp.le; omega), rfl, by simp only; omega, by simp only; omega,
        by simp only; omega, hentry, hv⟩
    · have hlt : s.regionLeft < m := by
        by_contra hge
        have := hinc.lt _ _ hentry hs.entry
        rcases Int.lt_or_eq_of_le (Int.not_lt.mp hge) with hlt | heq
        · have := this hlt
          omega
        · rw [← heq] at hbelow
          omega
      rw [hr]
      exact .inl ⟨hs.cut hp, rfl, hs.next_le, hs.le_left, by simp only; omega, hs.entry, hs.below⟩
    · have hlt : s.regionLeft < m := by
        rcases Int.lt_or_eq_of_le (hleft.trans hmem) with hlt | heq
        · exact hlt
        · rw [heq] at hbelow
          omega
      have hword := hinc.word m
      by_cases hwrap : s.addr + 4 < 2 ^ 32
      · rw [hr, u32_of_lt hwrap]
        exact .inl ⟨hs.left_mono hmem, rfl, by simp only; omega, Int.le_refl m, by simp only; omega, hentry,
          by simp only; omega⟩
      · rw [hr]
        refine .inr ⟨m, by omega, hs.left_mono hmem, rfl, rfl, rfl, by simp only; omega, hentry, ?_⟩
        simp only [u32]
        omega

/-- While the next entry is not beyond the key, it stays in the interval until it is met. -/
theorem Trailing.step (hinc : Increasing stabs type left right) (hk : Contains stabs type left right addr k)
    (hs : Trailing stabs type left right addr k next s) (hnext : IsNext stabs type left right k next)
    (hle : (stabs next).nValue ≤ addr + 4) :
    Trailing stabs type left right addr k next (searchRound stabs type s) ∨
      Misled stabs type left right next (searchRound stabs type s) ∧ ¬Accident stabs addr k next ∨
      ∃ h, next ≤ h ∧ Wrapped stabs type left right h (searchRound stabs type s) ∧
        (Accident stabs addr k next ↔ h = k + 1) := by
  have hleft := hs.le_left
  have hln := hs.le_next
  have hnr := hs.next_le
  have hkey := hs.key
  have hkn := hnext.lt
  have hkv := hk.le
  rcases searchRound_cases stabs type (h0.trans hs.lower) hlr with
    ⟨trueM, hlo, hhi, hnone, -, hr⟩ | ⟨trueM, m, hp, -, -, hcase⟩
  · have hlt : trueM < next := by
      by_contra hge
      exact hnone next hln (by omega) hnext.entry.2.2
    rw [hr]
    exact .inl ⟨hs.left_mono (by omega), hs.any, hs.region, by simp only; omega, by simp only; omega, hnr, hkey⟩
  · have hmem := hp.mem
    have hmle := hp.mem_le
    have hmr := hp.le_right
    have hentry := hs.probed_entry hp
    have hfirst (hne : m ≠ k) : next ≤ m := hnext.first m hentry (by omega)
    rcases hcase with ⟨hv, hr⟩ | ⟨hv, hr⟩ | ⟨hv, hr⟩
    · by_cases hmk : m = k
      · subst hmk
        have hlt : trueM < next := by
          by_contra hge
          have := hp.last next hln (by omega) hnext.entry.2.2
          omega
        rw [hr]
        exact .inl ⟨hs.left_mono (by have := hp.le; omega), rfl, rfl, by simp only; omega, by simp only; omega, hnr,
          hkey⟩
      · rw [hr]
        refine .inr (.inl ⟨⟨hs.left_mono (by have := hp.le; omega), rfl, hfirst hmk, by simp only; omega,
          by simp only; omega, hentry, hv⟩, fun hacc => ?_⟩)
        have := hinc.le_of_value hentry hnext.entry (by have := hacc.2.1; omega)
        obtain rfl : m = next := Int.le_antisymm this (hfirst hmk)
        have := hacc.2.1
        omega
    · have hlt : next < m := by
        have hne : m ≠ k := fun heq => by rw [heq] at hv; omega
        rcases Int.lt_or_eq_of_le (hfirst hne) with hlt | heq
        · exact hlt
        · rw [← heq] at hv
          omega
      rw [hr]
      exact .inl ⟨hs.cut hp, rfl, hs.region, hleft, hln, by simp only; omega, hkey⟩
    · have hne : m ≠ k := fun heq => by rw [heq] at hv; omega
      have hnm := hfirst hne
      have hword := hinc.word m
      right
      by_cases hwrap : s.addr + 4 < 2 ^ 32
      · rw [hr, u32_of_lt hwrap]
        exact .inl ⟨⟨hs.left_mono hmem, rfl, hnm, Int.le_refl m, by simp only; omega, hentry, by simp only; omega⟩,
          fun hacc => by have := hacc.2.2; omega⟩
      · rw [hr]
        refine .inr ⟨m, hnm, ⟨hs.left_mono hmem, rfl, rfl, rfl, by simp only; omega, hentry, ?_⟩, fun hacc => ?_,
          fun hm => ?_⟩
        · simp only [u32]
          omega
        · have := hinc.le_of_value hentry hnext.entry (by have := hacc.2.1; omega)
          have := hacc.1
          omega
        · obtain rfl : m = next := by omega
          exact ⟨hm, by omega, by omega⟩

/-- As long as the search has not met an entry at the address, it is undecided whether it
will be misled. -/
theorem Searching.step (hinc : Increasing stabs type left right) (hk : Contains stabs type left right addr k)
    (hs : Searching stabs type left right addr k s) :
    Searching stabs type left right addr k (searchRound stabs type s) ∧
        (NotMisled stabs type left right addr k s.l s.r ↔
          NotMisled stabs type left right addr k (searchRound stabs type s).l (searchRound stabs type s).r) ∨
      Probed stabs type s.l s.r ((s.l + s.r).tdiv 2) k ∧ (stabs k).nValue = addr ∧
        (∀ next, ¬MeetsNextFirst stabs type k next s.l s.r ∨ ¬k < next) ∧
        searchRound stabs type s = { s with anyMatches := true, regionLeft := k, l := k, addr := u32 (addr + 4) } := by
  have hkey := hs.key
  have hkr := hs.le_right
  have hkv := hk.le
  have hpassed := hs.passed
  have hnot {c d : ℤ} {t : Search} (h : (stabs k).nValue < addr) : NotMisled stabs type left right addr k c d ↔
      NotMisled stabs type left right addr k t.l t.r :=
    iff_of_true (fun hv => absurd hv h.ne) fun hv => absurd hv h.ne
  rcases searchRound_cases stabs type (h0.trans hs.lower) hlr with
    ⟨trueM, hlo, hhi, hnone, htrue, hr⟩ | ⟨trueM, m, hp, htrue, hm, hcase⟩
  · left
    have hkm : k < s.l ∨ trueM < k := by
      by_contra hc
      exact hnone k (by omega) (by omega) hk.entry.2.2
    refine ⟨?_, ?_⟩
    · rw [hr]
      refine ⟨hs.left_mono (by omega), hkey, hkr, fun i hi hlt => ?_, fun hlt => hpassed ?_⟩
      · by_cases hil : i < s.l
        · exact hs.before i hi hil
        · exact absurd hi.2.2 (hnone i (by omega) (Int.lt_add_one_iff.mp hlt))
      · simp only at hlt
        omega
    · rcases hkm with hkm | hkm
      · exact hnot (hpassed hkm).1
      · rw [hr, htrue]
        exact notMisled_raise (htrue ▸ hkm)
  · have hmem := hp.mem
    have hmle := hp.mem_le
    have hmr := hp.le_right
    have hentry := hs.probed_entry hp
    rcases hcase with ⟨hv, hr⟩ | ⟨hv, hr⟩ | ⟨hv, hr⟩
    · left
      have hmk : m ≤ k := hk.last m hentry (by omega)
      have hkm : k ≤ trueM → m = k := fun hle => by
        by_cases hkl : k < s.l
        · omega
        · exact Int.le_antisymm hmk (hp.last k (by omega) hle hk.entry.2.2)
      refine ⟨?_, ?_⟩
      · rw [hr]
        refine ⟨hs.left_mono (by have := hp.le; omega), hkey, hkr, fun i hi hlt => ?_, fun hlt => ?_⟩
        · by_cases hil : i < s.l
          · exact hs.before i hi hil
          · exact (hp.last i (by omega) (Int.lt_add_one_iff.mp hlt) hi.2.2).trans hmk
        · obtain rfl := hkm (Int.lt_add_one_iff.mp hlt)
          exact ⟨hkey ▸ hv, rfl, rfl⟩
      · by_cases hkt : k ≤ trueM
        · obtain rfl := hkm hkt
          exact hnot (hkey ▸ hv)
        · rw [hr, htrue]
          exact notMisled_raise (by omega)
    · left
      have hkm : k < m := by
        by_contra hge
        rcases Int.lt_or_eq_of_le (Int.not_lt.mp hge) with hlt | heq
        · have := hinc.lt m k hentry hk.entry hlt
          omega
        · rw [heq] at hv
          omega
      refine ⟨?_, ?_⟩
      · rw [hr]
        exact ⟨hs.cut hp, hkey, by simp only; omega, hs.before, fun hlt => ⟨(hpassed hlt).1, (hpassed hlt).2.1, rfl⟩⟩
      · rw [hr]
        exact notMisled_cut (htrue ▸ hm.symm) hkm hentry (by omega)
    · right
      have hmk : m = k := by
        refine Int.le_antisymm (hk.last m hentry (by omega)) (hinc.le_of_value hk.entry hentry (by omega))
      subst hmk
      refine ⟨htrue ▸ hp, by omega, fun next => ?_, by rw [hr, hkey]⟩
      by_cases hkn : m < next
      · left
        intro hmeets
        cases hmeets with
        | met h => rw [← htrue, ← hm] at h; omega
        | lower h h' => rw [← htrue] at h; omega
        | upper h h' => rw [← htrue, ← hm] at h; omega
      · exact .inr hkn

omit h0 hlr in
theorem Phase.shape {good : Prop} (hs : Phase stabs type left right addr k good s) :
    Shape stabs type left right s := by
  cases hs with
  | searching hs _ => exact hs.toShape
  | settled hs _ => exact hs.toShape
  | trailing hs _ _ _ => exact hs.toShape
  | misled hs _ _ => exact hs.toShape
  | wrapped hs _ _ => exact hs.toShape

theorem Phase.step {good : Prop} (hinc : Increasing stabs type left right)
    (hk : Contains stabs type left right addr k) (hs : Phase stabs type left right addr k good s) :
    Phase stabs type left right addr k good (searchRound stabs type s) := by
  cases hs with
  | searching hs hgood =>
    rcases hs.step h0 hlr hinc hk with ⟨hs', hiff⟩ | ⟨hp, hv, hmeets, hr⟩
    · exact .searching hs' (hgood.trans hiff)
    · have hshape : Shape stabs type left right (searchRound stabs type s) := by
        rw [hr]
        exact hs.left_mono hp.mem
      have hkr := hs.le_right
      by_cases hwrap : addr + 4 < 2 ^ 32
      · rw [u32_of_lt hwrap] at hr
        by_cases hnext : ∃ next, IsNext stabs type left right k next ∧ next ≤ s.r ∧ (stabs next).nValue ≤ addr + 4
        · -- the next entry is in the way
          obtain ⟨next, hnext, hle, hval⟩ := hnext
          refine .trailing ?_ hnext hval ?_
          · rw [hr] at hshape ⊢
            exact ⟨hshape, rfl, rfl, Int.le_refl k, hnext.lt.le, hle, rfl⟩
          · rw [hgood]
            refine ⟨fun hn => ?_, fun hacc _ => ⟨hwrap, fun next' hnext' => ?_⟩⟩
            · rcases (hn hv).2 next hnext with h | h | h | h
              · omega
              · omega
              · exact absurd h ((hmeets next).resolve_right (fun hc => hc hnext.lt))
              · exact h
            · obtain rfl : next' = next := Int.le_antisymm (hnext'.first next hnext.entry hnext.lt)
                (hnext.first next' hnext'.entry hnext'.lt)
              exact .inr (.inr (.inr hacc))
        · have hfar (i : ℤ) (hi : Entry stabs type left right i) (hki : k < i) (hir : i ≤ s.r) :
              addr + 4 < (stabs i).nValue := by
            obtain ⟨next, hn, hni⟩ := exists_isNext hi hki
            by_contra hge
            have := hinc.le_of_value hn.entry hn.entry (Nat.le_refl _)
            refine hnext ⟨next, hn, by omega, ?_⟩
            rcases Int.lt_or_eq_of_le hni with hlt | heq
            · have := hinc.lt next i hn.entry hi hlt
              omega
            · rw [heq]
              omega
          refine .settled ?_ (hgood.mpr fun _ => ⟨hwrap, fun next hn => ?_⟩)
          · rw [hr] at hshape ⊢
            exact ⟨hshape, rfl, rfl, Int.le_refl k, hkr, fun i _ hi => hi.le, by simp only; omega, hfar⟩
          · by_cases hle : next ≤ s.r
            · exact .inr (.inl (hfar next hn.entry hn.lt hle))
            · exact .inl (by omega)
      · refine .wrapped (h := k) ?_ (Int.le_refl k) (iff_of_false (fun hg => ?_) (by omega))
        · rw [hr] at hshape ⊢
          refine ⟨hshape, rfl, rfl, rfl, by simp only; omega, hk.entry, ?_⟩
          have := hinc.word k
          simp only [u32]
          omega
        · exact hwrap ((hgood.mp hg) hv).1
  | settled hs hgood => exact .settled (hs.step h0 hlr) hgood
  | trailing hs hnext hle hgood =>
    rcases hs.step h0 hlr hinc hk hnext hle with hs' | ⟨hs', hacc⟩ | ⟨h, hnh, hs', hacc⟩
    · exact .trailing hs' hnext hle hgood
    · exact .misled hs' hnext (mt hgood.mp hacc)
    · exact .wrapped hs' (hnext.lt.le.trans hnh) (hgood.trans hacc)
  | misled hs hnext hgood =>
    rcases hs.step h0 hlr hinc with hs' | ⟨h, hnh, hs'⟩
    · exact .misled hs' hnext hgood
    · have := hnext.lt
      exact .wrapped hs' (by omega) (iff_of_false hgood (by omega))
  | wrapped hs hle hgood => exact .wrapped (hs.step h0 hlr hinc) hle hgood

end Steps

theorem matchFrom_of_none (h : l ≤ m + 1) (hnone : ∀ i, l ≤ i → i ≤ m → (stabs i).nType ≠ type) :
    matchFrom stabs type l m = l - 1 := by
  have hge := le_matchFrom stabs type h
  obtain ⟨hle, htype, -⟩ := matchFrom_spec stabs type l m
  by_contra hne
  exact hnone _ (by omega) hle (htype (by omega))

/-- The entries up to `r` are not beyond `k`, and `r` is as far as it can be. -/
theorem brackets_of_none (hkr : k ≤ r) (hr : r ≤ right) (hedge : r = right ∨ Entry stabs type left right (r + 1))
    (hk : Entry stabs type left right k) (hnone : ∀ i, Entry stabs type left right i → i ≤ r → i ≤ k) :
    Brackets stabs type left right k (matchFrom stabs type (k + 1) r, r) := by
  refine ⟨?_, fun next hnext => ?_, fun hno => ?_⟩
  · have hnone' (i : ℤ) (hi : k + 1 ≤ i) (hir : i ≤ r) : (stabs i).nType ≠ type := fun ht => by
      have := hnone i ⟨by have := hk.1; omega, hir.trans hr, ht⟩ hir
      omega
    simp only [matchFrom_of_none (show k + 1 ≤ r + 1 by omega) hnone']
    omega
  · have hlt : r < next := by
      by_contra hge
      have := hnone next hnext.entry (by omega)
      have := hnext.lt
      omega
    rcases hedge with heq | hentry
    · have := hnext.entry.2.1
      omega
    · have := hnext.first _ hentry (by omega)
      simp only
      omega
  · rcases hedge with heq | hentry
    · exact heq
    · refine absurd ⟨hentry, by omega, fun i hi hki => ?_⟩ (hno (r + 1))
      by_contra hlt
      have := hnone i hi (by omega)
      omega

theorem Phase.end {good : Prop} (hk : Contains stabs type left right addr k)
    (hs : Phase stabs type left right addr k good s) (hrl : s.r < s.l) : s.anyMatches = true ∧
      (Brackets stabs type left right k (matchFrom stabs type (s.regionLeft + 1) s.regionRight, s.regionRight) ↔
        good) := by
  cases hs with
  | searching hs hgood =>
    have hkr := hs.le_right
    obtain ⟨hv, hreg, hany⟩ := hs.passed (by omega)
    rw [hreg, hs.right_eq]
    exact ⟨hany, iff_of_true (brackets_of_none hkr hs.upper hs.edge hk.entry
      fun i hi hir => hs.before i hi (by omega)) (hgood.mpr fun h => absurd h hv.ne)⟩
  | settled hs hgood =>
    rw [hs.region, hs.right_eq]
    exact ⟨hs.any, iff_of_true (brackets_of_none hs.le_right hs.upper hs.edge hk.entry
      fun i hi hir => hs.before i hi (by omega)) hgood⟩
  | trailing hs hnext _ _ =>
    have := hs.le_next
    have := hs.next_le
    omega
  | misled hs hnext hgood =>
    refine ⟨hs.any, iff_of_false (fun hb => ?_) hgood⟩
    have hge := le_matchFrom stabs type (m := s.regionRight) (l := s.regionLeft + 1)
      (by have := hs.le_right; have := hs.right_eq; omega)
    have := hb.left_eq
    have := hs.next_le
    have := hnext.lt
    simp only at *
    omega
  | wrapped hs hle hgood =>
    rename_i h
    have hr : s.r = h - 1 := by
      have := hs.left_eq
      have := hs.le_right
      omega
    rw [hgood, hs.region, hs.right_eq, hr, matchFrom_of_lt stabs type (by omega)]
    refine ⟨hs.any, fun hb => ?_, fun hh => ⟨by simp only; omega, fun next hnext => ?_, fun hno => ?_⟩⟩
    · have := hb.left_eq
      simp only at this
      omega
    · have := hnext.first h hs.entry (by omega)
      have := hnext.lt
      simp only
      omega
    · exact absurd ⟨hs.entry, by omega, fun i _ hki => by omega⟩ (hno h)

theorem Contains.brackets_iff (hk : Contains stabs type left right addr k) (h0 : 0 ≤ left)
    (hinc : Increasing stabs type left right) :
    (∃ n out, stabBinsearch stabs n left right type addr = some out ∧ Brackets stabs type left right k out) ↔
      NotMisled stabs type left right addr k left right := by
  have hstart : Phase stabs type left right addr k (NotMisled stabs type left right addr k left right)
      ⟨left, right, false, addr, left, right⟩ := by
    refine .searching ⟨⟨rfl, Int.le_refl _, Int.le_refl _, .inl rfl⟩, rfl, hk.entry.2.1, fun i hi hlt => ?_,
      fun hlt => ?_⟩ Iff.rfl
    · exact absurd hi.1 (Int.not_le.mpr hlt)
    · exact absurd hk.entry.1 (Int.not_le.mpr hlt)
  obtain ⟨n, t, hrun, ht, hend⟩ := searchLoop_ends _ (fun s hs => h0.trans hs.shape.lower)
    (fun s hs hlr => hs.step h0 hlr hinc hk) hstart
  obtain ⟨hany, hiff⟩ := ht.end hk hend
  have hout (n' : ℕ) (t' : Search)
      (h : searchLoop stabs type n' ⟨left, right, false, addr, left, right⟩ = some t') :
      stabBinsearch stabs n' left right type addr =
        some (matchFrom stabs type (t.regionLeft + 1) t.regionRight, t.regionRight) := by
    rw [stabBinsearch, h, searchLoop_unique h hrun]
    simp only [Option.bind_eq_bind, Option.bind_some, hany]
    rfl
  rw [← hiff]
  refine ⟨fun ⟨n', out, h, hb⟩ => ?_, fun hb => ⟨n, _, hout n t hrun, hb⟩⟩
  cases hloop : searchLoop stabs type n' ⟨left, right, false, addr, left, right⟩ with
  | none =>
    rw [stabBinsearch, hloop] at h
    cases h
  | some t' =>
    rw [hout n' t' hloop] at h
    exact Option.some.inj h ▸ hb

/-- The search brackets the entry that contains the address if and only if an entry at the
address itself does not mislead it. -/
theorem stabBinsearch_iff (stabs : Stabs) (type addr : ℕ) (left right : ℤ) (h0 : 0 ≤ left)
    (hinc : Increasing stabs type left right)
    (hfirst : ∃ i, Entry stabs type left right i ∧ (stabs i).nValue ≤ addr) :
    ∃ k, Contains stabs type left right addr k ∧
      ((∃ n out, stabBinsearch stabs n left right type addr = some out ∧ Brackets stabs type left right k out) ↔
        NotMisled stabs type left right addr k left right) := by
  obtain ⟨i, hi, hiv⟩ := hfirst
  obtain ⟨k, ⟨hk, hkv⟩, hlast⟩ := Int.exists_greatest_of_bdd
    (P := fun j => Entry stabs type left right j ∧ (stabs j).nValue ≤ addr)
    ⟨right, fun j hj => hj.1.2.1⟩ ⟨i, hi, hiv⟩
  have hcontains : Contains stabs type left right addr k := ⟨hk, hkv, fun j hj hjv => hlast j ⟨hj, hjv⟩⟩
  exact ⟨k, hcontains, hcontains.brackets_iff h0 hinc⟩

/-- Two source files that start two bytes apart. -/
def closeFiles (i : ℤ) : Stab :=
  if i = 0 then ⟨0x64, 0xf0100176⟩ else if i = 1 then ⟨0x64, 0xf0100178⟩ else ⟨0, 0⟩

theorem increasing_closeFiles : Increasing closeFiles 0x64 0 1 := by
  refine ⟨fun i j hi hj hij => ?_, fun i => ?_⟩
  · obtain rfl : i = 0 := by have := hi.1; have := hj.2.1; omega
    obtain rfl : j = 1 := by have := hj.2.1; omega
    decide
  · rw [closeFiles]
    split_ifs <;> decide

theorem stabBinsearch_iff_closeFiles : ∃ k, Contains closeFiles 0x64 0 1 0xf0100177 k ∧
    ∃ n out, stabBinsearch closeFiles n 0 1 0x64 0xf0100177 = some out ∧ Brackets closeFiles 0x64 0 1 k out := by
  obtain ⟨k, hk, hiff⟩ := stabBinsearch_iff closeFiles 0x64 0xf0100177 0 1 (by decide) increasing_closeFiles
    ⟨0, ⟨by decide, by decide, by decide⟩, by decide⟩
  refine ⟨k, hk, hiff.mpr fun hv => ?_⟩
  rw [closeFiles] at hv
  split_ifs at hv <;> cases hv

/-- The first file is met at its own address, and the second one is returned. -/
theorem stabBinsearch_exact_hit : ¬∀ stabs type left right addr k, 0 ≤ left → Increasing stabs type left right →
    Contains stabs type left right addr k →
    ∃ n out, stabBinsearch stabs n left right type addr = some out ∧ Brackets stabs type left right k out := by
  intro hall
  have hentry (i : ℤ) (hi : Entry closeFiles 0x64 0 1 i) (hv : (closeFiles i).nValue ≤ 0xf0100176) : i ≤ 0 := by
    by_contra hlt
    obtain rfl : i = 1 := by have := hi.2.1; omega
    exact absurd hv (by decide)
  have hk : Contains closeFiles 0x64 0 1 0xf0100176 0 := ⟨⟨by decide, by decide, by decide⟩, by decide, hentry⟩
  have hnext : IsNext closeFiles 0x64 0 1 0 1 := ⟨⟨by decide, by decide, by decide⟩, by decide, fun i _ hi => hi⟩
  have hun := ((hk.brackets_iff (by decide) increasing_closeFiles).mp
    (hall _ _ _ _ _ _ (by decide) increasing_closeFiles hk) (by decide)).2 1 hnext
  have hmid : ((0 : ℤ) + 1).tdiv 2 = 0 := by decide
  have hle := (matchFrom_spec closeFiles 0x64 0 ((0 + 1 : ℤ).tdiv 2)).1
  rcases hun with h | h | h | h
  · exact absurd h (by decide)
  · exact absurd h (by decide)
  · cases h with
    | met h => omega
    | lower h _ => omega
    | upper h _ => omega
  · exact absurd h.2.1 (by decide)

end FosKernel.StabSearch
