import FosKernel.ProgramLoading

/-!
# Removing a page from a working set

`env_page_ws_invalidate` and `env_table_ws_invalidate` look for a rounded address
and nothing else, and an empty slot holds the address 0.
-/

namespace FosKernel.WorkingSets
open FailingPrograms Machine ProgramLoading

/-- An environment with both of its working sets. -/
structure TableEnv extends Env where
  ptrTws : ℕ → WorkingSetElement

abbrev EnvProg (α : Type) := Prog TableEnv Panic α

/-- What the functions for pages and those for tables differ in. -/
structure WorkingSet where
  granule : ℕ
  size : TableEnv → ℕ
  slots : TableEnv → ℕ → WorkingSetElement
  setSlots : (ℕ → WorkingSetElement) → TableEnv → TableEnv
  size_setSlots : ∀ ws v, size (setSlots ws v) = size v
  slots_setSlots : ∀ ws v, slots (setSlots ws v) = ws
  setSlots_slots : ∀ v, setSlots (slots v) v = v

def pageWs : WorkingSet where
  granule := pageSize
  size v := v.pageWSMaxSize
  slots v := v.ptrPageWorkingSet
  setSlots ws v := { v with ptrPageWorkingSet := ws }
  size_setSlots _ _ := rfl
  slots_setSlots _ _ := rfl
  setSlots_slots _ := rfl

def tableWs : WorkingSet where
  granule := ptSize
  size _ := twsMaxSize
  slots v := v.ptrTws
  setSlots ws v := { v with ptrTws := ws }
  size_setSlots _ _ := rfl
  slots_setSlots _ _ := rfl
  setSlots_slots _ := rfl

/-- What `env_page_ws_clear_entry` and `env_table_ws_clear_entry` leave. -/
def clearedElement : WorkingSetElement := ⟨0, true, 0⟩

namespace WorkingSet

def getSize (w : WorkingSet) (v : TableEnv) : ℕ :=
  (List.range (w.size v)).countP fun i => !(w.slots v i).empty

def clearEntry (w : WorkingSet) (i : ℕ) : EnvProg Unit := do
  if w.size (← get) ≤ i then throw .assertion
  modify fun v => w.setSlots (Function.update (w.slots v) i clearedElement) v

/-- One round of the loop; the answer is whether it ends. -/
def invalidateEntry (w : WorkingSet) (va i : ℕ) : EnvProg Bool := do
  if roundDown (w.slots (← get) i).virtualAddress w.granule = roundDown va w.granule then
    w.clearEntry i
    return true
  return false

def invalidate (w : WorkingSet) (va : ℕ) : EnvProg Unit := do
  let _ ← anyRange (w.invalidateEntry va) 0 (w.size (← get))

end WorkingSet

def envPageWsGetSize : TableEnv → ℕ := pageWs.getSize
def envPageWsClearEntry : ℕ → EnvProg Unit := pageWs.clearEntry
def envPageWsInvalidate : ℕ → EnvProg Unit := pageWs.invalidate

def envTableWsGetSize : TableEnv → ℕ := tableWs.getSize
def envTableWsClearEntry : ℕ → EnvProg Unit := tableWs.clearEntry
def envTableWsInvalidate : ℕ → EnvProg Unit := tableWs.invalidate

variable {w : WorkingSet} {v t : TableEnv} {va i : ℕ}

namespace WorkingSet

/-- Slot `i` has the rounded address of `va`, which is all that the loop looks at. -/
def Matches (w : WorkingSet) (v : TableEnv) (va i : ℕ) : Prop :=
  roundDown (w.slots v i).virtualAddress w.granule = roundDown va w.granule

instance (w : WorkingSet) (v : TableEnv) (va i : ℕ) : Decidable (w.Matches v va i) :=
  inferInstanceAs (Decidable (_ = _))

/-- Slot `i` is in use for the page or table of `va`. -/
def HeldAt (w : WorkingSet) (v : TableEnv) (va i : ℕ) : Prop :=
  (w.slots v i).empty = false ∧ w.Matches v va i

/-- Pairwise distinct pages or tables in the slots in use, and empty slots as they are
left when they are cleared. -/
structure Distinct (w : WorkingSet) (v : TableEnv) : Prop where
  inj : ∀ i < w.size v, ∀ j < w.size v, (w.slots v i).empty = false →
    w.HeldAt v (w.slots v i).virtualAddress j → i = j
  empty : ∀ i < w.size v, (w.slots v i).empty = true → w.slots v i = clearedElement

/-- What invalidation is to do to the environment `v`. -/
structure Invalidated (w : WorkingSet) (va : ℕ) (v t : TableEnv) : Prop where
  frame : t = w.setSlots (w.slots t) v
  gone : ∀ i < w.size v, ¬w.HeldAt t va i
  getSize_held : (∃ i < w.size v, w.HeldAt v va i) → w.getSize t + 1 = w.getSize v
  getSize_not : (¬∃ i < w.size v, w.HeldAt v va i) → w.getSize t = w.getSize v
  rest : ∀ i < w.size v, ¬w.HeldAt v va i → w.slots t i = w.slots v i

/-- No empty slot comes before the one of the first page or table. -/
def NotShadowed (w : WorkingSet) (v : TableEnv) (va : ℕ) : Prop :=
  roundDown va w.granule = 0 → ∀ i < w.size v, w.HeldAt v va i → ∀ k < i, (w.slots v k).empty = false

theorem invalidateEntry_of_not (h : ¬w.Matches v va i) : (w.invalidateEntry va i).run v = .ok (false, v) := by
  rw [Matches] at h
  rw [invalidateEntry, run_bind_ok run_get, if_neg h]
  rfl

theorem clearEntry_run (hi : i < w.size v) :
    (w.clearEntry i).run v = .ok ((), w.setSlots (Function.update (w.slots v) i clearedElement) v) := by
  rw [clearEntry, run_bind_ok run_get, if_neg (by omega)]
  rfl

theorem invalidateEntry_of_matches (hi : i < w.size v) (h : w.Matches v va i) :
    (w.invalidateEntry va i).run v =
      .ok (true, w.setSlots (Function.update (w.slots v) i clearedElement) v) := by
  rw [Matches] at h
  rw [invalidateEntry, run_bind_ok run_get, if_pos h, run_bind_ok (clearEntry_run hi)]
  rfl

theorem scan_run {j : ℕ} (n : ℕ) (hj : i ≤ j) (hn : j < i + n) (hsize : j < w.size v) (h : w.Matches v va j)
    (hfirst : ∀ k, i ≤ k → k < j → ¬w.Matches v va k) :
    (anyRange (w.invalidateEntry va) i n).run v =
      .ok (true, w.setSlots (Function.update (w.slots v) j clearedElement) v) := by
  induction n generalizing i with
  | zero => omega
  | succ n ih =>
    rcases Nat.eq_or_lt_of_le hj with rfl | hlt
    · rw [anyRange, run_bind_ok (invalidateEntry_of_matches hsize h)]
      rfl
    · rw [anyRange, run_bind_ok (invalidateEntry_of_not (hfirst i (Nat.le_refl _) hlt))]
      exact ih hlt (by omega) fun k hk hkj => hfirst k (by omega) hkj

theorem invalidate_run_of_first (hi : i < w.size v) (h : w.Matches v va i)
    (hfirst : ∀ k < i, ¬w.Matches v va k) :
    (w.invalidate va).run v = .ok ((), w.setSlots (Function.update (w.slots v) i clearedElement) v) := by
  rw [invalidate, run_bind_ok run_get,
    run_bind_ok (scan_run _ (Nat.zero_le i) (by omega) hi h fun k _ hk => hfirst k hk)]
  rfl

theorem invalidate_run_of_none (h : ∀ k < w.size v, ¬w.Matches v va k) :
    (w.invalidate va).run v = .ok ((), v) := by
  rw [invalidate, run_bind_ok run_get,
    run_bind_ok (anyRange_false fun k _ hk => invalidateEntry_of_not (h k (by omega)))]
  rfl

theorem countP_range_of_eq_off {p q : ℕ → Bool} {n : ℕ} (hi : i < n) (hp : p i = true) (hq : q i = false)
    (h : ∀ k, k ≠ i → p k = q k) : (List.range n).countP q + 1 = (List.range n).countP p := by
  induction n with
  | zero => omega
  | succ n ih =>
    rw [List.range_succ, List.countP_append, List.countP_append]
    rcases Nat.lt_succ_iff_lt_or_eq.mp hi with hlt | rfl
    · have := ih hlt
      have : [n].countP p = [n].countP q := by simp [h n (by omega)]
      omega
    · have : (List.range i).countP p = (List.range i).countP q :=
        List.countP_congr fun k hk => by rw [h k (List.mem_range.mp hk).ne]
      simp [this, hp, hq]

theorem getSize_clear (hi : i < w.size v) (h : (w.slots v i).empty = false) :
    w.getSize (w.setSlots (Function.update (w.slots v) i clearedElement) v) + 1 = w.getSize v := by
  rw [getSize, getSize, w.size_setSlots, w.slots_setSlots]
  refine countP_range_of_eq_off hi (by simp [h]) (by simp [clearedElement]) fun k hk => ?_
  rw [Function.update_of_ne hk]

/-- The slot of `va` is the first that matches, so it is the one that is cleared. -/
theorem Distinct.invalidated_of_first (hd : w.Distinct v) (hi : i < w.size v) (h : w.HeldAt v va i) :
    w.Invalidated va v (w.setSlots (Function.update (w.slots v) i clearedElement) v) := by
  have honly (k : ℕ) (hk : k < w.size v) (hne : k ≠ i) : ¬w.HeldAt v va k := fun hheld =>
    hne (hd.inj k hk i hi hheld.1 ⟨h.1, h.2.trans hheld.2.symm⟩)
  refine ⟨by rw [w.slots_setSlots], fun k hk hheld => ?_, fun _ => getSize_clear hi h.1, fun hnot => ?_,
    fun k hk hnot => ?_⟩
  · by_cases hki : k = i
    · subst hki
      have := hheld.1
      rw [w.slots_setSlots, Function.update_self] at this
      exact absurd this (by decide)
    · refine honly k hk hki ?_
      rwa [HeldAt, Matches, w.slots_setSlots, Function.update_of_ne hki] at hheld
  · exact absurd ⟨i, hi, h⟩ hnot
  · rw [w.slots_setSlots, Function.update_of_ne]
    rintro rfl
    exact hnot h

theorem Distinct.matches_empty (hd : w.Distinct v) (hi : i < w.size v) (h : (w.slots v i).empty = true) :
    w.Matches v va i ↔ roundDown va w.granule = 0 := by
  rw [Matches, hd.empty i hi h, show clearedElement.virtualAddress = 0 from rfl,
    show roundDown 0 w.granule = 0 by simp [roundDown]]
  exact eq_comm

theorem clear_cleared (h : w.slots v i = clearedElement) :
    w.setSlots (Function.update (w.slots v) i clearedElement) v = v := by
  rw [← h, Function.update_eq_self, w.setSlots_slots]

/-- An environment that stays as it is was to stay so only if no slot is for `va`. -/
theorem invalidated_self : w.Invalidated va v v ↔ ¬∃ i < w.size v, w.HeldAt v va i := by
  constructor
  · rintro h ⟨i, hi, hheld⟩
    exact h.gone i hi hheld
  · intro h
    exact ⟨(w.setSlots_slots v).symm, fun i hi hheld => h ⟨i, hi, hheld⟩, fun hex => absurd hex h, fun _ => rfl,
      fun _ _ _ => rfl⟩

/-- Invalidation removes the right slot unless an empty one comes before it that looks
like it. -/
theorem Distinct.invalidated_iff (hd : w.Distinct v) :
    (∃ t, (w.invalidate va).run v = .ok ((), t) ∧ w.Invalidated va v t) ↔ w.NotShadowed v va := by
  by_cases hex : ∃ j, j < w.size v ∧ w.Matches v va j
  · obtain ⟨j, ⟨hj, hmatch⟩, hmin⟩ : ∃ j, (j < w.size v ∧ w.Matches v va j) ∧
        ∀ k < j, ¬(k < w.size v ∧ w.Matches v va k) := ⟨Nat.find hex, Nat.find_spec hex, fun _ => Nat.find_min hex⟩
    have hfirst (k : ℕ) (hk : k < j) : ¬w.Matches v va k := fun h => hmin k hk ⟨hk.trans hj, h⟩
    have hrun := invalidate_run_of_first hj hmatch hfirst
    cases hempty : (w.slots v j).empty with
    | false =>
      -- the slot of `va` comes first
      have hheld : w.HeldAt v va j := ⟨hempty, hmatch⟩
      refine ⟨fun _ hzero i hi hi' k hk => ?_, fun _ => ⟨_, hrun, hd.invalidated_of_first hj hheld⟩⟩
      obtain rfl := hd.inj i hi j hj hi'.1 ⟨hempty, hmatch.trans hi'.2.symm⟩
      by_contra hne
      exact hfirst k hk ((hd.matches_empty (hk.trans hi) (by simpa using hne)).mpr hzero)
    | true =>
      -- an empty slot comes first and is cleared again
      have hzero := (hd.matches_empty hj hempty).mp hmatch
      rw [clear_cleared (hd.empty j hj hempty)] at hrun
      constructor
      · rintro ⟨t, ht, hinv⟩ - i hi hheld
        rw [hrun] at ht
        cases ht
        exact absurd ⟨i, hi, hheld⟩ (invalidated_self.mp hinv)
      · refine fun hns => ⟨v, hrun, invalidated_self.mpr ?_⟩
        rintro ⟨i, hi, hheld⟩
        have hji : j < i := by
          rcases Nat.lt_trichotomy i j with hlt | rfl | hlt
          · exact absurd hheld.2 (hfirst i hlt)
          · exact absurd hheld.1 (by simp [hempty])
          · exact hlt
        have := hns hzero i hi hheld j hji
        simp [hempty] at this
  · have hnone (k : ℕ) (hk : k < w.size v) : ¬w.Matches v va k := fun h => hex ⟨k, hk, h⟩
    refine ⟨fun _ _ i hi hheld => absurd hheld.2 (hnone i hi), fun _ => ⟨v, invalidate_run_of_none hnone, ?_⟩⟩
    rw [invalidated_self]
    rintro ⟨i, hi, hheld⟩
    exact hnone i hi hheld.2

end WorkingSet

/-- What is wrong with both functions is the same. -/
theorem invalidate_iff (v : TableEnv) (va : ℕ) :
    (pageWs.Distinct v → ((∃ t, (envPageWsInvalidate va).run v = .ok ((), t) ∧ pageWs.Invalidated va v t) ↔
      pageWs.NotShadowed v va)) ∧
    (tableWs.Distinct v → ((∃ t, (envTableWsInvalidate va).run v = .ok ((), t) ∧ tableWs.Invalidated va v t) ↔
      tableWs.NotShadowed v va)) :=
  ⟨fun hd => hd.invalidated_iff, fun hd => hd.invalidated_iff⟩

/-- An environment with one page and one table in use, in the slots `i`. -/
def oneSlot (i page : ℕ) : TableEnv where
  envPageDirectory := 0
  envCr3 := 0
  diskEnvPgdir := 0
  diskEnvPgdirPA := 0
  diskEnvTabledir := 0
  diskEnvTabledirPA := 0
  pageWSMaxSize := 2
  ptrPageWorkingSet j := if j = i then ⟨page, false, 0x80000000⟩ else clearedElement
  pageLastWSIndex := 0
  pageFaultsCounter := 0
  tableFaultsCounter := 0
  nPageIn := 0
  nPageOut := 0
  nNewPageAdded := 0
  initNumStackPages := 1
  ptrTws j := if j = i then ⟨roundDown page ptSize, false, 0x80000000⟩ else clearedElement

theorem distinct_of_one {f : ℕ → WorkingSetElement} {e : WorkingSetElement} {i : ℕ} (hv : w.slots v = f)
    (hf : ∀ j, f j = if j = i then e else clearedElement) (he : e.empty = false) : w.Distinct v := by
  have hne (j : ℕ) (h : (f j).empty = false) : j = i := by
    by_contra hji
    rw [hf, if_neg hji] at h
    exact absurd h (by decide)
  refine ⟨fun j _ k _ hj hk => ?_, fun j _ hj => ?_⟩
  · rw [hv] at hj
    rw [WorkingSet.HeldAt, hv] at hk
    rw [hne j hj, hne k hk.1]
  · rw [hv] at hj ⊢
    rw [hf] at hj ⊢
    by_cases hji : j = i
    · rw [if_pos hji, he] at hj
      exact absurd hj (by decide)
    · rw [if_neg hji]

theorem invalidate_iff_oneSlot :
    (∃ t, (envPageWsInvalidate 0x200000).run (oneSlot 1 0x200000) = .ok ((), t) ∧
      pageWs.Invalidated 0x200000 (oneSlot 1 0x200000) t) ∧
    ∃ t, (envTableWsInvalidate 0x200000).run (oneSlot 0 0x200000) = .ok ((), t) ∧
      tableWs.Invalidated 0x200000 (oneSlot 0 0x200000) t := by
  refine ⟨((invalidate_iff (oneSlot 1 0x200000) 0x200000).1 (distinct_of_one rfl (fun _ => rfl) rfl)).mpr ?_,
    ((invalidate_iff (oneSlot 0 0x200000) 0x200000).2 (distinct_of_one rfl (fun _ => rfl) rfl)).mpr ?_⟩
  · intro hzero
    exact absurd hzero (by decide)
  · rintro - i - hheld k hk
    have hi : i = 0 := by
      by_contra hne
      have hslot : tableWs.slots (oneSlot 0 0x200000) i = clearedElement := if_neg hne
      have hempty := hheld.1
      rw [hslot] at hempty
      exact absurd hempty (by decide)
    omega

/-- The table of the segment at 0x200000 stays behind an empty slot. -/
theorem invalidate_shadowed : ¬∀ v va, tableWs.Distinct v →
    ∃ t, (envTableWsInvalidate va).run v = .ok ((), t) ∧ tableWs.Invalidated va v t := by
  intro hall
  have hd : tableWs.Distinct (oneSlot 1 0x200000) := distinct_of_one rfl (fun _ => rfl) rfl
  have hns := hd.invalidated_iff.mp (hall (oneSlot 1 0x200000) 0x200000 hd)
  have := hns (by decide) 1 (by decide) ⟨by decide, by decide⟩ 0 (by decide)
  exact absurd this (by decide)

end FosKernel.WorkingSets
