import Mathlib.Data.Nat.ModEq
import FosKernel.FaultHandling
import FosKernel.PageFileWrites

/-!
# The sweep of the clock

The loops of `page_fault_handler` inspect the slots of the working set in cyclic order from the
hand on. A slot whose page is marked as used is passed, and the mark goes.
-/

namespace FosKernel.Machine
open FailingPrograms PageEntries

variable {s t u : Machine} {E : Finset ℕ} {g : Obj → ℕ} {e faultVa i j k m n w : ℕ} {is js : List ℕ}

def slotVa (s : Machine) (e i : ℕ) : ℕ := roundDown ((s.envs e).ptrPageWorkingSet i).virtualAddress pageSize

noncomputable def slotEntry (s : Machine) (g : Obj → ℕ) (e i : ℕ) : ℕ := s.entries g (.user e, pageNumber (s.slotVa e i))

/-- The slot that is `j` further than the hand. -/
def slotFrom (v : Env) (j : ℕ) : ℕ := (v.pageLastWSIndex + j) % v.pageWSMaxSize

theorem slotVa_congr (h : t.envs = s.envs) (e i : ℕ) : t.slotVa e i = s.slotVa e i := by rw [slotVa, h, slotVa]

/-- The working set is full, its pages are mapped present, each slot holds another one, and they
lie in frames that the kernel does not use for itself and that count them. -/
structure Resident (E : Finset ℕ) (s : Machine) (g : Obj → ℕ) (e : ℕ) : Prop where
  stocked : Stocked E s g
  root : g (.root (.user e)) ≠ 0
  hand : (s.envs e).pageLastWSIndex < (s.envs e).pageWSMaxSize
  full : ∀ i < (s.envs e).pageWSMaxSize, ((s.envs e).ptrPageWorkingSet i).empty = false
  user : ∀ i < (s.envs e).pageWSMaxSize, s.slotVa e i < userTop
  present : ∀ i < (s.envs e).pageWSMaxSize, HasPerm (s.slotEntry g e i) permPresent
  distinct : ∀ i < (s.envs e).pageWSMaxSize, ∀ j < (s.envs e).pageWSMaxSize, s.slotVa e i = s.slotVa e j → i = j
  inUse : ∀ i < (s.envs e).pageWSMaxSize, InUse s (frameNumber (s.slotEntry g e i))
  counted : ∀ i < (s.envs e).pageWSMaxSize, 0 < (s.framesInfo (frameNumber (s.slotEntry g e i))).references
  shared : ∀ i < (s.envs e).pageWSMaxSize, ∀ j < (s.envs e).pageWSMaxSize, i ≠ j →
    frameNumber (s.slotEntry g e i) = frameNumber (s.slotEntry g e j) →
      1 < (s.framesInfo (frameNumber (s.slotEntry g e i))).references

/-- The page in a slot makes room for the faulted one. -/
def replaceSlot (e faultVa i dir va : ℕ) : Kernel Bool := do
  envPageWsClearEntry e i
  unmapFrame dir va
  modifyEnv e fun v => { v with pageLastWSIndex := i }
  placement e faultVa
  return true

theorem hasPerm_mod {p : ℕ} (hp : p < 4096) : HasPerm (w % 4096) p ↔ HasPerm w p := by
  have hmod : w % 4096 &&& p = w &&& p := by
    rw [show (4096 : ℕ) = 2 ^ 12 from rfl, ← Nat.and_two_pow_sub_one_eq_mod, Nat.and_assoc, Nat.and_comm _ p,
      Nat.and_two_pow_sub_one_eq_mod, Nat.mod_eq_of_lt hp]
  rw [HasPerm, hmod, HasPerm]

theorem envPageWsGetVirtualAddress_run (hi : i < (s.envs e).pageWSMaxSize) :
    (envPageWsGetVirtualAddress e i).run s = .ok (s.slotVa e i, s) := by
  rw [envPageWsGetVirtualAddress, run_bind_ok run_get]
  exact congrFun (if_neg (not_le.mpr hi)) s

namespace Resident

variable (h : Resident E s g e)
include h

theorem table (hi : i < (s.envs e).pageWSMaxSize) : g (.leaf (.user e) (pdx (s.slotVa e i))) ≠ 0 :=
  table_of_entry (h.user i hi) (ne_zero_of_hasPerm_present (h.present i hi))

theorem clockEntry_run (hi : i < (s.envs e).pageWSMaxSize) : (clockEntry e faultVa i).run s =
    (if HasPerm (s.slotEntry g e i) permUsed then do
        ptSetPagePermissions (g (.root (.user e))) (s.slotVa e i) 0 permUsed
        return false
      else if HasPerm (s.slotEntry g e i) permModified then do
        let _ ← pfUpdateEnvPage e (s.slotVa e i) (frameNumber (s.slotEntry g e i))
        replaceSlot e faultVa i (g (.root (.user e))) (s.slotVa e i)
      else replaceSlot e faultVa i (g (.root (.user e))) (s.slotVa e i) : Kernel Bool).run s := by
  have hl := h.table hi
  have htab := h.stocked.hasTable (h.user i hi) hl
  have hword : wordAt (s.ram (s.entryFrame g (.user e) (s.slotVa e i))) (ptx (s.slotVa e i)) = s.slotEntry g e i :=
    h.stocked.word_entry (h.user i hi) hl
  have hframe := htab.getFrameInfo_some (by rw [hword]; exact ne_zero_of_hasPerm_present (h.present i hi))
    (by rw [hword]; exact h.stocked.ordinary_lt (h.inUse i hi).toOrdinary)
  have hused := hasPerm_mod (w := s.slotEntry g e i) (p := permUsed) (by decide)
  have hmod := hasPerm_mod (w := s.slotEntry g e i) (p := permModified) (by decide)
  rw [clockEntry, run_bind_ok (envPageWsGetVirtualAddress_run hi), run_bind_ok run_get, (h.stocked.roots e).1,
    run_bind_ok hframe, run_bind_ok htab.ptGetPagePermissions_run, hword]
  simp only [Option.getD_some, hused, hmod, ite_not]
  rfl

variable (faultVa) in
theorem clockEntry_used (hi : i < (s.envs e).pageWSMaxSize) (hu : HasPerm (s.slotEntry g e i) permUsed) :
    ∃ t, (clockEntry e faultVa i).run s = .ok (false, t) ∧ Changes E s g {(.user e, pageNumber (s.slotVa e i))} ∅ t ∧
      t.entries g = Function.update (s.entries g) (.user e, pageNumber (s.slotVa e i))
        (clearPerm (s.slotEntry g e i) permUsed) ∧ SameRecords s t := by
  have hl := h.table hi
  have hclear := (h.stocked.hasTable (h.user i hi) hl).ptSetPagePermissions_clear (show permUsed ≠ 0 by decide)
  rw [h.stocked.word_entry (h.user i hi) hl] at hclear
  obtain ⟨hch, hent⟩ := h.stocked.changeEntry (F := ∅) h.stocked.toReady.userStep_self rfl (fun _ _ => rfl) (h.user i hi) hl
    (clearPerm_lt (p := permUsed) (w := s.slotEntry g e i) (entries_lt ..))
  refine ⟨_, ?_, hch, hent, sameRecords_setEntry ..⟩
  rw [h.clockEntry_run hi, if_pos hu, run_bind_ok hclear]
  rfl

end Resident

theorem slotFrom_lt (h : (s.envs e).pageLastWSIndex < (s.envs e).pageWSMaxSize) (j : ℕ) :
    slotFrom (s.envs e) j < (s.envs e).pageWSMaxSize := Nat.mod_lt _ (Nat.zero_lt_of_lt h)

theorem slotFrom_inj {v : Env} (hj : j < v.pageWSMaxSize) (hk : k < v.pageWSMaxSize) (h : slotFrom v j = slotFrom v k) : j = k :=
  (Nat.ModEq.add_left_cancel' v.pageLastWSIndex h).eq_of_lt_of_lt hj hk

theorem exists_slotFrom {v : Env} (hand : v.pageLastWSIndex < v.pageWSMaxSize) (hi : i < v.pageWSMaxSize) :
    ∃ k < v.pageWSMaxSize, slotFrom v k = i := by
  by_cases hle : v.pageLastWSIndex ≤ i
  · refine ⟨i - v.pageLastWSIndex, by omega, ?_⟩
    rw [slotFrom, Nat.add_sub_cancel' hle, Nat.mod_eq_of_lt hi]
  · refine ⟨v.pageWSMaxSize - v.pageLastWSIndex + i, by omega, ?_⟩
    rw [slotFrom, show v.pageLastWSIndex + (v.pageWSMaxSize - v.pageLastWSIndex + i) = i + v.pageWSMaxSize by omega,
      Nat.add_mod_right, Nat.mod_eq_of_lt hi]

theorem slotVa_eq (s : Machine) (e i : ℕ) : s.slotVa e i = pageSize * pageNumber (s.slotVa e i) := by
  simp only [slotVa, roundDown, pageNumber, pageSize]
  omega

theorem Resident.slot_inj (h : Resident E s g e) (hj : j < (s.envs e).pageWSMaxSize) (hk : k < (s.envs e).pageWSMaxSize)
    (hp : pageNumber (s.slotVa e (slotFrom (s.envs e) j)) = pageNumber (s.slotVa e (slotFrom (s.envs e) k))) : j = k := by
  refine slotFrom_inj hj hk (h.distinct _ (slotFrom_lt h.hand j) _ (slotFrom_lt h.hand k) ?_)
  rw [slotVa_eq s e (slotFrom (s.envs e) j), hp, ← slotVa_eq]

theorem hasPerm_present_clearPerm (hp : HasPerm w permPresent) : HasPerm (clearPerm w permUsed) permPresent := by
  rw [hasPerm_present, testBit_clearPerm (by decide), hasPerm_present.mp hp]
  rfl

theorem not_used_clearPerm (w : ℕ) : ¬HasPerm (clearPerm w permUsed) permUsed := by
  rw [hasPerm_used, testBit_clearPerm (by decide), show permUsed.testBit 5 = true by decide]
  simp

/-- The pages of the first `j` slots from the hand on. -/
def passedPages (s : Machine) (e j : ℕ) : Set (Tree × ℕ) :=
  {x | ∃ k < j, x = (.user e, pageNumber (s.slotVa e (slotFrom (s.envs e) k)))}

/-- The first `j` slots from the hand on were passed, which cleared a mark in the entry of each. -/
structure Passed (E : Finset ℕ) (s : Machine) (g : Obj → ℕ) (e j : ℕ) (t : Machine) : Prop where
  changes : Changes E s g (passedPages s e j) ∅ t
  records : SameRecords s t
  entry : ∀ k < j, t.slotEntry g e (slotFrom (s.envs e) k) = clearPerm (s.slotEntry g e (slotFrom (s.envs e) k)) permUsed

namespace Passed

theorem refl (h : Stocked E s g) : Passed E s g e 0 s :=
  ⟨.refl h, .refl s, fun _ hk => absurd hk (Nat.not_lt_zero _)⟩

theorem entry_rest (ht : Passed E s g e j t) (h : Resident E s g e) (hj : j ≤ k) (hk : k < (s.envs e).pageWSMaxSize) :
    t.slotEntry g e (slotFrom (s.envs e) k) = s.slotEntry g e (slotFrom (s.envs e) k) := by
  rw [slotEntry, slotVa_congr ht.records.envs, ht.changes.entries, slotEntry]
  rintro ⟨k', hk', he⟩
  have := h.slot_inj hk (by omega) (Prod.mk.inj he).2
  omega

theorem slotEntry_cases (ht : Passed E s g e j t) (h : Resident E s g e) (hi : i < (s.envs e).pageWSMaxSize) :
    t.slotEntry g e i = s.slotEntry g e i ∨ t.slotEntry g e i = clearPerm (s.slotEntry g e i) permUsed := by
  obtain ⟨k, hk, rfl⟩ := exists_slotFrom h.hand hi
  by_cases hkj : k < j
  · exact .inr (ht.entry k hkj)
  · exact .inl (ht.entry_rest h (not_lt.mp hkj) hk)

theorem frame_eq (ht : Passed E s g e j t) (h : Resident E s g e) (hi : i < (s.envs e).pageWSMaxSize) :
    frameNumber (t.slotEntry g e i) = frameNumber (s.slotEntry g e i) := by
  rcases ht.slotEntry_cases h hi with he | he
  · rw [he]
  · rw [he, frameNumber_clearPerm (w := s.slotEntry g e i) (entries_lt ..) (by decide)]

theorem resident (ht : Passed E s g e j t) (h : Resident E s g e) : Resident E t g e := by
  have henvs := ht.records.envs
  have hva (i : ℕ) : t.slotVa e i = s.slotVa e i := slotVa_congr henvs e i
  refine ⟨ht.changes.stocked, h.root, by rw [henvs]; exact h.hand, by rw [henvs]; exact h.full, fun i hi => ?_,
    fun i hi => ?_, fun i hi i' hi' => ?_, fun i hi => ?_, fun i hi => ?_, fun i hi i' hi' hne => ?_⟩ <;>
    rw [henvs] at hi
  · rw [hva]
    exact h.user i hi
  · rcases ht.slotEntry_cases h hi with he | he
    · rw [he]
      exact h.present i hi
    · rw [he]
      exact hasPerm_present_clearPerm (h.present i hi)
  · rw [henvs] at hi'
    rw [hva, hva]
    exact h.distinct i hi i' hi'
  · rw [ht.frame_eq h hi]
    have huse := h.inUse i hi
    exact ⟨ht.changes.ordinary huse.toOrdinary, ht.records.free ▸ huse.not_free⟩
  · rw [ht.frame_eq h hi, ht.records.info]
    exact h.counted i hi
  · rw [henvs] at hi'
    rw [ht.frame_eq h hi, ht.frame_eq h hi', ht.records.info]
    exact h.shared i hi i' hi' hne

variable (faultVa) in
theorem step (ht : Passed E s g e j t) (h : Resident E s g e) (hj : j < (s.envs e).pageWSMaxSize)
    (hused : HasPerm (s.slotEntry g e (slotFrom (s.envs e) j)) permUsed) :
    ∃ u, (clockEntry e faultVa (slotFrom (s.envs e) j)).run t = .ok (false, u) ∧ Passed E s g e (j + 1) u := by
  have henvs := ht.records.envs
  have hva : t.slotVa e (slotFrom (s.envs e) j) = s.slotVa e (slotFrom (s.envs e) j) := slotVa_congr henvs e _
  have hi : slotFrom (s.envs e) j < (t.envs e).pageWSMaxSize := by
    rw [henvs]
    exact slotFrom_lt h.hand j
  have hentry := ht.entry_rest h (le_refl j) hj
  obtain ⟨u, hrun, hch, hent, hrec⟩ := (ht.resident h).clockEntry_used faultVa hi (hentry.symm ▸ hused)
  rw [hva] at hch hent
  have hrecords := ht.records.trans hrec
  refine ⟨u, hrun, (ht.changes.trans hch).mono ?_ (by simp), hrecords, fun k hk => ?_⟩
  · rintro x (⟨k, hk, rfl⟩ | rfl)
    · exact ⟨k, Nat.lt_succ_of_lt hk, rfl⟩
    · exact ⟨j, Nat.lt_succ_self j, rfl⟩
  · rw [slotEntry, slotVa_congr hrecords.envs, hent]
    by_cases hkj : k = j
    · rw [hkj, Function.update_self, hentry]
    · have hne : (Tree.user e, pageNumber (s.slotVa e (slotFrom (s.envs e) k))) ≠
          (.user e, pageNumber (s.slotVa e (slotFrom (s.envs e) j))) := fun hp =>
        hkj (h.slot_inj (by omega) hj (Prod.mk.inj hp).2)
      rw [Function.update_of_ne hne, ← ht.entry k (by omega), slotEntry, slotVa_congr henvs]

end Passed

/-- The slots are inspected until one of them makes room. -/
def inspect (e faultVa : ℕ) : List ℕ → Kernel Bool
  | [] => return false
  | i :: is => do
    if ← clockEntry e faultVa i then return true
    inspect e faultVa is

/-- The slots in cyclic order from the hand on. -/
def slotOrder (v : Env) (n : ℕ) : List ℕ := (List.range n).map (slotFrom v)

theorem anyRange_eq_inspect (e faultVa i n : ℕ) :
    anyRange (clockEntry e faultVa) i n = inspect e faultVa (List.range' i n) := by
  induction n generalizing i with
  | zero => rfl
  | succ n ih =>
    rw [List.range'_succ, anyRange, ih]
    rfl

theorem inspect_append_false (h : (inspect e faultVa is).run s = .ok (false, t)) (js : List ℕ) :
    (inspect e faultVa (is ++ js)).run s = (inspect e faultVa js).run t := by
  induction is generalizing s with
  | nil =>
    cases h
    rfl
  | cons i is ih =>
    rw [inspect] at h
    rw [List.cons_append, inspect]
    rcases hrun : (clockEntry e faultVa i).run s with x | ⟨b, u⟩
    · rw [run_bind_error hrun] at h
      cases h
    · rw [run_bind_ok hrun] at h ⊢
      cases b with
      | true => cases h
      | false => exact ih h

theorem inspect_append_stop {r : Except Panic (Bool × Machine)} (h : (inspect e faultVa is).run s = r)
    (hr : ∀ u, r ≠ .ok (false, u)) (js : List ℕ) : (inspect e faultVa (is ++ js)).run s = r := by
  induction is generalizing s with
  | nil => exact absurd h.symm (hr s)
  | cons i is ih =>
    rw [inspect] at h
    rw [List.cons_append, inspect]
    rcases hrun : (clockEntry e faultVa i).run s with x | ⟨b, u⟩
    · rw [run_bind_error hrun] at h ⊢
      exact h
    · rw [run_bind_ok hrun] at h ⊢
      cases b with
      | true => exact h
      | false => exact ih h

theorem inspect_singleton (e faultVa i : ℕ) (s : Machine) : (inspect e faultVa [i]).run s = (clockEntry e faultVa i).run s := by
  rw [inspect]
  rcases hrun : (clockEntry e faultVa i).run s with x | ⟨b, u⟩
  · rw [run_bind_error hrun]
  · rw [run_bind_ok hrun]
    cases b with
    | true => rfl
    | false => rfl

theorem slotOrder_succ (v : Env) (n : ℕ) : slotOrder v (n + 1) = slotOrder v n ++ [slotFrom v n] := by
  rw [slotOrder, List.range_succ, List.map_append, List.map_singleton, slotOrder]

theorem slotOrder_eq {v : Env} (h : v.pageLastWSIndex < v.pageWSMaxSize) : slotOrder v v.pageWSMaxSize =
    List.range' v.pageLastWSIndex (v.pageWSMaxSize - v.pageLastWSIndex) ++ List.range' 0 v.pageLastWSIndex := by
  refine List.ext_getElem ?_ fun k hk hk' => ?_
  · simp [slotOrder]
    omega
  · simp only [slotOrder, List.length_map, List.length_range] at hk
    simp only [slotOrder, List.getElem_map, List.getElem_range, List.getElem_append, List.length_range',
      List.getElem_range']
    split
    · rw [slotFrom, Nat.mod_eq_of_lt (by omega)]
      omega
    · rw [slotFrom, show v.pageLastWSIndex + k = v.pageLastWSIndex + k - v.pageWSMaxSize + v.pageWSMaxSize by omega,
        Nat.add_mod_right, Nat.mod_eq_of_lt (by omega)]
      omega

/-- One round of the `while` loop inspects each slot once. -/
theorem clockPasses_succ (h : (s.envs e).pageLastWSIndex < (s.envs e).pageWSMaxSize) (n : ℕ) :
    (clockPasses e faultVa (n + 1)).run s = (do
      if ← inspect e faultVa (slotOrder (s.envs e) (s.envs e).pageWSMaxSize) then return
      clockPasses e faultVa n : Kernel Unit).run s := by
  rw [clockPasses, run_bind_ok run_get]
  dsimp only
  rw [slotOrder_eq h, anyRange_eq_inspect, anyRange_eq_inspect]
  set is := List.range' (s.envs e).pageLastWSIndex ((s.envs e).pageWSMaxSize - (s.envs e).pageLastWSIndex)
  rcases hrun : (inspect e faultVa is).run s with x | ⟨b, u⟩
  · rw [run_bind_error hrun, run_bind_error (inspect_append_stop hrun (fun _ hc => nomatch hc) _)]
  · cases b with
    | true =>
      rw [run_bind_ok hrun, run_bind_ok (inspect_append_stop hrun (fun _ hc => nomatch hc) _)]
      rfl
    | false =>
      rw [run_bind_ok hrun, if_neg Bool.false_ne_true]
      have happend := inspect_append_false hrun (List.range' 0 (s.envs e).pageLastWSIndex)
      rcases hrun' : (inspect e faultVa (List.range' 0 (s.envs e).pageLastWSIndex)).run u with x | ⟨b, u'⟩
      · rw [run_bind_error hrun', run_bind_error (happend.trans hrun')]
      · rw [run_bind_ok hrun', run_bind_ok (happend.trans hrun')]

theorem slotOrder_split (v : Env) (h : j < n) :
    ∃ js, slotOrder v n = slotOrder v j ++ ([slotFrom v j] ++ js) := by
  obtain ⟨m, rfl⟩ := Nat.exists_eq_add_of_lt h
  refine ⟨((List.range m).map (j + 1 + ·)).map (slotFrom v), ?_⟩
  rw [slotOrder, show j + m + 1 = j + 1 + m by omega, List.range_add, List.map_append, ← List.append_assoc, ← slotOrder_succ,
    slotOrder]

theorem clockPasses_found (h : (s.envs e).pageLastWSIndex < (s.envs e).pageWSMaxSize) (hj : j < (s.envs e).pageWSMaxSize)
    (hrun : (inspect e faultVa (slotOrder (s.envs e) j)).run s = .ok (false, t))
    (hlast : ∀ u, (clockEntry e faultVa (slotFrom (s.envs e) j)).run t ≠ .ok (false, u)) (n : ℕ) :
    (clockPasses e faultVa (n + 1)).run s = (do
      let _ ← clockEntry e faultVa (slotFrom (s.envs e) j)
      return : Kernel Unit).run t := by
  obtain ⟨js, hjs⟩ := slotOrder_split (s.envs e) hj
  have hinspect := (inspect_append_false hrun ([slotFrom (s.envs e) j] ++ js)).trans
    (inspect_append_stop (inspect_singleton e faultVa (slotFrom (s.envs e) j) t) hlast js)
  rw [clockPasses_succ h, hjs]
  rcases hstop : (clockEntry e faultVa (slotFrom (s.envs e) j)).run t with x | ⟨b, u⟩
  · rw [run_bind_error (hinspect.trans hstop), run_bind_error hstop]
  · rw [run_bind_ok (hinspect.trans hstop), run_bind_ok hstop]
    cases b with
    | false => exact absurd hstop (hlast u)
    | true => rfl

namespace Resident

theorem sweep (faultVa : ℕ) (h : Resident E s g e) (hj : j ≤ (s.envs e).pageWSMaxSize)
    (hused : ∀ k < j, HasPerm (s.slotEntry g e (slotFrom (s.envs e) k)) permUsed) :
    ∃ t, (inspect e faultVa (slotOrder (s.envs e) j)).run s = .ok (false, t) ∧ Passed E s g e j t := by
  induction j with
  | zero => exact ⟨s, rfl, .refl h.stocked⟩
  | succ j ih =>
    obtain ⟨t, hrun, ht⟩ := ih (Nat.le_of_succ_le hj) fun k hk => hused k (Nat.lt_succ_of_lt hk)
    obtain ⟨u, hround, hu⟩ := ht.step faultVa h hj (hused j (Nat.lt_succ_self j))
    refine ⟨u, ?_, hu⟩
    rw [slotOrder_succ, inspect_append_false hrun, inspect_singleton, hround]

theorem clockEntry_ne_false (h : Resident E s g e) (hi : i < (s.envs e).pageWSMaxSize)
    (hu : ¬HasPerm (s.slotEntry g e i) permUsed) (t : Machine) : (clockEntry e faultVa i).run s ≠ .ok (false, t) := by
  have hreplace (dir va : ℕ) (u : Machine) : Sat (fun _ => True) (replaceSlot e faultVa i dir va) u fun b _ => b = true := by
    unfold replaceSlot
    exact (Sat.any _ _).bind fun _ _ _ => (Sat.any _ _).bind fun _ _ _ => (Sat.any _ _).bind fun _ _ _ =>
      (Sat.any _ _).bind fun _ _ _ => .pure rfl
  have htrue : Sat (fun _ => True) (clockEntry e faultVa i) s fun b _ => b = true := by
    refine .of_run (h.clockEntry_run hi) (.ite (fun hc => absurd hc hu) fun _ => .ite (fun _ => ?_) fun _ => hreplace _ _ _)
    exact (Sat.any _ _).bind fun _ _ _ => hreplace _ _ _
  exact fun hrun => absurd (htrue.ok hrun) (by decide)

/-- At most one slot more than there are is inspected, each after the one before it from the hand on: those that
were used, and one that was not or is not any more. -/
theorem pageFaultHandler_run (faultVa : ℕ) (h : Resident E s g e) (hj : j ≤ (s.envs e).pageWSMaxSize)
    (hused : ∀ k < j, HasPerm (s.slotEntry g e (slotFrom (s.envs e) k)) permUsed)
    (hlast : j < (s.envs e).pageWSMaxSize → ¬HasPerm (s.slotEntry g e (slotFrom (s.envs e) j)) permUsed) :
    ∃ t, (inspect e faultVa (slotOrder (s.envs e) j)).run s = .ok (false, t) ∧ Passed E s g e j t ∧
      ¬HasPerm (t.slotEntry g e (slotFrom (s.envs e) j)) permUsed ∧
      (pageFaultHandler e faultVa).run s = (do
        let _ ← clockEntry e faultVa (slotFrom (s.envs e) j)
        return : Kernel Unit).run t := by
  obtain ⟨t, hrun, ht⟩ := h.sweep faultVa hj hused
  have henvs := ht.records.envs
  have hres := ht.resident h
  have hi : slotFrom (s.envs e) j < (t.envs e).pageWSMaxSize := by
    rw [henvs]
    exact slotFrom_lt h.hand j
  have hsize : ¬envPageWsGetSize (s.envs e) < (s.envs e).pageWSMaxSize := by
    have hall : (List.range (s.envs e).pageWSMaxSize).countP (fun i => !((s.envs e).ptrPageWorkingSet i).empty) =
        (List.range (s.envs e).pageWSMaxSize).length := by
      refine List.countP_eq_length.mpr fun i hi => ?_
      rw [h.full i (List.mem_range.mp hi)]
      rfl
    rw [envPageWsGetSize, hall, List.length_range]
    exact lt_irrefl _
  have hhandler : (pageFaultHandler e faultVa).run s = (clockPasses e faultVa 3).run s := by
    rw [pageFaultHandler, run_bind_ok run_get]
    exact congrArg (fun x : Kernel Unit => x.run s) (if_neg hsize)
  by_cases hlt : j < (s.envs e).pageWSMaxSize
  · have hu := hlast hlt
    rw [← ht.entry_rest h (le_refl j) hlt] at hu
    refine ⟨t, hrun, ht, hu, ?_⟩
    rw [hhandler]
    exact clockPasses_found h.hand hlt hrun (hres.clockEntry_ne_false hi hu) 2
  · obtain rfl : j = (s.envs e).pageWSMaxSize := by omega
    have hhand : slotFrom (s.envs e) (s.envs e).pageWSMaxSize = slotFrom (s.envs e) 0 := by
      rw [slotFrom, Nat.add_mod_right, slotFrom, Nat.add_zero]
    have hpos : 0 < (s.envs e).pageWSMaxSize := Nat.zero_lt_of_lt h.hand
    have hu : ¬HasPerm (t.slotEntry g e (slotFrom (s.envs e) (s.envs e).pageWSMaxSize)) permUsed := by
      rw [hhand, ht.entry 0 hpos]
      exact not_used_clearPerm _
    refine ⟨t, hrun, ht, hu, ?_⟩
    -- the second pass starts where the first one did
    have hpass : (clockPasses e faultVa 3).run s = (clockPasses e faultVa 2).run t := by
      rw [clockPasses_succ h.hand, run_bind_ok hrun]
      rfl
    have hfirst : (inspect e faultVa (slotOrder (t.envs e) 0)).run t = .ok (false, t) := rfl
    rw [hhand] at hi hu ⊢
    rw [hhandler, hpass, clockPasses_found hres.hand (by rwa [henvs]) hfirst ?_ 1, henvs]
    rw [henvs]
    exact hres.clockEntry_ne_false hi hu

end Resident

end FosKernel.Machine
