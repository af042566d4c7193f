import FosKernel.ChunkAllocation

/-!
# Counting the tables and pages of a range

`calculate_allocated_space` counts the tables and pages that a range has,
`calculate_required_frames` those that it lacks. Each of them takes a table as new when it is
not that of the page before.
-/

namespace FosKernel.Machine
open FailingPrograms PageEntries

variable {s t : Machine} {E : Finset ℕ} {g : Obj → ℕ} {τ : Tree} {I : Set ℕ}
  {c d i j k m n dir va sva eva size perms numTables numPages : ℕ}

/-- A round that counts tables; the second value is the table of the page before. -/
def countTable (dir sva i : ℕ) (c : ℕ × ℕ) : Kernel (ℕ × ℕ) := do
  let pt := (← getPageTable dir (pageOf sva i)).getD 0
  if pt ≠ c.2 ∧ pt ≠ 0 then return (u32 (c.1 + 1), pt)
  return (c.1, pt)

/-- A round that counts the pages that are mapped, or those that are not. -/
def countPage (mapped : Bool) (dir sva i c : ℕ) : Kernel ℕ := do
  if (← isMapped dir (pageOf sva i)) = mapped then return u32 (c + 1)
  return c

/-- A round that counts missing tables; the second value is the page before. -/
def countMissing (dir sva i : ℕ) (c : ℕ × ℕ) : Kernel (ℕ × ℕ) := do
  let va := pageOf sva i
  if (← getPageTable dir va).isNone ∧ pdx va ≠ pdx c.2 then return (u32 (c.1 + 1), va)
  return (c.1, va)

def calculateAllocatedSpace (dir sva eva numTables numPages : ℕ) : Kernel (ℕ × ℕ) := do
  let sva := roundDown sva pageSize
  let eva := roundUp eva pageSize
  let n := numOfPages sva eva
  let (numTables, _) ← foldRange (countTable dir sva) 0 n (numTables, 0)
  let numPages ← foldRange (countPage true dir sva) 0 n numPages
  return (numTables, numPages)

def calculateRequiredFrames (dir sva size : ℕ) : Kernel ℕ := do
  let svm := roundDown sva pageSize
  let eva := roundUp (u32 (sva + size)) pageSize
  let n := numOfPages svm eva
  let numPages ← foldRange (countPage false dir svm) 0 n 0
  let first := if (← getPageTable dir svm).isNone then 1 else 0
  let (numTables, _) ← foldRange (countMissing dir svm) 0 n (first, svm)
  return u32 (numPages + numTables)

theorem u32_add_if {A B : Prop} [Decidable A] [Decidable B] (h : A ↔ B) (n : ℕ) :
    (if A then u32 (u32 n + 1) else u32 n) = u32 (n + if B then 1 else 0) := by
  by_cases hB : B
  · rw [if_pos (h.mpr hB), if_pos hB]
    simp only [u32]
    omega
  · rw [if_neg (mt h.mp hB), if_neg hB, Nat.add_zero]

section Counts

variable (P : ℕ → Prop) [DecidablePred P]

theorem card_filter_Ico_succ (m k : ℕ) : ((Finset.Ico m (m + (k + 1))).filter P).card =
    ((Finset.Ico m (m + k)).filter P).card + if P (m + k) then 1 else 0 := by
  rw [← Nat.add_assoc, Nat.Ico_succ_right_eq_insert_Ico (by omega), Finset.filter_insert]
  split
  · rw [Finset.card_insert_of_notMem (by simp)]
  · rw [Nat.add_zero]

theorem pdx_of_lt (h : va < 2 ^ 32) : pdx va = va / 2 ^ 22 := by
  rw [pdx]
  omega

theorem tablesOf_one (va : ℕ) : tablesOf va 1 = {pdx va} := by
  simp [tablesOf]

theorem pdx_mem_tablesOf (hlt : va + pageSize * k < 2 ^ 32) : pdx (va + pageSize * k) ∈ tablesOf va k ↔
    k ≠ 0 ∧ pdx (va + pageSize * k) = pdx (va + pageSize * (k - 1)) := by
  rw [tablesOf, Finset.mem_image]
  constructor
  · rintro ⟨i, hi, he⟩
    rw [Finset.mem_range] at hi
    refine ⟨by omega, ?_⟩
    have hle : pageSize * i ≤ pageSize * (k - 1) := Nat.mul_le_mul_left _ (by omega)
    have hle' : pageSize * (k - 1) ≤ pageSize * k := Nat.mul_le_mul_left _ (by omega)
    rw [pdx_of_lt hlt, pdx_of_lt (by omega)] at he
    rw [pdx_of_lt hlt, pdx_of_lt (by omega)]
    have h₁ : (va + pageSize * i) / 2 ^ 22 ≤ (va + pageSize * (k - 1)) / 2 ^ 22 := Nat.div_le_div_right (by omega)
    have h₂ : (va + pageSize * (k - 1)) / 2 ^ 22 ≤ (va + pageSize * k) / 2 ^ 22 := Nat.div_le_div_right (by omega)
    omega
  · rintro ⟨hk, he⟩
    exact ⟨k - 1, Finset.mem_range.mpr (by omega), he.symm⟩

theorem card_filter_tablesOf_succ (hlt : va + pageSize * k < 2 ^ 32) : ((tablesOf va (k + 1)).filter P).card =
    ((tablesOf va k).filter P).card +
      if P (pdx (va + pageSize * k)) ∧ (k = 0 ∨ pdx (va + pageSize * k) ≠ pdx (va + pageSize * (k - 1))) then 1 else 0 := by
  rw [tablesOf_succ, Finset.union_comm, ← Finset.insert_eq, Finset.filter_insert]
  by_cases hP : P (pdx (va + pageSize * k))
  · by_cases hmem : pdx (va + pageSize * k) ∈ tablesOf va k
    · obtain ⟨hk, he⟩ := (pdx_mem_tablesOf hlt).mp hmem
      rw [if_pos hP, Finset.insert_eq_of_mem (Finset.mem_filter.mpr ⟨hmem, hP⟩), if_neg (by simp [hk, he]), Nat.add_zero]
    · have hnew : k = 0 ∨ pdx (va + pageSize * k) ≠ pdx (va + pageSize * (k - 1)) := by
        have := mt (pdx_mem_tablesOf hlt).mpr hmem
        tauto
      rw [if_pos hP, Finset.card_insert_of_notMem fun h => hmem (Finset.mem_filter.mp h).1, if_pos ⟨hP, hnew⟩]
  · rw [if_neg hP, if_neg fun h => hP h.1, Nat.add_zero]

end Counts

/-- The directory indices whose 4 MB meet a range. -/
def indicesOf (lo hi : ℕ) : Finset ℕ :=
  (Finset.range 1024).filter fun i => max lo (2 ^ 22 * i) < min hi (2 ^ 22 * (i + 1))

theorem mem_indicesOf {lo hi : ℕ} : i ∈ indicesOf lo hi ↔
    i < 1024 ∧ max lo (2 ^ 22 * i) < min hi (2 ^ 22 * (i + 1)) := by
  rw [indicesOf, Finset.mem_filter, Finset.mem_range]

theorem tablesOf_numOfPages {lo hi : ℕ} (hlo : pageSize ∣ lo) (hhi : pageSize ∣ hi) (hlt : hi ≤ 2 ^ 32) :
    tablesOf lo (numOfPages lo hi) = indicesOf lo hi := by
  obtain ⟨a, rfl⟩ := hlo
  obtain ⟨b, rfl⟩ := hhi
  ext i
  simp only [tablesOf, Finset.mem_image, Finset.mem_range, mem_indicesOf, numOfPages, pageSize] at hlt ⊢
  constructor
  · rintro ⟨k, hk, rfl⟩
    rw [pdx_of_lt (by omega)]
    omega
  · rintro ⟨hi, hmeet⟩
    refine ⟨max a (1024 * i) - a, by omega, ?_⟩
    rw [pdx_of_lt (by omega)]
    omega

/-- The pointer that `get_page_table` makes of an entry with index `i`. -/
def tablePointer (s : Machine) (i w : ℕ) : ℕ :=
  if pdx userTop ≤ i then u32 (extractAddress w + kernelBase) else (s.framesInfo (frameNumber w)).va

/-- The entry for a page by its number, 0 without a table. -/
def pageEntry (s : Machine) (d p : ℕ) : ℕ :=
  if wordAt (s.ram d) (p / 1024) = 0 then 0
  else wordAt (s.ram (frameNumber (wordAt (s.ram d) (p / 1024)))) (p % 1024)

/-- The kernel reads the directory, which lies in the frame `d`, and those of its tables that have
an index in `I`. Neighbouring indices have different tables. -/
structure PageDirectory (s : Machine) (dir d : ℕ) (I : Set ℕ) : Prop where
  read : s.translate permPresent dir = some d
  entry : ∀ i ∈ I, wordAt (s.ram d) i = 0 ∨ HasPerm (wordAt (s.ram d) i) permPresent
  frame : ∀ i ∈ I, wordAt (s.ram d) i ≠ 0 → frameNumber (wordAt (s.ram d) i) < s.numberOfFrames
  pointer : ∀ i ∈ I, wordAt (s.ram d) i ≠ 0 → s.tablePointer i (wordAt (s.ram d) i) ≠ 0 ∧
    s.translate permPresent (s.tablePointer i (wordAt (s.ram d) i)) = some (frameNumber (wordAt (s.ram d) i))
  page : ∀ p, p / 1024 ∈ I → s.pageEntry d p ≠ 0 → frameNumber (s.pageEntry d p) < s.numberOfFrames
  apart : ∀ i ∈ I, i + 1 ∈ I → wordAt (s.ram d) i ≠ 0 → wordAt (s.ram d) (i + 1) ≠ 0 →
    frameNumber (wordAt (s.ram d) i) ≠ frameNumber (wordAt (s.ram d) (i + 1))

def pointerAt (s : Machine) (d i : ℕ) : ℕ :=
  if wordAt (s.ram d) i = 0 then 0 else s.tablePointer i (wordAt (s.ram d) i)

namespace PageDirectory

variable (h : PageDirectory s dir d I)
include h

theorem getPageTable_run (hi : pdx va ∈ I) (hva : va < 2 ^ 32) : (getPageTable dir va).run s =
    .ok (if wordAt (s.ram d) (pdx va) = 0 then none else some (s.tablePointer (pdx va) (wordAt (s.ram d) (pdx va))), s) := by
  rw [getPageTable, run_bind_ok (readEntry_run h.read)]
  by_cases h0 : wordAt (s.ram d) (pdx va) = 0
  · rw [h0, if_neg (by decide), if_neg (by simp), if_pos rfl, run_pure]
  · have hlt := h.frame _ hi h0
    rw [← frameNumber_extractAddress] at hlt
    have hkernel : checkIfKernelAddress va = decide (pdx userTop ≤ pdx va) := by
      rw [checkIfKernelAddress, decide_eq_decide, pdx_of_lt hva]
      simp only [pdx, userTop]
      omega
    rw [if_pos ((h.entry _ hi).resolve_left h0), if_neg h0, tablePointer, hkernel]
    by_cases hk : pdx userTop ≤ pdx va
    · simp only [decide_eq_true hk, if_true, if_pos hk]
      rw [run_bind_ok (staticKernelVirtualAddress_run hlt), run_pure]
    · simp only [decide_eq_false hk, Bool.false_eq_true, if_false, if_neg hk]
      rw [run_bind_ok (kheapVirtualAddress_run hlt), frameNumber_extractAddress, run_pure]

theorem getFrameInfo_run (hi : pdx va ∈ I) (hva : va < 2 ^ 32) : ∃ r, (getFrameInfo dir va).run s = .ok (r, s) ∧
    r.1.isSome = decide (s.pageEntry d (pageNumber va) ≠ 0) := by
  have hget := h.getPageTable_run hi hva
  have hpage := h.page (pageNumber va)
  rw [← pdx_eq hva] at hpage
  simp only [pageEntry, ← pdx_eq hva, ← ptx_eq] at hpage ⊢
  by_cases h0 : wordAt (s.ram d) (pdx va) = 0
  · rw [if_pos h0] at hget ⊢
    exact ⟨(none, 0), run_bind_ok hget, rfl⟩
  · obtain ⟨hne, htr⟩ := h.pointer _ hi h0
    rw [if_neg h0] at hget hpage ⊢
    rw [getFrameInfo, run_bind_ok hget]
    simp only [Option.getD_some, if_pos hne]
    rw [run_bind_ok (readEntry_run htr)]
    by_cases hw : wordAt (s.ram (frameNumber (wordAt (s.ram d) (pdx va)))) (ptx va) = 0
    · rw [if_neg (by simpa using hw)]
      exact ⟨_, run_pure _, by simp [hw]⟩
    · have hlt := hpage hi hw
      rw [← frameNumber_extractAddress] at hlt
      rw [if_pos hw, run_bind_ok (toFrameInfo_run hlt)]
      exact ⟨_, run_pure _, by simp [hw]⟩

theorem isMapped_run (hi : pdx va ∈ I) (hva : va < 2 ^ 32) :
    (isMapped dir va).run s = .ok (decide (s.pageEntry d (pageNumber va) ≠ 0), s) := by
  obtain ⟨r, hrun, hr⟩ := h.getFrameInfo_run hi hva
  rw [isMapped, run_bind_ok hrun, ← hr, run_pure]

theorem countTable_run (hi : pdx va ∈ I) (hva : va < 2 ^ 32) (hpage : pageOf sva k = va) (c : ℕ × ℕ) :
    (countTable dir sva k c).run s = .ok ((if s.pointerAt d (pdx va) ≠ c.2 ∧ s.pointerAt d (pdx va) ≠ 0
      then u32 (c.1 + 1) else c.1, s.pointerAt d (pdx va)), s) := by
  have hget : (if wordAt (s.ram d) (pdx va) = 0 then none
      else some (s.tablePointer (pdx va) (wordAt (s.ram d) (pdx va)))).getD 0 = s.pointerAt d (pdx va) := by
    rw [pointerAt]
    split <;> rfl
  rw [countTable, hpage, run_bind_ok (h.getPageTable_run hi hva)]
  simp only [hget]
  split <;> rfl

theorem pointerAt_ne_zero (hi : i ∈ I) : s.pointerAt d i ≠ 0 ↔ wordAt (s.ram d) i ≠ 0 := by
  rw [pointerAt]
  by_cases h0 : wordAt (s.ram d) i = 0
  · simp [h0]
  · simp [h0, (h.pointer i hi h0).1]

/-- The pointers of neighbours differ, unless the second is null. -/
theorem pointerAt_ne (hi : i ∈ I) (hi' : i + 1 ∈ I) (h0 : wordAt (s.ram d) (i + 1) ≠ 0) :
    s.pointerAt d (i + 1) ≠ s.pointerAt d i := by
  obtain ⟨hne, htr⟩ := h.pointer _ hi' h0
  rw [pointerAt, pointerAt, if_neg h0]
  by_cases h0' : wordAt (s.ram d) i = 0
  · rwa [if_pos h0']
  · rw [if_neg h0']
    intro he
    rw [he, (h.pointer _ hi h0').2] at htr
    exact h.apart i hi hi' h0' h0 (Option.some.inj htr)

theorem new_table_iff (hlt : va + pageSize * (k + 1) < 2 ^ 32) (hi : pdx (va + pageSize * k) ∈ I)
    (hi' : pdx (va + pageSize * (k + 1)) ∈ I) :
    s.pointerAt d (pdx (va + pageSize * (k + 1))) ≠ s.pointerAt d (pdx (va + pageSize * k)) ∧
        s.pointerAt d (pdx (va + pageSize * (k + 1))) ≠ 0 ↔
      wordAt (s.ram d) (pdx (va + pageSize * (k + 1))) ≠ 0 ∧
        pdx (va + pageSize * (k + 1)) ≠ pdx (va + pageSize * k) := by
  rw [h.pointerAt_ne_zero hi', and_comm]
  refine and_congr_right fun h0 => ?_
  by_cases he : pdx (va + pageSize * (k + 1)) = pdx (va + pageSize * k)
  · simp [he]
  · have hnext : pdx (va + pageSize * (k + 1)) = pdx (va + pageSize * k) + 1 := by
      simp only [pdx, pageSize] at *
      omega
    rw [hnext] at h0 hi' ⊢
    simp [h.pointerAt_ne hi hi' h0]

theorem countTables_run (hva : ∀ k < n, sva + pageSize * k < 2 ^ 32) (hI : ∀ i ∈ tablesOf sva n, i ∈ I)
    (hlt : numTables < 2 ^ 32) : ∃ q, (foldRange (countTable dir sva) 0 n (numTables, 0)).run s =
      .ok ((u32 (numTables + ((tablesOf sva n).filter fun i => wordAt (s.ram d) i ≠ 0).card), q), s) := by
  have hmem {k : ℕ} (hk : k < n) : pdx (sva + pageSize * k) ∈ I :=
    hI _ (Finset.mem_image_of_mem _ (Finset.mem_range.mpr hk))
  let prev (k : ℕ) : ℕ := if k = 0 then 0 else s.pointerAt d (pdx (sva + pageSize * (k - 1)))
  let count (k : ℕ) : ℕ := ((tablesOf sva k).filter fun i => wordAt (s.ram d) i ≠ 0).card
  have hnew {k : ℕ} (hk : k < n) : s.pointerAt d (pdx (sva + pageSize * k)) ≠ prev k ∧
        s.pointerAt d (pdx (sva + pageSize * k)) ≠ 0 ↔ wordAt (s.ram d) (pdx (sva + pageSize * k)) ≠ 0 ∧
          (k = 0 ∨ pdx (sva + pageSize * k) ≠ pdx (sva + pageSize * (k - 1))) := by
    cases k with
    | zero => simpa [prev] using h.pointerAt_ne_zero (hmem hk)
    | succ k => simpa [prev] using h.new_table_iff (hva _ hk) (hmem (by omega)) (hmem hk)
  have hloop := foldRange_run (s := s) (countTable dir sva) (fun k => (u32 (numTables + count k), prev k))
    (i := 0) (n := n) fun k _ hk => by
      rw [Nat.zero_add] at hk
      have hcount : count (k + 1) = _ := card_filter_tablesOf_succ (fun i => wordAt (s.ram d) i ≠ 0) (hva _ hk)
      rw [h.countTable_run (hmem hk) (hva _ hk) (pageOf_eq (hva _ hk)), u32_add_if (hnew hk), Nat.add_assoc, hcount]
      rfl
  rw [Nat.zero_add] at hloop
  refine ⟨prev n, ?_⟩
  rw [← hloop]
  simp [count, prev, tablesOf_zero, u32_of_lt hlt]

end PageDirectory

theorem countPages_run {P : ℕ → Prop} [DecidablePred P] (b : Bool) (hlt : c < 2 ^ 32)
    (hP : ∀ k < n, (isMapped dir (pageOf sva k)).run s = .ok (decide (P (m + k)), s)) :
    (foldRange (countPage b dir sva) 0 n c).run s =
      .ok (u32 (c + ((Finset.Ico m (m + n)).filter fun p => decide (P p) = b).card), s) := by
  have hloop := foldRange_run (s := s) (countPage b dir sva) (i := 0) (n := n)
    (fun k => u32 (c + ((Finset.Ico m (m + k)).filter fun p => decide (P p) = b).card)) fun k _ hk => by
      rw [countPage, run_bind_ok (hP k (by omega)), card_filter_Ico_succ (fun p => decide (P p) = b), ← Nat.add_assoc,
        ← u32_add_if Iff.rfl]
      split <;> rfl
  simpa [u32_of_lt hlt] using hloop

def pagesOf (lo hi : ℕ) : Finset ℕ := Finset.Ico (pageNumber lo) (pageNumber hi)

theorem pagesOf_eq {lo hi : ℕ} (hlo : pageSize ∣ lo) (hhi : pageSize ∣ hi) :
    pagesOf lo hi = Finset.Ico (pageNumber lo) (pageNumber lo + numOfPages lo hi) := by
  obtain ⟨a, rfl⟩ := hlo
  obtain ⟨b, rfl⟩ := hhi
  ext p
  simp only [pagesOf, Finset.mem_Ico, pageNumber, numOfPages, pageSize]
  omega

/-- Exactly the present tables whose 4 MB the range meets are counted, and exactly its pages with an
entry that is not 0; nothing is changed. -/
theorem calculateAllocatedSpace_counts
    (h : PageDirectory s dir d (indicesOf (roundDown sva pageSize) (roundUp eva pageSize)))
    (hT : numTables < 2 ^ 32) (hP : numPages < 2 ^ 32) :
    (calculateAllocatedSpace dir sva eva numTables numPages).run s = .ok
      ((u32 (numTables + ((indicesOf (roundDown sva pageSize) (roundUp eva pageSize)).filter fun i =>
          wordAt (s.ram d) i ≠ 0).card),
        u32 (numPages + ((pagesOf (roundDown sva pageSize) (roundUp eva pageSize)).filter fun p =>
          s.pageEntry d p ≠ 0).card)), s) := by
  have hlo := roundDown_dvd sva pageSize
  have hhi := roundUp_dvd eva pageSize
  have hhi32 : roundUp eva pageSize < 2 ^ 32 := (roundDown_le _ _).trans_lt (Nat.mod_lt _ (by decide))
  have htables := tablesOf_numOfPages hlo hhi hhi32.le
  have hva (k : ℕ) (hk : k < numOfPages (roundDown sva pageSize) (roundUp eva pageSize)) :
      roundDown sva pageSize + pageSize * k < 2 ^ 32 := by
    simp only [numOfPages, pageSize] at hk hhi32 ⊢
    omega
  rw [← htables] at h ⊢
  have hmapped (k : ℕ) (hk : k < numOfPages (roundDown sva pageSize) (roundUp eva pageSize)) :
      (isMapped dir (pageOf (roundDown sva pageSize) k)).run s =
        .ok (decide (s.pageEntry d (pageNumber (roundDown sva pageSize) + k) ≠ 0), s) := by
    rw [pageOf_eq (hva k hk), ← pageNumber_add]
    exact h.isMapped_run (Finset.mem_image_of_mem _ (Finset.mem_range.mpr hk)) (hva k hk)
  obtain ⟨q, hcount⟩ := h.countTables_run hva (fun _ => id) hT
  rw [calculateAllocatedSpace, run_bind_ok hcount,
    run_bind_ok (countPages_run (P := fun p => s.pageEntry d p ≠ 0) true hP hmapped), run_pure, pagesOf_eq hlo hhi]
  simp only [decide_eq_true_eq]

namespace Layout

variable (h : Layout E s g) (ho : g (.root τ) ≠ 0)
include h ho

theorem pde_word (hi : i < pdx userTop) : wordAt (s.ram (s.pageFrame (g (.root τ)))) i =
    if g (.leaf τ i) = 0 then 0
    else constructEntry (toPhysicalAddress (s.pageFrame (g (.leaf τ i)))) τ.perm := by
  rw [← h.pde τ i hi ho, cellWord_word ho (hi.trans (by decide))]

theorem pde_word_ne_zero (hi : i < pdx userTop) :
    wordAt (s.ram (s.pageFrame (g (.root τ)))) i ≠ 0 ↔ g (.leaf τ i) ≠ 0 := by
  rw [h.pde_word ho hi]
  by_cases hl : g (.leaf τ i) = 0
  · simp [hl]
  · have hpresent := ne_zero_of_hasPerm_present (HasPerm.or_left (a := toPhysicalAddress (s.pageFrame (g (.leaf τ i))))
      τ.perm_present)
    rw [if_neg hl]
    exact iff_of_true hpresent hl

theorem frameNumber_pde_word (hi : i < pdx userTop) (hl : g (.leaf τ i) ≠ 0) :
    frameNumber (wordAt (s.ram (s.pageFrame (g (.root τ)))) i) = s.pageFrame (g (.leaf τ i)) := by
  rw [h.pde_word ho hi, if_neg hl, toPhysicalAddress, pageSize, frameNumber_constructEntry τ.perm_lt]

theorem pageEntry_eq {p : ℕ} (hi : p / 1024 < pdx userTop) :
    s.pageEntry (s.pageFrame (g (.root τ))) p = s.entries g (τ, p) := by
  have hne := h.pde_word_ne_zero ho hi
  rw [pageEntry, entries]
  by_cases hl : g (.leaf τ (p / 1024)) = 0
  · rw [if_pos (by simpa [hl] using hne), cellWord_absent hl]
  · rw [if_neg (hne.mpr hl), h.frameNumber_pde_word ho hi hl, cellWord_word hl (Nat.mod_lt _ (by decide))]

theorem pageDirectory
    (hlt : ∀ p, s.entries g (τ, p) ≠ 0 → frameNumber (s.entries g (τ, p)) < s.numberOfFrames) :
    PageDirectory s (g (.root τ)) (s.pageFrame (g (.root τ))) {i | i < pdx userTop} where
  read := h.translate_object ho (by decide)
  entry i hi := by
    rw [h.pde_word ho hi]
    split
    · exact .inl rfl
    · exact .inr (HasPerm.or_left τ.perm_present)
  frame i hi h0 := by
    have hl := (h.pde_word_ne_zero ho hi).mp h0
    rw [h.frameNumber_pde_word ho hi hl]
    exact h.managed_lt (h.object _ (by simp) hl).managed
  pointer i hi h0 := by
    have hl := (h.pde_word_ne_zero ho hi).mp h0
    rw [tablePointer, if_neg (not_le.mpr hi), h.frameNumber_pde_word ho hi hl, (h.object _ (by simp) hl).va]
    exact ⟨hl, h.translate_object hl (by decide)⟩
  page p hp := by
    rw [h.pageEntry_eq ho hp]
    exact hlt p
  apart i hi hi' h0 h0' := by
    have hl := (h.pde_word_ne_zero ho hi).mp h0
    have hl' := (h.pde_word_ne_zero ho hi').mp h0'
    rw [h.frameNumber_pde_word ho hi hl, h.frameNumber_pde_word ho hi' hl']
    intro he
    have := (Obj.leaf.inj (h.pageFrame_inj hl hl' he)).2
    omega

end Layout

theorem PageDirectory.mono {J : Set ℕ} (h : PageDirectory s dir d I) (hJ : J ⊆ I) : PageDirectory s dir d J :=
  ⟨h.read, fun i hi => h.entry i (hJ hi), fun i hi => h.frame i (hJ hi), fun i hi => h.pointer i (hJ hi),
    fun p hp => h.page p (hJ hp), fun i hi hi' => h.apart i (hJ hi) (hJ hi')⟩

/-- The first of two pages is mapped. -/
theorem calculateAllocatedSpace_counts_onePage : ∃ s dir d, PageDirectory s dir d (indicesOf 0 8192) ∧
    (calculateAllocatedSpace dir 5 4097 0 0).run s = .ok ((1, 1), s) := by
  obtain ⟨s, g, f, hs, ho, hentries, hf, -⟩ := exists_onePage
  have hentry (p : ℕ) : s.entries g (.user 0, p) ≠ 0 ↔ p = 0 := by
    rw [hentries, Function.update_apply]
    split
    · simp_all [newEntry_ne_zero]
    · simp_all
  have hlt (p : ℕ) (hp : s.entries g (.user 0, p) ≠ 0) : frameNumber (s.entries g (.user 0, p)) < s.numberOfFrames := by
    rw [(hentry p).mp hp, hentries, Function.update_self, frameNumber_newEntry (by decide)]
    exact hs.ordinary_lt hf.toOrdinary
  have hindices : indicesOf 0 8192 = {0} := by
    ext i
    rw [mem_indicesOf, Finset.mem_singleton]
    omega
  have hround : roundDown 5 pageSize = 0 ∧ roundUp 4097 pageSize = 8192 := by decide
  have hdir := (hs.pageDirectory ho hlt).mono (J := indicesOf 0 8192) fun i hi => by
    rw [hindices] at hi
    rw [Finset.mem_coe.mp hi |> Finset.mem_singleton.mp]
    exact (show 0 < pdx userTop by decide)
  have hpages : (pagesOf 0 8192).filter (fun p => s.pageEntry (s.pageFrame (g (.root (.user 0)))) p ≠ 0) = {0} := by
    ext p
    rw [Finset.mem_filter, pagesOf, Finset.mem_Ico, Finset.mem_singleton, show pageNumber 8192 = 2 by decide]
    constructor
    · rintro ⟨⟨-, hp⟩, h0⟩
      rwa [hs.pageEntry_eq ho (by rw [Nat.div_eq_of_lt (by omega)]; decide), hentry] at h0
    · rintro rfl
      refine ⟨⟨by decide, by decide⟩, ?_⟩
      rw [hs.pageEntry_eq ho (by decide), hentry]
  have htables : ({0} : Finset ℕ).filter (fun i => wordAt (s.ram (s.pageFrame (g (.root (.user 0))))) i ≠ 0) = {0} := by
    have hl : g (.leaf (.user 0) 0) ≠ 0 := table_of_entry (show 0 < userTop by decide) ((hentry 0).mpr rfl)
    rw [Finset.filter_singleton, if_pos ((hs.pde_word_ne_zero ho (by decide)).mpr hl)]
  have hrun : (calculateAllocatedSpace (g (.root (.user 0))) 5 4097 0 0).run s = _ :=
    calculateAllocatedSpace_counts (by rw [hround.1, hround.2]; exact hdir) (by decide) (by decide)
  rw [hround.1, hround.2, hindices, htables, hpages] at hrun
  exact ⟨s, _, _, hdir, hrun⟩

namespace Layout

variable (h : Layout E s g) (ho : g (.root τ) ≠ 0)
include h ho

theorem getPageTable_isNone (hva : va < userTop) : ∃ r, (getPageTable (g (.root τ)) va).run s = .ok (r, s) ∧
    r.isNone = decide (g (.leaf τ (pdx va)) = 0) := by
  by_cases hl : g (.leaf τ (pdx va)) = 0
  · exact ⟨none, h.getPageTable_none ho hva hl, by simp [hl]⟩
  · exact ⟨_, (h.hasTable hva hl).get, by simp [hl]⟩

end Layout

theorem countMissing_run (h : Layout E s g) (ho : g (.root τ) ≠ 0) (hpage : pageOf sva k = va) (hva : va < userTop)
    (c : ℕ × ℕ) : (countMissing (g (.root τ)) sva k c).run s =
      .ok ((if g (.leaf τ (pdx va)) = 0 ∧ pdx va ≠ pdx c.2 then u32 (c.1 + 1) else c.1, va), s) := by
  obtain ⟨r, hrun, hr⟩ := h.getPageTable_isNone ho hva
  subst hpage
  rw [countMissing]
  refine (run_bind_ok hrun).trans ?_
  simp only [hr, decide_eq_true_eq]
  split <;> rfl

theorem countMissingTables_run (h : Layout E s g) (ho : g (.root τ) ≠ 0) (hle : sva + pageSize * n ≤ userTop) : ∃ q,
    (foldRange (countMissing (g (.root τ)) sva) 0 n (u32 (absent g τ (tablesOf sva 1)).card, sva)).run s =
      .ok ((u32 (absent g τ (tablesOf sva (max n 1))).card, q), s) := by
  let count (k : ℕ) : ℕ := (absent g τ (tablesOf sva (max k 1))).card
  have hsucc {k : ℕ} (hlt : sva + pageSize * k < userTop) : count (k + 1) = count k +
      if g (.leaf τ (pdx (sva + pageSize * k))) = 0 ∧
        pdx (sva + pageSize * k) ≠ pdx (sva + pageSize * (k - 1)) then 1 else 0 := by
    cases k with
    | zero => simp [count]
    | succ k =>
      have := card_filter_tablesOf_succ (fun i => g (.leaf τ i) = 0) (hlt.trans userTop_lt)
      have hmax (m : ℕ) : count (m + 1) = (absent g τ (tablesOf sva (m + 1))).card := by
        show (absent g τ (tablesOf sva (max (m + 1) 1))).card = _
        rw [max_eq_left (Nat.le_add_left 1 m)]
      rw [hmax, hmax]
      simp only [Nat.add_sub_cancel, Nat.succ_ne_zero, false_or] at this ⊢
      exact this
  have hloop := foldRange_run (s := s) (countMissing (g (.root τ)) sva)
    (fun k => (u32 (count k), sva + pageSize * (k - 1))) (i := 0) (n := n) fun k _ hk => by
      obtain ⟨hpage, hlt⟩ := pageOf_user hle (show k < n by omega)
      rw [countMissing_run h ho hpage hlt, hsucc hlt, Nat.add_sub_cancel]
      simp only [u32_add_if Iff.rfl]
  rw [Nat.zero_add] at hloop
  exact ⟨_, hloop⟩

/-- It returns the number of pages without an entry and of missing tables, that of the first page included,
and changes nothing. -/
theorem CanAllocate.calculateRequiredFrames_run (h : CanAllocate E s g τ va size perms) (hva : va < userTop)
    (hle : va + size ≤ userTop) : (calculateRequiredFrames (g (.root τ)) va size).run s =
      .ok (((Finset.Ico (pageNumber va) (pageNumber va + chunkPages va size)).filter fun p => s.entries g (τ, p) = 0).card +
        (absent g τ (tablesOf (roundDown va pageSize) (max (chunkPages va size) 1))).card, s) := by
  have hend := chunkPages_le (by decide) (by decide) hle
  have hdvd := roundDown_dvd va pageSize
  have hsva : roundDown va pageSize < userTop := (roundDown_le _ _).trans_lt hva
  have hmapped (k : ℕ) (hk : k < chunkPages va size) : (isMapped (g (.root τ)) (pageOf (roundDown va pageSize) k)).run s =
      .ok (decide (s.entries g (τ, pageNumber va + k) ≠ 0), s) := by
    obtain ⟨hpage, hlt⟩ := pageOf_user hend hk
    have hframe := h.frame_lt k hk
    rw [← entries_cellAt hlt] at hframe
    rw [hpage, h.ready.isMapped_run h.root hlt hframe, pageNumber_add, pageNumber_roundDown]
  obtain ⟨r, hget, hr⟩ := h.ready.getPageTable_isNone h.root hsva
  obtain ⟨q, htables⟩ := countMissingTables_run h.ready.toLayout h.root hend
  have hfirst : (if r.isNone then 1 else 0) = u32 (absent g τ (tablesOf (roundDown va pageSize) 1)).card := by
    rw [tablesOf_one, card_absent_singleton, missing, hr]
    by_cases hl : g (.leaf τ (pdx (roundDown va pageSize))) = 0
    · simp [hl, u32]
    · simp [hl, u32]
  have hpages : ((Finset.Ico (pageNumber va) (pageNumber va + chunkPages va size)).filter fun p =>
      s.entries g (τ, p) = 0).card ≤ chunkPages va size := by
    refine (Finset.card_filter_le _ _).trans ?_
    rw [Nat.card_Ico]
    omega
  have hmissing : (absent g τ (tablesOf (roundDown va pageSize) (max (chunkPages va size) 1))).card ≤
      max (chunkPages va size) 1 :=
    (Finset.card_filter_le _ _).trans (Finset.card_image_le.trans (Finset.card_range _).le)
  have hn : chunkPages va size < 2 ^ 20 := by
    simp only [pageSize, userTop] at hend
    omega
  rw [calculateRequiredFrames]
  refine (run_bind_ok (countPages_run (P := fun p => s.entries g (τ, p) ≠ 0) false (by decide) hmapped)).trans ?_
  simp only [decide_eq_false_iff_not, not_not, Nat.zero_add]
  rw [run_bind_ok hget, hfirst]
  refine (run_bind_ok htables).trans ?_
  have hP := u32_of_lt (hpages.trans_lt (hn.trans (by decide)))
  have hT := u32_of_lt (hmissing.trans_lt (show _ < 2 ^ 32 by omega))
  rw [run_pure, hP, hT, u32_of_lt (by omega)]

/-- `calculate_required_frames` changes nothing, and if `allocate_chunk` returns 0 next, the free
list is shorter by the predicted number afterwards. -/
def Predicts (s : Machine) (dir va size perms : ℕ) : Prop :=
  ∃ n, (calculateRequiredFrames dir va size).run s = .ok (n, s) ∧
    ∀ t, (allocateChunk createPageTable dir va size perms).run s = .ok (0, t) →
      t.freeFrameList.length + n = s.freeFrameList.length

/-- What `allocate_chunk` takes when it returns 0. -/
theorem CanAllocate.allocateChunk_zero (h : CanAllocate E s g τ va size perms) (hva : va < userTop)
    (hle : va + size ≤ userTop)
    (hrun : (allocateChunk createPageTable (g (.root τ)) va size perms).run s = .ok (0, t)) :
    (∀ k < chunkPages va size, s.entries g (τ, pageNumber va + k) = 0) ∧ t.freeFrameList.length +
      ((absent g τ (tablesOf (roundDown va pageSize) (chunkPages va size))).card + chunkPages va size) =
        s.freeFrameList.length := by
  have hend := chunkPages_le (by decide) (by decide) hle
  have hdvd := roundDown_dvd va pageSize
  have hheap : HeapInv s := by
    rcases h.range with ⟨-, hheap⟩ | ⟨hge, -⟩
    · exact hheap
    · exact absurd (hva.trans_le (show userTop ≤ kernelHeapStart by decide)) (not_lt.mpr hge)
  have hcell {k : ℕ} (hk : k < chunkPages va size) :
      s.cellWord g (cellAt τ (roundDown va pageSize + pageSize * k)) = s.entries g (τ, pageNumber va + k) := by
    rw [← entries_cellAt (pageOf_user hend hk).2, pageNumber_add, pageNumber_roundDown]
  rw [allocateChunk] at hrun
  replace hrun := (run_bind_ok h.check_run).symm.trans hrun
  by_cases hmapped : ∃ k < chunkPages va size, s.cellWord g (cellAt τ (roundDown va pageSize + pageSize * k)) ≠ 0
  · rw [decide_eq_true hmapped] at hrun
    cases hrun
  · have h0 (k : ℕ) (hk : k < chunkPages va size) : s.entries g (τ, pageNumber va + k) = 0 := by
      by_contra hne
      exact hmapped ⟨k, hk, by rwa [hcell hk]⟩
    refine ⟨h0, ?_⟩
    rw [decide_eq_false hmapped] at hrun
    have hsat := h.userPages_sat ⟨h.ready, hheap⟩ hend fun k hk => by
      rw [pageNumber_roundDown]
      exact h0 k hk
    obtain ⟨g', F, ht⟩ := Sat.ok (Q := fun _ t => ∃ g' F, UserChunk E s g τ (roundDown va pageSize) perms
      (chunkPages va size) F t g') (hsat.bind fun _ t ht => .pure ht) hrun
    have hlen := ht.grows.frames
    rw [ht.grows.free, List.length_drop]
    omega

theorem allocateChunk_empty {cpt : ℕ → ℕ → Kernel ℕ} (h : chunkPages va size = 0) :
    (allocateChunk cpt dir va size perms).run s = .ok (0, s) := by
  have hn : numOfPages (roundDown va pageSize) (roundUp (u32 (va + size)) pageSize) = 0 := h
  rw [allocateChunk]
  simp only [hn]
  rfl

theorem CanAllocate.not_predicts (h : CanAllocate E s g τ va size perms) (hva : va < userTop)
    (hle : va + size ≤ userTop) (hpages : chunkPages va size = 0) (hl : g (.leaf τ (pdx va)) = 0) :
    ¬Predicts s (g (.root τ)) va size perms := by
  rintro ⟨n, hrun, hn⟩
  have hfirst : (absent g τ (tablesOf (roundDown va pageSize) (max (chunkPages va size) 1))).card = 1 := by
    rw [hpages, max_eq_right (by decide), tablesOf_one, card_absent_singleton, missing, pdx_roundDown, if_pos hl]
  obtain ⟨rfl, -⟩ := Prod.mk.inj (Except.ok.inj ((h.calculateRequiredFrames_run hva hle).symm.trans hrun))
  have := hn s (allocateChunk_empty hpages)
  omega

/-- The prediction is right unless the range is empty and its first address has no table. -/
theorem calculateRequiredFrames_predicts_iff (h : CanAllocate E s g τ va size perms) (hva : va < userTop)
    (hle : va + size ≤ userTop) :
    Predicts s (g (.root τ)) va size perms ↔ chunkPages va size ≠ 0 ∨ g (.leaf τ (pdx va)) ≠ 0 := by
  constructor
  · intro hp
    by_contra hnone
    simp only [not_or, not_not] at hnone
    exact h.not_predicts hva hle hnone.1 hnone.2 hp
  · intro hcond
    refine ⟨_, h.calculateRequiredFrames_run hva hle, fun t hrun => ?_⟩
    obtain ⟨h0, hlen⟩ := h.allocateChunk_zero hva hle hrun
    have hall : ((Finset.Ico (pageNumber va) (pageNumber va + chunkPages va size)).filter fun p => s.entries g (τ, p) = 0) =
        Finset.Ico (pageNumber va) (pageNumber va + chunkPages va size) := by
      refine Finset.filter_true_of_mem fun p hp => ?_
      obtain ⟨hge, hlt⟩ := Finset.mem_Ico.mp hp
      have := h0 (p - pageNumber va) (by omega)
      rwa [Nat.add_sub_cancel' hge] at this
    have htables : (absent g τ (tablesOf (roundDown va pageSize) (max (chunkPages va size) 1))).card =
        (absent g τ (tablesOf (roundDown va pageSize) (chunkPages va size))).card := by
      by_cases hpages : chunkPages va size = 0
      · have hl := hcond.resolve_left (by simpa using hpages)
        rw [hpages, max_eq_right (by decide), tablesOf_one, card_absent_singleton, missing, pdx_roundDown, if_neg hl]
        rfl
      · rw [max_eq_left (by omega)]
    rw [hall, htables, Nat.card_Ico]
    omega

private theorem exists_canAllocate (va size perms : ℕ) (hle : va + size ≤ userTop) (hperms : perms < 2 ^ 32) :
    ∃ s g, CanAllocate {0, 1} s g (.user 0) va size perms ∧ ∀ i, g (.leaf (.user 0) i) = 0 := by
  obtain ⟨s, g, hsys, ho, -, -, hleaf, -⟩ := exists_twoDirectories
  refine ⟨s, g, ⟨⟨by simp, ho, hperms⟩, hsys.stocked.toReady, fun k hk hne => ?_,
    .inl ⟨hle, hsys.stocked.heap⟩⟩, hleaf _⟩
  rw [cellAt_user (pageOf_user (chunkPages_le (by decide) (by decide) hle) hk).2, cellWord_absent (hleaf _ _)] at hne
  exact absurd rfl hne

/-- One page in a table that is missing. -/
theorem calculateRequiredFrames_predicts_iff_onePage : ∃ s g,
    CanAllocate {0, 1} s g (.user 0) (4 * 2 ^ 20 + 5) 1 permWriteable ∧
    Predicts s (g (.root (.user 0))) (4 * 2 ^ 20 + 5) 1 permWriteable := by
  obtain ⟨s, g, h, -⟩ := exists_canAllocate (4 * 2 ^ 20 + 5) 1 permWriteable (by decide) (by decide)
  exact ⟨s, g, h, (calculateRequiredFrames_predicts_iff h (by decide) (by decide)).mpr (.inl (by decide))⟩

/-- No page at all, at the beginning of a table that is missing. -/
theorem not_predicts_emptyRange : ∃ s g, CanAllocate {0, 1} s g (.user 0) (4 * 2 ^ 20) 0 permWriteable ∧
    ¬Predicts s (g (.root (.user 0))) (4 * 2 ^ 20) 0 permWriteable := by
  obtain ⟨s, g, h, hleaf⟩ := exists_canAllocate (4 * 2 ^ 20) 0 permWriteable (by decide) (by decide)
  exact ⟨s, g, h, h.not_predicts (by decide) (by decide) (by decide) (hleaf _)⟩

end FosKernel.Machine
