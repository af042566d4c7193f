import FosKernel.PageFileImages

/-!
# Iterating over the segments of a program

`PROGRAM_SEGMENT_FOREACH` keeps its position in the record that it hands to its body. The
loops that skip headers read a header before they compare its number with `e_phnum`, so
they may read one record behind the last header.
-/

namespace FosKernel.ProgramSegments
open FailingPrograms
open ProgramLoading (Elf Proghdr ProgramSegment elfProgLoad elfMagic loadedFrom programSegments)

/-- A program in memory. The records that cannot be read are `none`. -/
structure Image where
  ptrProgramStart : ℕ
  eMagic : ℕ
  ePhnum : ℕ
  ePhnum_lt : ePhnum < 2 ^ 16
  ph : ℕ → Option Proghdr

/-- Where the iteration stops. -/
inductive Stop
  /-- `Matafa2nash 3ala Keda` -/
  | badMagic
  /-- a record that cannot be read -/
  | pageFault
  /-- more rounds than were given -/
  | fuel
deriving DecidableEq

def readHeader (x : Image) (i : ℕ) : Except Stop Proghdr :=
  match x.ph i with
  | some h => .ok h
  | none => .error .pageFault

/-- The loops that skip headers of other types. -/
def skipHeaders (x : Image) (segmentId : ℕ) : Except Stop ℕ := do
  let h ← readHeader x segmentId
  if h.pType ≠ elfProgLoad ∧ segmentId < x.ePhnum then skipHeaders x (u32 (segmentId + 1))
  else return segmentId
termination_by x.ePhnum - segmentId
decreasing_by
  rename_i hc
  have := x.ePhnum_lt
  rw [u32_of_lt (by omega)]
  omega

/-- The assignments from the header that the record is at. -/
def takeHeader (x : Image) (seg : ProgramSegment) : Except Stop ProgramSegment := do
  let h ← readHeader x seg.segmentId
  return { seg with
    ptrStart := u32 (x.ptrProgramStart + h.pOffset)
    sizeInMemory := h.pMemsz
    sizeInFile := h.pFilesz
    virtualAddress := h.pVa }

/-- `segment_id` is -1 -/
def noSegment : ℕ := 2 ^ 32 - 1

/-- The record starts with whatever the stack holds. -/
def programSegmentFirst (x : Image) (seg : ProgramSegment) : Except Stop ProgramSegment := do
  if x.eMagic ≠ elfMagic then throw .badMagic
  let index ← skipHeaders x 0
  if index < x.ePhnum then takeHeader x { seg with segmentId := index }
  else return { seg with segmentId := noSegment }

/-- The record, and whether the pointer to it is returned rather than 0. -/
def programSegmentNext (x : Image) (seg : ProgramSegment) : Except Stop (ProgramSegment × Bool) := do
  if x.eMagic ≠ elfMagic then throw .badMagic
  let index ← skipHeaders x (u32 (seg.segmentId + 1))
  if index < x.ePhnum then return (← takeHeader x { seg with segmentId := index }, true)
  else return ({ seg with segmentId := index }, false)

section Loop

variable {σ ε : Type} (stop : Stop → ε) (x : Image) (body : ProgramSegment → Prog σ ε PUnit)

/-- A stop of the iteration is a stop of the program that iterates. -/
def lift {α : Type} (r : Except Stop α) : Prog σ ε α :=
  match r with
  | .ok a => pure a
  | .error e => throw (stop e)

/-- The loop, from a test of its condition on. The fuel bounds the tests. -/
def forSegments : ℕ → ProgramSegment × Bool → Prog σ ε PUnit
  | 0, _ => throw (stop .fuel)
  | n + 1, (seg, isSeg) =>
    if isSeg then do
      body seg
      forSegments n (← lift stop (programSegmentNext x seg))
    else pure ⟨⟩

def programSegmentForeach (tmp : ProgramSegment) (n : ℕ) : Prog σ ε PUnit := do
  let tmp ← lift stop (programSegmentFirst x tmp)
  forSegments stop x body n (tmp, tmp.segmentId ≠ noSegment)

end Loop

/-- The segment of a header of type `LOAD`. -/
def loadSegment (x : Image) (i : ℕ) : Option ProgramSegment :=
  (x.ph i).bind fun h =>
    if h.pType = elfProgLoad then
      some ⟨u32 (x.ptrProgramStart + h.pOffset), h.pFilesz, h.pMemsz, h.pVa, i⟩
    else none

/-- The segments whose headers are numbered from `i` on. -/
def segmentsFrom (x : Image) (i : ℕ) : List ProgramSegment :=
  (List.range' i (x.ePhnum - i)).filterMap (loadSegment x)

/-- The headers can be read, and one record behind them. -/
structure Readable (x : Image) : Prop where
  magic : x.eMagic = elfMagic
  header : ∀ i ≤ x.ePhnum, (x.ph i).isSome

variable {x : Image} {i k n : ℕ} {seg : ProgramSegment}

theorem segmentsFrom_of_lt (hi : i < x.ePhnum) :
    segmentsFrom x i = (loadSegment x i).toList ++ segmentsFrom x (i + 1) := by
  rw [segmentsFrom, show x.ePhnum - i = x.ePhnum - (i + 1) + 1 by omega, List.range'_succ,
    List.filterMap_cons, segmentsFrom]
  cases loadSegment x i <;> rfl

theorem segmentsFrom_end (hi : x.ePhnum ≤ i) : segmentsFrom x i = [] := by
  rw [segmentsFrom, Nat.sub_eq_zero_of_le hi]
  rfl

namespace Readable

variable (hx : Readable x)
include hx

theorem readHeader_run (hi : i ≤ x.ePhnum) : ∃ h, x.ph i = some h ∧ readHeader x i = .ok h := by
  obtain ⟨h, hh⟩ := Option.isSome_iff_exists.mp (hx.header i hi)
  exact ⟨h, hh, by rw [readHeader, hh]⟩

theorem skipHeaders_run (hi : i ≤ x.ePhnum) : ∃ k, skipHeaders x i = .ok k ∧ i ≤ k ∧ k ≤ x.ePhnum ∧
    segmentsFrom x i = segmentsFrom x k ∧ (k < x.ePhnum → (loadSegment x k).isSome) := by
  induction hn : x.ePhnum - i generalizing i with
  | zero =>
    obtain ⟨h, -, hread⟩ := hx.readHeader_run hi
    have hnot : ¬(h.pType ≠ elfProgLoad ∧ i < x.ePhnum) := by omega
    refine ⟨i, ?_, le_refl i, hi, rfl, fun hlt => by omega⟩
    rw [skipHeaders, hread]
    exact if_neg hnot
  | succ n ih =>
    obtain ⟨h, hh, hread⟩ := hx.readHeader_run hi
    by_cases hload : h.pType = elfProgLoad
    · have hnot : ¬(h.pType ≠ elfProgLoad ∧ i < x.ePhnum) := fun hc => hc.1 hload
      refine ⟨i, ?_, le_refl i, hi, rfl, fun _ => ?_⟩
      · rw [skipHeaders, hread]
        exact if_neg hnot
      · simp [loadSegment, hh, hload]
    · have hlt := x.ePhnum_lt
      obtain ⟨k, hrun, hle, hk, hsegs, hsome⟩ := ih (i := i + 1) (by omega) (by omega)
      refine ⟨k, ?_, by omega, hk, ?_, hsome⟩
      · rw [skipHeaders, hread]
        refine (if_pos ⟨hload, by omega⟩).trans ?_
        rw [u32_of_lt (by omega), hrun]
      · have hnone : loadSegment x i = none := by simp [loadSegment, hh, hload]
        rw [segmentsFrom_of_lt (by omega), hnone, ← hsegs]
        rfl

theorem takeHeader_run (hi : i ≤ x.ePhnum) (hsome : (loadSegment x i).isSome) (seg : ProgramSegment) :
    ∃ seg', takeHeader x { seg with segmentId := i } = .ok seg' ∧ loadSegment x i = some seg' ∧
      seg'.segmentId = i := by
  obtain ⟨h, hh, hread⟩ := hx.readHeader_run hi
  rw [loadSegment, hh, Option.bind_some] at hsome
  split at hsome
  · rename_i hload
    refine ⟨_, by rw [takeHeader, hread]; rfl, ?_, rfl⟩
    rw [loadSegment, hh, Option.bind_some, if_pos hload]
  · cases hsome

theorem programSegmentFirst_run (tmp : ProgramSegment) : ∃ seg, programSegmentFirst x tmp = .ok seg ∧
    (seg.segmentId < x.ePhnum ∧ segmentsFrom x 0 = seg :: segmentsFrom x (seg.segmentId + 1) ∨
      seg.segmentId = noSegment ∧ segmentsFrom x 0 = []) := by
  obtain ⟨k, hrun, -, hk, hsegs, hsome⟩ := hx.skipHeaders_run (Nat.zero_le x.ePhnum)
  by_cases hlt : k < x.ePhnum
  · obtain ⟨seg, htake, hload, hid⟩ := hx.takeHeader_run hk (hsome hlt) tmp
    refine ⟨seg, ?_, .inl ⟨hid ▸ hlt, ?_⟩⟩
    · simp [programSegmentFirst, hx.magic, hrun, hlt, htake, bind, Except.bind]
    · rw [hsegs, segmentsFrom_of_lt hlt, hload, hid]
      rfl
  · refine ⟨{ tmp with segmentId := noSegment }, ?_, .inr ⟨rfl, ?_⟩⟩
    · simp [programSegmentFirst, hx.magic, hrun, hlt, bind, Except.bind, pure, Except.pure]
    · rw [hsegs, segmentsFrom_end (by omega)]

theorem programSegmentNext_run (hi : seg.segmentId < x.ePhnum) :
    ∃ seg' isSeg, programSegmentNext x seg = .ok (seg', isSeg) ∧
      (isSeg = true ∧ seg.segmentId < seg'.segmentId ∧ seg'.segmentId < x.ePhnum ∧
        segmentsFrom x (seg.segmentId + 1) = seg' :: segmentsFrom x (seg'.segmentId + 1) ∨
      isSeg = false ∧ segmentsFrom x (seg.segmentId + 1) = []) := by
  have hphnum := x.ePhnum_lt
  have hinc : u32 (seg.segmentId + 1) = seg.segmentId + 1 := u32_of_lt (by omega)
  obtain ⟨k, hrun, hle, hk, hsegs, hsome⟩ := hx.skipHeaders_run (i := seg.segmentId + 1) hi
  by_cases hlt : k < x.ePhnum
  · obtain ⟨seg', htake, hload, hid⟩ := hx.takeHeader_run hk (hsome hlt) seg
    refine ⟨seg', true, ?_, .inl ⟨rfl, by omega, hid ▸ hlt, ?_⟩⟩
    · simp [programSegmentNext, hx.magic, hinc, hrun, hlt, htake, bind, Except.bind, pure, Except.pure]
    · rw [hsegs, segmentsFrom_of_lt hlt, hload, hid]
      rfl
  · refine ⟨{ seg with segmentId := k }, false, ?_, .inr ⟨rfl, ?_⟩⟩
    · simp [programSegmentNext, hx.magic, hinc, hrun, hlt, bind, Except.bind, pure, Except.pure]
    · rw [hsegs, segmentsFrom_end (by omega)]

variable {σ ε : Type}

theorem forSegments_run (stop : Stop → ε) (body : ProgramSegment → Prog σ ε PUnit)
    (hi : seg.segmentId < x.ePhnum) (hn : x.ePhnum - seg.segmentId < n) :
    forSegments stop x body n (seg, true) = (seg :: segmentsFrom x (seg.segmentId + 1)).forM body := by
  induction n generalizing seg with
  | zero => omega
  | succ n ih =>
    obtain ⟨seg', isSeg, hnext, ⟨rfl, hlt, hi', hsegs⟩ | ⟨rfl, hsegs⟩⟩ := hx.programSegmentNext_run hi
    · have hrest := ih hi' (by omega)
      rw [forSegments, if_pos rfl, hnext, hsegs]
      exact congrArg (fun rest => body seg >>= fun _ => rest) hrest
    · rw [forSegments, if_pos rfl, hnext, hsegs]
      obtain ⟨n, rfl⟩ : ∃ m, n = m + 1 := ⟨n - 1, by omega⟩
      rfl

end Readable

/-- The segments are those of the headers of type `LOAD` that are numbered below `e_phnum`. -/
theorem mem_segmentsFrom : seg ∈ segmentsFrom x 0 ↔ ∃ i < x.ePhnum, ∃ h, x.ph i = some h ∧
    h.pType = elfProgLoad ∧
    seg = ⟨u32 (x.ptrProgramStart + h.pOffset), h.pFilesz, h.pMemsz, h.pVa, i⟩ := by
  rw [segmentsFrom, List.mem_filterMap]
  constructor
  · rintro ⟨i, hi, hload⟩
    rw [loadSegment, Option.bind_eq_some_iff] at hload
    obtain ⟨h, hh, hload⟩ := hload
    split at hload
    · rename_i htype
      exact ⟨i, by simpa using hi, h, hh, htype, (Option.some.inj hload).symm⟩
    · cases hload
  · rintro ⟨i, hi, h, hh, htype, rfl⟩
    exact ⟨i, by simpa using hi, by rw [loadSegment, hh, Option.bind_some, if_pos htype]⟩

theorem loadSegment_id (h : loadSegment x i = some seg) : seg.segmentId = i := by
  rw [loadSegment, Option.bind_eq_some_iff] at h
  obtain ⟨h, -, hload⟩ := h
  split at hload
  · rw [← Option.some.inj hload]
  · cases hload

theorem pairwise_segmentsFrom (x : Image) (i : ℕ) :
    (segmentsFrom x i).Pairwise fun seg seg' => seg.segmentId < seg'.segmentId := by
  rw [segmentsFrom, List.pairwise_filterMap]
  apply (List.pairwise_lt_range' 1).imp
  intro k m hlt seg hseg seg' hseg'
  rw [loadSegment_id hseg, loadSegment_id hseg']
  exact hlt

/-- When the headers and one record behind them can be read, the loop ends after one run of its
body for each header of type `LOAD` below `e_phnum`, in their order. -/
theorem programSegmentForeach_visits (x : Image) (hmagic : x.eMagic = elfMagic)
    (hread : ∀ i ≤ x.ePhnum, (x.ph i).isSome) :
    (∀ (σ ε : Type) (stop : Stop → ε) (body : ProgramSegment → Prog σ ε PUnit) (tmp : ProgramSegment) (n : ℕ),
      x.ePhnum < n → programSegmentForeach stop x body tmp n = (segmentsFrom x 0).forM body) ∧
    ((segmentsFrom x 0).Pairwise fun seg seg' => seg.segmentId < seg'.segmentId) ∧
    ∀ seg, seg ∈ segmentsFrom x 0 ↔ ∃ i < x.ePhnum, ∃ h, x.ph i = some h ∧ h.pType = elfProgLoad ∧
      seg = ⟨u32 (x.ptrProgramStart + h.pOffset), h.pFilesz, h.pMemsz, h.pVa, i⟩ := by
  have hx : Readable x := ⟨hmagic, hread⟩
  refine ⟨fun σ ε stop body tmp n hn => ?_, pairwise_segmentsFrom x 0, fun seg => mem_segmentsFrom⟩
  have hphnum := x.ePhnum_lt
  have hno : noSegment = 2 ^ 32 - 1 := rfl
  obtain ⟨seg, hfirst, ⟨hlt, hsegs⟩ | ⟨hid, hsegs⟩⟩ := hx.programSegmentFirst_run tmp
  · have hseg : decide (seg.segmentId ≠ noSegment) = true := decide_eq_true (by omega)
    rw [programSegmentForeach, hfirst, hsegs, ← hx.forSegments_run stop body hlt (n := n) (by omega)]
    exact congrArg (fun isSeg => forSegments stop x body n (seg, isSeg)) hseg
  · have hseg : decide (seg.segmentId ≠ noSegment) = false := decide_eq_false (not_not.mpr hid)
    obtain ⟨n, rfl⟩ : ∃ m, n = m + 1 := ⟨n - 1, by omega⟩
    rw [programSegmentForeach, hfirst, hsegs]
    exact congrArg (fun isSeg => forSegments stop x body (n + 1) (seg, isSeg)) hseg

/-- Three headers, of which the one in the middle is not loaded. -/
def twoOfThree : Image where
  ptrProgramStart := 0x1000
  eMagic := elfMagic
  ePhnum := 3
  ePhnum_lt := by decide
  ph i := some ⟨if i = 1 then 4 else 1, 64 * i, 0x800000 + 4096 * i, 16, 32⟩

theorem programSegmentForeach_visits_twoOfThree :
    (programSegmentForeach id twoOfThree (fun seg => modify (· ++ [(seg.segmentId, seg.ptrStart)]))
      ⟨0, 0, 0, 0, 0⟩ 4).run [] = .ok (⟨⟩, [(0, 0x1000), (2, 0x1080)]) := by
  rw [(programSegmentForeach_visits twoOfThree rfl fun _ _ => rfl).1 _ _ _ _ _ 4 (by decide)]
  rfl

/-- The image of a program whose headers can all be read. -/
def ofElf (x : Elf) (start : ℕ) (h : x.ePhnum < 2 ^ 16) : Image :=
  ⟨start, x.eMagic, x.ePhnum, h, fun i => some (x.ph i)⟩

theorem segmentsFrom_ofElf (x : Elf) (start : ℕ) (h : x.ePhnum < 2 ^ 16) :
    segmentsFrom (ofElf x start h) 0 =
      (programSegments x).map fun seg => { seg with ptrStart := u32 (start + seg.ptrStart) } := by
  have hload (i : ℕ) : loadSegment (ofElf x start h) i = if (x.ph i).pType = elfProgLoad then
      some { ProgramLoading.segmentAt x i with ptrStart := u32 (start + (x.ph i).pOffset) } else none := rfl
  rw [ProgramLoading.programSegments_eq, loadedFrom, segmentsFrom, List.map_map]
  change (List.range' 0 (x.ePhnum - 0)).filterMap _ = _
  induction List.range' 0 (x.ePhnum - 0) with
  | nil => rfl
  | cons i is ih =>
    by_cases hi : (x.ph i).pType = elfProgLoad
    · have hsome := (hload i).trans (if_pos hi)
      rw [List.filterMap_cons_some hsome, List.filter_cons_of_pos (by simpa using hi), List.map_cons, ih]
      rfl
    · rw [List.filterMap_cons_none ((hload i).trans (if_neg hi)), List.filter_cons_of_neg (by simpa using hi), ih]

end FosKernel.ProgramSegments
