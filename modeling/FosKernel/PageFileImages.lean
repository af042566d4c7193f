import FosKernel.ProgramLoading

/-!
# The page file after a program was loaded

A segment reaches the page file as a first page, whole pages, a last page and zero
pages, with one source pointer for all of them. When a segment begins inside a page
and its bytes end in the same page, the pointer is past the bytes when the last page
is written.
-/

namespace FosKernel.ProgramLoading
open FailingPrograms PageEntries Machine

variable {x : Elf} {seg : ProgramSegment} {segs : List ProgramSegment} {s t : EnvLoad} {p n : ℕ}

/-- Page `p` has bytes of the segment. -/
def Covers (seg : ProgramSegment) (p : ℕ) : Prop :=
  seg.virtualAddress < pageSize * (p + 1) ∧ pageSize * p < seg.virtualAddress + seg.sizeInMemory

instance (seg : ProgramSegment) (p : ℕ) : Decidable (Covers seg p) := inferInstanceAs (Decidable (_ ∧ _))

def expectedByte (x : Elf) (seg : ProgramSegment) (a : ℕ) : UInt8 :=
  if seg.virtualAddress ≤ a ∧ a < seg.virtualAddress + seg.sizeInFile then
    x.byte (seg.ptrStart + (a - seg.virtualAddress))
  else 0

def expectedPage (x : Elf) (seg : ProgramSegment) (p : ℕ) : Page :=
  fun o => expectedByte x seg (pageSize * p + o.val)

/-- The segment begins inside page `p`, and its bytes end before that page does. -/
def ShortStart (seg : ProgramSegment) (p : ℕ) : Prop :=
  pageSize * p < seg.virtualAddress ∧ seg.virtualAddress + seg.sizeInFile < pageSize * (p + 1)

instance (seg : ProgramSegment) (p : ℕ) : Decidable (ShortStart seg p) :=
  inferInstanceAs (Decidable (_ ∧ _))

/-- The last page of such a segment: the bytes that follow the page's worth in the
program, put at the start of the page. -/
def shiftedPage (x : Elf) (seg : ProgramSegment) (p : ℕ) : Page := fun o =>
  if pageSize * p + o.val < seg.virtualAddress + seg.sizeInFile then
    x.byte (seg.ptrStart + (pageSize * (p + 1) - seg.virtualAddress) + o.val)
  else 0

def writtenPage (x : Elf) (seg : ProgramSegment) (p : ℕ) : Page :=
  if ShortStart seg p then shiftedPage x seg p else expectedPage x seg p

/-- The segment ends, in the file and in memory, where page `p` begins. -/
def ZeroEnd (seg : ProgramSegment) (p : ℕ) : Prop :=
  pageSize * p = seg.virtualAddress + seg.sizeInFile ∧ seg.sizeInFile = seg.sizeInMemory

instance (seg : ProgramSegment) (p : ℕ) : Decidable (ZeroEnd seg p) :=
  inferInstanceAs (Decidable (_ ∧ _))

def readByte (s : EnvLoad) (a : ℕ) : Option UInt8 := (s.pages (a / pageSize)).map (byteAt · a)

/-- The bytes of a program are where they are to be, in the page file and in memory. -/
structure Loaded (x : Elf) (s : EnvLoad) : Prop where
  file : ∀ seg ∈ programSegments x, ∀ a, Covers seg (a / pageSize) →
    ∃ q, s.pageFile (a / pageSize) = some q ∧ byteAt q a = expectedByte x seg a
  present : ∀ seg ∈ programSegments x, ∀ a, seg.virtualAddress ≤ a →
    a < seg.virtualAddress + seg.sizeInMemory → ∃ q, s.pageFile (a / pageSize) = some q
  resident : ∀ seg ∈ programSegments x, ∀ a b, seg.virtualAddress ≤ a →
    a < seg.virtualAddress + seg.sizeInMemory → readByte s a = some b →
    ∃ q, s.pageFile (a / pageSize) = some q ∧ byteAt q a = b

/-- A page of a segment that is overwritten with zeros later: the stack page, and the
page after a later segment that ends with a page. -/
def ZeroedLater (later : List ProgramSegment) (p : ℕ) : Prop :=
  p = stackVa / pageSize ∨ ∃ seg ∈ later, ZeroEnd seg p

instance (later : List ProgramSegment) (p : ℕ) : Decidable (ZeroedLater later p) :=
  inferInstanceAs (Decidable (_ ∨ _))

/-- No page of a segment is written wrongly, unless the bytes agree by chance. -/
def LoadsRight (x : Elf) : Prop :=
  ∀ A seg B, programSegments x = A ++ seg :: B →
    seg.virtualAddress + seg.sizeInMemory ≤ kernelBase ∧ ∀ p, Covers seg p →
      (ZeroedLater B p → expectedPage x seg p = zeroPage) ∧
      (¬ZeroedLater B p → ShortStart seg p → shiftedPage x seg p = expectedPage x seg p)

/-- An image whose segments have bytes and no page in common. -/
structure WellFormed (x : Elf) : Prop where
  filesz : ∀ seg ∈ programSegments x, 0 < seg.sizeInFile ∧ seg.sizeInFile ≤ seg.sizeInMemory
  disjoint : (programSegments x).Pairwise fun seg seg' => ∀ p, Covers seg p → ¬Covers seg' p

/-- A new environment, and a page of zeros at `ptr_zero_page`. -/
structure Fresh (s : EnvLoad) : Prop where
  pageFile : ∀ p, s.pageFile p = none
  pages : ∀ p, s.pages p = none
  zero : s.ptrZeroPage = zeroPage

theorem WellFormed.sizes (h : WellFormed x) : ∀ seg ∈ programSegments x, seg.sizeInFile ≤ seg.sizeInMemory :=
  fun seg hseg => (h.filesz seg hseg).2

theorem roundDown_page (a : ℕ) : roundDown a pageSize = 4096 * (a / 4096) := by
  simp only [roundDown, pageSize]
  omega

theorem roundUp_page {a : ℕ} (h : a + 4096 ≤ 2 ^ 32) :
    roundUp a pageSize = 4096 * ((a + 4095) / 4096) := by
  rw [roundUp, Nat.add_sub_assoc (by decide), show pageSize - 1 = 4095 by decide,
    u32_of_lt (by omega), roundDown_page]

theorem page_div (p : ℕ) : 4096 * p / pageSize = p := Nat.mul_div_cancel_left p (by decide)

theorem pageOf_page {k : ℕ} (h : p + k < 2 ^ 20) : pageOf (4096 * p) k = 4096 * (p + k) := by
  rw [pageOf, u32_of_lt (by simp only [pageSize]; omega)]
  simp only [pageSize]
  omega

/-- The page file became `file`, and user memory is as it was. -/
structure Writes (s t : EnvLoad) (file : ℕ → Option Page) : Prop where
  pageFile : ∀ p, t.pageFile p = file p
  pages : t.pages = s.pages
  zero : t.ptrZeroPage = s.ptrZeroPage
  wsSize : t.pageWSMaxSize = s.pageWSMaxSize

theorem pfAddEnvPage_sat (s : EnvLoad) (va : ℕ) (q : Page) :
    Sat (fun _ => kernelBase ≤ va) (pfAddEnvPage va q) s fun _ t =>
      Writes s t (Function.update s.pageFile (va / pageSize) (some q)) := by
  unfold pfAddEnvPage
  split
  · exact .of_error rfl (by assumption)
  · exact .of_ok rfl ⟨fun _ => rfl, rfl, rfl, rfl⟩

theorem pfAddEmptyEnvPage_sat (s : EnvLoad) (va : ℕ) :
    Sat (fun _ => kernelBase ≤ va) (pfAddEmptyEnvPage va) s fun _ t =>
      Writes s t (Function.update s.pageFile (va / pageSize) (some s.ptrZeroPage)) := by
  unfold pfAddEmptyEnvPage
  refine .bind_ok run_get ?_
  split
  · refine .bind_ok run_set ?_
    exact (pfAddEnvPage_sat _ _ _).mono fun _ t h => ⟨h.pageFile, h.pages, h.zero, h.wsSize⟩
  · exact pfAddEnvPage_sat _ _ _

/-- The temporary page with some bytes of the program. -/
def tempPage (x : Elf) (src dst n : ℕ) : Page := fun o =>
  if dst ≤ o.val ∧ o.val < dst + n then x.byte (src + (o.val - dst)) else 0

theorem tempPage_zero (x : Elf) (src dst : ℕ) : tempPage x src dst 0 = zeroPage := by
  funext o
  simp only [tempPage, zeroPage]
  rw [if_neg (by omega)]

theorem setByte_tempPage {src dst k : ℕ} (h : dst + k < 4096) :
    setByte (tempPage x src dst k) (dst + k) (x.byte (src + k)) = tempPage x src dst (k + 1) := by
  funext o
  simp only [setByte, tempPage, Function.update_apply, Fin.ext_iff, Fin.val_ofNat, Nat.mod_eq_of_lt h]
  by_cases ho : o.val = dst + k
  · rw [if_pos ho, if_pos (by omega), ho, Nat.add_sub_cancel_left]
  · rw [if_neg ho]
    congr 1
    apply propext
    omega

theorem fillTempPage_run (s : EnvLoad) {src dst : ℕ} (h : dst + n ≤ 4096) :
    (forRange (copyToTempPage x src dst) 0 n).run { s with ptrTempPage := zeroPage } =
      .ok (⟨⟩, { s with ptrTempPage := tempPage x src dst n }) := by
  have hloop : Sat (fun _ => False) (forRange (copyToTempPage x src dst) 0 n)
      { s with ptrTempPage := zeroPage } _ := Sat.forRange
    (fun k t => t = { s with ptrTempPage := tempPage x src dst k }) (by rw [tempPage_zero])
    (by
      rintro k t - hk rfl
      refine .of_ok (run_modify _) ?_
      rw [← setByte_tempPage (by omega)])
  obtain ⟨_, t, hrun, rfl⟩ := hloop.exists_ok
  rwa [Nat.zero_add] at hrun

/-- A segment that lies below the kernel. -/
structure Placed (seg : ProgramSegment) : Prop where
  memsz : seg.sizeInFile ≤ seg.sizeInMemory
  below : seg.virtualAddress + seg.sizeInMemory ≤ kernelBase

/-- The pages at which the first and the last byte are, and the pages that follow the
first address, the bytes and the memory of a segment. -/
def ProgramSegment.firstPage (seg : ProgramSegment) : ℕ := seg.virtualAddress / 4096
def ProgramSegment.wholePage (seg : ProgramSegment) : ℕ := (seg.virtualAddress + 4095) / 4096
def ProgramSegment.lastPage (seg : ProgramSegment) : ℕ := (seg.virtualAddress + seg.sizeInFile) / 4096
def ProgramSegment.zeroPage (seg : ProgramSegment) : ℕ :=
  (seg.virtualAddress + seg.sizeInFile + 4095) / 4096
def ProgramSegment.stopPage (seg : ProgramSegment) : ℕ :=
  (seg.virtualAddress + seg.sizeInMemory + 4095) / 4096

/-- A segment that reaches the kernel may stop the writing. -/
def ProgramSegment.AtKernel (seg : ProgramSegment) (_ : LoadPanic) : Prop :=
  kernelBase ≤ seg.virtualAddress + seg.sizeInMemory

/-- Where the source pointer is after the first page. -/
def ProgramSegment.wholeStart (seg : ProgramSegment) : ℕ :=
  seg.ptrStart + (4096 * seg.wholePage - seg.virtualAddress)

namespace Placed

theorem lt (h : Placed seg) : seg.virtualAddress + seg.sizeInMemory + 4096 ≤ 2 ^ 32 :=
  (Nat.add_le_add_right h.below 4096).trans (by decide)

theorem end_eq (h : Placed seg) :
    u32 (seg.virtualAddress + seg.sizeInFile) = seg.virtualAddress + seg.sizeInFile := by
  have := h.lt
  have := h.memsz
  exact u32_of_lt (by omega)

theorem roundUp_start (h : Placed seg) : roundUp seg.virtualAddress pageSize = 4096 * seg.wholePage := by
  have := h.lt
  exact roundUp_page (by omega)

theorem roundUp_end (h : Placed seg) :
    roundUp (seg.virtualAddress + seg.sizeInFile) pageSize = 4096 * seg.zeroPage := by
  have := h.lt
  have := h.memsz
  exact roundUp_page (by omega)

theorem writeFirstPage_sat (h : Placed seg) (x : Elf) (s : EnvLoad) :
    Sat seg.AtKernel (writeFirstPage x seg) s fun src t => src = seg.wholeStart ∧
      Writes s t (Function.update s.pageFile seg.firstPage (some (tempPage x seg.ptrStart
        (seg.virtualAddress % 4096) (4096 * seg.wholePage - seg.virtualAddress)))) := by
  have hstart : seg.virtualAddress - roundDown seg.virtualAddress pageSize = seg.virtualAddress % 4096 := by
    rw [roundDown_page]
    omega
  have hfill : seg.virtualAddress % 4096 + (4096 * seg.wholePage - seg.virtualAddress) ≤ 4096 := by
    simp only [ProgramSegment.wholePage]
    omega
  have hpage : roundDown seg.virtualAddress pageSize / pageSize = seg.firstPage := by
    rw [roundDown_page]
    exact page_div _
  have hkernel : kernelBase ≤ roundDown seg.virtualAddress pageSize →
      kernelBase ≤ seg.virtualAddress + seg.sizeInMemory := fun hk =>
    hk.trans ((roundDown_le _ _).trans (Nat.le_add_right _ _))
  simp only [writeFirstPage, hstart, h.roundUp_start]
  refine .bind_ok (run_modify _) (.bind_ok (fillTempPage_run s hfill) (.bind_ok run_get ?_))
  refine ((pfAddEnvPage_sat _ _ _).weaken fun _ => hkernel).bind fun _ t ht =>
    .pure ⟨rfl, fun p => ?_, ht.pages, ht.zero, ht.wsSize⟩
  rw [ht.pageFile, hpage]

theorem writeMiddlePages_sat (h : Placed seg) (x : Elf) (src : ℕ) (s : EnvLoad) :
    Sat seg.AtKernel (writeMiddlePages x seg src) s fun src' t =>
      src' = src + 4096 * (seg.lastPage - seg.wholePage) ∧ Writes s t fun p =>
        if seg.wholePage ≤ p ∧ p < seg.lastPage then some (x.page (src + 4096 * (p - seg.wholePage)))
        else s.pageFile p := by
  have hlast : seg.lastPage < 2 ^ 20 := by
    have := h.lt
    have := h.memsz
    simp only [ProgramSegment.lastPage]
    omega
  have hn : numOfPages (4096 * seg.wholePage) (4096 * seg.lastPage) = seg.lastPage - seg.wholePage := by
    rw [numOfPages, ← Nat.mul_sub]
    exact Nat.mul_div_cancel_left _ (by decide)
  have hdown : roundDown (seg.virtualAddress + seg.sizeInFile) pageSize = 4096 * seg.lastPage :=
    roundDown_page _
  simp only [writeMiddlePages, h.end_eq, hdown, h.roundUp_start, hn]
  refine Sat.bind (Sat.forRange (fun k t => Writes s t fun p =>
    if seg.wholePage ≤ p ∧ p < seg.wholePage + k then
      some (x.page (src + 4096 * (p - seg.wholePage))) else s.pageFile p) ?_ ?_) ?_
  · exact ⟨fun p => by rw [if_neg (by omega)], rfl, rfl, rfl⟩
  · intro k t _ hk ht
    rw [pageOf_page (by omega)]
    have hkernel : kernelBase ≤ 4096 * (seg.wholePage + k) →
        kernelBase ≤ seg.virtualAddress + seg.sizeInMemory := fun hk => hk.trans (by
      have := h.memsz
      simp only [ProgramSegment.lastPage, ProgramSegment.wholePage] at *
      omega)
    refine ((pfAddEnvPage_sat _ _ _).weaken fun _ => hkernel).mono fun _ u hu =>
      ⟨fun p => ?_, hu.pages.trans ht.pages, hu.zero.trans ht.zero, hu.wsSize.trans ht.wsSize⟩
    rw [hu.pageFile, page_div, Function.update_apply]
    by_cases hp : p = seg.wholePage + k
    · rw [if_pos hp, if_pos (by omega), hp, Nat.add_sub_cancel_left]
      rfl
    · rw [if_neg hp, ht.pageFile]
      congr 1
      apply propext
      omega
  · intro _ t ht
    refine .pure ⟨rfl, fun p => ?_, ht.pages, ht.zero, ht.wsSize⟩
    rw [ht.pageFile]
    congr 1
    apply propext
    omega

theorem writeLastPage_sat (h : Placed seg) (x : Elf) (src : ℕ) (s : EnvLoad) :
    Sat seg.AtKernel (writeLastPage x seg src) s fun _ t =>
      Writes s t (Function.update s.pageFile seg.lastPage
        (some (tempPage x src 0 ((seg.virtualAddress + seg.sizeInFile) % 4096)))) := by
  have hlen : seg.virtualAddress + seg.sizeInFile - roundDown (seg.virtualAddress + seg.sizeInFile) pageSize =
      (seg.virtualAddress + seg.sizeInFile) % 4096 := by
    rw [roundDown_page]
    omega
  have hpage : roundDown (seg.virtualAddress + seg.sizeInFile) pageSize / pageSize = seg.lastPage := by
    rw [roundDown_page]
    exact page_div _
  have hkernel : kernelBase ≤ roundDown (seg.virtualAddress + seg.sizeInFile) pageSize →
      kernelBase ≤ seg.virtualAddress + seg.sizeInMemory := fun hk =>
    hk.trans ((roundDown_le _ _).trans (Nat.add_le_add_left h.memsz _))
  simp only [writeLastPage, h.end_eq, hlen]
  refine .bind_ok (run_modify _) (.bind_ok (fillTempPage_run s (by omega)) (.bind_ok run_get ?_))
  refine ((pfAddEnvPage_sat _ _ _).weaken fun _ => hkernel).mono fun _ t ht =>
    ⟨fun p => ?_, ht.pages, ht.zero, ht.wsSize⟩
  rw [ht.pageFile, hpage]

theorem remaining_eq (h : Placed seg) : roundUp (u32 (seg.virtualAddress + seg.sizeInMemory + 2 ^ 32 -
    4096 * seg.zeroPage)) pageSize / pageSize = seg.stopPage - seg.zeroPage := by
  have hlt := h.lt
  have hsize := h.memsz
  by_cases hle : 4096 * seg.zeroPage ≤ seg.virtualAddress + seg.sizeInMemory
  · have hlen : u32 (seg.virtualAddress + seg.sizeInMemory + 2 ^ 32 - 4096 * seg.zeroPage) =
        seg.virtualAddress + seg.sizeInMemory - 4096 * seg.zeroPage := by
      simp only [u32]
      omega
    rw [hlen, roundUp_page (by omega), page_div]
    simp only [ProgramSegment.stopPage]
    omega
  · -- the length is negative
    have hzero : seg.stopPage - seg.zeroPage = 0 := by
      simp only [ProgramSegment.stopPage, ProgramSegment.zeroPage] at *
      omega
    have hlen : 2 ^ 32 - 4096 < u32 (seg.virtualAddress + seg.sizeInMemory + 2 ^ 32 - 4096 * seg.zeroPage) := by
      simp only [u32, ProgramSegment.zeroPage] at *
      omega
    have hmod : u32 (seg.virtualAddress + seg.sizeInMemory + 2 ^ 32 - 4096 * seg.zeroPage) < 2 ^ 32 :=
      Nat.mod_lt _ (by decide)
    rw [hzero, roundUp, Nat.add_sub_assoc (by decide), show pageSize - 1 = 4095 by decide, roundDown_page,
      page_div]
    generalize u32 (seg.virtualAddress + seg.sizeInMemory + 2 ^ 32 - 4096 * seg.zeroPage) = a at *
    simp only [u32]
    omega

theorem writeRemainingArea_sat (h : Placed seg) (s : EnvLoad) :
    Sat seg.AtKernel (writeRemainingArea seg) s fun _ t => Writes s t fun p =>
      if seg.zeroPage ≤ p ∧ p < seg.stopPage then some s.ptrZeroPage else s.pageFile p := by
  have hstop : seg.stopPage ≤ 2 ^ 20 := by
    have := h.lt
    simp only [ProgramSegment.stopPage]
    omega
  simp only [writeRemainingArea, h.end_eq, h.roundUp_end, h.remaining_eq]
  refine Sat.mono (Sat.forRange (fun k t => Writes s t fun p =>
    if seg.zeroPage ≤ p ∧ p < seg.zeroPage + k then some s.ptrZeroPage else s.pageFile p) ?_ ?_) ?_
  · exact ⟨fun p => by rw [if_neg (by omega)], rfl, rfl, rfl⟩
  · intro k t _ hk ht
    rw [pageOf_page (by omega)]
    have hkernel : kernelBase ≤ 4096 * (seg.zeroPage + k) →
        kernelBase ≤ seg.virtualAddress + seg.sizeInMemory := fun hk => hk.trans (by
      simp only [ProgramSegment.stopPage, ProgramSegment.zeroPage] at *
      omega)
    refine ((pfAddEmptyEnvPage_sat _ _).weaken fun _ => hkernel).mono fun _ u hu =>
      ⟨fun p => ?_, hu.pages.trans ht.pages, hu.zero.trans ht.zero, hu.wsSize.trans ht.wsSize⟩
    rw [hu.pageFile, page_div, Function.update_apply, ht.zero, ht.pageFile]
    by_cases hp : p = seg.zeroPage + k
    · rw [if_pos hp, if_pos (by omega)]
    · rw [if_neg hp]
      congr 1
      apply propext
      omega
  · intro _ t ht
    refine ⟨fun p => ?_, ht.pages, ht.zero, ht.wsSize⟩
    rw [ht.pageFile]
    congr 1
    apply propext
    omega

theorem expectedPage_apply (x : Elf) (seg : ProgramSegment) (p : ℕ) (o : Fin 4096) :
    expectedPage x seg p o = if seg.virtualAddress ≤ 4096 * p + o.val ∧
        4096 * p + o.val < seg.virtualAddress + seg.sizeInFile then
      x.byte (seg.ptrStart + (4096 * p + o.val - seg.virtualAddress)) else 0 := rfl

theorem shiftedPage_apply (x : Elf) (seg : ProgramSegment) (p : ℕ) (o : Fin 4096) :
    shiftedPage x seg p o = if 4096 * p + o.val < seg.virtualAddress + seg.sizeInFile then
      x.byte (seg.ptrStart + (4096 * (p + 1) - seg.virtualAddress) + o.val) else 0 := rfl

theorem zero_expected (hp : seg.zeroPage ≤ p) : expectedPage x seg p = zeroPage := by
  funext o
  rw [expectedPage_apply, if_neg]
  · rfl
  · simp only [ProgramSegment.zeroPage] at hp
    omega

theorem whole_expected (h : seg.wholePage ≤ p) (hp : p < seg.lastPage) :
    x.page (seg.wholeStart + 4096 * (p - seg.wholePage)) = expectedPage x seg p := by
  funext o
  simp only [ProgramSegment.wholePage, ProgramSegment.lastPage] at h hp
  rw [expectedPage_apply, if_pos (by omega)]
  simp only [Elf.page, ProgramSegment.wholeStart, ProgramSegment.wholePage]
  congr 1
  omega

theorem first_expected (h : seg.firstPage < seg.wholePage) (hp : seg.firstPage < seg.lastPage) :
    tempPage x seg.ptrStart (seg.virtualAddress % 4096) (4096 * seg.wholePage - seg.virtualAddress) =
      expectedPage x seg seg.firstPage := by
  funext o
  simp only [ProgramSegment.wholePage, ProgramSegment.firstPage, ProgramSegment.lastPage] at *
  rw [expectedPage_apply, tempPage]
  by_cases ho : seg.virtualAddress % 4096 ≤ o.val
  · rw [if_pos (by omega), if_pos (by omega)]
    congr 1
    omega
  · rw [if_neg (by omega), if_neg (by omega)]

theorem last_written (x : Elf) (seg : ProgramSegment) :
    tempPage x (seg.wholeStart + 4096 * (seg.lastPage - seg.wholePage)) 0
      ((seg.virtualAddress + seg.sizeInFile) % 4096) = writtenPage x seg seg.lastPage := by
  have hshort : ShortStart seg seg.lastPage ↔ 4096 * seg.lastPage < seg.virtualAddress := by
    simp only [ShortStart, ProgramSegment.lastPage, pageSize]
    omega
  funext o
  simp only [ProgramSegment.wholeStart, ProgramSegment.wholePage, ProgramSegment.lastPage] at *
  rw [tempPage, writtenPage]
  by_cases hs : 4096 * ((seg.virtualAddress + seg.sizeInFile) / 4096) < seg.virtualAddress
  · rw [if_pos (hshort.mpr hs), shiftedPage_apply]
    by_cases ho : o.val < (seg.virtualAddress + seg.sizeInFile) % 4096
    · rw [if_pos (by omega), if_pos (by omega)]
      congr 1
      omega
    · rw [if_neg (by omega), if_neg (by omega)]
  · rw [if_neg (mt hshort.mp hs), expectedPage_apply]
    by_cases ho : o.val < (seg.virtualAddress + seg.sizeInFile) % 4096
    · rw [if_pos (by omega), if_pos (by omega)]
      congr 1
      omega
    · rw [if_neg (by omega), if_neg (by omega)]

end Placed

def segmentFile (x : Elf) (seg : ProgramSegment) (file : ℕ → Option Page) (p : ℕ) : Option Page :=
  if Covers seg p then some (writtenPage x seg p)
  else if ZeroEnd seg p then some zeroPage
  else file p

theorem Placed.parts_eq (h : Placed seg) (x : Elf) (file : ℕ → Option Page) (p : ℕ) :
    (if seg.zeroPage ≤ p ∧ p < seg.stopPage then some zeroPage
    else if p = seg.lastPage then some (writtenPage x seg seg.lastPage)
    else if seg.wholePage ≤ p ∧ p < seg.lastPage then some (expectedPage x seg p)
    else if p = seg.firstPage then some (tempPage x seg.ptrStart (seg.virtualAddress % 4096)
      (4096 * seg.wholePage - seg.virtualAddress))
    else file p) = segmentFile x seg file p := by
  have hm := h.memsz
  have hwritten (hp : ¬ShortStart seg p) : writtenPage x seg p = expectedPage x seg p := if_neg hp
  have hcovers : Covers seg p ↔ seg.firstPage ≤ p ∧ p < seg.stopPage := by
    simp only [Covers, ProgramSegment.firstPage, ProgramSegment.stopPage, pageSize]
    omega
  have hzero : ZeroEnd seg p → p = seg.lastPage ∧ seg.stopPage = seg.zeroPage := by
    simp only [ZeroEnd, ProgramSegment.lastPage, ProgramSegment.zeroPage, ProgramSegment.stopPage, pageSize]
    omega
  have hshort : ShortStart seg p → p = seg.firstPage ∧ p = seg.lastPage ∧ p < seg.zeroPage := by
    simp only [ShortStart, ProgramSegment.firstPage, ProgramSegment.lastPage, ProgramSegment.zeroPage, pageSize]
    omega
  have horder : seg.firstPage ≤ seg.lastPage ∧ seg.lastPage ≤ seg.zeroPage ∧ seg.zeroPage ≤ seg.lastPage + 1 ∧
      seg.zeroPage ≤ seg.stopPage ∧ seg.firstPage ≤ seg.wholePage := by
    simp only [ProgramSegment.firstPage, ProgramSegment.lastPage, ProgramSegment.zeroPage,
      ProgramSegment.stopPage, ProgramSegment.wholePage]
    omega
  obtain ⟨hfl, hlz, hzl, hzs, hfw⟩ := horder
  unfold segmentFile
  by_cases hz : seg.zeroPage ≤ p ∧ p < seg.stopPage
  · have hns : ¬ShortStart seg p := fun hs => by
      have := hshort hs
      omega
    rw [if_pos hz, if_pos (hcovers.mpr (by omega)), hwritten hns, zero_expected hz.1]
  · rw [if_neg hz]
    by_cases hl : p = seg.lastPage
    · rw [if_pos hl]
      by_cases hlt : seg.lastPage < seg.zeroPage
      · rw [if_pos (hcovers.mpr (by omega)), hl]
      · have hend : ZeroEnd seg p ∧ writtenPage x seg p = zeroPage := by
          refine ⟨?_, ?_⟩
          · simp only [ZeroEnd, ProgramSegment.lastPage, ProgramSegment.zeroPage, ProgramSegment.stopPage,
              pageSize] at *
            omega
          · rw [hwritten fun hs => by have := hshort hs; omega, zero_expected (by omega)]
        rw [if_neg (mt hcovers.mp (by omega)), if_pos hend.1, ← hl, hend.2]
    · rw [if_neg hl]
      have hns : ¬ShortStart seg p := fun hs => hl (hshort hs).2.1
      by_cases hw : seg.wholePage ≤ p ∧ p < seg.lastPage
      · rw [if_pos hw, if_pos (hcovers.mpr (by omega)), hwritten hns]
      · rw [if_neg hw]
        by_cases hfirst : p = seg.firstPage
        · have hlt : seg.firstPage < seg.wholePage ∧ seg.firstPage < seg.lastPage := by omega
          rw [if_pos hfirst, if_pos (hcovers.mpr (by omega)), hwritten hns, hfirst,
            first_expected hlt.1 hlt.2]
        · rw [if_neg hfirst, if_neg (mt hcovers.mp ?_), if_neg fun he => hl (hzero he).1]
          simp only [ProgramSegment.firstPage, ProgramSegment.wholePage] at *
          omega

/-- User memory became `mem`, and the page file is as it was. -/
structure Stores (s t : EnvLoad) (mem : ℕ → Option UInt8) : Prop where
  bytes : ∀ a, readByte t a = mem a
  pageFile : t.pageFile = s.pageFile
  zero : t.ptrZeroPage = s.ptrZeroPage

/-- From `s` the program may stop, and returns with `Q` if it does not. -/
abbrev Ends {α : Type} (m : Loader α) (s : EnvLoad) (Q : α → EnvLoad → Prop) : Prop :=
  Sat (fun _ => True) m s Q

theorem writeByte_ends (s : EnvLoad) (va : ℕ) (b : UInt8) :
    Ends (writeByte va b) s fun _ t => Stores s t fun a => if a = va then some b else readByte s a := by
  unfold writeByte
  refine .bind_ok run_get ?_
  cases hp : s.pages (va / pageSize) with
  | none => exact .of_error rfl trivial
  | some q =>
    refine .of_ok (run_modify _) ⟨fun a => ?_, rfl, rfl⟩
    simp only [readByte, Function.update_apply]
    by_cases ha : a / pageSize = va / pageSize
    · rw [if_pos ha, Option.map_some, ha, hp, Option.map_some]
      by_cases hav : a = va
      · rw [if_pos hav, hav, byteAt_setByte]
      · rw [if_neg hav, byteAt_setByte_of_ne]
        simp only [pageSize] at ha
        omega
    · rw [if_neg ha, if_neg fun hav => ha (by rw [hav])]

theorem writeBytes_ends (s : EnvLoad) (va n : ℕ) (f : ℕ → UInt8) :
    Ends (forRange (fun i => writeByte (va + i) (f i)) 0 n) s fun _ t => Stores s t fun a =>
      if va ≤ a ∧ a < va + n then some (f (a - va)) else readByte s a := by
  have hloop : Ends (forRange (fun i => writeByte (va + i) (f i)) 0 n) s _ := Sat.forRange
    (fun k t => Stores s t fun a => if va ≤ a ∧ a < va + k then some (f (a - va)) else readByte s a)
    ⟨fun a => by rw [if_neg (by omega)], rfl, rfl⟩
    (by
      intro k t _ _ ht
      refine (writeByte_ends _ _ _).mono fun _ u hu =>
        ⟨fun a => ?_, hu.pageFile.trans ht.pageFile, hu.zero.trans ht.zero⟩
      rw [hu.bytes, ht.bytes]
      by_cases ha : a = va + k
      · rw [if_pos ha, if_pos (by omega), ha, Nat.add_sub_cancel_left]
      · rw [if_neg ha]
        congr 1
        apply propext
        omega)
  rwa [Nat.zero_add] at hloop

theorem addToWorkingSet_ends (s : EnvLoad) (va : ℕ) :
    Ends (addToWorkingSet va) s fun _ t => Stores s t (readByte s) := by
  unfold addToWorkingSet
  refine .bind_ok (run_modify _) (.bind_ok run_get ?_)
  split
  · exact .of_error rfl trivial
  · exact .of_ok rfl ⟨fun _ => rfl, rfl, rfl⟩

theorem addToTableWorkingSet_ends (s : EnvLoad) (va : ℕ) :
    Ends (addToTableWorkingSet va) s fun _ t => Stores s t (readByte s) := by
  unfold addToTableWorkingSet
  refine .bind_ok run_get ?_
  split
  · refine .bind_ok (run_modify _) (.bind_ok run_get ?_)
    split
    · exact .of_error rfl trivial
    · exact .of_ok rfl ⟨fun _ => rfl, rfl, rfl⟩
  · exact .of_ok rfl ⟨fun _ => rfl, rfl, rfl⟩

theorem allocateSegmentPage_ends (s : EnvLoad) (sva i : ℕ) :
    Ends (allocateSegmentPage sva i) s fun _ t => (∀ a, a / pageSize ≠ pageOf sva i / pageSize →
      readByte t a = readByte s a) ∧ t.pageFile = s.pageFile ∧ t.ptrZeroPage = s.ptrZeroPage := by
  simp only [allocateSegmentPage, allocateFrame, loadtimeMapFrame]
  refine .bind_ok rfl (.bind_ok (run_modify _) ?_)
  refine (addToWorkingSet_ends _ _).bind fun _ t ht => ?_
  refine (addToTableWorkingSet_ends _ _).mono fun _ u hu =>
    ⟨fun a ha => ?_, hu.pageFile.trans ht.pageFile, hu.zero.trans ht.zero⟩
  rw [hu.bytes, ht.bytes]
  simp only [readByte, Function.update_of_ne ha]

structure Resident (x : Elf) (seg : ProgramSegment) (s t : EnvLoad) : Prop where
  kept : ∀ a, ¬Covers seg (a / pageSize) → readByte t a = readByte s a
  loaded : ∀ a, seg.virtualAddress ≤ a →
    readByte t a = readByte s a ∨ readByte t a = some (expectedByte x seg a)
  pageFile : t.pageFile = s.pageFile
  zero : t.ptrZeroPage = s.ptrZeroPage

theorem Placed.allocMapCopy_ends (h : Placed seg) (x : Elf) (s : EnvLoad) :
    Ends (programSegmentAllocMapCopyWorkingset x seg) s fun _ t => Resident x seg s t := by
  have hlt := h.lt
  have hfile := h.memsz
  have hsva : roundDown seg.virtualAddress pageSize = 4096 * seg.firstPage := roundDown_page _
  have hend : roundUp (u32 (seg.virtualAddress + seg.sizeInMemory)) pageSize = 4096 * seg.stopPage := by
    rw [u32_of_lt (by omega), roundUp_page (by omega)]
    rfl
  have hpages : numOfPages (4096 * seg.firstPage) (4096 * seg.stopPage) = seg.stopPage - seg.firstPage := by
    rw [numOfPages, ← Nat.mul_sub]
    exact page_div _
  simp only [programSegmentAllocMapCopyWorkingset, hsva, hend, hpages, h.end_eq]
  refine .bind_ok run_get ?_
  generalize hk : min (seg.stopPage - seg.firstPage) (segmentLimit s (4096 * seg.firstPage)) = k
  have hkle : k ≤ seg.stopPage - seg.firstPage := hk ▸ Nat.min_le_left _ _
  have hstop : seg.stopPage ≤ 2 ^ 20 := by
    simp only [ProgramSegment.stopPage]
    omega
  refine Sat.bind (Sat.forRange (fun n t => (∀ a, (a / 4096 < seg.firstPage ∨ seg.firstPage + n ≤ a / 4096) →
    readByte t a = readByte s a) ∧ t.pageFile = s.pageFile ∧ t.ptrZeroPage = s.ptrZeroPage)
    ⟨fun _ _ => rfl, rfl, rfl⟩ ?_) fun _ t ht => ?_
  · intro n t _ hn ht
    refine (allocateSegmentPage_ends _ _ _).mono fun _ u hu =>
      ⟨fun a ha => ?_, hu.2.1.trans ht.2.1, hu.2.2.trans ht.2.2⟩
    rw [hu.1 a, ht.1 a (by omega)]
    rw [pageOf_page (by omega), page_div]
    simp only [pageSize]
    omega
  · refine (writeBytes_ends _ _ _ _).bind fun _ u hu => (writeBytes_ends _ _ _ _).bind fun _ v hv => .pure ?_
    have hbyte (a : ℕ) : readByte v a = if seg.virtualAddress ≤ a ∧ a < 4096 * seg.firstPage + k * pageSize
        then some (expectedByte x seg a) else readByte t a := by
      rw [hv.bytes, hu.bytes]
      unfold expectedByte
      generalize 4096 * seg.firstPage + k * pageSize = stop
      by_cases ha : seg.virtualAddress ≤ a ∧ a < stop
      · by_cases hf : a < seg.virtualAddress + seg.sizeInFile
        · rw [if_neg (by omega), if_pos (by omega), if_pos ha, if_pos ⟨ha.1, hf⟩]
        · rw [if_pos (by omega), if_pos ha, if_neg (by omega)]
      · rw [if_neg (by omega), if_neg (by omega), if_neg ha]
    refine ⟨fun a ha => ?_, fun a ha => ?_, hv.pageFile.trans (hu.pageFile.trans ht.2.1),
      hv.zero.trans (hu.zero.trans ht.2.2)⟩
    · have hout : a / 4096 < seg.firstPage ∨ seg.stopPage ≤ a / 4096 := by
        simp only [Covers, ProgramSegment.firstPage, ProgramSegment.stopPage, pageSize] at *
        omega
      have hfirst (hle : seg.virtualAddress ≤ a) : seg.firstPage ≤ a / 4096 := Nat.div_le_div_right hle
      rw [hbyte, if_neg, ht.1 a (by omega)]
      rintro ⟨hle, hlt⟩
      have := hfirst hle
      simp only [pageSize] at hlt
      omega
    · rw [hbyte]
      by_cases hstop : a < 4096 * seg.firstPage + k * pageSize
      · exact .inr (if_pos ⟨ha, hstop⟩)
      · rw [if_neg fun h => hstop h.2]
        simp only [pageSize] at hstop
        exact .inl (ht.1 a (by omega))

theorem Writes.readByte {file : ℕ → Option Page} (h : Writes s t file) (a : ℕ) :
    readByte t a = readByte s a := by
  rw [ProgramLoading.readByte, h.pages]
  rfl

theorem Placed.writeParts_sat (h : Placed seg) (x : Elf) (s : EnvLoad) (hz : s.ptrZeroPage = zeroPage) :
    Sat seg.AtKernel (do
      let src ← writeFirstPage x seg
      let src ← writeMiddlePages x seg src
      writeLastPage x seg src
      writeRemainingArea seg) s fun _ t => Writes s t (segmentFile x seg s.pageFile) := by
  refine (h.writeFirstPage_sat x s).bind fun src₁ t₁ ⟨hsrc₁, h₁⟩ => ?_
  refine (h.writeMiddlePages_sat x src₁ t₁).bind fun src₂ t₂ ⟨hsrc₂, h₂⟩ => ?_
  refine (h.writeLastPage_sat x src₂ t₂).bind fun _ t₃ h₃ => ?_
  refine (h.writeRemainingArea_sat t₃).mono fun _ t₄ h₄ => ⟨fun p => ?_, ?_, ?_, ?_⟩
  · rw [h₄.pageFile, h₃.zero, h₂.zero, h₁.zero, hz, h₃.pageFile, hsrc₂, hsrc₁, last_written,
      Function.update_apply, h₂.pageFile, hsrc₁, h₁.pageFile, Function.update_apply, ← h.parts_eq]
    by_cases hw : seg.wholePage ≤ p ∧ p < seg.lastPage
    · rw [if_pos hw, if_pos hw, whole_expected hw.1 hw.2]
    · rw [if_neg hw, if_neg hw]
  · rw [h₄.pages, h₃.pages, h₂.pages, h₁.pages]
  · rw [h₄.zero, h₃.zero, h₂.zero, h₁.zero]
  · rw [h₄.wsSize, h₃.wsSize, h₂.wsSize, h₁.wsSize]

structure Loads (x : Elf) (segs : List ProgramSegment) (s t : EnvLoad) : Prop where
  pageFile : t.pageFile = segs.foldl (fun file seg => segmentFile x seg file) s.pageFile
  kept : ∀ a, (∀ seg ∈ segs, ¬Covers seg (a / pageSize)) → readByte t a = readByte s a
  loaded : ∀ seg ∈ segs, ∀ a, seg.virtualAddress ≤ a → Covers seg (a / pageSize) →
    readByte t a = readByte s a ∨ readByte t a = some (expectedByte x seg a)
  zero : t.ptrZeroPage = zeroPage

theorem loadSegment_ends (h : Placed seg) (x : Elf) (s : EnvLoad) (hz : s.ptrZeroPage = zeroPage) :
    Ends (loadSegment x seg) s fun _ t => Loads x [seg] s t := by
  unfold loadSegment
  refine (h.allocMapCopy_ends x s).bind fun n t ht => .bind_ok (run_modify _) ?_
  refine Sat.mono ((h.writeParts_sat x _ ?_).weaken fun _ _ => trivial) fun _ u hu => ?_
  · exact ht.zero.trans hz
  have hread (a : ℕ) : readByte u a = readByte t a := (hu.readByte a).trans (by simp only [readByte])
  refine ⟨funext fun p => ?_, fun a ha => ?_, fun seg' hseg a hle _ => ?_, hu.zero.trans (ht.zero.trans hz)⟩
  · rw [hu.pageFile, ht.pageFile]
    rfl
  · rw [hread, ht.kept a (ha seg (by simp))]
  · obtain rfl := List.mem_singleton.mp hseg
    rw [hread]
    exact ht.loaded a hle

theorem loadSegments_ends (h : ∀ seg ∈ segs, Placed seg)
    (hdis : segs.Pairwise fun seg seg' => ∀ p, Covers seg p → ¬Covers seg' p) (x : Elf) (s : EnvLoad)
    (hz : s.ptrZeroPage = zeroPage) : Ends (loadSegments x segs) s fun _ t => Loads x segs s t := by
  induction segs generalizing s with
  | nil => exact .pure ⟨rfl, fun _ _ => rfl, by simp, hz⟩
  | cons seg segs ih =>
    obtain ⟨hseg, hdis⟩ := List.pairwise_cons.mp hdis
    refine (loadSegment_ends (h seg (by simp)) x s hz).bind fun _ t ht => ?_
    refine (ih (fun seg' hs => h seg' (by simp [hs])) hdis t ht.zero).mono fun _ u hu =>
      ⟨?_, fun a ha => ?_, fun seg' hs a hle hc => ?_, hu.zero⟩
    · rw [hu.pageFile, ht.pageFile]
      rfl
    · rw [hu.kept a fun seg' hs => ha seg' (by simp [hs]), ht.kept a fun seg' hs => ?_]
      exact ha seg' (by simp [List.mem_singleton.mp hs])
    · rcases List.mem_cons.mp hs with rfl | hs
      · rw [hu.kept a fun seg'' hs => hseg seg'' hs _ hc]
        exact ht.loaded seg' (by simp) a hle hc
      · have hkept : readByte t a = readByte s a := ht.kept a fun seg'' hs' => by
          rw [List.mem_singleton.mp hs']
          exact fun hc' => hseg seg' hs _ hc' hc
        rw [← hkept]
        exact hu.loaded seg' hs a hle hc

theorem createStack_ends (s : EnvLoad) :
    Ends createStack s fun _ t =>
      t.pageFile = Function.update s.pageFile (stackVa / pageSize) (some s.ptrZeroPage) ∧
      ∀ a, readByte t a = if a / pageSize = stackVa / pageSize then some 0 else readByte s a := by
  simp only [createStack, allocateFrame, loadtimeMapFrame]
  refine .bind_ok (run_modify _) (.bind_ok rfl (.bind_ok (run_modify _) ?_))
  refine (addToWorkingSet_ends _ _).bind fun _ t ht => ?_
  refine ((pfAddEmptyEnvPage_sat _ _).weaken fun _ _ => trivial).mono fun _ u hu => ⟨funext fun p => ?_, fun a => ?_⟩
  · have hzero : t.ptrZeroPage = s.ptrZeroPage := ht.zero
    rw [hu.pageFile, ht.pageFile, hzero]
  · rw [hu.readByte, ht.bytes]
    simp only [readByte, Function.update_apply]
    split <;> rfl

theorem foldl_segmentFile_of_not_covers (h : ∀ seg ∈ segs, ¬Covers seg p) (x : Elf)
    (file : ℕ → Option Page) : segs.foldl (fun file seg => segmentFile x seg file) file p =
      if ∃ seg ∈ segs, ZeroEnd seg p then some zeroPage else file p := by
  induction segs generalizing file with
  | nil => simp
  | cons seg segs ih =>
    rw [List.foldl_cons, ih fun seg' hs => h seg' (by simp [hs])]
    have hseg : segmentFile x seg file p = if ZeroEnd seg p then some zeroPage else file p :=
      if_neg (h seg (by simp))
    rw [hseg]
    by_cases hz : ZeroEnd seg p
    · simp [hz]
    · simp [hz]

/-- The page of a segment in the file in the end. -/
def finalPage (x : Elf) (seg : ProgramSegment) (later : List ProgramSegment) (p : ℕ) : Page :=
  if ZeroedLater later p then zeroPage else writtenPage x seg p

theorem foldl_segmentFile {A B : List ProgramSegment}
    (hdis : (A ++ seg :: B).Pairwise fun seg seg' => ∀ p, Covers seg p → ¬Covers seg' p)
    (hc : Covers seg p) (x : Elf) (file : ℕ → Option Page) :
    Function.update ((A ++ seg :: B).foldl (fun file seg => segmentFile x seg file) file)
      (stackVa / pageSize) (some zeroPage) p = some (finalPage x seg B p) := by
  have hB : ∀ seg' ∈ B, ¬Covers seg' p := fun seg' hs =>
    (List.pairwise_cons.mp (List.pairwise_append.mp hdis).2.1).1 seg' hs p hc
  rw [Function.update_apply, finalPage]
  by_cases hp : p = stackVa / pageSize
  · rw [if_pos hp, if_pos (.inl hp)]
  · rw [if_neg hp, List.foldl_append, List.foldl_cons, foldl_segmentFile_of_not_covers hB]
    by_cases hz : ∃ seg ∈ B, ZeroEnd seg p
    · rw [if_pos hz, if_pos (.inr hz)]
    · rw [if_neg hz, if_neg (fun h => h.elim hp hz)]
      exact if_pos hc

theorem loadProgram_ends (hsize : ∀ seg ∈ programSegments x, seg.sizeInFile ≤ seg.sizeInMemory)
    (hdis : (programSegments x).Pairwise fun seg seg' => ∀ p, Covers seg p → ¬Covers seg' p)
    (hbelow : ∀ seg ∈ programSegments x, seg.virtualAddress + seg.sizeInMemory ≤ kernelBase)
    (hs : Fresh s) : Ends (loadProgram x) s fun _ t =>
      (∀ A seg B, programSegments x = A ++ seg :: B → ∀ p, Covers seg p →
        t.pageFile p = some (finalPage x seg B p)) ∧
      ∀ seg ∈ programSegments x, ∀ a b, seg.virtualAddress ≤ a → Covers seg (a / pageSize) →
        readByte t a = some b → b = if a / pageSize = stackVa / pageSize then 0 else expectedByte x seg a := by
  have hplaced (seg : ProgramSegment) (h : seg ∈ programSegments x) : Placed seg :=
    ⟨hsize seg h, hbelow seg h⟩
  unfold loadProgram
  by_cases hmagic : x.eMagic ≠ elfMagic
  · rw [if_pos hmagic]
    exact .of_error rfl trivial
  · rw [if_neg hmagic]
    refine .bind_ok (run_modify _) (Sat.bind (loadSegments_ends hplaced hdis x _ ?_) fun _ t ht => ?_)
    · exact hs.zero
    refine (createStack_ends t).mono fun _ u ⟨hfile, hread⟩ => ⟨fun A seg B hsegs p hc => ?_,
      fun seg hseg a b hle hc hb => ?_⟩
    · rw [hfile, ht.zero, ht.pageFile]
      rw [hsegs]
      exact foldl_segmentFile (hsegs ▸ hdis) hc x _
    · rw [hread] at hb
      by_cases hstack : a / pageSize = stackVa / pageSize
      · rw [if_pos hstack] at hb ⊢
        exact (Option.some.inj hb).symm
      · rw [if_neg hstack] at hb ⊢
        rcases ht.loaded seg hseg a hle hc with h | h
        · rw [h, readByte, hs.pages] at hb
          cases hb
        · rw [h] at hb
          exact (Option.some.inj hb).symm

/-- What adding pages below the kernel keeps true of a page file. -/
def KeptByAdds (P : (ℕ → Option Page) → Prop) : Prop := ∀ file va q, va < kernelBase → P file →
  P (Function.update file (va / pageSize) (some q))

/-- The page file has `P`, and `z` is at `ptr_zero_page`. -/
structure Holds (P : (ℕ → Option Page) → Prop) (z : Page) (s : EnvLoad) : Prop where
  file : P s.pageFile
  zero : s.ptrZeroPage = z

section Keeping

variable {P : (ℕ → Option Page) → Prop} {z : Page}

theorem Holds.congr (h : Holds P z s) (hfile : t.pageFile = s.pageFile) (hzero : t.ptrZeroPage = s.ptrZeroPage) :
    Holds P z t := ⟨hfile ▸ h.file, hzero.trans h.zero⟩

theorem forRange_holds {body : ℕ → Loader PUnit} {i n : ℕ}
    (hbody : ∀ i t, Holds P z t → Ends (body i) t fun _ u => Holds P z u) (h : Holds P z s) :
    Ends (forRange body i n) s fun _ t => Holds P z t :=
  Sat.forRange (fun _ t => Holds P z t) h fun k t _ _ ht => hbody k t ht

theorem allocMapCopy_holds (h : Holds P z s) (x : Elf) (seg : ProgramSegment) :
    Ends (programSegmentAllocMapCopyWorkingset x seg) s fun _ t => Holds P z t := by
  have hwrite (va : ℕ) (b : UInt8) (t : EnvLoad) (ht : Holds P z t) :
      Ends (writeByte va b) t fun _ u => Holds P z u :=
    (writeByte_ends t va b).mono fun _ _ hu => ht.congr hu.pageFile hu.zero
  unfold programSegmentAllocMapCopyWorkingset
  refine .bind_ok run_get ?_
  refine (forRange_holds (fun i t ht => ?_) h).bind fun _ t ht => ?_
  · exact (allocateSegmentPage_ends t _ i).mono fun _ _ hu => ht.congr hu.2.1 hu.2.2
  refine (forRange_holds (fun i t ht => hwrite _ _ t ht) ht).bind fun _ t ht => ?_
  exact (forRange_holds (fun i t ht => hwrite _ _ t ht) ht).bind fun _ t ht => .pure ht

theorem fillTempPage_holds (h : Holds P z s) (x : Elf) (src dst i n : ℕ) :
    Ends (forRange (copyToTempPage x src dst) i n) s fun _ t => Holds P z t :=
  forRange_holds (fun _ _ ht => .of_ok (run_modify _) (ht.congr rfl rfl)) h

variable (hP : KeptByAdds P)
include hP

theorem pfAddEnvPage_holds (h : Holds P z s) (va : ℕ) (q : Page) :
    Ends (pfAddEnvPage va q) s fun _ t => Holds P z t := by
  unfold pfAddEnvPage
  split
  · exact .of_error rfl trivial
  · rename_i hva
    exact .of_ok rfl ⟨hP _ va q (not_le.mp hva) h.file, h.zero⟩

theorem pfAddEmptyEnvPage_holds (h : Holds P z s) (va : ℕ) :
    Ends (pfAddEmptyEnvPage va) s fun _ t => Holds P z t := by
  unfold pfAddEmptyEnvPage
  refine .bind_ok run_get ?_
  split
  · refine .bind_ok run_set (pfAddEnvPage_holds hP ?_ va _)
    exact h.congr rfl rfl
  · exact pfAddEnvPage_holds hP h va _

theorem loadSegment_holds (h : Holds P z s) (x : Elf) (seg : ProgramSegment) :
    Ends (loadSegment x seg) s fun _ t => Holds P z t := by
  unfold loadSegment
  refine (allocMapCopy_holds h x seg).bind fun n t ht => .bind_ok (run_modify _) ?_
  have hfirst (t : EnvLoad) (ht : Holds P z t) : Ends (writeFirstPage x seg) t fun _ u => Holds P z u := by
    unfold writeFirstPage
    refine .bind_ok (run_modify _) (Sat.bind (fillTempPage_holds (P := P) (z := z) ?_ x _ _ _ _) fun _ u hu => ?_)
    · exact ht.congr rfl rfl
    · exact .bind_ok run_get ((pfAddEnvPage_holds hP hu _ _).bind fun _ v hv => .pure hv)
  have hmiddle (src : ℕ) (t : EnvLoad) (ht : Holds P z t) :
      Ends (writeMiddlePages x seg src) t fun _ u => Holds P z u := by
    unfold writeMiddlePages
    exact (forRange_holds (fun _ _ hu => pfAddEnvPage_holds hP hu _ _) ht).bind fun _ u hu => .pure hu
  have hlast (src : ℕ) (t : EnvLoad) (ht : Holds P z t) :
      Ends (writeLastPage x seg src) t fun _ u => Holds P z u := by
    unfold writeLastPage
    refine .bind_ok (run_modify _) (Sat.bind (fillTempPage_holds (P := P) (z := z) ?_ x _ _ _ _) fun _ u hu => ?_)
    · exact ht.congr rfl rfl
    · exact .bind_ok run_get (pfAddEnvPage_holds hP hu _ _)
  refine Sat.bind (hfirst _ ?_) fun src t ht => (hmiddle src t ht).bind fun src t ht => ?_
  · exact ht.congr rfl rfl
  · refine (hlast src t ht).bind fun _ t ht => ?_
    exact forRange_holds (fun _ _ hu => pfAddEmptyEnvPage_holds hP hu _) ht

theorem loadSegments_holds (h : Holds P z s) (x : Elf) (segs : List ProgramSegment) :
    Ends (loadSegments x segs) s fun _ t => Holds P z t := by
  induction segs generalizing s with
  | nil => exact .pure h
  | cons seg segs ih => exact (loadSegment_holds hP h x seg).bind fun _ t ht => ih ht

theorem loadProgram_holds (h : Holds P z s) (x : Elf) : Ends (loadProgram x) s fun _ t =>
    ∃ file, P file ∧ t.pageFile = Function.update file (stackVa / pageSize) (some z) := by
  unfold loadProgram
  by_cases hmagic : x.eMagic ≠ elfMagic
  · rw [if_pos hmagic]
    exact .of_error rfl trivial
  · rw [if_neg hmagic]
    refine .bind_ok (run_modify _) ((loadSegments_holds hP (z := z) ?_ x _).bind fun _ t ht => ?_)
    · exact h.congr rfl rfl
    · exact (createStack_ends t).mono fun _ u hu => ⟨t.pageFile, ht.file, ht.zero ▸ hu.1⟩

end Keeping

theorem keptByAdds_below : KeptByAdds fun file => ∀ p, kernelBase ≤ pageSize * p → file p = none := by
  intro file va q hva h p hp
  refine (Function.update_of_ne ?_ _ _).trans (h p hp)
  rintro rfl
  exact absurd (hp.trans (Nat.mul_div_le va pageSize)) (not_le.mpr hva)

theorem loadProgram_below (h : ∀ p, kernelBase ≤ pageSize * p → s.pageFile p = none) (x : Elf) :
    Ends (loadProgram x) s fun _ t => ∀ p, kernelBase ≤ pageSize * p → t.pageFile p = none := by
  refine (loadProgram_holds keptByAdds_below ⟨h, rfl⟩ x).mono fun _ t ⟨file, hfile, ht⟩ => ?_
  rw [ht]
  exact keptByAdds_below file stackVa _ (by decide) hfile

theorem expectedPage_byte (x : Elf) (seg : ProgramSegment) (a : ℕ) :
    byteAt (expectedPage x seg (a / pageSize)) a = expectedByte x seg a := by
  have ha : pageSize * (a / pageSize) + a % 4096 = a := Nat.div_add_mod a 4096
  simp only [byteAt, expectedPage, Fin.val_ofNat, ha]

theorem finalPage_tail {a : ℕ} (h : seg.virtualAddress + seg.sizeInFile ≤ a) (x : Elf) (B : List ProgramSegment) :
    byteAt (finalPage x seg B (a / pageSize)) a = 0 := by
  have hpast : ¬a < seg.virtualAddress + seg.sizeInFile := not_lt.mpr h
  rw [finalPage]
  by_cases hz : ZeroedLater B (a / pageSize)
  · rw [if_pos hz]
    rfl
  · rw [if_neg hz, writtenPage]
    by_cases hs : ShortStart seg (a / pageSize)
    · have ha : pageSize * (a / pageSize) + a % 4096 = a := Nat.div_add_mod a 4096
      rw [if_pos hs, byteAt, shiftedPage, Fin.val_ofNat, ha, if_neg hpast]
    · rw [if_neg hs, expectedPage_byte, expectedByte, if_neg fun hlt => hpast hlt.2]

theorem covers_of_mem {a : ℕ} (hle : seg.virtualAddress ≤ a)
    (hlt : a < seg.virtualAddress + seg.sizeInMemory) : Covers seg (a / pageSize) := by
  simp only [Covers, pageSize]
  omega

theorem Loaded.loadsRight (hx : WellFormed x) (hs : Fresh s) (hrun : (loadProgram x).run s = .ok ((), t)) (h : Loaded x t) :
    LoadsRight x := by
  have hbelow : ∀ seg ∈ programSegments x, seg.virtualAddress + seg.sizeInMemory ≤ kernelBase := by
    intro seg hseg
    have hfile := (loadProgram_below (fun p _ => hs.pageFile p) x).ok hrun
    have hpos := hx.filesz seg hseg
    obtain ⟨q, hq⟩ := h.present seg hseg (seg.virtualAddress + seg.sizeInMemory - 1) (by omega) (by omega)
    by_contra hlt
    rw [hfile _ ?_] at hq
    · cases hq
    · simp only [pageSize, kernelBase] at *
      omega
  intro A seg B hsegs
  have hseg : seg ∈ programSegments x := by simp [hsegs]
  refine ⟨hbelow seg hseg, fun p hc => ?_⟩
  have hpage := ((loadProgram_ends hx.sizes hx.disjoint hbelow hs).ok hrun).1 A seg B hsegs p hc
  have hfinal : finalPage x seg B p = expectedPage x seg p := by
    funext o
    have hdiv : (pageSize * p + o.val) / pageSize = p := by
      simp only [pageSize]
      omega
    obtain ⟨q, hq, hbyte⟩ := h.file seg hseg (pageSize * p + o.val) (hdiv.symm ▸ hc)
    rw [hdiv, hpage] at hq
    obtain rfl := Option.some.inj hq
    rw [← expectedPage_byte, hdiv] at hbyte
    have hofs : Fin.ofNat 4096 (pageSize * p + o.val) = o := by
      apply Fin.ext
      simp only [Fin.val_ofNat, pageSize]
      omega
    simpa only [byteAt, hofs] using hbyte
  rw [finalPage] at hfinal
  refine ⟨fun hz => ?_, fun hz hshort => ?_⟩
  · rw [← hfinal, if_pos hz]
  · rw [← hfinal, if_neg hz, writtenPage, if_pos hshort]

theorem LoadsRight.loaded (hx : WellFormed x) (hs : Fresh s) (hrun : (loadProgram x).run s = .ok ((), t)) (h : LoadsRight x) :
    Loaded x t := by
  have hsplit {seg : ProgramSegment} (hseg : seg ∈ programSegments x) :=
    List.append_of_mem hseg
  have hbelow : ∀ seg ∈ programSegments x, seg.virtualAddress + seg.sizeInMemory ≤ kernelBase := by
    intro seg hseg
    obtain ⟨A, B, hsegs⟩ := hsplit hseg
    exact (h A seg B hsegs).1
  obtain ⟨hfile, hread⟩ := (loadProgram_ends hx.sizes hx.disjoint hbelow hs).ok hrun
  have hexpected : ∀ seg ∈ programSegments x, ∀ p, Covers seg p →
      t.pageFile p = some (expectedPage x seg p) ∧
        (p = stackVa / pageSize → expectedPage x seg p = zeroPage) := by
    intro seg hseg p hc
    obtain ⟨A, B, hsegs⟩ := hsplit hseg
    obtain ⟨hzero, hshort⟩ := (h A seg B hsegs).2 p hc
    refine ⟨?_, fun hp => hzero (.inl hp)⟩
    rw [hfile A seg B hsegs p hc, finalPage, writtenPage]
    by_cases hz : ZeroedLater B p
    · rw [if_pos hz, hzero hz]
    · rw [if_neg hz]
      by_cases hs : ShortStart seg p
      · rw [if_pos hs, hshort hz hs]
      · rw [if_neg hs]
  refine ⟨fun seg hseg a hc => ?_, fun seg hseg a hle hlt => ?_, fun seg hseg a b hle hlt hb => ?_⟩
  · exact ⟨_, (hexpected seg hseg _ hc).1, expectedPage_byte x seg a⟩
  · exact ⟨_, (hexpected seg hseg _ (covers_of_mem hle hlt)).1⟩
  · have hc := covers_of_mem hle hlt
    obtain ⟨hpage, hstack⟩ := hexpected seg hseg _ hc
    refine ⟨_, hpage, ?_⟩
    rw [hread seg hseg a b hle hc hb]
    split
    · rename_i hp
      rw [hstack hp]
      rfl
    · exact expectedPage_byte x seg a

/-- A program that could be loaded is in the page file and in memory as it is in its
image, exactly when no page of a segment is written wrongly. -/
theorem loaded_iff (hx : WellFormed x) (hs : Fresh s) (hrun : (loadProgram x).run s = .ok ((), t)) :
    Loaded x t ↔ LoadsRight x :=
  ⟨fun h => h.loadsRight hx hs hrun, fun h => h.loaded hx hs hrun⟩

/-- The segments whose headers are numbered from `i` on. -/
def loadedFrom (x : Elf) (i : ℕ) : List ProgramSegment :=
  ((List.range' i (x.ePhnum - i)).filter fun k => (x.ph k).pType = elfProgLoad).map (segmentAt x)

theorem loadedFrom_skipHeaders (x : Elf) (i : ℕ) : loadedFrom x i = loadedFrom x (skipHeaders x i) := by
  induction hn : x.ePhnum - i generalizing i with
  | zero =>
    rw [skipHeaders, if_neg (by omega)]
  | succ n ih =>
    rw [skipHeaders]
    split
    · rename_i hskip
      rw [← ih (i + 1) (by omega), loadedFrom, hn, List.range'_succ,
        List.filter_cons_of_neg (by simpa using hskip.1), loadedFrom, show x.ePhnum - (i + 1) = n by omega]
    · rfl

theorem loadedFrom_of_load {i : ℕ} (hi : i < x.ePhnum) (hload : (x.ph i).pType = elfProgLoad) :
    loadedFrom x i = segmentAt x i :: loadedFrom x (i + 1) := by
  rw [loadedFrom, show x.ePhnum - i = x.ePhnum - (i + 1) + 1 by omega, List.range'_succ,
    List.filter_cons_of_pos (by simpa using hload)]
  rfl

theorem skipHeaders_load {i : ℕ} (h : skipHeaders x i < x.ePhnum) :
    (x.ph (skipHeaders x i)).pType = elfProgLoad := by
  induction hn : x.ePhnum - i generalizing i with
  | zero =>
    rw [skipHeaders, if_neg (by omega)] at h
    omega
  | succ n ih =>
    rw [skipHeaders] at h ⊢
    split at h
    · rename_i hskip
      rw [if_pos hskip]
      exact ih h (by omega)
    · rename_i hskip
      rw [if_neg hskip]
      by_contra hne
      exact hskip ⟨hne, h⟩

theorem le_skipHeaders (x : Elf) (i : ℕ) : i ≤ skipHeaders x i := by
  induction hn : x.ePhnum - i generalizing i with
  | zero => rw [skipHeaders, if_neg (by omega)]
  | succ n ih =>
    rw [skipHeaders]
    split
    · have := ih (i + 1) (by omega)
      omega
    · exact le_rfl

theorem segmentsFrom_eq (x : Elf) {n i : ℕ} (hn : x.ePhnum - i ≤ n) :
    segmentsFrom x n (if skipHeaders x i < x.ePhnum then some (segmentAt x (skipHeaders x i)) else none) =
      loadedFrom x i := by
  rw [loadedFrom_skipHeaders]
  induction n generalizing i with
  | zero =>
    have hle := le_skipHeaders x i
    rw [if_neg (by omega), loadedFrom, show x.ePhnum - skipHeaders x i = 0 by omega]
    rfl
  | succ n ih =>
    have hle := le_skipHeaders x i
    split
    · rename_i hlt
      rw [loadedFrom_of_load hlt (skipHeaders_load hlt), loadedFrom_skipHeaders x (skipHeaders x i + 1), ←
        ih (i := skipHeaders x i + 1) (by omega)]
      rfl
    · rename_i hlt
      rw [loadedFrom, show x.ePhnum - skipHeaders x i = 0 by omega]
      rfl

/-- The loop goes through the headers of type `LOAD`. -/
theorem programSegments_eq (x : Elf) : programSegments x = loadedFrom x 0 :=
  segmentsFrom_eq x (Nat.sub_le _ _)

/-- A new environment whose working set is to hold the stack page. -/
def stackOnly : EnvLoad where
  pageFile _ := none
  pages _ := none
  frame _ := zeroPage
  framesTaken := 0
  ptrTempPage := zeroPage
  ptrZeroPage := zeroPage
  progName := ""
  pageWSMaxSize := 1
  ptrPageWorkingSet _ := ⟨0, true, 0⟩
  pageLastWSIndex := 0
  ptrTws _ := ⟨0, true, 0⟩
  tableLastWSIndex := 0
  initNumStackPages := 0
  nNewPageAdded := 0
  remainingWSPages := 0
  lastTableNumber := 0

theorem stackOnly_fresh : Fresh stackOnly := ⟨fun _ => rfl, fun _ => rfl, rfl⟩

/-- Without a page left nothing of a segment is copied into memory. -/
theorem allocMapCopy_none (x : Elf) (seg : ProgramSegment) (hs : s.remainingWSPages = 0) :
    (programSegmentAllocMapCopyWorkingset x seg).run s = .ok (0, s) := by
  have hlimit (sva : ℕ) : segmentLimit s sva = 0 := by simp [segmentLimit, hs]
  have hcopied (n : ℕ) : min (roundDown seg.virtualAddress pageSize) n - seg.virtualAddress = 0 :=
    Nat.sub_eq_zero_of_le ((Nat.min_le_left _ _).trans (roundDown_le _ _))
  have hrest : roundDown seg.virtualAddress pageSize - seg.virtualAddress = 0 :=
    Nat.sub_eq_zero_of_le (roundDown_le _ _)
  rw [programSegmentAllocMapCopyWorkingset, run_bind_ok run_get]
  simp only [hlimit, Nat.min_zero, Nat.zero_mul, Nat.add_zero, hcopied, hrest]
  rfl

theorem loadSegment_none (h : Placed seg) (hbelow : seg.virtualAddress + seg.sizeInMemory < kernelBase)
    (x : Elf) (hs : s.remainingWSPages = 0) (hz : s.ptrZeroPage = zeroPage) :
    Sat (fun _ => False) (loadSegment x seg) s fun _ t => t.pageWSMaxSize = s.pageWSMaxSize := by
  unfold loadSegment
  refine .bind_ok (allocMapCopy_none x seg hs) (.bind_ok (run_modify _) ?_)
  refine Sat.mono ((h.writeParts_sat x _ ?_).weaken fun _ he => absurd he (not_le.mpr hbelow))
    fun _ t ht => ht.wsSize
  exact hz

theorem createStack_exists (hs : s.pageWSMaxSize = 1) :
    Sat (fun _ => False) createStack s fun _ _ => True := by
  simp only [createStack, allocateFrame, loadtimeMapFrame, addToWorkingSet]
  refine .bind_ok (run_modify _) (.bind_ok rfl (.bind_ok (run_modify _) (Sat.bind
    (.bind_ok (run_modify _) (.bind_ok run_get ?_)) (R := fun _ _ => True) fun _ t _ => ?_)))
  · simp only [hs]
    exact .of_ok rfl trivial
  · refine ((pfAddEmptyEnvPage_sat t stackVa).weaken fun _ he => ?_).mono fun _ _ _ => trivial
    exact absurd he (by decide)

theorem loadProgram_exists (hmagic : x.eMagic = elfMagic) (hsegs : programSegments x = [seg])
    (h : Placed seg) (hbelow : seg.virtualAddress + seg.sizeInMemory < kernelBase) :
    ∃ t, (loadProgram x).run stackOnly = .ok ((), t) := by
  have hload : Sat (fun _ => False) (loadProgram x) stackOnly fun _ _ => True := by
    unfold loadProgram
    rw [if_neg (by simp [hmagic]), hsegs]
    refine .bind_ok (run_modify _) ?_
    refine Sat.bind (R := fun _ t => t.pageWSMaxSize = 1) ?_ fun _ t ht => createStack_exists ht
    exact (loadSegment_none h hbelow x rfl rfl).bind fun _ t ht => .pure ht
  obtain ⟨_, t, hrun, -⟩ := hload.exists_ok
  exact ⟨t, hrun⟩

def oneByte (va : ℕ) : Elf := ⟨elfMagic, 1, fun _ => ⟨elfProgLoad, 0, va, 1, 1⟩, fun i => if i = 0 then 7 else 0⟩

theorem programSegments_oneByte (va : ℕ) : programSegments (oneByte va) = [⟨0, 1, 1, va, 0⟩] :=
  programSegments_eq _

theorem wellFormed_oneByte (va : ℕ) : WellFormed (oneByte va) := by
  refine ⟨fun seg hseg => ?_, ?_⟩
  · rw [programSegments_oneByte, List.mem_singleton] at hseg
    subst hseg
    exact ⟨Nat.one_pos, le_rfl⟩
  · rw [programSegments_oneByte]
    exact List.pairwise_singleton _ _

theorem oneByte_exists {va : ℕ} (h : va + 1 < kernelBase) :
    ∃ t, (loadProgram (oneByte va)).run stackOnly = .ok ((), t) :=
  loadProgram_exists rfl (programSegments_oneByte va) ⟨le_rfl, h.le⟩ h

theorem mem_oneByte {va : ℕ} {A B : List ProgramSegment} (h : programSegments (oneByte va) = A ++ seg :: B) :
    seg = ⟨0, 1, 1, va, 0⟩ ∧ B = [] := by
  rw [programSegments_oneByte] at h
  cases A with
  | nil => exact ⟨(List.cons.inj h).1.symm, (List.cons.inj h).2.symm⟩
  | cons seg' A => exact absurd (List.cons.inj h).2 (by simp)

/-- A byte at the start of a page is loaded. -/
theorem loaded_iff_oneByte : ∃ t, (loadProgram (oneByte 0x800000)).run stackOnly = .ok ((), t) ∧
    Loaded (oneByte 0x800000) t := by
  obtain ⟨t, hrun⟩ := oneByte_exists (show 0x800000 + 1 < kernelBase by decide)
  refine ⟨t, hrun, (loaded_iff (wellFormed_oneByte _) stackOnly_fresh hrun).mpr fun A seg B hsegs => ?_⟩
  obtain ⟨rfl, rfl⟩ := mem_oneByte hsegs
  refine ⟨by decide, fun p hc => ?_⟩
  obtain rfl : p = 0x800 := by
    simp only [Covers, pageSize] at hc
    omega
  exact ⟨fun hz => absurd hz (by decide), fun _ hs => absurd hs (by decide)⟩

/-- A byte that is alone inside a page does not reach the page file. -/
theorem oneByte_not_loaded : ¬∀ x s t, WellFormed x → Fresh s → (loadProgram x).run s = .ok ((), t) →
    Loaded x t := by
  intro hall
  obtain ⟨t, hrun⟩ := oneByte_exists (show 0x800001 + 1 < kernelBase by decide)
  have hloaded := hall _ _ _ (wellFormed_oneByte _) stackOnly_fresh hrun
  have hbelow : ∀ seg ∈ programSegments (oneByte 0x800001),
      seg.virtualAddress + seg.sizeInMemory ≤ kernelBase := by
    rw [programSegments_oneByte]
    simp only [List.mem_singleton, forall_eq]
    decide
  obtain ⟨q, hq, hbyte⟩ := hloaded.file _ (by rw [programSegments_oneByte]; exact List.mem_singleton_self _)
    0x800001 (by decide)
  have hpage := ((loadProgram_ends (wellFormed_oneByte _).sizes (wellFormed_oneByte _).disjoint hbelow stackOnly_fresh).ok hrun).1 [] _ []
    (programSegments_oneByte _) 0x800 (by decide)
  obtain rfl := Option.some.inj (hpage.symm.trans hq)
  rw [finalPage, if_neg (by decide), writtenPage, if_pos (by decide)] at hbyte
  exact absurd hbyte (by decide)

end FosKernel.ProgramLoading
