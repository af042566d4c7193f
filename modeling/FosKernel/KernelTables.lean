import Mathlib.Data.Set.Function
import FosKernel.MappedTables

/-!
# The kernel's own page tables

They were made at boot time, lie in remapped memory and never move. Mapping and
unmapping kernel heap pages changes single entries of them.
-/

namespace FosKernel.Machine
open FailingPrograms PageEntries

variable {s t : Machine} {va p q f n i w : ℕ} {tol : Panic → Prop}

def kernelDir (s : Machine) : ℕ := frameNumber (s.ptrPageDirectory - kernelBase)
def kernelPde (s : Machine) (i : ℕ) : ℕ := wordAt (s.ram s.kernelDir) i
def kernelTable (s : Machine) (i : ℕ) : ℕ := frameNumber (s.kernelPde i)

def kernelPte (s : Machine) (va : ℕ) : ℕ := wordAt (s.ram (s.kernelTable (pdx va))) (ptx va)

theorem pdx_lt (va : ℕ) : pdx va < 1024 := Nat.mod_lt _ (by decide)
theorem ptx_lt (va : ℕ) : ptx va < 1024 := Nat.mod_lt _ (by decide)

/-- The tables with the directory indices `I` were made at boot time. -/
structure KernelTables (s : Machine) (I : Set ℕ) : Prop where
  base : kernelBase ≤ s.ptrPageDirectory
  lt_free : s.ptrPageDirectory < s.ptrFreeMem
  free_le : s.ptrFreeMem ≤ kernelHeapStart
  frames : s.numberOfFrames ≤ 2 ^ 20
  present : ∀ i ∈ I, HasPerm (s.kernelPde i) (permPresent ||| permWriteable)
  lt_frames : ∀ i ∈ I, s.kernelTable i < s.numberOfFrames
  static : ∀ i ∈ I, kernelBase + pageSize * s.kernelTable i < s.ptrFreeMem
  ne_dir : ∀ i ∈ I, s.kernelTable i ≠ s.kernelDir
  inj : Set.InjOn s.kernelTable I

@[simp] theorem kernelPte_setInfo (s : Machine) (f : ℕ) (v : FrameInfo) :
    (s.setInfo f v).kernelPte = s.kernelPte := rfl
@[simp] theorem kernelPte_setFree (s : Machine) (fs : List ℕ) :
    (s.setFree fs).kernelPte = s.kernelPte := rfl
@[simp] theorem kernelPte_setHeap (s : Machine) (h : DynamicAllocator.State) :
    (s.setHeap h).kernelPte = s.kernelPte := rfl

theorem kernelDir_congr (h : t.ptrPageDirectory = s.ptrPageDirectory) : t.kernelDir = s.kernelDir := by
  rw [kernelDir, h, kernelDir]

theorem kernelPde_congr (h : t.ptrPageDirectory = s.ptrPageDirectory)
    (hd : t.ram s.kernelDir = s.ram s.kernelDir) : t.kernelPde = s.kernelPde := by
  funext i
  rw [kernelPde, kernelDir_congr h, hd, kernelPde]

theorem kernelTable_congr (h : t.ptrPageDirectory = s.ptrPageDirectory)
    (hd : t.ram s.kernelDir = s.ram s.kernelDir) : t.kernelTable = s.kernelTable := by
  funext i
  rw [kernelTable, kernelPde_congr h hd, kernelTable]

theorem kernelPte_congr (h : t.ptrPageDirectory = s.ptrPageDirectory)
    (hd : t.ram s.kernelDir = s.ram s.kernelDir)
    (ht : t.ram (s.kernelTable (pdx va)) = s.ram (s.kernelTable (pdx va))) :
    t.kernelPte va = s.kernelPte va := by
  rw [kernelPte, kernelTable_congr h hd, ht, kernelPte]

namespace KernelTables

variable {I : Set ℕ}

theorem congr_pde (kt : KernelTables s I) (hp : t.ptrPageDirectory = s.ptrPageDirectory)
    (hf : t.ptrFreeMem = s.ptrFreeMem) (hn : t.numberOfFrames = s.numberOfFrames)
    (hpde : ∀ i ∈ I, t.kernelPde i = s.kernelPde i) : KernelTables t I := by
  have htab (i : ℕ) (hi : i ∈ I) : t.kernelTable i = s.kernelTable i := by
    rw [kernelTable, hpde i hi, kernelTable]
  constructor
  · rw [hp]; exact kt.base
  · rw [hp, hf]; exact kt.lt_free
  · rw [hf]; exact kt.free_le
  · rw [hn]; exact kt.frames
  · intro i hi; rw [hpde i hi]; exact kt.present i hi
  · intro i hi; rw [htab i hi, hn]; exact kt.lt_frames i hi
  · intro i hi; rw [htab i hi, hf]; exact kt.static i hi
  · intro i hi; rw [htab i hi, kernelDir_congr hp]; exact kt.ne_dir i hi
  · exact kt.inj.congr fun i hi => (htab i hi).symm

theorem congr (kt : KernelTables s I) (hp : t.ptrPageDirectory = s.ptrPageDirectory)
    (hf : t.ptrFreeMem = s.ptrFreeMem) (hn : t.numberOfFrames = s.numberOfFrames)
    (hd : t.ram s.kernelDir = s.ram s.kernelDir) : KernelTables t I :=
  kt.congr_pde hp hf hn fun i _ => by rw [kernelPde_congr hp hd]

theorem mono {J : Set ℕ} (kt : KernelTables s I) (h : J ⊆ I) : KernelTables s J where
  base := kt.base
  lt_free := kt.lt_free
  free_le := kt.free_le
  frames := kt.frames
  present i hi := kt.present i (h hi)
  lt_frames i hi := kt.lt_frames i (h hi)
  static i hi := kt.static i (h hi)
  ne_dir i hi := kt.ne_dir i (h hi)
  inj := kt.inj.mono h

theorem pde_present (kt : KernelTables s I) (hi : i ∈ I) : HasPerm (s.kernelPde i) permPresent :=
  (hasPerm_or.mp (kt.present i hi)).1

theorem translate_dir (kt : KernelTables s I) {need : ℕ}
    (hneed : HasPerm (permPresent ||| permWriteable) need) :
    s.translate need s.ptrPageDirectory = some s.kernelDir :=
  translate_static ⟨kt.base, kt.lt_free⟩ hneed

theorem translate_table (kt : KernelTables s I) (hi : i ∈ I) {need : ℕ}
    (hneed : HasPerm (permPresent ||| permWriteable) need) :
    s.translate need (kernelBase + pageSize * s.kernelTable i) = some (s.kernelTable i) := by
  rw [translate_static ⟨Nat.le_add_right _ _, kt.static i hi⟩ hneed, Nat.add_sub_cancel_left]
  simp [frameNumber, pageSize]

theorem hasTable_of_entry (kt : KernelTables s I) (hi : pdx va ∈ I) (hva : userTop ≤ va) {dir d : ℕ}
    (hdir : s.translate permPresent dir = some d)
    (hpde : wordAt (s.ram d) (pdx va) = s.kernelPde (pdx va)) :
    HasTable s dir va (kernelBase + pageSize * s.kernelTable (pdx va)) (s.kernelTable (pdx va)) where
  get := by
    have hlt := kt.lt_frames _ hi
    have hstatic := kt.static _ hi
    have hfree := kt.free_le
    have hpa : frameNumber (extractAddress (s.kernelPde (pdx va))) < s.numberOfFrames := by
      rwa [frameNumber_extractAddress]
    rw [getPageTable, run_bind_ok (readEntry_run hdir), hpde, if_pos (kt.pde_present hi),
      if_pos (by simpa [checkIfKernelAddress] using hva),
      run_bind_ok (staticKernelVirtualAddress_run hpa), run_pure, extractAddress_eq,
      u32_of_lt (by rw [kernelHeapStart] at hfree; simp only [kernelTable, pageSize] at hstatic; omega),
      Nat.add_comm]
    rfl
  ne := by
    simp only [kernelBase]
    omega
  read := kt.translate_table hi (by decide)
  write := kt.translate_table hi (by decide)
  stable h := absurd ⟨Nat.le_add_right _ _, kt.static _ hi⟩ h

theorem hasTable (kt : KernelTables s I) (hi : pdx va ∈ I) (hva : userTop ≤ va) :
    HasTable s s.ptrPageDirectory va (kernelBase + pageSize * s.kernelTable (pdx va))
      (s.kernelTable (pdx va)) :=
  kt.hasTable_of_entry hi hva (kt.translate_dir (by decide)) rfl

end KernelTables

def heapTables : Set ℕ := { i | pdx kernelHeapStart ≤ i ∧ i < 1024 }

/-- A page of the kernel heap, by its address. -/
structure HeapPage (p : ℕ) : Prop where
  start : kernelHeapStart ≤ p
  max : p < kernelHeapMax
  dvd : pageSize ∣ p

theorem HeapPage.index (h : HeapPage p) : pdx p ∈ heapTables := by
  have h₁ := h.start
  have h₂ := h.max
  constructor
  · simp only [pdx, kernelHeapStart, kernelHeapMax] at *
    omega
  · exact pdx_lt p

theorem HeapPage.userTop_le (h : HeapPage p) : userTop ≤ p :=
  (show userTop ≤ kernelHeapStart by decide).trans h.start

theorem HeapPage.add (h : HeapPage p) (hn : p + pageSize * n ≤ kernelHeapMax) (hi : i < n) :
    HeapPage (p + pageSize * i) where
  start := h.start.trans (Nat.le_add_right _ _)
  max := by
    have := Nat.mul_le_mul_left pageSize (show i + 1 ≤ n from hi)
    simp only [pageSize] at *
    omega
  dvd := Nat.dvd_add h.dvd (Nat.dvd_mul_right _ _)

theorem page_eq_of_index (hp : p < 2 ^ 32) (hq : q < 2 ^ 32) (hdp : pageSize ∣ p)
    (hdq : pageSize ∣ q) (h₁ : pdx p = pdx q) (h₂ : ptx p = ptx q) : p = q := by
  simp only [pdx, ptx, pageSize] at *
  omega

theorem HeapPage.lt (h : HeapPage p) : p < 2 ^ 32 := h.max.trans (by decide)

theorem KernelTables.kernelPte_of_setEntry {I : Set ℕ} (kt : KernelTables s I) (hip : pdx p ∈ I)
    (hiq : pdx q ∈ I) (hp : p < 2 ^ 32) (hq : q < 2 ^ 32) (hdp : pageSize ∣ p) (hdq : pageSize ∣ q)
    (hw : w < 2 ^ 32) (ht : t.ptrPageDirectory = s.ptrPageDirectory)
    (hram : t.ram = (s.setEntry (s.kernelTable (pdx p)) (ptx p) w).ram) :
    t.kernelPte q = if q = p then w else s.kernelPte q := by
  have hdir : t.ram s.kernelDir = s.ram s.kernelDir := by
    rw [hram]
    exact setFrame_ram_of_ne (kt.ne_dir _ hip).symm
  rw [kernelPte, kernelTable_congr ht hdir, hram]
  by_cases hpq : q = p
  · rw [if_pos hpq, hpq, setEntry, setFrame_ram_self, wordAt_setWord (ptx_lt _) hw]
  · rw [if_neg hpq]
    by_cases hi : pdx q = pdx p
    · have hj : ptx q ≠ ptx p := fun hj => hpq (page_eq_of_index hq hp hdq hdp hi hj)
      rw [hi, setEntry, setFrame_ram_self, wordAt_setWord_of_ne (ptx_lt _) hj, ← hi, kernelPte]
    · have hne : s.kernelTable (pdx q) ≠ s.kernelTable (pdx p) := fun he => hi (kt.inj hiq hip he)
      rw [setEntry, setFrame_ram_of_ne hne, kernelPte]

theorem KernelTables.heapPte_of_setEntry (kt : KernelTables s heapTables) (hp : HeapPage p)
    (hq : HeapPage q) (hw : w < 2 ^ 32) (ht : t.ptrPageDirectory = s.ptrPageDirectory)
    (hram : t.ram = (s.setEntry (s.kernelTable (pdx p)) (ptx p) w).ram) :
    t.kernelPte q = if q = p then w else s.kernelPte q :=
  kt.kernelPte_of_setEntry hp.index hq.index hp.lt hq.lt hp.dvd hq.dvd hw ht hram

end FosKernel.Machine
