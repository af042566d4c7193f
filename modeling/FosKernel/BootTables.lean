import FosKernel.BootAllocation

/-!
# Page tables at boot time

`boot_get_page_table` takes the space for a new table from `boot_allocate_space`, which
does not clear it. Paging is off: segmentation takes `KERNEL_BASE` off each address.
-/

namespace FosKernel.Machine
open FailingPrograms PageEntries

def bootFrame (p : ℕ) : ℕ := frameNumber (u32 (p + (2 ^ 32 - kernelBase)))

/-- `p[j]` for a page of words. -/
def bootReadEntry (p j : ℕ) : Kernel ℕ := do return wordAt ((← get).ram (bootFrame p)) j

/-- `p[j] = w` -/
def bootWriteEntry (p j w : ℕ) : Kernel Unit :=
  modify fun s => s.setFrame (bootFrame p) (setWord (s.ram (bootFrame p)) j w)

def bootGetPageTable (endOfKernel dir va : ℕ) (create : Bool) : Kernel ℕ := do
  let pageDirectoryEntry ← bootReadEntry dir (pdx va)
  let physPageTable := extractAddress pageDirectoryEntry
  let ptrPageTable ← staticKernelVirtualAddress physPageTable
  if physPageTable = 0 then
    if create then
      let ptrPageTable ← bootAllocateSpace endOfKernel pageSize pageSize
      let physPageTable ← staticKernelPhysicalAddress ptrPageTable
      bootWriteEntry dir (pdx va) (constructEntry physPageTable (permPresent ||| permWriteable))
      return ptrPageTable
    else return 0
  else return ptrPageTable

/-- The loop of `boot_map_range`; the first argument bounds its rounds, and `i` is compared
as a `uint32`. -/
def bootMapPages (endOfKernel dir size : ℕ) (perm : ℤ) : ℕ → ℕ → ℕ → ℕ → Kernel Unit
  | 0, i, _, _ => if i < size then throw .nesting else pure ()
  | n + 1, i, va, pa =>
    if i < size then do
      let ptrPageTable ← bootGetPageTable endOfKernel dir va true
      bootWriteEntry ptrPageTable (ptx va) (constructEntry pa (unsigned perm ||| permPresent))
      bootMapPages endOfKernel dir size perm n (u32 (i + pageSize)) (u32 (va + pageSize)) (u32 (pa + pageSize))
    else pure ()

def bootMapRange (endOfKernel dir va size pa : ℕ) (perm : ℤ) : Kernel Unit :=
  bootMapPages endOfKernel dir size perm (2 ^ 20) 0 va pa

inductive BootCall
  | getPageTable (va : ℕ)
  | mapRange (va size pa : ℕ) (perm : ℤ)

def BootCall.run (endOfKernel dir : ℕ) : BootCall → Kernel Unit
  | .getPageTable va => do let _ ← bootGetPageTable endOfKernel dir va true
  | .mapRange va size pa perm => bootMapRange endOfKernel dir va size pa perm

def bootCalls (endOfKernel dir : ℕ) : List BootCall → Kernel Unit
  | [] => pure ()
  | c :: calls => do
    c.run endOfKernel dir
    bootCalls endOfKernel dir calls

/-- The arguments are multiples of the page size. -/
def BootCall.Aligned : BootCall → Prop
  | .getPageTable va => va < 2 ^ 32 ∧ pageSize ∣ va
  | .mapRange va size pa _ =>
    (va < 2 ^ 32 ∧ pageSize ∣ va) ∧ (size < 2 ^ 32 ∧ pageSize ∣ size) ∧ pa < 2 ^ 32 ∧ pageSize ∣ pa

instance : DecidablePred BootCall.Aligned
  | .getPageTable _ => inferInstanceAs (Decidable (_ ∧ _))
  | .mapRange .. => inferInstanceAs (Decidable (_ ∧ _))

/-- The entry of page `p`, if it is one of `n` pages from `page` on. -/
def rangeMaps (page pa : ℕ) (perm : ℤ) (n p : ℕ) : Option ℕ :=
  let k := (p + 2 ^ 20 - page) % 2 ^ 20
  if k < n then some (constructEntry (u32 (pa + pageSize * k)) (unsigned perm ||| permPresent)) else none

/-- The entry that a call asks for in page `p`. -/
def BootCall.maps (c : BootCall) (p : ℕ) : Option ℕ :=
  match c with
  | .getPageTable _ => none
  | .mapRange va size pa perm =>
    rangeMaps (va / pageSize) pa perm (size / pageSize) p

def mapped (calls : List BootCall) (p : ℕ) : Option ℕ := calls.reverse.findSome? (·.maps p)

/-- A directory index that got a table is not given another one. -/
def useTable (L : List ℕ) (d : ℕ) : List ℕ := if d ∈ L then L else L ++ [d]

/-- The indices after `n` pages. -/
def useTables (L : List ℕ) (page n : ℕ) : List ℕ :=
  (List.range n).foldl (fun L k => useTable L ((page + k) % 2 ^ 20 / 1024)) L

def BootCall.tables (L : List ℕ) : BootCall → List ℕ
  | .getPageTable va => useTable L (pdx va)
  | .mapRange va size _ _ => useTables L (va / pageSize) (size / pageSize)

/-- The directory indices that get a table, in their order. -/
def bootTables (calls : List BootCall) : List ℕ := calls.foldl BootCall.tables []

def firstTable (s : Machine) : ℕ := (alignUp s.ptrFreeMem pageSize - kernelBase) / pageSize

def TableExists (s : Machine) (dir va : ℕ) : Prop := extractAddress (wordAt (s.ram (bootFrame dir)) (pdx va)) ≠ 0

def bootEntry (s : Machine) (dir va : ℕ) : ℕ :=
  wordAt (s.ram (frameNumber (wordAt (s.ram (bootFrame dir)) (pdx va)))) (ptx va)

/-- The tables map what was asked for, and nothing else. -/
def MapsBootRanges (s : Machine) (dir : ℕ) (calls : List BootCall) : Prop :=
  ∀ va < 2 ^ 32, TableExists s dir va → bootEntry s dir va = (mapped calls (va / pageSize)).getD 0

/-- The words that no call maps are 0 in the frames that become tables. -/
def CleanTables (s : Machine) (calls : List BootCall) : Prop :=
  ∀ i (hi : i < (bootTables calls).length), ∀ j < 1024,
    mapped calls (1024 * (bootTables calls)[i] + j) = none → wordAt (s.ram (firstTable s + i)) j = 0

/-- An empty directory below the free memory. -/
structure BootStart (s : Machine) (dir : ℕ) : Prop where
  aligned : pageSize ∣ dir
  base : kernelBase ≤ dir
  below : dir + pageSize ≤ s.ptrFreeMem
  zero : ∀ j < 1024, wordAt (s.ram (bootFrame dir)) j = 0

/-- There is memory for `n` tables. -/
structure TablesFit (s : Machine) (n : ℕ) : Prop where
  frames : firstTable s + n ≤ s.numberOfFrames
  top : alignUp s.ptrFreeMem pageSize + pageSize * n < 2 ^ 32

variable {s t : Machine} {endOfKernel dir va pa f i j p n k w : ℕ} {perm : ℤ} {L : List ℕ} {E : ℕ → Option ℕ}
  {calls : List BootCall}

theorem bootFrame_page (h : kernelBase + pageSize * f < 2 ^ 32) : bootFrame (kernelBase + pageSize * f) = f := by
  simp only [bootFrame, frameNumber, u32, kernelBase, pageSize] at *
  omega

theorem BootStart.base_eq (h : BootStart s dir) : alignUp s.ptrFreeMem pageSize = kernelBase + pageSize * firstTable s := by
  have hle := le_alignUp (p := s.ptrFreeMem) (a := pageSize) (by decide)
  have hbelow := h.below
  have hbase := h.base
  obtain ⟨k, hk⟩ := dvd_alignUp s.ptrFreeMem pageSize
  rw [firstTable]
  simp only [kernelBase, pageSize] at *
  omega

theorem BootStart.dir_lt (h : BootStart s dir) (hfit : TablesFit s n) :
    dir = kernelBase + pageSize * bootFrame dir ∧ bootFrame dir < firstTable s := by
  have hle := le_alignUp (p := s.ptrFreeMem) (a := pageSize) (by decide)
  have hbelow := h.below
  have hbase := h.base
  have htop := hfit.top
  have heq := h.base_eq
  obtain ⟨k, hk⟩ := h.aligned
  have hdir : dir = kernelBase + pageSize * (k - kernelBase / pageSize) := by
    simp only [kernelBase, pageSize] at *
    omega
  rw [hdir, bootFrame_page (by simp only [kernelBase, pageSize] at *; omega)]
  refine ⟨rfl, ?_⟩
  simp only [kernelBase, pageSize] at *
  omega

/-- The directory entry of the `i`-th table. -/
def tableEntry (s : Machine) (i : ℕ) : ℕ :=
  constructEntry (pageSize * (firstTable s + i)) (permPresent ||| permWriteable)

theorem tableEntry_lt (hfit : firstTable s + i < 2 ^ 20) : tableEntry s i < 2 ^ 32 := constructEntry_lt hfit (by decide)

theorem frameNumber_tableEntry (s : Machine) (i : ℕ) : frameNumber (tableEntry s i) = firstTable s + i :=
  frameNumber_constructEntry (by decide)

/-- The tables of the indices `L` hold the entries `E`, in memory that was as in `s`. -/
structure BootTables (s t : Machine) (dir : ℕ) (L : List ℕ) (E : ℕ → Option ℕ) : Prop where
  pointer : alignUp t.ptrFreeMem pageSize = kernelBase + pageSize * (firstTable s + L.length)
  pointer_ne : t.ptrFreeMem ≠ 0
  frames : t.numberOfFrames = s.numberOfFrames
  nodup : L.Nodup
  absent : ∀ j < 1024, j ∉ L → wordAt (t.ram (bootFrame dir)) j = 0
  present : ∀ i (hi : i < L.length), L[i] < 1024 ∧ wordAt (t.ram (bootFrame dir)) L[i] = tableEntry s i
  table : ∀ i (hi : i < L.length), ∀ j < 1024, wordAt (t.ram (firstTable s + i)) j =
    (E (1024 * L[i] + j)).getD (wordAt (s.ram (firstTable s + i)) j)
  untouched : ∀ f, firstTable s + L.length ≤ f → t.ram f = s.ram f
  pages : ∀ p < 2 ^ 20, E p ≠ none → p / 1024 ∈ L

theorem BootStart.tables (h : BootStart s dir) : BootTables s s dir [] fun _ => none where
  pointer := by rw [List.length_nil, Nat.add_zero, h.base_eq]
  pointer_ne := by
    have := h.below
    simp only [pageSize] at this
    omega
  frames := rfl
  nodup := List.nodup_nil
  absent j hj _ := h.zero j hj
  present i hi := absurd hi (Nat.not_lt_zero i)
  table i hi := absurd hi (Nat.not_lt_zero i)
  untouched _ _ := rfl
  pages _ _ hp := absurd rfl hp

namespace BootTables

variable (h : BootTables s t dir L E) (hs : BootStart s dir)
include h hs

theorem getPageTable_found (hfit : TablesFit s L.length) (hi : i < L.length) (hva : pdx va = L[i]) :
    (bootGetPageTable endOfKernel dir va true).run t = .ok (kernelBase + pageSize * (firstTable s + i), t) := by
  have hword := (h.present i hi).2
  have hframes := hfit.frames
  have htop := hfit.top
  have hbase := hs.base_eq
  have hread : (bootReadEntry dir (pdx va)).run t = .ok (tableEntry s i, t) := by
    rw [bootReadEntry, run_bind_ok run_get, hva, hword]
    rfl
  have haddr : extractAddress (tableEntry s i) = pageSize * (firstTable s + i) := by
    rw [extractAddress_eq, frameNumber_tableEntry, pageSize]
  have hkva : (staticKernelVirtualAddress (pageSize * (firstTable s + i))).run t =
      .ok (kernelBase + pageSize * (firstTable s + i), t) := by
    have hn : frameNumber (pageSize * (firstTable s + i)) = firstTable s + i := by
      rw [frameNumber, pageSize, Nat.mul_div_cancel_left _ (by decide)]
    have hlt : pageSize * (firstTable s + i) + kernelBase < 2 ^ 32 := by
      simp only [kernelBase, pageSize] at *
      omega
    rw [staticKernelVirtualAddress, run_bind_ok run_get, hn, h.frames, if_neg (by omega)]
    beta_reduce
    rw [run_pure, u32_of_lt hlt, Nat.add_comm]
  have hlt := (hs.dir_lt hfit).2
  rw [bootGetPageTable, run_bind_ok hread]
  simp only [haddr]
  rw [run_bind_ok hkva, if_neg (by simp only [pageSize]; omega), run_pure]

theorem getPageTable_new (endOfKernel : ℕ) (hfit : TablesFit s (L.length + 1)) (hva : pdx va ∉ L) :
    ∃ u, (bootGetPageTable endOfKernel dir va true).run t = .ok (kernelBase + pageSize * (firstTable s + L.length), u) ∧
      BootTables s u dir (L ++ [pdx va]) E := by
  have hlt := pdx_lt va
  have hframes := hfit.frames
  have htop := hfit.top
  rw [hs.base_eq] at htop
  have hsmall : kernelBase + pageSize * (firstTable s + L.length) + pageSize < 2 ^ 32 := by
    rwa [Nat.mul_succ, ← Nat.add_assoc, Nat.add_assoc kernelBase, ← Nat.mul_add] at htop
  have hread : (bootReadEntry dir (pdx va)).run t = .ok (0, t) := by
    rw [bootReadEntry, run_bind_ok run_get, h.absent _ hlt hva]
    rfl
  have hkva : (staticKernelVirtualAddress 0).run t = .ok (u32 (0 + kernelBase), t) := by
    rw [staticKernelVirtualAddress, run_bind_ok run_get, h.frames, if_neg (by simp only [frameNumber]; omega)]
    rfl
  have hptr : bootPointer endOfKernel t = t.ptrFreeMem := if_neg h.pointer_ne
  have halloc := bootAllocateSpace_run t endOfKernel (show ∃ k < 32, pageSize = 2 ^ k from ⟨12, by decide, by decide⟩)
    (by rw [hptr, h.pointer]; exact hsmall)
  rw [hptr, h.pointer] at halloc
  set F := firstTable s + L.length with hF
  set v : Machine := { t with ptrFreeMem := kernelBase + pageSize * F + pageSize }
  have hpa : (staticKernelPhysicalAddress (kernelBase + pageSize * F)).run v = .ok (pageSize * F, v) := by
    rw [staticKernelPhysicalAddress, if_neg (by omega)]
    beta_reduce
    rw [run_pure, Nat.add_sub_cancel_left]
  have hdir := (hs.dir_lt hfit).2
  have hentry : constructEntry (pageSize * F) (permPresent ||| permWriteable) = tableEntry s L.length := rfl
  have hentryLt : tableEntry s L.length < 2 ^ 32 := tableEntry_lt (by simp only [kernelBase, pageSize] at hsmall; omega)
  refine ⟨v.setFrame (bootFrame dir) (setWord (v.ram (bootFrame dir)) (pdx va) (tableEntry s L.length)), ?_, ?_⟩
  · rw [bootGetPageTable, run_bind_ok hread]
    simp only [show extractAddress 0 = 0 by decide]
    rw [run_bind_ok hkva, if_pos trivial, if_pos trivial, run_bind_ok halloc, run_bind_ok hpa, hentry, bootWriteEntry,
      run_bind_ok (run_modify _), run_pure]
  have hdirRam : (v.setFrame (bootFrame dir) (setWord (v.ram (bootFrame dir)) (pdx va) (tableEntry s L.length))).ram
      (bootFrame dir) = setWord (t.ram (bootFrame dir)) (pdx va) (tableEntry s L.length) := setFrame_ram_self ..
  have hram {f : ℕ} (hf : firstTable s ≤ f) : (v.setFrame (bootFrame dir)
      (setWord (v.ram (bootFrame dir)) (pdx va) (tableEntry s L.length))).ram f = t.ram f :=
    setFrame_ram_of_ne (by omega)
  refine ⟨?_, ?_, h.frames, ?_, fun j hj hmem => ?_, fun i hi => ?_, fun i hi j hj => ?_, fun f hf => ?_,
    fun p hp hE => ?_⟩
  · have hdvd : pageSize ∣ kernelBase + pageSize * (F + 1) := pageSize_dvd_frame (F + 1)
    rw [List.length_append, List.length_singleton, ← Nat.add_assoc, ← hF, ← alignUp_of_dvd (by decide) hdvd,
      Nat.mul_succ, ← Nat.add_assoc]
    rfl
  · simp only [Machine.setFrame, v, pageSize]
    omega
  · exact List.nodup_append.mpr ⟨h.nodup, List.nodup_singleton _, fun a ha b hb =>
      fun hab => hva (List.mem_singleton.mp hb ▸ hab ▸ ha)⟩
  · rw [List.mem_append, List.mem_singleton, not_or] at hmem
    rw [hdirRam, wordAt_setWord_of_ne hj hmem.2]
    exact h.absent j hj hmem.1
  · rw [hdirRam]
    rw [List.length_append, List.length_singleton] at hi
    by_cases hiL : i < L.length
    · obtain ⟨hlt', hword⟩ := h.present i hiL
      rw [List.getElem_append_left hiL]
      refine ⟨hlt', ?_⟩
      have hne : L[i] ≠ pdx va := fun heq => hva (heq ▸ List.getElem_mem hiL)
      rw [wordAt_setWord_of_ne hlt' hne, hword]
    · obtain rfl : i = L.length := by omega
      rw [List.getElem_append_right le_rfl]
      simp only [Nat.sub_self, List.getElem_cons_zero]
      exact ⟨hlt, wordAt_setWord hlt hentryLt⟩
  · rw [List.length_append, List.length_singleton] at hi
    rw [hram (Nat.le_add_right _ _)]
    by_cases hiL : i < L.length
    · rw [List.getElem_append_left hiL]
      exact h.table i hiL j hj
    · obtain rfl : i = L.length := by omega
      have hnone : E (1024 * pdx va + j) = none := by
        by_contra hne
        have := h.pages _ (by omega) hne
        rw [show (1024 * pdx va + j) / 1024 = pdx va by omega] at this
        exact hva this
      rw [List.getElem_append_right le_rfl]
      simp only [Nat.sub_self, List.getElem_cons_zero]
      rw [hnone, h.untouched _ le_rfl, Option.getD_none]
  · rw [List.length_append, List.length_singleton] at hf
    rw [hram (by omega), h.untouched f (by omega)]
  · exact List.mem_append_left _ (h.pages p hp hE)

/-- An entry is written into the `i`-th table. -/
theorem writeEntry_table (hfit : TablesFit s L.length) (hi : i < L.length) (hj : j < 1024) (hw : w < 2 ^ 32) :
    ∃ u, (bootWriteEntry (kernelBase + pageSize * (firstTable s + i)) j w).run t = .ok ((), u) ∧
      BootTables s u dir L (Function.update E (1024 * L[i] + j) (some w)) := by
  have htop := hfit.top
  rw [hs.base_eq] at htop
  have hframe : bootFrame (kernelBase + pageSize * (firstTable s + i)) = firstTable s + i := bootFrame_page (by
    simp only [pageSize] at htop ⊢
    omega)
  have hdir := (hs.dir_lt hfit).2
  refine ⟨t.setFrame (firstTable s + i) (setWord (t.ram (firstTable s + i)) j w), ?_, ?_⟩
  · rw [bootWriteEntry, run_modify, hframe]
  have hram {f : ℕ} (hf : f ≠ firstTable s + i) :
      (t.setFrame (firstTable s + i) (setWord (t.ram (firstTable s + i)) j w)).ram f = t.ram f := setFrame_ram_of_ne hf
  refine ⟨h.pointer, h.pointer_ne, h.frames, h.nodup, fun k hk hmem => ?_, fun k hk => ?_, fun k hk l hl => ?_,
    fun f hf => ?_, fun p hp hE => ?_⟩
  · rw [hram (by omega)]
    exact h.absent k hk hmem
  · rw [hram (by omega)]
    exact h.present k hk
  · by_cases hki : k = i
    · subst hki
      rw [setFrame_ram_self]
      by_cases hlj : l = j
      · rw [hlj, wordAt_setWord hj hw, Function.update_self, Option.getD_some]
      · rw [wordAt_setWord_of_ne hl hlj, Function.update_of_ne (by omega), h.table k hk l hl]
    · have hne : L[k] ≠ L[i] := fun heq => hki (h.nodup.getElem_inj_iff.mp heq)
      rw [hram (by omega), Function.update_of_ne (by omega), h.table k hk l hl]
  · rw [hram (by omega), h.untouched f hf]
  · by_cases hp' : p = 1024 * L[i] + j
    · rw [hp', show (1024 * L[i] + j) / 1024 = L[i] by omega]
      exact List.getElem_mem hi
    · rw [Function.update_of_ne hp'] at hE
      exact h.pages p hp hE

theorem getPageTable_run (endOfKernel : ℕ) (hfit : TablesFit s (useTable L (pdx va)).length) :
    ∃ u i, ∃ hi : i < (useTable L (pdx va)).length,
    (bootGetPageTable endOfKernel dir va true).run t = .ok (kernelBase + pageSize * (firstTable s + i), u) ∧
      (useTable L (pdx va))[i] = pdx va ∧ BootTables s u dir (useTable L (pdx va)) E := by
  by_cases hmem : pdx va ∈ L
  · simp only [useTable, if_pos hmem] at hfit ⊢
    obtain ⟨i, hi, heq⟩ := List.getElem_of_mem hmem
    exact ⟨t, i, hi, h.getPageTable_found hs hfit hi heq.symm, heq, h⟩
  · simp only [useTable, if_neg hmem] at hfit ⊢
    rw [List.length_append, List.length_singleton] at hfit
    obtain ⟨u, hrun, hu⟩ := h.getPageTable_new hs endOfKernel hfit hmem
    exact ⟨u, L.length, by simp, hrun, by simp, hu⟩

end BootTables

theorem BootTables.congr {E' : ℕ → Option ℕ} (h : BootTables s t dir L E) (hE : ∀ p < 2 ^ 20, E' p = E p) :
    BootTables s t dir L E' where
  pointer := h.pointer
  pointer_ne := h.pointer_ne
  frames := h.frames
  nodup := h.nodup
  absent := h.absent
  present := h.present
  table i hi j hj := by
    have := (h.present i hi).1
    rw [hE _ (by omega), h.table i hi j hj]
  untouched := h.untouched
  pages p hp hne := h.pages p hp (hE p hp ▸ hne)

theorem TablesFit.mono {m : ℕ} (h : TablesFit s n) (hm : m ≤ n) : TablesFit s m :=
  ⟨(Nat.add_le_add_left hm _).trans h.frames, (Nat.add_le_add_left (Nat.mul_le_mul_left _ hm) _).trans_lt h.top⟩

theorem length_le_useTable (L : List ℕ) (d : ℕ) : L.length ≤ (useTable L d).length := by
  rw [useTable]
  split_ifs
  · exact le_rfl
  · simp

theorem useTables_succ (L : List ℕ) (page n : ℕ) :
    useTables L page (n + 1) = useTable (useTables L page n) ((page + n) % 2 ^ 20 / 1024) := by
  rw [useTables, List.range_succ, List.foldl_append]
  rfl

theorem length_useTables_mono {m : ℕ} (L : List ℕ) (page : ℕ) (h : m ≤ n) :
    (useTables L page m).length ≤ (useTables L page n).length := by
  induction n, h using Nat.le_induction with
  | base => exact le_rfl
  | succ n _ ih =>
    rw [useTables_succ]
    exact ih.trans (length_le_useTable _ _)

/-- The page after the first `n` of a range. -/
theorem rangeMaps_succ (pa : ℕ) (perm : ℤ) (E : ℕ → Option ℕ) {page q : ℕ} (hpage : page < 2 ^ 20)
    (hn : n < 2 ^ 20) (hq : q < 2 ^ 20) :
    (rangeMaps page pa perm (n + 1) q).or (E q) = Function.update (fun p => (rangeMaps page pa perm n p).or (E p))
      ((page + n) % 2 ^ 20) (some (constructEntry (u32 (pa + pageSize * n)) (unsigned perm ||| permPresent))) q := by
  by_cases heq : q = (page + n) % 2 ^ 20
  · have hk : (q + 2 ^ 20 - page) % 2 ^ 20 = n := by omega
    rw [heq, Function.update_self, ← heq]
    simp only [rangeMaps]
    rw [hk, if_pos (Nat.lt_succ_self n), Option.some_or]
  · rw [Function.update_of_ne heq]
    simp only [rangeMaps]
    congr 1
    by_cases hlt : (q + 2 ^ 20 - page) % 2 ^ 20 < n
    · rw [if_pos hlt, if_pos (by omega)]
    · rw [if_neg hlt, if_neg (by omega)]

theorem bootMapPages_run (endOfKernel : ℕ) (hs : BootStart s dir) {page m : ℕ} (hpage : page < 2 ^ 20) (hm : m < 2 ^ 20)
    (hfit : TablesFit s (useTables L page m).length) (hk : k ≤ m) (hn : m ≤ k + n)
    (h : BootTables s t dir (useTables L page k) fun p => (rangeMaps page pa perm k p).or (E p)) :
    ∃ u, (bootMapPages endOfKernel dir (pageSize * m) perm n (pageSize * k) (pageSize * ((page + k) % 2 ^ 20))
        (u32 (pa + pageSize * k))).run t = .ok ((), u) ∧
      BootTables s u dir (useTables L page m) fun p => (rangeMaps page pa perm m p).or (E p) := by
  induction n generalizing k t with
  | zero =>
    obtain rfl : k = m := by omega
    exact ⟨t, by rw [bootMapPages, if_neg (lt_irrefl _), run_pure], h⟩
  | succ n ih =>
    rcases hk.eq_or_lt with rfl | hlt
    · exact ⟨t, by rw [bootMapPages, if_neg (lt_irrefl _), run_pure], h⟩
    · have hva : pdx (pageSize * ((page + k) % 2 ^ 20)) = (page + k) % 2 ^ 20 / 1024 := by
        simp only [pdx, pageSize]
        omega
      have hpx : ptx (pageSize * ((page + k) % 2 ^ 20)) = (page + k) % 2 ^ 20 % 1024 := by
        simp only [ptx, pageSize]
        omega
      have hlen := length_useTables_mono L page (Nat.succ_le_of_lt hlt)
      have hfit' := hfit.mono hlen
      rw [useTables_succ, ← hva] at hfit'
      obtain ⟨u, i, hi, hget, hidx, hu⟩ := h.getPageTable_run hs endOfKernel hfit'
      have hw : constructEntry (u32 (pa + pageSize * k)) (unsigned perm ||| permPresent) < 2 ^ 32 :=
        Nat.or_lt_two_pow (Nat.mod_lt _ (by decide)) (Nat.or_lt_two_pow (unsigned_lt perm) (by decide))
      obtain ⟨v, hwrite, hv⟩ := hu.writeEntry_table hs hfit' hi (ptx_lt (pageSize * ((page + k) % 2 ^ 20))) hw
      have hpageEq : 1024 * (useTable (useTables L page k) (pdx (pageSize * ((page + k) % 2 ^ 20))))[i] +
          ptx (pageSize * ((page + k) % 2 ^ 20)) = (page + k) % 2 ^ 20 := by
        rw [hidx, hva, hpx]
        exact Nat.div_add_mod _ _
      rw [hpageEq, hva, ← useTables_succ] at hv
      have hnext := hv.congr fun q hq => rangeMaps_succ pa perm E hpage (hk.trans_lt hm) hq
      obtain ⟨x, hrun, hx⟩ := ih (Nat.succ_le_of_lt hlt) (by omega) hnext
      have hi' : u32 (pageSize * k + pageSize) = pageSize * (k + 1) := by
        simp only [u32, pageSize]
        omega
      have hva' : u32 (pageSize * ((page + k) % 2 ^ 20) + pageSize) = pageSize * ((page + (k + 1)) % 2 ^ 20) := by
        simp only [u32, pageSize]
        omega
      have hpa' : u32 (u32 (pa + pageSize * k) + pageSize) = u32 (pa + pageSize * (k + 1)) := by
        simp only [u32, pageSize]
        omega
      refine ⟨x, ?_, hx⟩
      rw [bootMapPages, if_pos (Nat.mul_lt_mul_of_pos_left hlt (by decide)), run_bind_ok hget, run_bind_ok hwrite, hi', hva',
        hpa', hrun]

theorem length_le_tables (L : List ℕ) (c : BootCall) : L.length ≤ (c.tables L).length := by
  cases c with
  | getPageTable va => exact length_le_useTable L _
  | mapRange va size pa perm => exact length_useTables_mono L _ (Nat.zero_le _)

theorem length_le_foldl_tables (L : List ℕ) (calls : List BootCall) :
    L.length ≤ (calls.foldl BootCall.tables L).length := by
  induction calls generalizing L with
  | nil => exact le_rfl
  | cons c calls ih => exact (length_le_tables L c).trans (ih _)

theorem BootTables.call_run (h : BootTables s t dir L E) (hs : BootStart s dir) (endOfKernel : ℕ) {c : BootCall}
    (hc : c.Aligned) (hfit : TablesFit s (c.tables L).length) : ∃ u, (c.run endOfKernel dir).run t = .ok ((), u) ∧
      BootTables s u dir (c.tables L) fun p => (c.maps p).or (E p) := by
  cases c with
  | getPageTable va =>
    obtain ⟨u, i, -, hrun, -, hu⟩ := h.getPageTable_run hs endOfKernel hfit
    exact ⟨u, by rw [BootCall.run, run_bind_ok hrun, run_pure], hu⟩
  | mapRange va size pa perm =>
    obtain ⟨⟨hva, page, rfl⟩, ⟨hsize, m, rfl⟩, hpa, -⟩ := hc
    have hpage : page < 2 ^ 20 := by simp only [pageSize] at hva; omega
    have hm : m < 2 ^ 20 := by simp only [pageSize] at hsize; omega
    simp only [BootCall.tables, BootCall.maps, Nat.mul_div_cancel_left _ (by decide : 0 < pageSize)] at hfit ⊢
    have hstart : BootTables s t dir (useTables L page 0) fun p => (rangeMaps page pa perm 0 p).or (E p) :=
      h.congr fun p _ => by rw [rangeMaps, if_neg (Nat.not_lt_zero _), Option.none_or]
    have hrun := bootMapPages_run endOfKernel (k := 0) (n := 2 ^ 20) hs hpage hm hfit (Nat.zero_le _)
      (by omega) hstart
    rw [Nat.mul_zero, Nat.add_zero, Nat.add_zero, Nat.mod_eq_of_lt hpage, u32_of_lt hpa] at hrun
    rw [BootCall.run, bootMapRange]
    exact hrun

theorem mapped_eq_foldl (calls : List BootCall) (p : ℕ) :
    mapped calls p = calls.foldl (fun o c => (c.maps p).or o) none := by
  induction calls using List.reverseRecOn with
  | nil => rfl
  | append_singleton calls c ih =>
    rw [List.foldl_append, List.foldl_cons, List.foldl_nil, ← ih, mapped, List.reverse_append, List.reverse_singleton,
      List.singleton_append, List.findSome?_cons]
    cases c.maps p <;> rfl

theorem BootTables.calls_run (h : BootTables s t dir L E) (hs : BootStart s dir) (endOfKernel : ℕ)
    (hcalls : ∀ c ∈ calls, c.Aligned)
    (hfit : TablesFit s (calls.foldl BootCall.tables L).length) : ∃ u,
      (bootCalls endOfKernel dir calls).run t = .ok ((), u) ∧
      BootTables s u dir (calls.foldl BootCall.tables L) fun p => calls.foldl (fun o c => (c.maps p).or o) (E p) := by
  induction calls generalizing t L E with
  | nil => exact ⟨t, rfl, h⟩
  | cons c calls ih =>
    obtain ⟨u, hrun, hu⟩ := h.call_run hs endOfKernel (hcalls c (by simp))
      (hfit.mono (length_le_foldl_tables _ _))
    obtain ⟨v, hrun', hv⟩ := ih hu (fun d hd => hcalls d (by simp [hd])) hfit
    exact ⟨v, by rw [bootCalls, run_bind_ok hrun, hrun'], hv⟩

/-- The tables map nothing else exactly when the frames that they got were clean. -/
theorem BootTables.mapsExactly_iff (h : BootTables s t dir (bootTables calls) (mapped calls))
    (hs : BootStart s dir) (hfit : TablesFit s (bootTables calls).length) :
    MapsBootRanges t dir calls ↔ CleanTables s calls := by
  have hlt := (hs.dir_lt hfit).2
  have hentry (i : ℕ) (hi : i < (bootTables calls).length) (va : ℕ) (hva : pdx va = (bootTables calls)[i]) :
      TableExists t dir va ∧ bootEntry t dir va = (mapped calls (1024 * (bootTables calls)[i] + ptx va)).getD
        (wordAt (s.ram (firstTable s + i)) (ptx va)) := by
    obtain ⟨-, hword⟩ := h.present i hi
    rw [TableExists, bootEntry, hva, hword, extractAddress_eq, frameNumber_tableEntry, h.table i hi _ (ptx_lt va)]
    exact ⟨by omega, rfl⟩
  refine ⟨fun hmaps i hi j hj hnone => ?_, fun hclean va hva hexists => ?_⟩
  · have hd := (h.present i hi).1
    set va := pageSize * (1024 * (bootTables calls)[i] + j) with hvaEq
    have hpdx : pdx va = (bootTables calls)[i] := by
      simp only [pdx, hvaEq, pageSize]
      omega
    have hptx : ptx va = j := by
      simp only [ptx, hvaEq, pageSize]
      omega
    obtain ⟨hexists, hread⟩ := hentry i hi va hpdx
    have := hmaps va (by simp only [hvaEq, pageSize]; omega) hexists
    rwa [hread, hptx, hvaEq, Nat.mul_div_cancel_left _ (by decide : 0 < pageSize), hnone] at this
  · have hmem : pdx va ∈ bootTables calls := by
      by_contra hno
      rw [TableExists, h.absent _ (pdx_lt va) hno] at hexists
      exact hexists rfl
    obtain ⟨i, hi, hidx⟩ := List.getElem_of_mem hmem
    have hpage : 1024 * (bootTables calls)[i] + ptx va = va / pageSize := by
      rw [hidx]
      simp only [pdx, ptx, pageSize]
      omega
    obtain ⟨-, hread⟩ := hentry i hi va hidx.symm
    rw [hread, hpage]
    cases hm : mapped calls (va / pageSize) with
    | some w => rfl
    | none => exact hclean i hi _ (ptx_lt va) (by rw [hpage, hm])

theorem BootStart.calls_run (hs : BootStart s dir) (hcalls : ∀ c ∈ calls, c.Aligned)
    (hfit : TablesFit s (bootTables calls).length) (endOfKernel : ℕ) : ∃ t,
      (bootCalls endOfKernel dir calls).run s = .ok ((), t) ∧ BootTables s t dir (bootTables calls) (mapped calls) := by
  obtain ⟨t, hrun, ht⟩ := hs.tables.calls_run hs endOfKernel hcalls hfit
  exact ⟨t, hrun, ht.congr fun p _ => mapped_eq_foldl calls p⟩

/-- All calls return, and the tables map exactly what was asked for when they were clean. -/
theorem bootTables_iff (hs : BootStart s dir) (hcalls : ∀ c ∈ calls, c.Aligned)
    (hfit : TablesFit s (bootTables calls).length) (endOfKernel : ℕ) : ∃ t,
      (bootCalls endOfKernel dir calls).run s = .ok ((), t) ∧ (MapsBootRanges t dir calls ↔ CleanTables s calls) := by
  obtain ⟨t, hrun, ht⟩ := hs.calls_run hcalls hfit endOfKernel
  exact ⟨t, hrun, ht.mapsExactly_iff hs hfit⟩

/-- A directory in frame 1, and `ptr_free_mem` behind it. -/
def directoryOnly (ram : ℕ → Page) : Machine :=
  { bootMachine with ram := Function.update ram 1 zeroPage, ptrFreeMem := kernelBase + pageSize * 2 }

theorem directoryOnly_ram (ram : ℕ → Page) (f : ℕ) : (directoryOnly ram).ram f = if f = 1 then zeroPage else ram f :=
  Function.update_apply ..

theorem directoryOnly_start (ram : ℕ → Page) : BootStart (directoryOnly ram) (kernelBase + pageSize * 1) where
  aligned := pageSize_dvd_frame 1
  base := Nat.le_add_right _ _
  below := (by decide : kernelBase + pageSize * 1 + pageSize ≤ kernelBase + pageSize * 2)
  zero j _ := by rw [bootFrame_page (by decide), directoryOnly_ram, if_pos rfl, wordAt_zeroPage]

theorem directoryOnly_fits (ram : ℕ → Page) : TablesFit (directoryOnly ram) 1 :=
  ⟨by simp only [firstTable, directoryOnly]; decide, by simp only [directoryOnly]; decide⟩

/-- Two pages at `KERNEL_BASE`, with memory that is clean. -/
def twoPages : List BootCall := [.getPageTable kernelBase, .mapRange kernelBase (pageSize * 2) 0 2]

theorem bootTables_iff_clean : ∃ t, (bootCalls kernelBase (kernelBase + pageSize * 1) twoPages).run
      (directoryOnly fun _ => zeroPage) = .ok ((), t) ∧ MapsBootRanges t (kernelBase + pageSize * 1) twoPages := by
  have hone : (bootTables twoPages).length = 1 := by decide
  have hs := directoryOnly_start fun _ => zeroPage
  obtain ⟨t, hrun, hiff⟩ := bootTables_iff hs (by decide) (hone ▸ directoryOnly_fits _) kernelBase
  refine ⟨t, hrun, hiff.mpr fun i hi j _ _ => ?_⟩
  rw [directoryOnly_ram, ite_self, wordAt_zeroPage]

/-- A table in a frame full of ones maps pages that no call asked for. -/
theorem bootTables_dirty : ¬ ∀ (s t : Machine) (dir endOfKernel : ℕ) (calls : List BootCall), BootStart s dir →
    (∀ c ∈ calls, c.Aligned) → TablesFit s (bootTables calls).length →
    (bootCalls endOfKernel dir calls).run s = .ok ((), t) → MapsBootRanges t dir calls := by
  intro hall
  set ram : ℕ → Page := fun _ => pageOfWords fun _ => 1
  have hs := directoryOnly_start ram
  have hone : (bootTables [.getPageTable kernelBase]).length = 1 := by decide
  have hfit : TablesFit (directoryOnly ram) (bootTables [.getPageTable kernelBase]).length := hone ▸ directoryOnly_fits ram
  have hcalls : ∀ c ∈ [BootCall.getPageTable kernelBase], c.Aligned := by decide
  obtain ⟨t, hrun, ht⟩ := hs.calls_run hcalls hfit kernelBase
  have hclean := (ht.mapsExactly_iff hs hfit).mp (hall _ t _ _ _ hs hcalls hfit hrun) 0 (by decide) 0 (by decide) rfl
  have hfirst : firstTable (directoryOnly ram) + 0 ≠ 1 :=
    (by decide : (alignUp (kernelBase + pageSize * 2) pageSize - kernelBase) / pageSize + 0 ≠ 1)
  rw [directoryOnly_ram, if_neg hfirst, wordAt_pageOfWords (by decide) (by decide)] at hclean
  exact absurd hclean (by decide)

end FosKernel.Machine
