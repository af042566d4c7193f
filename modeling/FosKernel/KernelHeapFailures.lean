import FosKernel.KernelHeapRuns

/-!
# Requests that the kernel heap cannot map

A system call can map pages inside the kernel heap. `kmalloc` takes a block before
it asks for its pages, and when one of them is mapped already it returns NULL and
keeps the block. `HeapState` allows any such state of the kernel's tables. When no
block is large enough best fit compares the blocks with what its locals happen to hold.
-/

namespace FosKernel.Machine
open FailingPrograms PageEntries DynamicAllocator IntervalLists

variable {s t : Machine} {va p q f n i size : ℕ} {fs : List ℕ} {cpt : ℕ → ℕ → Kernel ℕ}

/-- The kernel's tables exist, and their entries and the free list name frames that exist. Any heap
page may be mapped. -/
structure HeapEntries (s : Machine) : Prop where
  tables : KernelTables s heapTables
  entries : ∀ p, HeapPage p → s.kernelPte p ≠ 0 → frameNumber (s.kernelPte p) < s.numberOfFrames
  free : ∀ f ∈ s.freeFrameList, f < s.numberOfFrames ∧ (s.framesInfo f).isBuffered = false

/-- The block lists are well formed as well. -/
structure HeapState (s : Machine) : Prop extends HeapEntries s where
  lists : ∃ q, Inv kernelHeap s.heap q

theorem HeapMap.heapState {M : ℕ → Prop} (hm : HeapMap s M) (hl : ∃ q, Inv kernelHeap s.heap q) :
    HeapState s where
  lists := hl
  tables := hm.tables
  entries p hp h0 := by
    by_cases hM : M p
    · obtain ⟨f, hf⟩ := hm.mapped p hp hM
      rw [hf.frame_eq]
      exact hf.lt
    · exact absurd (hm.unmapped p hp hM) h0
  free := hm.free

namespace HeapEntries

theorem isMapped_run (hs : HeapEntries s) (hp : HeapPage p) :
    (isMapped s.ptrPageDirectory p).run s = .ok (decide (s.kernelPte p ≠ 0), s) :=
  (hs.tables.hasTable hp.index hp.userTop_le).isMapped_run (hs.entries p hp)

theorem placeFrame (hs : HeapEntries s) (hp : HeapPage p) (hfree : s.freeFrameList = f :: fs) :
    HeapEntries (s.placeFrame f fs p permWriteable) ∧ ∀ q, HeapPage q →
      (s.placeFrame f fs p permWriteable).kernelPte q =
        if q = p then constructEntry (toPhysicalAddress f) (permWriteable ||| permPresent)
        else s.kernelPte q := by
  have hmem : f ∈ s.freeFrameList := by simp [hfree]
  have hf := (hs.free f hmem).1
  have hlt : constructEntry (toPhysicalAddress f) (permWriteable ||| permPresent) < 2 ^ 32 :=
    constructEntry_lt (hf.trans_le hs.tables.frames) (by decide)
  have hpte (q : ℕ) (hq : HeapPage q) : (s.placeFrame f fs p permWriteable).kernelPte q =
      if q = p then constructEntry (toPhysicalAddress f) (permWriteable ||| permPresent)
      else s.kernelPte q := hs.tables.heapPte_of_setEntry hp hq hlt rfl rfl
  refine ⟨⟨hs.tables.of_setEntry hp (sameGlobals_placeFrame ..) rfl, fun q hq h0 => ?_,
    fun g hg => ?_⟩, hpte⟩
  · rw [hpte q hq] at h0 ⊢
    split
    · rw [toPhysicalAddress, pageSize, frameNumber_constructEntry (by decide)]
      exact hf
    · rename_i hqp
      rw [if_neg hqp] at h0
      exact hs.entries q hq h0
  · have hg' := hs.free g (by rw [hfree]; exact List.mem_cons_of_mem _ hg)
    refine ⟨hg'.1, ?_⟩
    by_cases hgf : g = f
    · subst hgf
      exact congrArg FrameInfo.isBuffered (setInfo_self ..)
    · exact (congrArg FrameInfo.isBuffered (setInfo_of_ne hgf)).trans hg'.2

end HeapEntries

/-- The first `n` pages from `va` on got frames that were free; the other pages of the heap
have the entries they had. -/
structure Filled (s : Machine) (va n : ℕ) (t : Machine) : Prop where
  state : HeapEntries t
  globals : SameGlobals s t
  free : ∀ f ∈ t.freeFrameList, f ∈ s.freeFrameList
  mapped : ∀ p, HeapPage p → InPages va n p → ∃ f ∈ s.freeFrameList,
    t.kernelPte p = constructEntry (toPhysicalAddress f) (permWriteable ||| permPresent)
  other : ∀ p, HeapPage p → ¬InPages va n p → t.kernelPte p = s.kernelPte p

theorem HeapEntries.filled (hs : HeapEntries s) (va : ℕ) : Filled s va 0 s where
  state := hs
  globals := .refl s
  free _ := id
  mapped p _ hin := by
    simp only [InPages] at hin
    omega
  other _ _ _ := rfl

theorem Filled.succ (h : Filled s va n t) (hva : pageSize ∣ va) (hp : HeapPage (va + pageSize * n))
    (hfree : t.freeFrameList = f :: fs) :
    Filled s va (n + 1) (t.placeFrame f fs (va + pageSize * n) permWriteable) := by
  obtain ⟨hstate, hpte⟩ := h.state.placeFrame hp hfree
  refine ⟨hstate, h.globals.trans (sameGlobals_placeFrame ..), fun g hg => h.free g ?_,
    fun p hp' hin => ?_, fun p hp' hin => ?_⟩
  · rw [hfree]
    exact List.mem_cons_of_mem _ hg
  · rw [hpte p hp']
    split
    · exact ⟨f, h.free f (by simp [hfree]), rfl⟩
    · rename_i hne
      exact h.mapped p hp' (((inPages_succ hva hp'.dvd).mp hin).resolve_right hne)
  · rw [inPages_succ hva hp'.dvd, not_or] at hin
    rw [hpte p hp', if_neg hin.2]
    exact h.other p hp' hin.1

theorem inPages_of_lt (hi : i < n) : InPages va n (va + pageSize * i) := by
  have := Nat.mul_le_mul_left pageSize (show i + 1 ≤ n from hi)
  simp only [InPages, pageSize] at *
  omega

theorem InPages.exists_index (hva : pageSize ∣ va) (hp : pageSize ∣ p) (h : InPages va n p) :
    ∃ i < n, p = va + pageSize * i := by
  obtain ⟨a, rfl⟩ := hva
  obtain ⟨b, rfl⟩ := hp
  obtain ⟨h₁, h₂⟩ := h
  simp only [pageSize] at *
  exact ⟨b - a, by omega, by omega⟩

namespace HeapEntries

variable (cpt) in
/-- With a page of the range mapped `allocate_chunk` refuses and changes nothing. -/
theorem allocateChunk_refuses (hs : HeapEntries s) (hva : HeapPage va)
    (hmax : va + pageSize * n ≤ kernelHeapMax) (hp : HeapPage p) (hin : InPages va n p)
    (h0 : s.kernelPte p ≠ 0) :
    (allocateChunk cpt s.ptrPageDirectory va (pageSize * n) permWriteable).run s = .ok (-1, s) := by
  have htest : (anyRange (fun i => isMapped s.ptrPageDirectory (pageOf va i)) 0 n).run s = _ :=
    anyRange_run (fun i => decide (s.kernelPte (va + pageSize * i) ≠ 0)) (fun k _ hk => by
      rw [Nat.zero_add] at hk
      rw [hva.pageOf_eq hmax hk]
      exact hs.isMapped_run (hva.add hmax hk))
  obtain ⟨i, hi, rfl⟩ := hin.exists_index hva.dvd hp.dvd
  have hany : ((List.range' 0 n).any fun i => decide (s.kernelPte (va + pageSize * i) ≠ 0)) = true :=
    List.any_eq_true.mpr ⟨i, by simpa using hi, by simpa using h0⟩
  rw [hany] at htest
  rw [allocateChunk, numOfPages_aligned hva.dvd hmax, roundDown_of_dvd hva.dvd, run_bind_ok htest]
  rfl

variable (cpt) in
/-- With no page of the range mapped it maps them all, unless the frames run out. -/
theorem allocateChunk_fills (hs : HeapEntries s) (hva : HeapPage va)
    (hmax : va + pageSize * n ≤ kernelHeapMax)
    (h0 : ∀ p, HeapPage p → InPages va n p → s.kernelPte p = 0) :
    Sat (fun e => e = .noFreeFrame)
      (allocateChunk cpt s.ptrPageDirectory va (pageSize * n) permWriteable) s fun r t =>
        r = 0 ∧ Filled s va n t := by
  have htest : (anyRange (fun i => isMapped s.ptrPageDirectory (pageOf va i)) 0 n).run s = _ :=
    anyRange_false (fun k _ hk => by
      rw [Nat.zero_add] at hk
      have hp := hva.add hmax hk
      rw [hva.pageOf_eq hmax hk, hs.isMapped_run hp, h0 _ hp (inPages_of_lt hk)]
      rfl)
  have hloop : Sat (fun e => e = .noFreeFrame)
      (forRange (allocateChunkPage cpt s.ptrPageDirectory va permWriteable) 0 n) s _ := Sat.forRange
    (fun k t => Filled s va k t) (hs.filled va) (by
      rintro k t - hk h
      rw [Nat.zero_add] at hk
      have hpage := hva.pageOf_eq hmax hk
      have hp : HeapPage (pageOf va k) := hpage ▸ hva.add hmax hk
      have hpk : t.kernelPte (pageOf va k) = 0 := by
        rw [h.other _ hp (by rw [hpage, InPages]; omega)]
        exact h0 _ hp (hpage ▸ inPages_of_lt hk)
      cases hfree : t.freeFrameList with
      | nil =>
        have hrun := allocateChunkPage_noFrame cpt h.state.tables hp hfree permWriteable
        rw [h.globals.ptrPageDirectory] at hrun
        exact .of_error hrun rfl
      | cons f fs =>
        have hrun := allocateChunkPage_run cpt h.state.tables hp hpk hfree
          (h.state.free f (by simp [hfree])).2 permWriteable
        rw [h.globals.ptrPageDirectory] at hrun
        exact .of_ok hrun (hpage ▸ h.succ hva.dvd (hpage ▸ hp) hfree))
  rw [Nat.zero_add] at hloop
  rw [allocateChunk, numOfPages_aligned hva.dvd hmax, roundDown_of_dvd hva.dvd]
  refine .bind_ok htest ?_
  simp only [Bool.false_eq_true, ↓reduceIte]
  exact hloop.bind fun _ t h => .pure ⟨rfl, h⟩

variable (cpt) in
theorem allocateChunk_wraps (hva : pageSize ∣ va) (hle : va + pageSize * n < 2 ^ 33) (hwrap : 2 ^ 32 ≤ va + pageSize * n)
    (hn : pageSize * n < 2 ^ 32) :
    (allocateChunk cpt s.ptrPageDirectory va (pageSize * n) permWriteable).run s = .ok (0, s) := by
  have hnone : numOfPages (roundDown va pageSize) (roundUp (u32 (va + pageSize * n)) pageSize) = 0 := by
    have hend : u32 (va + pageSize * n) = va + pageSize * n - 2 ^ 32 := by
      rw [u32]
      omega
    obtain ⟨a, rfl⟩ := hva
    rw [numOfPages, hend, roundDown_of_dvd (Nat.dvd_mul_right ..), roundUp, u32_of_lt (by simp only [pageSize] at *; omega)]
    simp only [roundDown, pageSize] at *
    omega
  rw [allocateChunk, hnone]
  rfl

theorem setHeap (hs : HeapEntries s) (h : DynamicAllocator.State) : HeapEntries (s.setHeap h) where
  tables := hs.tables.congr rfl rfl rfl rfl
  entries := hs.entries
  free := hs.free

end HeapEntries

def found : Option (DynamicAllocator.State × Option ℕ) → Option ℕ
  | some (h, some blk) => some (h.sva blk)
  | _ => none

/-- The block that the placement strategy chooses for a request of `size` bytes, when the locals of
best fit hold `newsize` and `newveradd`. -/
def chosenBlock (s : Machine) (newsize newveradd size : ℕ) : Option ℕ :=
  match s.kHeapPlacementStrategy with
  | .firstFit => found (allocBlockFF s.heap size)
  | .bestFit => found (allocBlockBF s.heap size newsize newveradd)
  | _ => none

/-- The block that the request would get lies in the heap, and no page of it is mapped. -/
def BlockUnmapped (s : Machine) (newsize newveradd size : ℕ) : Prop :=
  ∀ va, s.chosenBlock newsize newveradd (roundUp size pageSize) = some va → va + roundUp size pageSize ≤ kernelHeapMax ∧
    ∀ p, HeapPage p → InPages va (roundUp size pageSize / pageSize) p → s.kernelPte p = 0

/-- The lists of blocks, the page tables with all of memory, and the list of free frames. -/
structure Unchanged (s t : Machine) : Prop where
  heap : t.heap = s.heap
  ram : t.ram = s.ram
  freeFrameList : t.freeFrameList = s.freeFrameList

/-- The pages of a range were not mapped before and have frames now that were free. -/
def MappedNow (s : Machine) (va size : ℕ) (t : Machine) : Prop :=
  ∀ p, pageSize ∣ p → va ≤ p → p < va + size → s.kernelPte p = 0 ∧ ∃ f ∈ s.freeFrameList,
    t.kernelPte p = constructEntry (toPhysicalAddress f) (permWriteable ||| permPresent)

/-- A call that returns NULL changed nothing, and one that returns an address mapped the range. The
only other end is a panic without a free frame. -/
def Atomic (s : Machine) (newsize newveradd size : ℕ) : Prop :=
  Sat (fun e => e = .noFreeFrame) (kmallocFrom createPageTable newsize newveradd size) s fun r t =>
    (r = 0 → Unchanged s t) ∧ (r ≠ 0 → MappedNow s r size t)

private theorem forEach_keeps {α σ β : Type} {succ : σ → α → Option α}
    {body : α → σ → Option (IntrusiveList.Flow σ β)} {P : σ → Prop}
    (hnext : ∀ x s s', body x s = some (.next s') → P s → P s')
    (hexit : ∀ x s s' r, body x s = some (.exit s' r) → P s → P s') {k : ℕ} {x : Option α} {s s' : σ}
    {r : Option β} (h : IntrusiveList.forEach succ body k x s = some (s', r)) (hs : P s) : P s' := by
  induction k generalizing x s with
  | zero =>
    cases x with
    | none =>
      cases h
      exact hs
    | some x => cases h
  | succ k ih =>
    cases x with
    | none =>
      cases h
      exact hs
    | some x =>
      simp only [IntrusiveList.forEach] at h
      split at h
      · cases h
      · rename_i t ht
        exact ih h (hnext x s t ht hs)
      · rename_i t b ht
        cases h
        exact hexit x s _ b ht hs

theorem insertSortedAllocList_sva {h h' : DynamicAllocator.State} {blk : ℕ}
    (hins : insertSortedAllocList h blk = some h') : h'.sva = h.sva := by
  unfold insertSortedAllocList at hins
  split at hins
  · cases hins
    rfl
  · split at hins
    · cases hins
      rfl
    · obtain ⟨l, -, hins⟩ := Option.bind_eq_some_iff.mp hins
      split at hins
      · cases hins
        rfl
      · obtain ⟨⟨h₁, r⟩, hloop, hins⟩ := Option.bind_eq_some_iff.mp hins
        cases hins
        refine forEach_keeps (P := fun u => u.sva = h.sva) (fun x u u' hb hu => ?_)
          (fun x u u' r hb hu => ?_) hloop rfl
        all_goals
          simp only [insertBody, Option.some.injEq] at hb
          split at hb
          · split at hb <;> cases hb
            exact hu
          · cases hb
            try exact hu

/-- The block a fit returned is among the allocated ones in `h`. -/
structure Took (s : Machine) (r : Option (DynamicAllocator.State × Option ℕ)) (h : DynamicAllocator.State) (va : ℕ) :
    Prop where
  result : ∃ h₁ b, r = some (h₁, some b) ∧ insertSortedAllocList h₁ b = some h ∧ h.sva b = va
  ne : h ≠ s.heap
  page : HeapPage va

theorem Took.found_eq {h : DynamicAllocator.State} {r : Option (DynamicAllocator.State × Option ℕ)}
    (ht : Took s r h va) : found r = some va := by
  obtain ⟨h₁, b, rfl, hins, hsva⟩ := ht.result
  rw [found, ← insertSortedAllocList_sva hins, hsva]

theorem block_pages {h h₀ : DynamicAllocator.State} {r : Option (DynamicAllocator.State × Option ℕ)}
    (hout : HandsOut kernelHeap h₀ (pageSize * n) r h va) :
    HeapPage va ∧ kernelHeap.lo ≤ va ∧ va + pageSize * n ≤ kernelHeapMax := by
  obtain ⟨q, inv⟩ := hout.inv
  obtain ⟨L, R, hold, hnew⟩ := hout.blocks
  obtain ⟨hva, hlo, hmax, -⟩ := heapPage_of_block inv (b := ⟨va, pageSize * n⟩) (by simp [hnew])
  rw [Nat.mul_div_cancel_left _ (by decide)] at hmax
  exact ⟨hva, hlo, hmax⟩

theorem HandsOut.took {h : DynamicAllocator.State} {r : Option (DynamicAllocator.State × Option ℕ)}
    (hout : HandsOut kernelHeap s.heap (pageSize * n) r h va) : Took s r h va := by
  refine ⟨hout.result, ?_, (block_pages hout).1⟩
  rintro rfl
  obtain ⟨A, B, hold, hnew⟩ := hout.blocks
  rw [hold] at hnew
  simpa using congrArg List.length hnew

theorem HeapState.took_stale {u v : ℕ} (hs : HeapState s) (hnone : ∀ b ∈ s.heap.blocks .free, b.length < pageSize * n)
    (huv : ∃ b ∈ s.heap.blocks .free, b = ⟨v, u⟩) :
    ∃ h, Took s (allocBlockBF s.heap (pageSize * n) u v) h v := by
  obtain ⟨q, inv⟩ := hs.lists
  rw [inv.blocks_eq] at hnone huv
  obtain ⟨b, hb, hbv⟩ : ∃ b ∈ q .free, s.heap.block b = ⟨v, u⟩ := by simpa using huv
  obtain ⟨h₁, m, hr, b', M, hc⟩ := allocBlockBF_stale (n := pageSize * n) inv.rep (inv.length_le _)
    (fun x hx => hnone _ (List.mem_map_of_mem hx))
    ⟨b, hb, show s.heap.size b = u ∧ s.heap.sva b = v from ⟨congrArg (·.length) hbv, congrArg (·.start) hbv⟩⟩
    (inv.available_ne_nil_of_spare (by decide))
  obtain ⟨h, hins, hsva, hne⟩ := inv.insert_stale hc
  refine ⟨h, ⟨h₁, m, hr, hins, hsva⟩, hne, ?_⟩
  obtain ⟨hlo, hhi⟩ := inv.bounds (.inl hc.free)
  have hpos := inv.size_pos (.inl hc.free)
  have hstart : kernelHeapStart ≤ kernelHeap.lo := by decide
  have hmax : kernelHeap.hi = kernelHeapMax := rfl
  have hdvd := (inv.pages _ (.inl hc.free)).1
  rw [State.block_start, hc.start] at hdvd
  rw [hc.start] at hlo hhi
  exact ⟨hstart.trans hlo, by omega, hdvd⟩

namespace HeapEntries

variable {h : DynamicAllocator.State} {A : DynamicAllocator.State → ℕ → Option (DynamicAllocator.State × Option ℕ)}

theorem kmallocWith_took (ht : Took s (A s.heap (pageSize * n)) h va) :
    (kmallocWith cpt A (pageSize * n)).run s = (do
      let r ← allocateChunk cpt s.ptrPageDirectory va (pageSize * n) permWriteable
      pure (if r = 0 then some va else none)).run (s.setHeap h) := by
  obtain ⟨h₁, b, hr, hins, hsva⟩ := ht.result
  rw [kmallocWith, run_bind_ok run_get, hr]
  simp only [hins]
  rw [run_bind_ok (run_modify _), run_bind_ok run_get, hsva]
  rfl

theorem kmallocWith_fails (hs : HeapEntries s) (ht : Took s (A s.heap (pageSize * n)) h va)
    (hmax : va + pageSize * n ≤ kernelHeapMax) (hp : HeapPage p) (hin : InPages va n p) (h0 : s.kernelPte p ≠ 0) :
    (kmallocWith cpt A (pageSize * n)).run s = .ok (none, s.setHeap h) := by
  have hchunk := (hs.setHeap h).allocateChunk_refuses cpt ht.page hmax hp hin h0
  rw [kmallocWith_took ht]
  exact run_bind_ok hchunk

/-- A block without mapped pages is taken and mapped, unless the frames run out. -/
theorem kmallocWith_maps (hs : HeapEntries s) (ht : Took s (A s.heap (pageSize * n)) h va)
    (hmax : va + pageSize * n ≤ kernelHeapMax) (h0 : ∀ p, HeapPage p → InPages va n p → s.kernelPte p = 0) :
    Sat (fun e => e = .noFreeFrame) (kmallocWith cpt A (pageSize * n)) s fun r t =>
      r = some va ∧ Filled (s.setHeap h) va n t := by
  refine .of_run (kmallocWith_took ht) (((hs.setHeap h).allocateChunk_fills cpt ht.page hmax h0).bind ?_)
  rintro r t ⟨rfl, hf⟩
  exact .pure ⟨rfl, hf⟩

/-- A block that would end behind the heap is taken and returned without its pages. -/
theorem kmallocWith_wraps (ht : Took s (A s.heap (pageSize * n)) h va) (hmax : kernelHeapMax < va + pageSize * n)
    (hn : pageSize * n ≤ kernelHeapMax) :
    (kmallocWith cpt A (pageSize * n)).run s = .ok (some va, s.setHeap h) := by
  have hva := ht.page.max
  have hwrap : 2 ^ 32 ≤ va + pageSize * n := by
    obtain ⟨a, ha⟩ := ht.page.dvd
    simp only [kernelHeapMax, pageSize] at *
    omega
  have hmax' : kernelHeapMax < 2 ^ 32 := by decide
  have hchunk := allocateChunk_wraps (s := s.setHeap h) cpt ht.page.dvd (by omega) hwrap (by omega)
  rw [kmallocWith_took ht]
  exact run_bind_ok hchunk

end HeapEntries

/-- The fit that serves a request, as the placement strategy wants it. -/
inductive Fit (s : Machine) (u v : ℕ) : (DynamicAllocator.State → ℕ → Option (DynamicAllocator.State × Option ℕ)) → Prop
  | first (h : s.kHeapPlacementStrategy = .firstFit) : Fit s u v allocBlockFF
  | best (h : s.kHeapPlacementStrategy = .bestFit) : Fit s u v (allocBlockBF · · u v)

namespace Fit

variable {A : DynamicAllocator.State → ℕ → Option (DynamicAllocator.State × Option ℕ)} {u v : ℕ} {r : Option ℕ}

theorem chosen (hA : Fit s u v A) (size : ℕ) : s.chosenBlock u v size = found (A s.heap size) := by
  cases hA <;> rename_i hst <;> simp only [chosenBlock, hst]

theorem kmallocFrom_sat (hA : Fit s u v A) {tol : Panic → Prop} {Q : ℕ → Machine → Prop}
    (h : Sat tol (kmallocWith cpt A (roundUp size pageSize)) s fun r t =>
      t.kHeapPlacementStrategy = s.kHeapPlacementStrategy ∧ Q (r.getD 0) t) :
    Sat tol (kmallocFrom cpt u v size) s Q := by
  rw [kmallocFrom]
  refine .bind_ok run_get ?_
  cases hA with
  | first hff =>
    rw [if_pos hff]
    refine h.bind ?_
    rintro r t ⟨hst, hr⟩
    cases r with
    | some va => exact .pure hr
    | none =>
      refine .bind_ok run_get ?_
      rw [if_neg (by rw [hst, hff]; decide)]
      exact .pure hr
  | best hbf =>
    rw [if_neg (by rw [hbf]; decide)]
    refine .bind_ok run_get ?_
    rw [if_pos hbf]
    refine h.bind ?_
    rintro r t ⟨-, hr⟩
    cases r with
    | some va => exact .pure hr
    | none => exact .pure hr

theorem cases (hA : Fit s u v A) (hs : HeapState s) (hn : 0 < pageSize * n) :
    A s.heap (pageSize * n) = some (s.heap, none) ∨ ∃ h va, Took s (A s.heap (pageSize * n)) h va := by
  obtain ⟨q, inv⟩ := hs.lists
  cases hA with
  | first =>
    rcases inv.allocBlockFF_spec hn (Nat.dvd_mul_right _ _) with ⟨-, h, va, hout⟩ | ⟨-, hnone⟩
    · exact .inr ⟨h, va, HandsOut.took hout⟩
    · exact .inl hnone
  | best =>
    by_cases hex : ∃ b ∈ s.heap.blocks .free, pageSize * n ≤ b.length
    · obtain ⟨h, va, hout⟩ := inv.allocBlockBF_spec ⟨hn, Nat.dvd_mul_right _ _, hex⟩ u v
      exact .inr ⟨h, va, HandsOut.took hout⟩
    · push Not at hex
      by_cases huv : ∃ b ∈ s.heap.blocks .free, b = ⟨v, u⟩
      · obtain ⟨h, ht⟩ := hs.took_stale hex huv
        exact .inr ⟨h, v, ht⟩
      · rw [inv.blocks_eq] at hex huv
        refine .inl (allocBlockBF_none inv.rep (inv.length_le _) (fun x hx => hex _ (List.mem_map_of_mem hx)) ?_)
        rintro ⟨x, hx, hsize, hsva⟩
        exact huv ⟨_, List.mem_map_of_mem hx, by rw [State.block, hsize, hsva]⟩

/-- When no block is found nothing happens. -/
theorem atomic_of_none (hA : Fit s u v A) (hnone : A s.heap (roundUp size pageSize) = some (s.heap, none)) :
    Atomic s u v size := by
  have hrun : (kmallocWith createPageTable A (roundUp size pageSize)).run s = .ok (none, s) := by
    rw [kmallocWith, run_bind_ok run_get, hnone]
    rfl
  exact hA.kmallocFrom_sat (.of_ok hrun ⟨rfl, fun _ => ⟨rfl, rfl, rfl⟩, fun h => absurd rfl h⟩)

/-- When a block was taken its range decides. -/
theorem atomic_iff_of_took {h : DynamicAllocator.State} (hA : Fit s u v A) (hs : HeapState s) (hpos : 1 ≤ size)
    (hle : size ≤ pageSize * n) (hmax : pageSize * n ≤ kernelHeapMax) (hround : pageSize * n = roundUp size pageSize)
    (ht : Took s (A s.heap (pageSize * n)) h va) :
    Atomic s u v size ↔ va + pageSize * n ≤ kernelHeapMax ∧ ∀ p, HeapPage p → InPages va n p → s.kernelPte p = 0 := by
  have hva : va ≠ 0 := by
    have : 0 < kernelHeapStart := by decide
    have := ht.page.start
    omega
  by_cases hend : va + pageSize * n ≤ kernelHeapMax
  · by_cases h0 : ∀ p, HeapPage p → InPages va n p → s.kernelPte p = 0
    · refine iff_of_true (hA.kmallocFrom_sat ?_) ⟨hend, h0⟩
      rw [← hround]
      refine (hs.kmallocWith_maps ht hend h0).mono ?_
      rintro _ t ⟨rfl, hf⟩
      refine ⟨hf.globals.strategy, fun he => absurd he hva, fun _ p hd hlo hlt => ?_⟩
      have hin : InPages va n p := ⟨hlo, hlt.trans_le (Nat.add_le_add_left hle va)⟩
      have hp : HeapPage p := ⟨ht.page.start.trans hlo, hin.2.trans_le hend, hd⟩
      exact ⟨h0 p hp hin, hf.mapped p hp hin⟩
    · -- NULL is returned, and the block is not put back
      refine iff_of_false (fun hat => ?_) fun hcond => h0 hcond.2
      push Not at h0
      obtain ⟨p, hp, hin, hne⟩ := h0
      have hrun : Sat (fun _ => False) (kmallocFrom createPageTable u v size) s fun r t =>
          r = 0 ∧ t = s.setHeap h := hA.kmallocFrom_sat (by
        rw [← hround]
        exact .of_ok (hs.kmallocWith_fails ht hend hp hin hne) ⟨rfl, rfl, rfl⟩)
      obtain ⟨_, _, hrun, rfl, rfl⟩ := hrun.exists_ok
      exact ht.ne ((hat.ok hrun).1 rfl).heap
  · -- the range wraps or leaves the heap, and none of its pages is mapped
    refine iff_of_false (fun hat => ?_) fun hcond => hend hcond.1
    have hrun : Sat (fun _ => False) (kmallocFrom createPageTable u v size) s fun r t =>
        r = va ∧ t = s.setHeap h := hA.kmallocFrom_sat (by
      rw [← hround]
      exact .of_ok (HeapEntries.kmallocWith_wraps ht (not_le.mp hend) hmax) ⟨rfl, rfl, rfl⟩)
    obtain ⟨_, _, hrun, rfl, rfl⟩ := hrun.exists_ok
    obtain ⟨h0, f, -, hf⟩ := (hat.ok hrun).2 hva _ ht.page.dvd le_rfl (Nat.lt_add_of_pos_right hpos)
    exact ne_zero_of_hasPerm_present (HasPerm.or_left (HasPerm.or_left (by decide))) (hf.symm.trans h0)

end Fit

/-- The other strategies hand out nothing. -/
theorem atomic_of_not_fit {u v : ℕ} (hff : s.kHeapPlacementStrategy ≠ .firstFit) (hbf : s.kHeapPlacementStrategy ≠ .bestFit) :
    Atomic s u v size ∧ BlockUnmapped s u v size := by
  refine ⟨.bind_ok run_get ?_, fun va hva => ?_⟩
  · rw [if_neg hff]
    refine .bind_ok run_get ?_
    rw [if_neg hbf]
    exact .pure ⟨fun _ => ⟨rfl, rfl, rfl⟩, fun h => absurd rfl h⟩
  · rw [chosenBlock] at hva
    cases hst : s.kHeapPlacementStrategy with
    | firstFit => exact absurd hst hff
    | bestFit => exact absurd hst hbf
    | contAlloc | nextFit | worstFit =>
      rw [hst] at hva
      cases hva

/-- `kmalloc` fails without a trace if and only if the block it would take lies in the heap and has
no mapped page: else it keeps the block among the allocated ones, and returns NULL or an address
without pages. -/
theorem atomic_iff {newsize newveradd : ℕ} (hs : HeapState s) (hpos : 1 ≤ size)
    (hmax : size ≤ kernelHeapMax - kernelHeapStart) :
    Atomic s newsize newveradd size ↔ BlockUnmapped s newsize newveradd size := by
  obtain ⟨hn, hmul⟩ := HeapInv.roundUp_size hpos hmax
  by_cases hfit : ∃ A, Fit s newsize newveradd A
  · obtain ⟨A, hA⟩ := hfit
    rw [BlockUnmapped, hA.chosen]
    rcases hA.cases hs (hmul.symm ▸ hn) with hnone | ⟨h, va, ht⟩
    · rw [hmul] at hnone
      exact iff_of_true (hA.atomic_of_none hnone) (by rw [hnone]; rintro va ⟨⟩)
    · have hheap : kernelHeapMax - kernelHeapStart + pageSize ≤ 2 ^ 32 := by decide
      have hle : size ≤ roundUp size pageSize := le_roundUp (by decide) (by omega)
      have hround : roundUp size pageSize ≤ kernelHeapMax := by
        have : kernelHeapMax - kernelHeapStart + pageSize ≤ kernelHeapMax := by decide
        exact (Nat.sub_le _ _).trans ((Nat.mod_le _ _).trans (by omega))
      rw [hA.atomic_iff_of_took hs hpos (hle.trans_eq hmul.symm) (hmul.le.trans hround) hmul ht, hmul]
      have hfound := ht.found_eq
      rw [hmul] at hfound
      rw [hfound]
      refine ⟨?_, fun hcond => hcond va rfl⟩
      rintro hcond _ ⟨⟩
      exact hcond
  · have hff : s.kHeapPlacementStrategy ≠ .firstFit := fun h => hfit ⟨_, .first h⟩
    have hbf : s.kHeapPlacementStrategy ≠ .bestFit := fun h => hfit ⟨_, .best h⟩
    exact iff_of_true (atomic_of_not_fit hff hbf).1 (atomic_of_not_fit hff hbf).2

theorem exists_mappedPage : ∃ s, HeapState s ∧ ∃ p, HeapPage p ∧ kernelHeap.lo ≤ p ∧
    s.kernelPte p ≠ 0 ∧ s.heap.blocks .alloc = [] ∧ s.kHeapPlacementStrategy = .firstFit := by
  obtain ⟨-, s, -, -, -, hi, hnil, hff, hlen⟩ := exists_heapBoot
  have hp : HeapPage kernelHeap.lo := ⟨by decide, by decide, by decide⟩
  have hdead : ∀ p, InPages kernelHeap.lo 1 p → ¬s.Live p := by
    rintro p ⟨hle, -⟩ (hlt | hc)
    · omega
    · rw [hnil] at hc
      obtain ⟨b, hb, -⟩ := hc
      cases hb
  obtain ⟨t, -, hmt, hplaces⟩ := hi.pages.allocateChunk_run createPageTable hp (n := 1) (by decide)
    hdead (by omega)
  have hst := hplaces.globals
  refine ⟨t, hmt.heapState (hst.heap ▸ hi.lists), _, hp, le_rfl, ?_, hst.heap ▸ hnil, hst.strategy ▸ hff⟩
  obtain ⟨f, hf⟩ := hmt.mapped _ hp (.inr ⟨le_rfl, by decide⟩)
  rw [hf.entry]
  exact ne_zero_of_hasPerm_present (HasPerm.or_left (HasPerm.or_left (by decide)))

/-- A request for the whole heap then returns NULL, with the block among the allocated ones. -/
theorem kmalloc_leaks_block : ∃ s, HeapState s ∧ ∃ t, s.heap.blocks .alloc = [] ∧ t.heap.blocks .alloc ≠ [] ∧
    ∀ newsize newveradd,
      (kmallocFrom createPageTable newsize newveradd (kernelHeap.hi - kernelHeap.lo)).run s = .ok (0, t) ∧
      ¬Atomic s newsize newveradd (kernelHeap.hi - kernelHeap.lo) := by
  obtain ⟨s, hs, p, hp, hlo, h0, hnil, hff⟩ := exists_mappedPage
  obtain ⟨q, inv⟩ := hs.lists
  have hsize : roundUp (kernelHeap.hi - kernelHeap.lo) pageSize =
      pageSize * ((kernelHeap.hi - kernelHeap.lo) / pageSize) := by decide
  have hmul : pageSize * ((kernelHeap.hi - kernelHeap.lo) / pageSize) =
      kernelHeap.hi - kernelHeap.lo := by decide
  have hfree : s.heap.blocks .free = [⟨kernelHeap.lo, kernelHeap.hi - kernelHeap.lo⟩] := by
    rw [inv.free_eq_gaps, hnil]
    decide
  have hfit : Fits s.heap (pageSize * ((kernelHeap.hi - kernelHeap.lo) / pageSize)) :=
    ⟨by decide, Nat.dvd_mul_right _ _, ⟨kernelHeap.lo, kernelHeap.hi - kernelHeap.lo⟩,
      by simp [hfree], by rw [hmul]⟩
  rcases inv.allocBlockFF_spec hfit.1 hfit.2.1 with ⟨-, h, va, hout⟩ | ⟨hnot, -⟩
  · obtain ⟨-, hle, hmax⟩ := block_pages hout
    have hhi : kernelHeap.hi = kernelHeapMax := rfl
    have hpmax := hp.max
    have hin : InPages va ((kernelHeap.hi - kernelHeap.lo) / pageSize) p := by
      constructor <;> omega
    have ht := HandsOut.took hout
    obtain ⟨A, B, -, hnew⟩ := hout.blocks
    refine ⟨s, hs, s.setHeap h, hnil, by rw [show (s.setHeap h).heap = h from rfl, hnew]; simp, fun u v => ?_⟩
    have hsat : Sat (fun _ => False) (kmallocFrom createPageTable u v (kernelHeap.hi - kernelHeap.lo)) s fun r t =>
        r = 0 ∧ t = s.setHeap h := (Fit.first hff).kmallocFrom_sat (by
      rw [hsize]
      exact .of_ok (hs.kmallocWith_fails ht hmax hp hin h0) ⟨rfl, rfl, rfl⟩)
    obtain ⟨_, _, hrun, rfl, rfl⟩ := hsat.exists_ok
    exact ⟨hrun, fun hat => ht.ne ((hat.ok hrun).1 rfl).heap⟩
  · exact absurd hfit hnot

theorem atomic_iff_mappedPage : ∃ s, HeapState s ∧ s.kHeapPlacementStrategy = .firstFit ∧
    (Atomic s 0 0 pageSize ↔ BlockUnmapped s 0 0 pageSize) := by
  obtain ⟨s, hs, p, -, -, -, -, hff⟩ := exists_mappedPage
  exact ⟨s, hs, hff, atomic_iff hs (by decide) (by decide)⟩

end FosKernel.Machine
