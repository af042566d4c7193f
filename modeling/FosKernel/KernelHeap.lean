import FosKernel.DynamicAllocatorRuns
import FosKernel.KernelTables

/-!
# The kernel heap

`kmalloc` and `kfree` keep three structures in step: the block lists, the kernel's
page tables and the frame records. The invariant `HeapMap` speaks of an arbitrary
set of mapped pages, so that it also holds inside the loops over pages.
-/

namespace FosKernel.Machine
open FailingPrograms PageEntries DynamicAllocator IntervalLists

variable {s t : Machine} {va p q f n i : ℕ} {fs : List ℕ} {M : ℕ → Prop}
  {cpt : ℕ → ℕ → Kernel ℕ}

/-- The frame `f`, taken off the free list, is mapped at a kernel page. -/
def placeFrame (s : Machine) (f : ℕ) (fs : List ℕ) (va perm : ℕ) : Machine :=
  ((s.setFree fs).setInfo f ⟨1, va, none, false⟩).setEntry (s.kernelTable (pdx va)) (ptx va)
    (constructEntry (toPhysicalAddress f) (perm ||| permPresent))

/-- The page is mapped to a frame that nothing else uses. -/
structure MapsPage (s : Machine) (p f : ℕ) : Prop where
  entry : s.kernelPte p = constructEntry (toPhysicalAddress f) (permWriteable ||| permPresent)
  info : s.framesInfo f = ⟨1, p, none, false⟩
  lt : f < s.numberOfFrames
  not_free : f ∉ s.freeFrameList

/-- Exactly the heap pages in `M` are mapped, each to a frame of its own. -/
structure HeapMap (s : Machine) (M : ℕ → Prop) : Prop where
  tables : KernelTables s heapTables
  mapped : ∀ p, HeapPage p → M p → ∃ f, MapsPage s p f
  unmapped : ∀ p, HeapPage p → ¬M p → s.kernelPte p = 0
  nodup : s.freeFrameList.Nodup
  free : ∀ f ∈ s.freeFrameList, f < s.numberOfFrames ∧ (s.framesInfo f).isBuffered = false

theorem sameGlobals_placeFrame (s : Machine) (f : ℕ) (fs : List ℕ) (va perm : ℕ) :
    SameGlobals s (s.placeFrame f fs va perm) := by
  constructor <;> rfl

theorem pageOf_eq (h : va + pageSize * i < 2 ^ 32) : pageOf va i = va + pageSize * i := u32_of_lt h

theorem KernelTables.of_setEntry {w : ℕ} (kt : KernelTables s heapTables) (hp : HeapPage p)
    (ht : SameGlobals s t) (hram : t.ram = (s.setEntry (s.kernelTable (pdx p)) (ptx p) w).ram) :
    KernelTables t heapTables := by
  apply kt.congr ht.ptrPageDirectory ht.ptrFreeMem ht.numberOfFrames
  rw [hram]
  exact setFrame_ram_of_ne (kt.ne_dir _ hp.index).symm

variable (cpt) in
theorem allocateChunkPage_run (kt : KernelTables s heapTables) (hp : HeapPage (pageOf va i))
    (h0 : s.kernelPte (pageOf va i) = 0) (hfree : s.freeFrameList = f :: fs)
    (hb : (s.framesInfo f).isBuffered = false) (perm : ℕ) :
    (allocateChunkPage cpt s.ptrPageDirectory va perm i).run s =
      .ok ((), s.placeFrame f fs (pageOf va i) perm) := by
  set p := pageOf va i
  have kt' : KernelTables ((s.setFree fs).setInfo f .initial) heapTables := kt.congr rfl rfl rfl rfl
  have hw : ¬HasPerm (((s.setFree fs).setInfo f .initial).kernelPte p) permPresent := by
    rw [kernelPte_setInfo, kernelPte_setFree, h0]
    decide
  have hmap : (mapFrame cpt s.ptrPageDirectory f p perm).run ((s.setFree fs).setInfo f .initial) = _ :=
    (kt'.hasTable hp.index hp.userTop_le).mapFrame_unmapped hw
  rw [allocateChunkPage, run_bind_ok (kt.hasTable hp.index hp.userTop_le).get]
  simp only
  rw [run_bind_ok (allocateFrame_run hfree hb), run_bind_ok hmap, run_modify]
  simp only [placeFrame, setEntry, setFrame, setInfo, setFree, addReference, Function.update_idem,
    Function.update_self, FrameInfo.initial, FrameInfo.addReferences]
  rfl

variable (cpt) in
theorem allocateChunkPage_noFrame (kt : KernelTables s heapTables) (hp : HeapPage (pageOf va i))
    (hfree : s.freeFrameList = []) (perm : ℕ) :
    (allocateChunkPage cpt s.ptrPageDirectory va perm i).run s = .error .noFreeFrame := by
  have halloc : allocateFrame.run s = .error .noFreeFrame := by
    rw [allocateFrame, run_bind_ok run_get]
    simp only [hfree]
    rfl
  rw [allocateChunkPage, run_bind_ok (kt.hasTable hp.index hp.userTop_le).get]
  simp only
  exact run_bind_error halloc

theorem MapsPage.frame_eq (hf : MapsPage s p f) : frameNumber (s.kernelPte p) = f := by
  rw [hf.entry]
  exact frameNumber_constructEntry (by decide)

theorem MapsPage.unmapFrame_run (hf : MapsPage s p f) (kt : KernelTables s heapTables)
    (hp : HeapPage p) :
    (unmapFrame s.ptrPageDirectory p).run s = .ok ((),
      ((s.setInfo f .initial).setFree (f :: s.freeFrameList)).setEntry
        (s.kernelTable (pdx p)) (ptx p) 0) := by
  have hw : wordAt (s.ram (s.kernelTable (pdx p))) (ptx p) =
    constructEntry (toPhysicalAddress f) (permWriteable ||| permPresent) := hf.entry
  have hfn : frameNumber (constructEntry (toPhysicalAddress f) (permWriteable ||| permPresent)) = f :=
    hf.entry ▸ hf.frame_eq
  have hw0 : constructEntry (toPhysicalAddress f) (permWriteable ||| permPresent) ≠ 0 :=
    ne_zero_of_hasPerm_present (hasPerm_constructEntry (k := 0) (by decide) (by decide))
  have hrun := (kt.hasTable hp.index hp.userTop_le).unmapFrame_run (by rwa [hw])
    (by rw [hw, hfn]; exact hf.lt)
  rw [hrun, hw, hfn, dropReference_of_one (congrArg FrameInfo.references hf.info)]

namespace HeapMap

theorem free_lt (hm : HeapMap s M) (hf : f ∈ s.freeFrameList) : f < 2 ^ 20 :=
  (hm.free f hf).1.trans_le hm.tables.frames

theorem place (hm : HeapMap s M) (hp : HeapPage p) (hfree : s.freeFrameList = f :: fs) :
    HeapMap (s.placeFrame f fs p permWriteable) fun q => M q ∨ q = p := by
  have hnd := List.nodup_cons.mp (hfree ▸ hm.nodup)
  have hmem : f ∈ s.freeFrameList := by simp [hfree]
  have hlt : constructEntry (toPhysicalAddress f) (permWriteable ||| permPresent) < 2 ^ 32 :=
    constructEntry_lt (hm.free_lt hmem) (by decide)
  have hpte (q : ℕ) (hq : HeapPage q) : (s.placeFrame f fs p permWriteable).kernelPte q =
      if q = p then constructEntry (toPhysicalAddress f) (permWriteable ||| permPresent)
      else s.kernelPte q := hm.tables.heapPte_of_setEntry hp hq hlt rfl rfl
  refine ⟨hm.tables.of_setEntry hp (sameGlobals_placeFrame ..) rfl, fun q hq hMq => ?_,
    fun q hq hMq => ?_, hnd.2, fun g hg => ?_⟩
  · by_cases hqp : q = p
    · subst hqp
      exact ⟨f, by rw [hpte q hq, if_pos rfl], setInfo_self .., (hm.free f hmem).1, hnd.1⟩
    · obtain ⟨g, hg⟩ := hm.mapped q hq (hMq.resolve_right hqp)
      have hgf : g ≠ f := fun he => hg.not_free (he ▸ hmem)
      refine ⟨g, by rw [hpte q hq, if_neg hqp, hg.entry], (setInfo_of_ne hgf).trans hg.info, hg.lt,
        fun h => hg.not_free ?_⟩
      rw [hfree]
      exact List.mem_cons_of_mem _ h
  · obtain ⟨hMq, hqp⟩ := not_or.mp hMq
    rw [hpte q hq, if_neg hqp, hm.unmapped q hq hMq]
  · have hgf : g ≠ f := fun he => hnd.1 (he ▸ hg)
    have := hm.free g (by rw [hfree]; exact List.mem_cons_of_mem _ hg)
    exact ⟨this.1, (congrArg _ (setInfo_of_ne hgf)).trans this.2⟩

theorem drop (hm : HeapMap s M) (hp : HeapPage p) (hM : M p) :
    ∃ t, (unmapFrame s.ptrPageDirectory p).run s = .ok ((), t) ∧
      HeapMap t (fun q => M q ∧ q ≠ p) ∧ SameGlobals s t ∧
      t.freeFrameList = frameNumber (s.kernelPte p) :: s.freeFrameList ∧
      ∀ q, HeapPage q → t.kernelPte q = if q = p then 0 else s.kernelPte q := by
  obtain ⟨f, hf⟩ := hm.mapped p hp hM
  have hrun := hf.unmapFrame_run hm.tables hp
  set t := ((s.setInfo f .initial).setFree (f :: s.freeFrameList)).setEntry
    (s.kernelTable (pdx p)) (ptx p) 0 with ht
  have hpte (q : ℕ) (hq : HeapPage q) : t.kernelPte q = if q = p then 0 else s.kernelPte q :=
    hm.tables.heapPte_of_setEntry hp hq (by decide) rfl rfl
  refine ⟨t, hrun, ⟨hm.tables.of_setEntry hp (by constructor <;> rfl) rfl, fun q hq hMq => ?_,
    fun q hq hMq => ?_, List.nodup_cons.mpr ⟨hf.not_free, hm.nodup⟩, fun g hg => ?_⟩,
    by constructor <;> rfl, by rw [hf.frame_eq]; rfl, hpte⟩
  · obtain ⟨g, hg⟩ := hm.mapped q hq hMq.1
    have hgf : g ≠ f := by
      rintro rfl
      have := hf.info.symm.trans hg.info
      exact hMq.2 (FrameInfo.mk.inj this).2.1.symm
    exact ⟨g, by rw [hpte q hq, if_neg hMq.2, hg.entry], (setInfo_of_ne hgf).trans hg.info, hg.lt,
      fun h => (List.mem_cons.mp h).elim hgf hg.not_free⟩
  · rw [hpte q hq]
    split
    · rfl
    · exact hm.unmapped q hq fun h => hMq ⟨h, by assumption⟩
  · by_cases hgf : g = f
    · subst hgf
      exact ⟨hf.lt, congrArg _ (setInfo_self ..)⟩
    · have := hm.free g ((List.mem_cons.mp hg).resolve_left hgf)
      exact ⟨this.1, (congrArg _ (setInfo_of_ne hgf)).trans this.2⟩

theorem congr {M' : ℕ → Prop} (hm : HeapMap s M) (h : ∀ p, HeapPage p → (M p ↔ M' p)) :
    HeapMap s M' where
  tables := hm.tables
  mapped p hp hM := hm.mapped p hp ((h p hp).mpr hM)
  unmapped p hp hM := hm.unmapped p hp fun h' => hM ((h p hp).mp h')
  nodup := hm.nodup
  free := hm.free

theorem with_heap (hm : HeapMap s M) (h : DynamicAllocator.State) :
    HeapMap (s.setHeap h) M where
  tables := hm.tables.congr rfl rfl rfl rfl
  mapped p hp hM := (hm.mapped p hp hM).imp fun _ hf => ⟨hf.entry, hf.info, hf.lt, hf.not_free⟩
  unmapped := hm.unmapped
  nodup := hm.nodup
  free := hm.free

end HeapMap

/-- The machine after the first `n` pages from `va` on were mapped, none of which was. -/
inductive Places (s : Machine) (va : ℕ) : ℕ → Machine → Prop
  | zero : Places s va 0 s
  | succ {t : Machine} {n f : ℕ} {fs : List ℕ} : Places s va n t → HeapPage (va + pageSize * n) →
    t.kernelPte (va + pageSize * n) = 0 → t.freeFrameList = f :: fs →
    Places s va (n + 1) (t.placeFrame f fs (va + pageSize * n) permWriteable)

theorem Places.globals (h : Places s va n t) : SameGlobals s t := by
  induction h with
  | zero => exact .refl s
  | succ _ _ _ _ ih => exact ih.trans (sameGlobals_placeFrame ..)

theorem Places.freeFrameList_eq (h : Places s va n t) : t.freeFrameList = s.freeFrameList.drop n := by
  induction h with
  | zero => rfl
  | succ _ _ _ hfree ih =>
    rw [← List.drop_drop, ← ih, hfree]
    rfl

theorem numOfPages_aligned (hva : pageSize ∣ va) (hmax : va + pageSize * n ≤ kernelHeapMax) :
    numOfPages (roundDown va pageSize) (roundUp (u32 (va + pageSize * n)) pageSize) = n := by
  have hlt : va + pageSize * n + pageSize ≤ 2 ^ 32 := by
    simp only [kernelHeapMax, pageSize] at *
    omega
  have hpage : 0 < pageSize := by decide
  rw [roundDown_of_dvd hva, u32_of_lt (by omega),
    roundUp_of_dvd (by decide) (Nat.dvd_add hva (Nat.dvd_mul_right _ _)) hlt, numOfPages,
    Nat.add_sub_cancel_left, Nat.mul_div_cancel_left _ (by decide)]

theorem HeapPage.pageOf_eq (hp : HeapPage va) (hmax : va + pageSize * n ≤ kernelHeapMax) (hi : i < n) :
    pageOf va i = va + pageSize * i := Machine.pageOf_eq (hp.add hmax hi).lt

/-- The pages from `va` on, `n` of them. -/
def InPages (va n p : ℕ) : Prop := va ≤ p ∧ p < va + pageSize * n

theorem inPages_succ (hva : pageSize ∣ va) (hp : pageSize ∣ p) :
    InPages va (n + 1) p ↔ InPages va n p ∨ p = va + pageSize * n := by
  simp only [InPages, pageSize] at *
  omega

namespace HeapMap

theorem isMapped_run (hm : HeapMap s M) (hp : HeapPage p) (hM : ¬M p) :
    (isMapped s.ptrPageDirectory p).run s = .ok (false, s) := by
  have h0 : wordAt (s.ram (s.kernelTable (pdx p))) (ptx p) = 0 := hm.unmapped p hp hM
  rw [(hm.tables.hasTable hp.index hp.userTop_le).isMapped_run fun h => absurd h0 h, h0]
  rfl

variable (cpt) in
/-- `allocate_chunk` maps pages of the kernel heap that are not mapped, unless the
frames run out. -/
theorem allocateChunk_sat (hm : HeapMap s M) (hva : HeapPage va)
    (hmax : va + pageSize * n ≤ kernelHeapMax) (hM : ∀ p, InPages va n p → ¬M p) :
    Sat (fun e => e = .noFreeFrame ∧ s.freeFrameList.length < n)
      (allocateChunk cpt s.ptrPageDirectory va (pageSize * n) permWriteable) s fun r t =>
        r = 0 ∧ HeapMap t (fun p => M p ∨ InPages va n p) ∧ Places s va n t := by
  have hin {i : ℕ} (hi : i < n) : InPages va n (va + pageSize * i) := by
    have := Nat.mul_le_mul_left pageSize (show i + 1 ≤ n from hi)
    simp only [InPages, pageSize] at *
    omega
  have htest : (anyRange (fun i => isMapped s.ptrPageDirectory (pageOf va i)) 0 n).run s = _ :=
    anyRange_false (fun k _ hk => by
      rw [Nat.zero_add] at hk
      rw [hva.pageOf_eq hmax hk]
      exact hm.isMapped_run (hva.add hmax hk) (hM _ (hin hk)))
  have hloop : Sat (fun e => e = .noFreeFrame ∧ s.freeFrameList.length < n)
      (forRange (allocateChunkPage cpt s.ptrPageDirectory va permWriteable) 0 n) s _ := Sat.forRange
    (fun k t => HeapMap t (fun p => M p ∨ InPages va k p) ∧ Places s va k t)
    ⟨hm.congr fun p _ => ⟨.inl, fun h => h.resolve_right fun h => by
      simp only [InPages] at h
      omega⟩, .zero⟩
    (by
      rintro k t - hk ⟨hmt, hplaces⟩
      have hst := hplaces.globals
      have hfr := hplaces.freeFrameList_eq
      rw [Nat.zero_add] at hk
      have hpage := hva.pageOf_eq hmax hk
      have hp : HeapPage (pageOf va k) := hpage ▸ hva.add hmax hk
      have h0 : t.kernelPte (pageOf va k) = 0 := by
        apply hmt.unmapped _ hp
        rintro (h | h)
        · exact hM _ (hpage ▸ hin hk) h
        · rw [hpage, InPages] at h
          omega
      by_cases hlen : k < s.freeFrameList.length
      · have hcons := List.drop_eq_getElem_cons hlen
        have hfr' := hfr.trans hcons
        have hrun := allocateChunkPage_run cpt hmt.tables hp h0 hfr'
          (hmt.free _ (by rw [hfr']; exact List.mem_cons_self)).2 permWriteable
        rw [hst.ptrPageDirectory] at hrun
        refine .of_ok hrun ⟨(hmt.place hp hfr').congr fun p hp' => ?_,
          hpage ▸ hplaces.succ (hpage ▸ hp) (hpage ▸ h0) hfr'⟩
        rw [inPages_succ hva.dvd hp'.dvd, hpage, or_assoc]
      · have hrun := allocateChunkPage_noFrame cpt hmt.tables hp
          (hfr.trans (List.drop_eq_nil_of_le (not_lt.mp hlen))) permWriteable
        rw [hst.ptrPageDirectory] at hrun
        exact .of_error hrun ⟨rfl, (not_lt.mp hlen).trans_lt hk⟩)
  rw [Nat.zero_add] at hloop
  rw [allocateChunk, numOfPages_aligned hva.dvd hmax, roundDown_of_dvd hva.dvd]
  refine .bind_ok htest ?_
  simp only [Bool.false_eq_true, ↓reduceIte]
  exact hloop.bind fun _ t h => .pure ⟨rfl, h⟩

variable (cpt) in
theorem allocateChunk_run (hm : HeapMap s M) (hva : HeapPage va)
    (hmax : va + pageSize * n ≤ kernelHeapMax) (hM : ∀ p, InPages va n p → ¬M p)
    (hfree : n ≤ s.freeFrameList.length) :
    ∃ t, (allocateChunk cpt s.ptrPageDirectory va (pageSize * n) permWriteable).run s = .ok (0, t) ∧
      HeapMap t (fun p => M p ∨ InPages va n p) ∧ Places s va n t := by
  have h : Sat (fun _ => False) _ s _ := (hm.allocateChunk_sat cpt hva hmax hM).weaken
    fun _ he => absurd he.2 (not_lt.mpr hfree)
  obtain ⟨r, t, hrun, rfl, h⟩ := h.exists_ok
  exact ⟨t, hrun, h⟩

/-- The loop of `kfree` unmaps pages that are mapped and returns their frames. -/
theorem kfreePages_run (hm : HeapMap s M) (hva : HeapPage va)
    (hmax : va + pageSize * n ≤ kernelHeapMax) (hM : ∀ p, InPages va n p → M p) :
    ∃ t, (forRange (kfreePage va) 0 n).run s = .ok ((), t) ∧
      HeapMap t (fun p => M p ∧ ¬InPages va n p) ∧ SameGlobals s t ∧
      t.freeFrameList = ((List.range n).map fun i => frameNumber (s.kernelPte (va + pageSize * i))).reverse
        ++ s.freeFrameList ∧
      ∀ p, HeapPage p → ¬InPages va n p → t.kernelPte p = s.kernelPte p := by
  have hloop : Sat (fun _ => False) (forRange (kfreePage va) 0 n) s _ := Sat.forRange
    (fun k t => HeapMap t (fun p => M p ∧ ¬InPages va k p) ∧ SameGlobals s t ∧
      t.freeFrameList = ((List.range k).map fun i => frameNumber (s.kernelPte (va + pageSize * i))).reverse
        ++ s.freeFrameList ∧
      ∀ p, HeapPage p → ¬InPages va k p → t.kernelPte p = s.kernelPte p)
    ⟨hm.congr fun p _ => ⟨fun h => ⟨h, fun h => by
      simp only [InPages] at h
      omega⟩, And.left⟩, .refl s, rfl, fun _ _ _ => rfl⟩
    (by
      rintro k t - hk ⟨hmt, hst, hfr, hpt⟩
      rw [Nat.zero_add] at hk
      have hpage := hva.pageOf_eq hmax hk
      have hp : HeapPage (pageOf va k) := hpage ▸ hva.add hmax hk
      have hnot : ¬InPages va k (pageOf va k) := by
        rw [hpage, InPages]
        omega
      have hMp : M (pageOf va k) := by
        have := Nat.mul_le_mul_left pageSize (show k + 1 ≤ n from hk)
        apply hM
        rw [hpage, InPages]
        simp only [pageSize] at *
        omega
      obtain ⟨u, hrun, hmu, htu, hfu, hpu⟩ := hmt.drop hp ⟨hMp, hnot⟩
      refine .of_ok (t := u) (a := ⟨⟩) ?_ ⟨hmu.congr fun p hp' => ?_, hst.trans htu, ?_,
        fun p hp' hin => ?_⟩
      · rw [kfreePage, run_bind_ok run_get, hrun]
      · rw [inPages_succ hva.dvd hp'.dvd, hpage, not_or, and_assoc]
      · rw [hfu, hfr, hpt _ hp hnot, hpage]
        simp [List.range_succ]
      · rw [inPages_succ hva.dvd hp'.dvd, not_or] at hin
        rw [hpu p hp', if_neg (hpage ▸ hin.2), hpt p hp' hin.1])
  obtain ⟨_, t, hrun, h⟩ := hloop.exists_ok
  rw [Nat.zero_add] at h
  exact ⟨t, hrun, h⟩

end HeapMap

/-- The addresses in use: the node array and the live blocks. -/
def Live (s : Machine) (p : ℕ) : Prop := p < kernelHeap.lo ∨ Covered (s.heap.blocks .alloc) p

/-- The block lists, the page tables and the frame records agree. -/
structure HeapInv (s : Machine) : Prop where
  lists : ∃ q, Inv kernelHeap s.heap q
  pages : HeapMap s s.Live

theorem kernelHeap_lo : kernelHeap.lo = 0xF60A0000 := by decide
theorem kernelHeap_hi : kernelHeap.hi = kernelHeapMax := rfl

theorem heapPage_of_block {h : DynamicAllocator.State} {r : BlockList → List ℕ} {b : Interval}
    (inv : Inv kernelHeap h r) (hb : b ∈ h.blocks .alloc) :
    HeapPage b.start ∧ kernelHeap.lo ≤ b.start ∧
      b.start + pageSize * (b.length / pageSize) ≤ kernelHeapMax ∧
      b.length = pageSize * (b.length / pageSize) := by
  obtain ⟨hlo, hhi, ⟨hd, hl⟩, hpos⟩ := inv.of_mem_blocks hb
  have hlen : pageSize * (b.length / pageSize) = b.length := Nat.mul_div_cancel' hl
  rw [kernelHeap_hi, Interval.stop] at hhi
  refine ⟨⟨le_trans (by decide) hlo, by omega, hd⟩, hlo, by omega, hlen.symm⟩

/-- What a successful allocation of whole pages at `va` leaves. -/
structure Mapped (s : Machine) (n va : ℕ) (t : Machine) : Prop where
  inv : HeapInv t
  places : ∃ h, Places (s.setHeap h) va n t
  blocks : ∃ A B, s.heap.blocks .alloc = A ++ B ∧ t.heap.blocks .alloc = A ++ ⟨va, pageSize * n⟩ :: B

/-- The strategy is implemented and the request fits. -/
def Served (s : Machine) (size : ℕ) : Prop :=
  (s.kHeapPlacementStrategy = .firstFit ∨ s.kHeapPlacementStrategy = .bestFit) ∧
    Fits s.heap (roundUp size pageSize)

theorem Mapped.ne_zero (hm : Mapped s n va t) : va ≠ 0 := by
  obtain ⟨q, inv⟩ := hm.inv.lists
  obtain ⟨A, B, -, hnew⟩ := hm.blocks
  have hlo := (heapPage_of_block inv (b := ⟨va, pageSize * n⟩) (by simp [hnew])).1.start
  have hstart : 0 < kernelHeapStart := by decide
  exact (hstart.trans_le hlo).ne'

variable (cpt) in
theorem kmalloc_run_from {size : ℕ}
    (hinit : s.kHeapPlacementStrategy = .bestFit → ¬readsUninitialized s.heap (roundUp size pageSize)) :
    (kmalloc cpt size).run s = (kmallocFrom cpt 0 0 size).run s := by
  rw [kmalloc, run_bind_ok run_get, if_neg fun h => hinit h.1 h.2]

namespace HeapInv

variable {h : DynamicAllocator.State}

theorem kmallocWith_sat (hi : HeapInv s) {A : DynamicAllocator.State → ℕ →
      Option (DynamicAllocator.State × Option ℕ)}
    (hout : HandsOut kernelHeap s.heap (pageSize * n) (A s.heap (pageSize * n)) h va) :
    Sat (fun e => e = .noFreeFrame ∧ s.freeFrameList.length < n)
      (kmallocWith cpt A (pageSize * n)) s fun r t => r = some va ∧ Mapped s n va t := by
  obtain ⟨h₁, b, hr, hins, hsva⟩ := hout.result
  obtain ⟨q, inv⟩ := hout.inv
  obtain ⟨L, R, hold, hnew⟩ := hout.blocks
  obtain ⟨hva, hlo, hmax, -⟩ := heapPage_of_block inv (b := ⟨va, pageSize * n⟩) (by simp [hnew])
  rw [Nat.mul_div_cancel_left _ (by decide)] at hmax
  have hnot (p : ℕ) (hp : InPages va n p) : ¬s.Live p := by
    rintro (hlt | hc)
    · exact absurd (hlo.trans hp.1) (not_le.mpr hlt)
    · rw [hold] at hc
      exact (hnew ▸ inv.ordered_blocks).not_covered hp hc
  have hchunk := (hi.pages.with_heap h).allocateChunk_sat cpt hva hmax hnot
  have hdir : (s.setHeap h).ptrPageDirectory = s.ptrPageDirectory := rfl
  rw [kmallocWith]
  refine .bind_ok run_get ?_
  rw [hr]
  simp only [hins]
  refine .bind_ok (run_modify _) (.bind_ok run_get ?_)
  rw [hsva]
  refine hchunk.bind fun r t ⟨hr0, hmt, hplaces⟩ => .pure ⟨by rw [if_pos hr0],
    ⟨⟨q, hplaces.globals.heap ▸ inv⟩, hmt.congr fun p _ => ?_⟩, ⟨h, hplaces⟩, L, R, hold,
    hplaces.globals.heap ▸ hnew⟩
  rw [Live, Live, hplaces.globals.heap, hold, show (s.setHeap h).heap = h from rfl, hnew]
  simp only [covered_append, covered_cons, InPages, Interval.contains_mk]
  tauto

theorem roundUp_size {size : ℕ} (hpos : 1 ≤ size) (hmax : size ≤ kernelHeapMax - kernelHeapStart) :
    0 < roundUp size pageSize ∧
      pageSize * (roundUp size pageSize / pageSize) = roundUp size pageSize := by
  refine ⟨?_, Nat.mul_div_cancel' (roundUp_dvd _ _)⟩
  have hlt : size + pageSize ≤ 2 ^ 32 := hmax.trans (by decide) |> (Nat.add_le_add_right · _)
    |>.trans (show kernelHeapMax + pageSize ≤ 2 ^ 32 by decide)
  exact hpos.trans (le_roundUp (by decide) hlt)

variable (cpt) in
/-- A request that is not rounded to 0 is served when it fits, unless the frames run
out. Best fit must not be asked for more than it has. -/
theorem kmalloc_sat (hi : HeapInv s) {size : ℕ} (hn : 0 < roundUp size pageSize)
    (hbest : s.kHeapPlacementStrategy = .bestFit → Fits s.heap (roundUp size pageSize)) :
    Sat (fun e => e = .noFreeFrame ∧ Served s size ∧
        s.freeFrameList.length < roundUp size pageSize / pageSize) (kmalloc cpt size) s fun r t =>
      Served s size ∧ Mapped s (roundUp size pageSize / pageSize) r t ∨
        ¬Served s size ∧ r = 0 ∧ t = s := by
  have hmul : pageSize * (roundUp size pageSize / pageSize) = roundUp size pageSize :=
    Nat.mul_div_cancel' (roundUp_dvd _ _)
  set n := roundUp size pageSize / pageSize with hndef
  obtain ⟨q, inv⟩ := hi.lists
  rw [← hmul] at hn hbest
  refine .of_run (kmalloc_run_from cpt fun hbf => ?_) ?_
  · rintro ⟨-, hall⟩
    obtain ⟨b, hb, hle⟩ := (hbest hbf).2.2
    rw [← hmul] at hall
    exact absurd (hall b hb) (not_lt.mpr hle)
  rw [kmallocFrom, ← hmul]
  refine .bind_ok run_get ?_
  by_cases hff : s.kHeapPlacementStrategy = .firstFit
  · have hbf : s.kHeapPlacementStrategy ≠ .bestFit := by simp [hff]
    rw [if_pos hff]
    rcases inv.allocBlockFF_spec hn (Nat.dvd_mul_right _ _) with ⟨hfit, h, va, hout⟩ | ⟨hnot, hnone⟩
    · have hserved : Served s size := ⟨.inl hff, hmul ▸ hfit⟩
      refine .bind ((hi.kmallocWith_sat hout).weaken fun e he => ⟨he.1, hserved, he.2⟩) ?_
      rintro r t ⟨rfl, hmt⟩
      exact .pure (.inl ⟨hserved, hmt⟩)
    · have hrun : (kmallocWith cpt allocBlockFF (pageSize * n)).run s = .ok (none, s) := by
        rw [kmallocWith, run_bind_ok run_get, hnone]
        rfl
      refine .bind_ok hrun (.bind_ok run_get ?_)
      rw [if_neg hbf]
      exact .pure (.inr ⟨fun h => hnot (hmul ▸ h.2), rfl, rfl⟩)
  · rw [if_neg hff]
    refine .bind_ok run_get ?_
    by_cases hbf : s.kHeapPlacementStrategy = .bestFit
    · have hfit := hbest hbf
      have hserved : Served s size := ⟨.inr hbf, hmul ▸ hfit⟩
      obtain ⟨h, va, hout⟩ := inv.allocBlockBF_spec hfit 0 0
      rw [if_pos hbf]
      refine .bind ((hi.kmallocWith_sat (A := (allocBlockBF · · 0 0)) hout).weaken
        fun e he => ⟨he.1, hserved, he.2⟩) ?_
      rintro r t ⟨rfl, hmt⟩
      exact .pure (.inl ⟨hserved, hmt⟩)
    · rw [if_neg hbf]
      exact .pure (.inr ⟨fun h => h.1.elim hff hbf, rfl, rfl⟩)

variable (cpt) in
/-- Under first fit, or under best fit when the request fits, `kmalloc` returns
NULL and changes nothing or maps a new block. -/
theorem kmalloc_run (hi : HeapInv s) {size : ℕ} (hpos : 1 ≤ size)
    (hmax : size ≤ kernelHeapMax - kernelHeapStart)
    (hstrat : s.kHeapPlacementStrategy = .firstFit ∨ s.kHeapPlacementStrategy = .bestFit ∧
      Fits s.heap (roundUp size pageSize))
    (hfree : Fits s.heap (roundUp size pageSize) →
      roundUp size pageSize / pageSize ≤ s.freeFrameList.length) :
    (¬Fits s.heap (roundUp size pageSize) ∧ (kmalloc cpt size).run s = .ok (0, s)) ∨
      Fits s.heap (roundUp size pageSize) ∧
        ∃ h va t, (kmalloc cpt size).run s = .ok (va, t) ∧ HeapInv t ∧ SameGlobals (s.setHeap h) t ∧
        t.freeFrameList = s.freeFrameList.drop (roundUp size pageSize / pageSize) ∧
        ∃ A B, s.heap.blocks .alloc = A ++ B ∧
          t.heap.blocks .alloc = A ++ ⟨va, roundUp size pageSize⟩ :: B := by
  obtain ⟨hn, hmul⟩ := roundUp_size hpos hmax
  have hbest (h : s.kHeapPlacementStrategy = .bestFit) : Fits s.heap (roundUp size pageSize) :=
    (hstrat.resolve_left (by simp [h])).2
  have hsat : Sat (fun _ => False) _ s _ := (hi.kmalloc_sat cpt hn hbest).weaken
    fun e he => absurd he.2.2 (not_lt.mpr (hfree he.2.1.2))
  obtain ⟨r, t, hrun, ⟨hserved, hm⟩ | ⟨hnot, rfl, rfl⟩⟩ := hsat.exists_ok
  · obtain ⟨h, hplaces⟩ := hm.places
    obtain ⟨A, B, hold, hnew⟩ := hm.blocks
    exact .inr ⟨hserved.2, h, r, t, hrun, hm.inv, hplaces.globals, hplaces.freeFrameList_eq, A, B, hold,
      hmul ▸ hnew⟩
  · exact .inl ⟨fun hfit => hnot ⟨hstrat.imp_right And.left, hfit⟩, hrun⟩

/-- `kfree` of the start of a live block returns its pages; of any other address
it changes nothing. -/
theorem kfree_run (hi : HeapInv s) (va : ℕ) :
    ((∀ b ∈ s.heap.blocks .alloc, b.start ≠ roundDown va pageSize) ∧ (kfree va).run s = .ok ((), s)) ∨
      ∃ h t n A B, (kfree va).run s = .ok ((), t) ∧ HeapInv t ∧ SameGlobals (s.setHeap h) t ∧
        s.heap.blocks .alloc = A ++ ⟨roundDown va pageSize, pageSize * n⟩ :: B ∧
        t.heap.blocks .alloc = A ++ B ∧
        t.freeFrameList = ((List.range n).map fun i =>
          frameNumber (s.kernelPte (roundDown va pageSize + pageSize * i))).reverse
          ++ s.freeFrameList ∧
        ∀ p, HeapPage p → ¬InPages (roundDown va pageSize) n p → t.kernelPte p = s.kernelPte p := by
  obtain ⟨q, inv⟩ := hi.lists
  set sva := roundDown va pageSize
  rcases inv.findBlock_spec sva with ⟨b, m, A, B, h, hfind, hsize, hins, ⟨q', inv'⟩, hold, hnew⟩ | ⟨hne, hfind⟩
  · obtain ⟨hva, hlo, hmax, hlen⟩ := heapPage_of_block inv (b := ⟨sva, m⟩) (by simp [hold])
    obtain ⟨n, rfl⟩ : ∃ n, m = pageSize * n := ⟨_, hlen⟩
    rw [Nat.mul_div_cancel_left _ (by decide)] at hmax
    have hin (p : ℕ) (hp : InPages sva n p) : s.Live p := by
      refine .inr ⟨⟨sva, pageSize * n⟩, by simp [hold], hp⟩
    obtain ⟨t, hrun, hmt, hst, hfr, hpt⟩ :=
      (hi.pages.with_heap (s.heap.remove .alloc b)).kfreePages_run hva hmax hin
    refine .inr ⟨h, t.setHeap h, n, A, B, ?_, ⟨⟨q', inv'⟩, (hmt.with_heap h).congr fun p hp => ?_⟩,
      hst.setHeap, hold, hnew, hfr, hpt⟩
    · have hpages : numOfPages sva (u32 (sva + pageSize * n)) = n := by
        have hlt : sva + pageSize * n < 2 ^ 32 := hmax.trans_lt (by decide)
        rw [u32_of_lt hlt, numOfPages, Nat.add_sub_cancel_left, Nat.mul_div_cancel_left _ (by decide)]
      have hsize' : (s.setHeap (s.heap.remove .alloc b)).heap.size b = pageSize * n := hsize
      have hins' : insertSortedWithMergeFreeList t.heap b = some h := by rw [hst.heap]; exact hins
      rw [kfree, run_bind_ok run_get, hfind]
      simp only
      rw [run_bind_ok (run_modify _), run_bind_ok run_get, hsize', hpages, run_bind_ok hrun,
        run_bind_ok run_get, hins']
      rfl
    · have hdis := (hold ▸ inv.ordered_blocks).not_covered (a := p)
      simp only [Interval.contains_mk, covered_append] at hdis
      rw [Live, Live, hold, show (t.setHeap h).heap = h from rfl, hnew]
      simp only [covered_append, covered_cons, InPages, Interval.contains_mk]
      have hlow : sva ≤ p → ¬p < kernelHeap.lo := fun hle => not_lt.mpr (hlo.trans hle)
      tauto
  · refine .inl ⟨hne, ?_⟩
    rw [kfree, run_bind_ok run_get, hfind]
    rfl

end HeapInv

end FosKernel.Machine
