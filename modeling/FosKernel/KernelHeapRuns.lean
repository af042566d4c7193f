import FosKernel.Boot
import FosKernel.KernelHeap

/-!
# Runs of the kernel heap

Whatever calls of `kmalloc` and `kfree` follow the initialization, the block
lists, the page tables and the frame records agree.
-/

namespace FosKernel.Machine
open FailingPrograms PageEntries DynamicAllocator IntervalLists

variable {s t s₀ s₁ : Machine} {p n : ℕ}

/-- What `initialize_dyn_block_system` finds: the kernel's tables for the heap
exist and map nothing, and there are frames for the node array. -/
structure HeapBoot (s : Machine) : Prop where
  tables : KernelTables s heapTables
  entries : ∀ p, HeapPage p → s.kernelPte p = 0
  nodup : s.freeFrameList.Nodup
  free : ∀ f ∈ s.freeFrameList, f < s.numberOfFrames ∧ (s.framesInfo f).isBuffered = false
  enough : kernelNodesSize / pageSize ≤ s.freeFrameList.length
  strategy : s.kHeapPlacementStrategy = .firstFit ∨ s.kHeapPlacementStrategy = .bestFit

theorem HeapBoot.initialize_run (hb : HeapBoot s) :
    ∃ t h, initializeDynBlockSystem.run s = .ok ((), t.setHeap h) ∧ HeapInv (t.setHeap h) ∧
      h.blocks .alloc = [] ∧ Places s kernelHeapStart (kernelNodesSize / pageSize) t := by
  have hm : HeapMap s fun _ => False :=
    ⟨hb.tables, fun _ _ h => h.elim, fun p hp _ => hb.entries p hp, hb.nodup, hb.free⟩
  have hstart : HeapPage kernelHeapStart := ⟨le_rfl, by decide, by decide⟩
  have hsize : kernelNodesSize = pageSize * (kernelNodesSize / pageSize) := by decide
  obtain ⟨t, hrun, hmt, hplaces⟩ := hm.allocateChunk_run createPageTable hstart
    (n := kernelNodesSize / pageSize) (by decide) (fun _ _ => id) hb.enough
  obtain ⟨h, q, hinit, inv, -, halloc⟩ := initialize_inv kernelHeap t.heap
  rw [← hsize] at hrun
  refine ⟨t, h, ?_, ⟨⟨q, inv⟩, (hmt.with_heap h).congr fun p hp => ?_⟩, halloc, hplaces⟩
  · rw [Machine.initializeDynBlockSystem, run_bind_ok run_get, run_bind_ok hrun,
      run_bind_ok run_get, hinit]
    rfl
  · have hlo : kernelHeap.lo = kernelHeapStart + pageSize * (kernelNodesSize / pageSize) := by decide
    rw [Live, show (t.setHeap h).heap = h from rfl, halloc, hlo]
    simp [InPages, hp.start]

inductive HeapOp
  | kmalloc (size : ℕ)
  | kfree (va : ℕ)

def HeapOp.run : HeapOp → Kernel ℕ
  | .kmalloc size => Machine.kmalloc createPageTable size
  | .kfree va => do
    Machine.kfree va
    return 0

/-- A request is positive and no larger than the heap, fits if best fit is to
serve it, and finds enough frames if it fits. -/
def HeapOp.Legal (s : Machine) : HeapOp → Prop
  | .kmalloc size => 1 ≤ size ∧ size ≤ kernelHeapMax - kernelHeapStart ∧
      (s.kHeapPlacementStrategy = .bestFit → Fits s.heap (roundUp size pageSize)) ∧
      (Fits s.heap (roundUp size pageSize) →
        roundUp size pageSize / pageSize ≤ s.freeFrameList.length)
  | .kfree _ => True

/-- The states that legal calls reach from `s₁`. -/
inductive HeapRun (s₁ : Machine) : Machine → Prop
  | init : HeapRun s₁ s₁
  | step {s t : Machine} {r : ℕ} (op : HeapOp) : HeapRun s₁ s → op.Legal s →
    op.run.run s = .ok (r, t) → HeapRun s₁ t

/-- What the three structures say about each other, against the state `s₁` after
initialization. -/
structure HeapAgrees (s₁ s : Machine) : Prop where
  mapped : ∀ b ∈ s.heap.blocks .alloc, ∀ p, pageSize ∣ p → b.Contains p →
    HasPerm (s.kernelPte p) (permPresent ||| permWriteable) ∧ ¬HasPerm (s.kernelPte p) permUser ∧
    (s.framesInfo (frameNumber (s.kernelPte p))).references = 1 ∧
    (s.framesInfo (frameNumber (s.kernelPte p))).va = p ∧
    frameNumber (s.kernelPte p) ∉ s.freeFrameList
  distinct : ∀ p q, pageSize ∣ p → pageSize ∣ q → Covered (s.heap.blocks .alloc) p →
    Covered (s.heap.blocks .alloc) q → p ≠ q →
    frameNumber (s.kernelPte p) ≠ frameNumber (s.kernelPte q)
  unmapped : ∀ p, pageSize ∣ p → kernelHeap.lo ≤ p → p < kernelHeapMax →
    ¬Covered (s.heap.blocks .alloc) p → s.kernelPte p = 0
  count : s.freeFrameList.length + total (s.heap.blocks .alloc) / pageSize =
    s₁.freeFrameList.length

theorem heapPage_of_covered (hi : HeapInv s) (hd : pageSize ∣ p)
    (hc : Covered (s.heap.blocks .alloc) p) : HeapPage p := by
  obtain ⟨q, inv⟩ := hi.lists
  obtain ⟨b, hb, hp⟩ := hc
  obtain ⟨hlo, hhi, -⟩ := inv.of_mem_blocks hb
  have hstart : kernelHeapStart ≤ kernelHeap.lo := by decide
  exact ⟨hstart.trans (hlo.trans hp.1), hp.2.trans_le hhi, hd⟩

theorem HeapInv.exists_mapsPage (hi : HeapInv s) (hd : pageSize ∣ p)
    (hc : Covered (s.heap.blocks .alloc) p) : ∃ f, MapsPage s p f :=
  hi.pages.mapped p (heapPage_of_covered hi hd hc) (.inr hc)

theorem HeapInv.agrees (hi : HeapInv s) (hcount : s.freeFrameList.length +
      total (s.heap.blocks .alloc) / pageSize = s₁.freeFrameList.length) :
    HeapAgrees s₁ s where
  mapped b hb p hd hp := by
    have hc : Covered (s.heap.blocks .alloc) p := ⟨b, hb, hp⟩
    obtain ⟨f, hf⟩ := hi.exists_mapsPage hd hc
    have hbit (k : ℕ) (hk : k < 12) : (s.kernelPte p).testBit k =
        (permWriteable ||| permPresent).testBit k := by
      rw [hf.entry]
      exact testBit_constructEntry hk
    rw [hasPerm_or, hasPerm_present, hasPerm_writeable, hasPerm_user, hbit 0 (by decide),
      hbit 1 (by decide), hbit 2 (by decide), hf.frame_eq, hf.info]
    exact ⟨by decide, by decide, rfl, rfl, hf.not_free⟩
  distinct p q hdp hdq hp hq hne he := by
    obtain ⟨f, hf⟩ := hi.exists_mapsPage hdp hp
    obtain ⟨g, hg⟩ := hi.exists_mapsPage hdq hq
    rw [hf.frame_eq, hg.frame_eq] at he
    subst he
    exact hne (FrameInfo.mk.inj (hf.info.symm.trans hg.info)).2.1
  unmapped p hd hlo hhi hc := by
    have hstart : kernelHeapStart ≤ kernelHeap.lo := by decide
    refine hi.pages.unmapped p ⟨hstart.trans hlo, hhi, hd⟩ ?_
    rintro (h | h)
    · exact absurd hlo (not_le.mpr h)
    · exact hc h
  count := hcount

private theorem total_insert {A B : List Interval} {va : ℕ} :
    total (A ++ ⟨va, pageSize * n⟩ :: B) / pageSize = total (A ++ B) / pageSize + n := by
  simp only [total_append, total_cons]
  rw [show total A + (pageSize * n + total B) = total A + total B + pageSize * n by omega,
    Nat.add_mul_div_left _ _ (by decide)]

theorem HeapRun.inv (hs : HeapRun s₁ s) (hi : HeapInv s₁) (hnil : s₁.heap.blocks .alloc = [])
    (hstrat : s₁.kHeapPlacementStrategy = .firstFit ∨ s₁.kHeapPlacementStrategy = .bestFit) :
    HeapInv s ∧ (s.kHeapPlacementStrategy = .firstFit ∨ s.kHeapPlacementStrategy = .bestFit) ∧
      s.freeFrameList.length + total (s.heap.blocks .alloc) / pageSize = s₁.freeFrameList.length := by
  induction hs with
  | init => exact ⟨hi, hstrat, by simp [hnil]⟩
  | @step s t r op _ hop hrun ih =>
    obtain ⟨his, hss, hcount⟩ := ih
    cases op with
    | kmalloc size =>
      obtain ⟨hpos, hmax, hfit, henough⟩ := hop
      have hst' : s.kHeapPlacementStrategy = .firstFit ∨ s.kHeapPlacementStrategy = .bestFit ∧
          Fits s.heap (roundUp size pageSize) := hss.imp_right fun h => ⟨h, hfit h⟩
      rcases his.kmalloc_run createPageTable hpos hmax hst' henough with
        ⟨-, hk⟩ | ⟨hfits, h, va, u, hk, hiu, hsu, hfr, A, B, hold, hnew⟩
      · obtain ⟨-, rfl⟩ := Prod.mk.inj (Except.ok.inj (hk.symm.trans hrun))
        exact ⟨his, hss, hcount⟩
      · obtain ⟨-, rfl⟩ := Prod.mk.inj (Except.ok.inj (hk.symm.trans hrun))
        obtain ⟨-, hmul⟩ := HeapInv.roundUp_size hpos hmax
        have hframes := henough hfits
        refine ⟨hiu, hsu.strategy ▸ hss, ?_⟩
        rw [hnew, ← hmul, total_insert, hfr, List.length_drop, ← hold]
        omega
    | kfree va =>
      have hk' (u : Machine) (hk : (kfree va).run s = .ok ((), u)) : t = u := by
        rw [HeapOp.run, run_bind_ok hk, run_pure] at hrun
        exact (Prod.mk.inj (Except.ok.inj hrun)).2.symm
      rcases his.kfree_run va with ⟨-, hk⟩ | ⟨h, u, n, A, B, hk, hiu, hsu, hold, hnew, hfr, -⟩
      · obtain rfl := hk' _ hk
        exact ⟨his, hss, hcount⟩
      · obtain rfl := hk' _ hk
        refine ⟨hiu, hsu.strategy ▸ hss, ?_⟩
        rw [hold, total_insert] at hcount
        rw [hnew, hfr]
        simp only [List.length_append, List.length_reverse, List.length_map, List.length_range]
        omega

theorem HeapInv.kfree_block (hi : HeapInv s) {va : ℕ} {A B : List Interval}
    (hblocks : s.heap.blocks .alloc = A ++ ⟨roundDown va pageSize, n⟩ :: B) :
    ∃ t, (kfree va).run s = .ok ((), t) ∧ t.heap.blocks .alloc = A ++ B ∧
      t.freeFrameList = ((List.range (n / pageSize)).map fun i =>
        frameNumber (s.kernelPte (roundDown va pageSize + pageSize * i))).reverse
        ++ s.freeFrameList ∧
      ∀ p, HeapPage p → t.kernelPte p =
        if roundDown va pageSize ≤ p ∧ p < roundDown va pageSize + n then 0 else s.kernelPte p := by
  obtain ⟨q, inv⟩ := hi.lists
  rcases hi.kfree_run va with ⟨hne, -⟩ | ⟨h, t, m, A', B', hk, hit, -, hold, hnew, hfr, hpt⟩
  · exact absurd rfl (hne ⟨roundDown va pageSize, n⟩ (by simp [hblocks]))
  · obtain ⟨rfl, hn, rfl⟩ := inv.ordered_blocks.append_cons_inj hblocks hold rfl
    obtain rfl : n = pageSize * m := congrArg IntervalLists.Interval.length hn
    rw [Nat.mul_div_cancel_left _ (by decide)]
    refine ⟨t, hk, hnew, hfr, fun p hp => ?_⟩
    split
    · rename_i hin
      refine hit.pages.unmapped p hp ?_
      have hdis := (hblocks ▸ inv.ordered_blocks).not_covered hin
      rintro (hlt | hc)
      · have := (heapPage_of_block inv (b := ⟨roundDown va pageSize, pageSize * m⟩)
          (by simp [hblocks])).2.1
        exact absurd (this.trans hin.1) (not_le.mpr hlt)
      · exact hdis (hnew ▸ hc)
    · rename_i hin
      exact hpt p hp hin

/-- After initialization the blocks, the kernel's page tables and the frame records
agree in every state that calls of `kmalloc` and `kfree` reach. A call that finds
frames returns; freeing a live block returns the frames of its pages and touches no
other page, and freeing anything else changes nothing. -/
theorem kernelHeap_agrees (hb : HeapBoot s₀) :
    (∃ s₁, initializeDynBlockSystem.run s₀ = .ok ((), s₁)) ∧
    ∀ s₁ s, initializeDynBlockSystem.run s₀ = .ok ((), s₁) → HeapRun s₁ s →
      HeapAgrees s₁ s ∧
      (∀ op : HeapOp, op.Legal s → ∃ r t, op.run.run s = .ok (r, t)) ∧
      (∀ va A n B, s.heap.blocks .alloc = A ++ ⟨roundDown va pageSize, n⟩ :: B →
        ∃ t, (kfree va).run s = .ok ((), t) ∧ t.heap.blocks .alloc = A ++ B ∧
          t.freeFrameList = ((List.range (n / pageSize)).map fun i =>
            frameNumber (s.kernelPte (roundDown va pageSize + pageSize * i))).reverse
            ++ s.freeFrameList ∧
          ∀ p, HeapPage p → t.kernelPte p =
            if roundDown va pageSize ≤ p ∧ p < roundDown va pageSize + n then 0
            else s.kernelPte p) ∧
      ∀ va, (∀ b ∈ s.heap.blocks .alloc, b.start ≠ roundDown va pageSize) →
        (kfree va).run s = .ok ((), s) := by
  obtain ⟨u, h, hrun₁, hi₁, hnil, hplaces⟩ := hb.initialize_run
  have hstrat : u.kHeapPlacementStrategy = s₀.kHeapPlacementStrategy := hplaces.globals.strategy
  refine ⟨⟨_, hrun₁⟩, fun s₁ s hinit hs => ?_⟩
  obtain rfl : u.setHeap h = s₁ := (Prod.mk.inj (Except.ok.inj (hrun₁.symm.trans hinit))).2
  obtain ⟨hi, hss, hcount⟩ := hs.inv hi₁ hnil (hstrat.symm ▸ hb.strategy)
  refine ⟨hi.agrees hcount, fun op hop => ?_, fun va A n B hblocks => ?_, fun va hne => ?_⟩
  · cases op with
    | kmalloc size =>
      obtain ⟨hpos, hmax, hfit, henough⟩ := hop
      rcases hi.kmalloc_run createPageTable hpos hmax
        (hss.imp_right fun h => ⟨h, hfit h⟩) henough with ⟨-, hk⟩ | ⟨-, h, va, t, hk, -⟩
      · exact ⟨_, _, hk⟩
      · exact ⟨_, _, hk⟩
    | kfree va =>
      rcases hi.kfree_run va with ⟨-, hk⟩ | ⟨h, t, n, A, B, hk, -⟩
      · exact ⟨0, s, by rw [HeapOp.run, run_bind_ok hk, run_pure]⟩
      · exact ⟨0, t, by rw [HeapOp.run, run_bind_ok hk, run_pure]⟩
  · exact hi.kfree_block hblocks
  · rcases hi.kfree_run va with ⟨-, hk⟩ | ⟨h, t, m, A', B', hk, hit, -, hold, -⟩
    · exact hk
    · exact absurd rfl (hne ⟨roundDown va pageSize, pageSize * m⟩ (by simp [hold]))

theorem Paged.heapBoot (hp : Paged s t) (hb : Boot s)
    (henough : kernelNodesSize / pageSize ≤ t.freeFrameList.length) : HeapBoot t where
  tables := (hp.tables hb).mono heapTables_subset
  entries p hpage := by
    rw [hp.kernelPte_eq hb (heapTables_subset hpage.index), hb.entries p hpage]
  nodup := hp.nodup
  free f hf := by
    rw [hp.mem_free] at hf
    have hend := hb.extended.2
    have hext := hb.extended.1
    have hio : physIOMem / pageSize = 160 := by decide
    have hext' : physExtendedMem / pageSize = 256 := by decide
    rw [Managed, hio] at hf
    refine ⟨?_, hp.isBuffered f⟩
    rw [show t.numberOfFrames = s.numberOfFrames from hp.globals.numberOfFrames]
    omega
  enough := henough
  strategy := by
    rw [show t.kHeapPlacementStrategy = s.kHeapPlacementStrategy from hp.globals.strategy]
    exact hb.strategy

theorem Paged.frames_bootMachine (hp : Paged bootMachine t) : 1000 ≤ t.freeFrameList.length := by
  have hsub : List.range' 2048 1000 ⊆ t.freeFrameList := fun f hf => by
    have hend : bootMachine.endOfBoot = 2048 := by decide
    have hnum : bootMachine.numberOfFrames = 65536 := rfl
    rw [List.mem_range'_1] at hf
    rw [hp.mem_free, Managed, hend, hnum]
    omega
  have hnd : (List.range' 2048 1000).Nodup := List.nodup_range'
  simpa using (hnd.subperm hsub).length_le

theorem exists_heapBoot : ∃ s₀ s₁, initializePaging.run bootMachine = .ok ((), s₀) ∧ HeapBoot s₀ ∧
    initializeDynBlockSystem.run s₀ = .ok ((), s₁) ∧ HeapInv s₁ ∧ s₁.heap.blocks .alloc = [] ∧
    s₁.kHeapPlacementStrategy = .firstFit ∧ 800 ≤ s₁.freeFrameList.length := by
  obtain ⟨s₀, hpaging, hp⟩ := bootMachine_boot.initializePaging_run
  have hlen := hp.frames_bootMachine
  have hnodes : kernelNodesSize / pageSize = 160 := by decide
  have hb := hp.heapBoot bootMachine_boot (by omega)
  obtain ⟨u, h, hinit, hi, hnil, hplaces⟩ := hb.initialize_run
  refine ⟨s₀, u.setHeap h, hpaging, hb, hinit, hi, hnil,
    (hplaces.globals.strategy).trans hp.globals.strategy, ?_⟩
  rw [show (u.setHeap h).freeFrameList = _ from hplaces.freeFrameList_eq, List.length_drop, hnodes]
  omega

theorem kernelHeap_agrees_bootMachine : ∃ s₀ s₁ s va, initializePaging.run bootMachine = .ok ((), s₀) ∧
    initializeDynBlockSystem.run s₀ = .ok ((), s₁) ∧
    (HeapOp.kmalloc 5000).run.run s₁ = .ok (va, s) ∧ HeapAgrees s₁ s := by
  obtain ⟨s₀, s₁, hpaging, hb, hinit, -, -, hff, hlen⟩ := exists_heapBoot
  have hop : (HeapOp.kmalloc 5000).Legal s₁ := by
    refine ⟨by decide, by decide, fun h => ?_, fun _ => ?_⟩
    · rw [hff] at h
      cases h
    · rw [show roundUp 5000 pageSize / pageSize = 2 by decide]
      omega
  obtain ⟨va, s, hs⟩ := ((kernelHeap_agrees hb).2 s₁ s₁ hinit .init).2.1 _ hop
  exact ⟨s₀, s₁, s, va, hpaging, hinit, hs,
    ((kernelHeap_agrees hb).2 s₁ s hinit (.step _ .init hop hs)).1⟩

end FosKernel.Machine
