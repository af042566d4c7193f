import FosKernel.KernelHeapRuns
import FosKernel.UserHeap

/-!
# Requests of any size

`ROUNDUP` wraps, so that requests within a page of `2 ^ 32` are rounded to 0 like
the empty request, and a block of no bytes is handed out for them. All other
requests get a range of their own, in the kernel as in user programs.
-/

namespace FosKernel.HeapRequests
open FailingPrograms PageEntries DynamicAllocator IntervalLists

def rounded (b : Interval) : Interval := ⟨b.start, roundUp b.length pageSize⟩

@[simp] theorem rounded_start (b : Interval) : (rounded b).start = b.start := by
  simp only [rounded]

@[simp] theorem rounded_length (b : Interval) : (rounded b).length = roundUp b.length pageSize := by
  simp only [rounded]

def RoundsUp (size : ℕ) : Prop := 0 < size ∧ size + pageSize ≤ 2 ^ 32

/-- Every range that was returned has a block of its own. -/
structure Holds (blocks returned : List Interval) : Prop where
  block : ∀ b ∈ returned, rounded b ∈ blocks ∧ b.length ≤ (rounded b).length
  distinct : returned.Pairwise fun b c => b.start ≠ c.start

variable {A B returned : List Interval} {size va n : ℕ}

theorem RoundsUp.le (h : RoundsUp size) : size ≤ roundUp size pageSize := le_roundUp (by decide) h.2

theorem RoundsUp.pos (h : RoundsUp size) : 0 < roundUp size pageSize := h.1.trans_le h.le

namespace Holds

theorem nil (blocks : List Interval) : Holds blocks [] := ⟨by simp, .nil⟩

theorem insert (h : Holds (A ++ B) returned) (hsize : RoundsUp size)
    (hord : Ordered (A ++ ⟨va, roundUp size pageSize⟩ :: B)) :
    Holds (A ++ ⟨va, roundUp size pageSize⟩ :: B) (⟨va, size⟩ :: returned) := by
  refine ⟨fun b hb => ?_, List.pairwise_cons.mpr ⟨fun b hb he => ?_, h.distinct⟩⟩
  · rcases List.mem_cons.mp hb with rfl | hb
    · exact ⟨by simp [rounded], hsize.le⟩
    · obtain ⟨hmem, hle⟩ := h.block b hb
      refine ⟨?_, hle⟩
      rw [List.mem_append] at hmem
      rw [List.mem_append, List.mem_cons]
      exact hmem.imp_right .inr
  · have hva : (⟨va, roundUp size pageSize⟩ : Interval).Contains va :=
      ⟨le_rfl, Nat.lt_add_of_pos_right hsize.pos⟩
    have hpos : 0 < (rounded b).length := hord.pos _ (by
      have := (h.block b hb).1
      rw [List.mem_append] at this
      rw [List.mem_append, List.mem_cons]
      exact this.imp_right .inr)
    have hb' : (rounded b).Contains va := by
      have hstart : (rounded b).start = va := (rounded_start b).trans he.symm
      exact ⟨hstart.le, hstart ▸ Nat.lt_add_of_pos_right hpos⟩
    exact hord.not_covered hva ⟨rounded b, (h.block b hb).1, hb'⟩

theorem erase (h : Holds (A ++ ⟨va, n⟩ :: B) returned) :
    Holds (A ++ B) (returned.filter (·.start ≠ va)) := by
  refine ⟨fun b hb => ?_, h.distinct.filter _⟩
  obtain ⟨hb, hne⟩ := List.mem_filter.mp hb
  obtain ⟨hmem, hle⟩ := h.block b hb
  refine ⟨?_, hle⟩
  rw [List.mem_append, List.mem_cons] at hmem
  rw [List.mem_append]
  rcases hmem with hA | he | hB
  · exact .inl hA
  · have hstart : b.start = va := by rw [← rounded_start, he]
    exact absurd hstart (by simpa using hne)
  · exact .inr hB

theorem filter {blocks : List Interval} (h : Holds blocks returned) (p : Interval → Bool) :
    Holds blocks (returned.filter p) :=
  ⟨fun b hb => h.block b (List.mem_filter.mp hb).1, h.distinct.filter p⟩

theorem apart {blocks : List Interval} (h : Holds blocks returned) (hord : Ordered blocks) :
    returned.Pairwise fun b c => b.start ≠ c.start ∧ ∀ a, b.Contains a → ¬c.Contains a := by
  refine h.distinct.imp_of_mem fun {b c} hb hc hne => ⟨hne, fun a hba hca => ?_⟩
  obtain ⟨hbm, hble⟩ := h.block b hb
  obtain ⟨hcm, hcle⟩ := h.block c hc
  have hor := hord.stop_le_or hbm hcm (by rwa [rounded_start, rounded_start])
  simp only [Interval.stop, Interval.Contains, rounded_start] at hor hba hca
  omega

end Holds

section Kernel
open Machine

/-- The states and returned ranges that calls reach from `s₁`, each request of which
is `ok`. -/
inductive KernelRun (ok : Machine → ℕ → Prop) (s₁ : Machine) : List Interval → Machine → Prop
  | init : KernelRun ok s₁ [] s₁
  | kmalloc {returned : List Interval} {s t : Machine} {size va : ℕ} : KernelRun ok s₁ returned s →
    size < 2 ^ 32 → ok s size → (Machine.kmalloc createPageTable size).run s = .ok (va, t) →
    KernelRun ok s₁ (if va = 0 then returned else ⟨va, size⟩ :: returned) t
  | kfree {returned : List Interval} {s t : Machine} {va : ℕ} : KernelRun ok s₁ returned s →
    (Machine.kfree va).run s = .ok ((), t) →
    KernelRun ok s₁ (returned.filter (·.start ≠ roundDown va pageSize)) t
  | strategy {returned : List Interval} {s : Machine} (p : PlacementStrategy) :
    KernelRun ok s₁ returned s → KernelRun ok s₁ returned { s with kHeapPlacementStrategy := p }

/-- The ranges are mapped parts of the kernel heap, apart from each other, and each
can be freed alone. -/
structure Sound (s : Machine) (returned : List Interval) : Prop where
  inside : ∀ b ∈ returned, kernelHeapStart ≤ b.start ∧ b.stop ≤ kernelHeapMax
  mapped : ∀ b ∈ returned, ∀ a, b.Contains a →
    HasPerm (s.kernelPte (roundDown a pageSize)) permPresent
  apart : returned.Pairwise fun b c => b.start ≠ c.start ∧ ∀ a, b.Contains a → ¬c.Contains a
  freed : ∀ b ∈ returned, ∃ t A B, (Machine.kfree b.start).run s = .ok ((), t) ∧
    s.heap.blocks .alloc = A ++ rounded b :: B ∧ t.heap.blocks .alloc = A ++ B ∧
    ∀ p, HeapPage p → t.kernelPte p =
      if b.start ≤ p ∧ p < b.start + (rounded b).length then 0 else s.kernelPte p

/-- The request is not rounded to 0, and best fit can serve it. -/
def Servable (s : Machine) (size : ℕ) : Prop :=
  RoundsUp size ∧ (s.kHeapPlacementStrategy = .bestFit → Fits s.heap (roundUp size pageSize))

variable {s s₀ s₁ t : Machine}

theorem heapInv_strategy (hi : HeapInv s) (p : PlacementStrategy) :
    HeapInv { s with kHeapPlacementStrategy := p } where
  lists := hi.lists
  pages := by
    have hm := hi.pages
    exact ⟨hm.tables.congr rfl rfl rfl rfl,
      fun p hp hM => (hm.mapped p hp hM).imp fun _ hf => ⟨hf.entry, hf.info, hf.lt, hf.not_free⟩,
      hm.unmapped, hm.nodup, hm.free⟩

theorem KernelRun.inv (hi : HeapInv s₁) (hrun : KernelRun Servable s₁ returned s) :
    HeapInv s ∧ Holds (s.heap.blocks .alloc) returned := by
  induction hrun with
  | init => exact ⟨hi, .nil _⟩
  | @kmalloc returned s t size va _ _ hok hcall ih =>
    obtain ⟨his, hholds⟩ := ih
    rcases (his.kmalloc_sat _ hok.1.pos hok.2).ok hcall with ⟨-, hm⟩ | ⟨-, rfl, rfl⟩
    · obtain ⟨A, B, hold, hnew⟩ := hm.blocks
      obtain ⟨q, inv⟩ := hm.inv.lists
      rw [Nat.mul_div_cancel' (roundUp_dvd _ _)] at hnew
      rw [if_neg hm.ne_zero, hnew]
      exact ⟨hm.inv, (hold ▸ hholds).insert hok.1 (hnew ▸ inv.ordered_blocks)⟩
    · exact ⟨his, hholds⟩
  | @kfree returned s t va _ hcall ih =>
    obtain ⟨his, hholds⟩ := ih
    rcases his.kfree_run va with ⟨-, hk⟩ | ⟨h, u, n, A, B, hk, hiu, -, hold, hnew, -⟩
    · obtain rfl := (Prod.mk.inj (Except.ok.inj (hk.symm.trans hcall))).2
      exact ⟨his, hholds.filter _⟩
    · obtain rfl := (Prod.mk.inj (Except.ok.inj (hk.symm.trans hcall))).2
      exact ⟨hiu, hnew ▸ (hold ▸ hholds).erase⟩
  | strategy p _ ih => exact ⟨heapInv_strategy ih.1 p, ih.2⟩

theorem sound_of_holds (hi : HeapInv s) (h : Holds (s.heap.blocks .alloc) returned) :
    Sound s returned := by
  obtain ⟨q, inv⟩ := hi.lists
  have hstart : kernelHeapStart ≤ kernelHeap.lo := by decide
  refine ⟨fun b hb => ?_, fun b hb a ha => ?_, h.apart inv.ordered_blocks, fun b hb => ?_⟩
  · obtain ⟨hmem, hle⟩ := h.block b hb
    obtain ⟨hlo, hhi, -⟩ := inv.of_mem_blocks hmem
    rw [Interval.stop, rounded_start] at hhi
    rw [rounded_start] at hlo
    exact ⟨hstart.trans hlo, (Nat.add_le_add_left hle _).trans hhi⟩
  · obtain ⟨hmem, hle⟩ := h.block b hb
    obtain ⟨-, -, hal, -⟩ := inv.of_mem_blocks hmem
    have hcov : Covered (s.heap.blocks .alloc) (roundDown a pageSize) := by
      have hle' : b.start ≤ roundDown a pageSize := le_roundDown (rounded_start b ▸ hal.1) ha.1
      have hlt := (roundDown_le a pageSize).trans_lt ha.2
      refine ⟨rounded b, hmem, (rounded_start b).symm ▸ hle', ?_⟩
      rw [Interval.stop, rounded_start]
      exact hlt.trans_le (Nat.add_le_add_left hle _)
    obtain ⟨f, hf⟩ := hi.exists_mapsPage (roundDown_dvd _ _) hcov
    rw [hf.entry]
    exact hasPerm_constructEntry (k := 0) (by decide) (by decide)
  · obtain ⟨hmem, -⟩ := h.block b hb
    obtain ⟨-, -, hal, -⟩ := inv.of_mem_blocks hmem
    obtain ⟨A, B, hblocks⟩ := List.append_of_mem hmem
    have hva : roundDown b.start pageSize = b.start := roundDown_of_dvd (rounded_start b ▸ hal.1)
    obtain ⟨t, hk, hnew, -, hpte⟩ := hi.kfree_block (A := A) (B := B)
      (show s.heap.blocks .alloc = A ++ ⟨roundDown b.start pageSize, (rounded b).length⟩ :: B by
        rw [hva]; exact hblocks)
    rw [hva] at hpte
    exact ⟨t, A, B, hk, hblocks, hnew, hpte⟩

theorem free_of_alloc_nil (hi : HeapInv s) (hnil : s.heap.blocks .alloc = []) :
    s.heap.blocks .free = [⟨kernelHeap.lo, kernelHeap.hi - kernelHeap.lo⟩] := by
  obtain ⟨q, inv⟩ := hi.lists
  have hgaps := inv.parts.free_eq_gaps
  rwa [← inv.blocks_eq, ← inv.blocks_eq, hnil, gaps, if_pos (by decide)] at hgaps

theorem kmalloc_zero_run (hi : HeapInv s) (hnil : s.heap.blocks .alloc = [])
    (hff : s.kHeapPlacementStrategy = .firstFit) (hsize : roundUp size pageSize = 0) :
    ∃ p t, (Machine.kmalloc createPageTable size).run s = .ok (p, t) ∧ 0 < p := by
  obtain ⟨q, inv⟩ := hi.lists
  have halloc : q .alloc = [] := by simpa [inv.blocks_eq] using hnil
  have hfree : (⟨kernelHeap.lo, kernelHeap.hi - kernelHeap.lo⟩ : Interval) ∈ s.heap.blocks .free := by
    rw [free_of_alloc_nil hi hnil]
    exact List.mem_singleton_self _
  rw [inv.blocks_eq] at hfree
  obtain ⟨b, hb, hblock⟩ := List.mem_map.mp hfree
  have hav : q .available ≠ [] := inv.available_ne_nil (n := pageSize) (by decide) dvd_rfl hb (by
    rw [show s.heap.size b = kernelHeap.hi - kernelHeap.lo from congrArg IntervalLists.Interval.length hblock]
    decide)
  obtain ⟨d, q₁, r, hr, hal⟩ := allocBlockFF_some inv.rep (inv.length_le _)
    (fun x hx => (inv.word (.inl hx)).le) (n := 0) (fun _ => hav) ⟨b, hb, Nat.zero_le _⟩
  cases hal with
  | @whole L R _ t hq hzero _ =>
    have hpos := inv.size_pos (n := r) (.inl (by simp [hq]))
    omega
  | @carved L R M b' m d hq _ _ hrep _ hm _ _ =>
    have hmem : b' ∈ q .free := by simp [hq]
    have hsva : d.sva r = s.heap.sva b' := congrArg Interval.start hm
    have hlo : kernelHeap.lo ≤ d.sva r := hsva ▸ (inv.bounds (.inl hmem)).1
    have hhi : d.sva r + pageSize * 0 ≤ kernelHeapMax := by
      have hstop : s.heap.sva b' + s.heap.size b' ≤ kernelHeap.hi := (inv.bounds (.inl hmem)).2
      have hword : kernelHeap.hi = kernelHeapMax := rfl
      omega
    have hpage : HeapPage (d.sva r) := by
      have hsize : 0 < s.heap.size b' := inv.size_pos (.inl hmem)
      have hstop : s.heap.sva b' + s.heap.size b' ≤ kernelHeap.hi := (inv.bounds (.inl hmem)).2
      have hword : kernelHeap.hi = kernelHeapMax := rfl
      have hstart : kernelHeapStart ≤ kernelHeap.lo := by decide
      exact ⟨hstart.trans hlo, by omega, hsva ▸ (inv.pages b' (.inl hmem)).1⟩
    have hins : insertSortedAllocList d r = some (d.insertHead .alloc r) := by
      have hfirst : d.first .alloc = none := by
        rw [first_eq hrep, Function.update_of_ne (by simp), halloc]
        rfl
      simp only [insertSortedAllocList, hfirst]
    obtain ⟨t, hchunk, -⟩ := (hi.pages.with_heap (d.insertHead .alloc r)).allocateChunk_run
      createPageTable (n := 0) hpage hhi (fun p hp => by
        simp only [InPages] at hp
        omega) (Nat.zero_le _)
    refine ⟨d.sva r, t, ?_, (show 0 < kernelHeap.lo by decide).trans_le hlo⟩
    have hwith : (kmallocWith createPageTable allocBlockFF 0).run s = .ok (some (d.sva r), t) := by
      rw [kmallocWith, run_bind_ok run_get, hr]
      simp only [hins]
      rw [run_bind_ok (run_modify _), run_bind_ok run_get]
      exact run_bind_ok hchunk
    have hfrom : (kmalloc createPageTable size).run s = (kmallocFrom createPageTable 0 0 size).run s :=
      kmalloc_run_from _ fun hbf => absurd (hff.symm.trans hbf) (by decide)
    rw [hfrom, kmallocFrom, hsize, run_bind_ok run_get, if_pos hff, run_bind_ok hwith]
    rfl

end Kernel

section User
open UserHeap

/-- The states and returned ranges that calls of `malloc` and `free` reach. -/
inductive UserRun (ok : ℕ → Prop) : List Interval → Uheap → Prop
  | init {s₀ s : Uheap} : s₀.firstTimeFlag = true → initializeUHeap s₀ = some s → UserRun ok [] s
  | malloc {returned : List Interval} {s t : Uheap} {size va : ℕ} (firstFit : Bool) :
    UserRun ok returned s → 0 < size → size < 2 ^ 32 → ok size →
    UserHeap.malloc s size firstFit = some (t, va) →
    UserRun ok (if va = 0 then returned else ⟨va, size⟩ :: returned) t
  | free {returned : List Interval} {s t : Uheap} {va : ℕ} : UserRun ok returned s →
    (∃ b ∈ returned, b.start = va) → UserHeap.free s va = some t →
    UserRun ok (returned.filter (·.start ≠ va)) t

/-- The ranges are parts of the user heap, apart from each other, and each can be freed
alone. -/
structure UserSound (s : Uheap) (returned : List Interval) : Prop where
  inside : ∀ b ∈ returned, userHeapStart ≤ b.start ∧ b.stop ≤ userHeapMax
  apart : returned.Pairwise fun b c => b.start ≠ c.start ∧ ∀ a, b.Contains a → ¬c.Contains a
  freed : ∀ b ∈ returned, ∃ t A B, UserHeap.free s b.start = some t ∧
    s.dyn.blocks .alloc = A ++ rounded b :: B ∧ t.dyn.blocks .alloc = A ++ B

variable {s : Uheap}

theorem UserRun.inv (hrun : UserRun RoundsUp returned s) :
    UserHeap.Inv s (s.dyn.blocks .alloc) ∧ Holds (s.dyn.blocks .alloc) returned := by
  induction hrun with
  | @init s₀ s hflag hinit =>
    have hinit' : UserHeap.Run (fun s c => ¬c.TakesBlock s) s [] := .init hflag hinit
    have hinv := hinit'.inv
    exact ⟨⟨hinv.flag, hinv.lists, fun _ => id⟩, .nil _⟩
  | @malloc returned s t size va firstFit _ hpos _ hok hcall ih =>
    obtain ⟨his, hholds⟩ := ih
    rcases his.malloc_run firstFit hok.pos hpos.ne' with
      hrun | ⟨u, va', hrun, hva, hinv, A, B, hold, hnew⟩
    · obtain ⟨rfl, rfl⟩ := Prod.mk.inj (Option.some.inj (hrun.symm.trans hcall))
      exact ⟨his, hholds⟩
    · obtain ⟨rfl, rfl⟩ := Prod.mk.inj (Option.some.inj (hrun.symm.trans hcall))
      obtain ⟨q, inv⟩ := hinv.lists
      rw [if_neg hva]
      exact ⟨⟨hinv.flag, hinv.lists, fun _ => id⟩,
        hnew ▸ (hold ▸ hholds).insert hok (hnew ▸ inv.ordered_blocks)⟩
  | @free returned s t va _ hmem hcall ih =>
    obtain ⟨his, hholds⟩ := ih
    obtain ⟨b, hb, rfl⟩ := hmem
    obtain ⟨u, hrun, hinv, n, A, B, hold, hnew⟩ :=
      his.free_run ⟨rounded b, (hholds.block b hb).1, rounded_start b⟩
    obtain rfl := Option.some.inj (hrun.symm.trans hcall)
    exact ⟨⟨hinv.flag, hinv.lists, fun _ => id⟩, hnew ▸ (hold ▸ hholds).erase⟩

theorem userSound_of_holds (hi : UserHeap.Inv s (s.dyn.blocks .alloc))
    (h : Holds (s.dyn.blocks .alloc) returned) : UserSound s returned := by
  obtain ⟨q, inv⟩ := hi.lists
  refine ⟨fun b hb => ?_, h.apart inv.ordered_blocks, fun b hb => ?_⟩
  · obtain ⟨hmem, hle⟩ := h.block b hb
    obtain ⟨hlo, hhi, -⟩ := inv.of_mem_blocks hmem
    rw [Interval.stop, rounded_start] at hhi
    rw [rounded_start] at hlo
    exact ⟨hlo, (Nat.add_le_add_left hle _).trans hhi⟩
  · obtain ⟨hmem, hle⟩ := h.block b hb
    obtain ⟨t, hrun, -, n, A, B, hold, hnew⟩ := hi.free_run ⟨rounded b, hmem, rounded_start b⟩
    obtain ⟨A', B', hblocks⟩ := List.append_of_mem hmem
    obtain ⟨rfl, hb', rfl⟩ := inv.ordered_blocks.append_cons_inj hblocks hold (rounded_start b)
    exact ⟨t, A', B', hrun, hblocks, hnew⟩

end User

open Machine in
/-- Requests of any size that is not rounded to 0 are served correctly, in every run of
`kmalloc` and `kfree` and in every run of `malloc` and `free`. -/
theorem requests_sound {s₀ s₁ t : Machine} {kernel : List Interval} (hb : HeapBoot s₀)
    (hinit : initializeDynBlockSystem.run s₀ = .ok ((), s₁)) (hkernel : KernelRun Servable s₁ kernel t)
    (huser : UserRun RoundsUp returned s) : Sound t kernel ∧ UserSound s returned := by
  obtain ⟨u, h, hinit', hi, -⟩ := hb.initialize_run
  obtain rfl := (Prod.mk.inj (Except.ok.inj (hinit'.symm.trans hinit))).2
  obtain ⟨ht, hholds⟩ := hkernel.inv hi
  exact ⟨sound_of_holds ht hholds, userSound_of_holds huser.inv.1 huser.inv.2⟩

theorem exists_userRun : ∃ s t va, UserHeap.malloc s 5000 true = some (t, va) ∧ va ≠ 0 ∧
    UserRun RoundsUp [⟨va, 5000⟩] t := by
  have hrounds : RoundsUp 5000 := ⟨by decide, by decide⟩
  obtain ⟨d, q, hd, inv, hfree, -⟩ := initialize_inv userHeap zeroed
  have hrun : UserRun RoundsUp [] ⟨false, d⟩ :=
    @UserRun.init RoundsUp ⟨true, zeroed⟩ _ rfl (by simp [UserHeap.initializeUHeap, hd])
  have hfit : Fits d (roundUp 5000 pageSize) :=
    ⟨by decide, by decide, _, hfree ▸ List.mem_singleton_self _, by decide⟩
  obtain ⟨t, va, hmalloc, hva, -⟩ := hrun.inv.1.malloc_fits hfit (by decide)
  have hnext := hrun.malloc true (by decide) (by decide) hrounds hmalloc
  rw [if_neg hva] at hnext
  exact ⟨_, t, va, hmalloc, hva, hnext⟩

open Machine in
/-- The kernel allocates two pages, and so does a program. -/
theorem requests_sound_bootMachine : ∃ s₀ s₁ t p, HeapBoot s₀ ∧
    initializeDynBlockSystem.run s₀ = .ok ((), s₁) ∧
    (Machine.kmalloc createPageTable 5000).run s₁ = .ok (p, t) ∧ Sound t [⟨p, 5000⟩] ∧
    ∃ s s' va, UserHeap.malloc s 5000 true = some (s', va) ∧ va ≠ 0 ∧ UserSound s' [⟨va, 5000⟩] := by
  obtain ⟨s₀, s₁, -, hb, hinit, hi, hnil, hff, hlen⟩ := exists_heapBoot
  obtain ⟨u, u', a, hmalloc, ha, huser⟩ := exists_userRun
  have hbest : s₁.kHeapPlacementStrategy = .bestFit → Fits s₁.heap (roundUp 5000 pageSize) := fun h => by
    rw [hff] at h
    cases h
  have hserved : Served s₁ 5000 := by
    refine ⟨.inl hff, by decide, by decide, ⟨kernelHeap.lo, kernelHeap.hi - kernelHeap.lo⟩, ?_, by decide⟩
    rw [free_of_alloc_nil hi hnil]
    exact List.mem_singleton_self _
  have hrounds : RoundsUp 5000 := ⟨by decide, by decide⟩
  have hsat : Sat (fun _ => False) _ s₁ _ := (hi.kmalloc_sat createPageTable hrounds.pos hbest).weaken fun e he => by
      rw [show roundUp 5000 pageSize / pageSize = 2 by decide] at he
      omega
  obtain ⟨va, s, hrun, ⟨-, hm⟩ | ⟨hnot, -⟩⟩ := hsat.exists_ok
  · have hkernel : KernelRun Servable s₁ _ _ := KernelRun.kmalloc .init (by decide) ⟨hrounds, hbest⟩ hrun
    rw [if_neg hm.ne_zero] at hkernel
    obtain ⟨hsound, husound⟩ := requests_sound hb hinit hkernel huser
    exact ⟨s₀, s₁, s, va, hb, hinit, hrun, hsound, u, u', a, hmalloc, ha, husound⟩
  · exact absurd hserved hnot

open Machine in
/-- A request of `2 ^ 32 - 1` bytes gets an address. -/
theorem kmallocWrapped_not_sound :
    ¬∀ s₀ s₁ s returned, HeapBoot s₀ → initializeDynBlockSystem.run s₀ = .ok ((), s₁) →
      KernelRun (fun _ _ => True) s₁ returned s → Sound s returned := by
  intro hall
  obtain ⟨s₀, s₁, -, hb, hinit, hi, hnil, hff, -⟩ := exists_heapBoot
  obtain ⟨p, t, hrun, hp⟩ := kmalloc_zero_run hi hnil hff (show roundUp (2 ^ 32 - 1) pageSize = 0 by decide)
  have hsound := hall s₀ s₁ t _ hb hinit (.kmalloc .init (by decide) trivial hrun)
  rw [if_neg hp.ne'] at hsound
  have hin := (hsound.inside ⟨p, 2 ^ 32 - 1⟩ (by simp)).2
  have hmax : kernelHeapMax < 2 ^ 32 := by decide
  simp only [Interval.stop] at hin
  omega

end FosKernel.HeapRequests
