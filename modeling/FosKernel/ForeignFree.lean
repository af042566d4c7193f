import FosKernel.NextFit
import FosKernel.UserHeap

/-!
# Freeing an address of the user heap

`free` follows the pointer that `find_block` returns, so it is harmless at no
address that is not the start of an allocated block, be it freed already, inside
a block, or handed out by `smalloc` or `sget`. At the start of a block it frees
that block.
-/

namespace FosKernel.UserHeap
open IntrusiveList IntervalLists DynamicAllocator

variable {K : Type} {sysFreeUserMem : ℕ → ℕ → K → Option K} {k : K} {s : Uheap} {va : ℕ}
  {q : BlockList → List ℕ} {d d' : DynamicAllocator.State} {A B : List ℕ} {b n : ℕ}

/-- `free` with its system call, which changes the kernel's part `k` of the environment: the page
tables, the working set and the page file. -/
def freeMemory (sysFreeUserMem : ℕ → ℕ → K → Option K) (k : K) (s : Uheap) (virtualAddress : ℕ) :
    Option (K × Uheap) := do
  let myBlock ← ← findBlock s.dyn virtualAddress
  let k ← sysFreeUserMem virtualAddress (s.dyn.size myBlock) k
  let dyn ← insertSortedWithMergeFreeList (s.dyn.remove .alloc myBlock) myBlock
  return (k, { s with dyn := dyn })

/-- Both lists are in order and apart. Blocks that were taken for shared objects are on neither. -/
structure ListsApart (d : DynamicAllocator.State) (q : BlockList → List ℕ) : Prop where
  free : HoldsApart userHeap.lo userHeap.hi d ∅ q
  alloc : Ordered ((q .alloc).map d.block)
  bounds : ∀ x ∈ q .alloc, userHeap.lo ≤ (d.block x).start ∧ (d.block x).stop ≤ userHeap.hi
  apart : ∀ x ∈ q .alloc, ∀ a, (d.block x).Contains a → ¬ Covered ((q .free).map d.block) a

/-- What `free` is to do: nothing at an address that no block starts at, and else one call of the
kernel with the range of the block, which moves from the allocated to the free blocks. -/
structure FreesOnly (sysFreeUserMem : ℕ → ℕ → K → Option K) (k : K) (s : Uheap) (va : ℕ) : Prop where
  foreign : (∀ b ∈ s.dyn.blocks .alloc, b.start ≠ va) →
    freeMemory sysFreeUserMem k s va = some (k, s)
  live : ∀ n, ⟨va, n⟩ ∈ s.dyn.blocks .alloc → ∃ s' A B,
    freeMemory sysFreeUserMem k s va = (sysFreeUserMem va n k).map (·, s') ∧
    s.dyn.blocks .alloc = A ++ ⟨va, n⟩ :: B ∧ s'.dyn.blocks .alloc = A ++ B ∧
    ∀ a, Covered (s'.dyn.blocks .free) a ↔
      Covered (s.dyn.blocks .free) a ∨ (⟨va, n⟩ : Interval).Contains a

namespace ListsApart

theorem blocks_eq (h : ListsApart d q) (k : BlockList) : d.blocks k = (q k).map d.block := by
  rw [State.blocks, nodes_eq h.free.free.rep (h.free.free.length_le k)]

theorem not_mem (h : ListsApart d q) (hq : q .alloc = A ++ b :: B) : b ∉ A ++ B := by
  have hnd := (h.free.free.rep.list .alloc).nodup
  rw [hq] at hnd
  exact (List.nodup_cons.mp (List.nodup_middle.mp hnd)).1

/-- Without one block the allocated ones are still in order, and that block lies apart. -/
theorem takeOut (h : ListsApart d q) (hq : q .alloc = A ++ b :: B) :
    HoldsApart userHeap.lo userHeap.hi (d.remove .alloc b) {b}
      (Function.update q .alloc (A ++ B)) := by
  have hb : b ∈ q .alloc := by simp [hq]
  have hrest : ∀ k, k ≠ .alloc → Function.update q .alloc (A ++ B) k = q k :=
    fun k hk => Function.update_of_ne hk _ _
  have hfree : Function.update q .alloc (A ++ B) .free = q .free := hrest _ (by decide)
  have hsub : ∀ k x, x ∈ Function.update q .alloc (A ++ B) k → x ∈ q k := by
    intro k x hx
    by_cases hk : k = .alloc
    · subst hk
      rw [Function.update_self] at hx
      rw [hq]
      simp only [List.mem_append, List.mem_cons] at hx ⊢
      tauto
    · rwa [hrest k hk] at hx
  have hpos := h.alloc.pos _ (List.mem_map_of_mem (f := d.block) hb)
  refine ⟨⟨h.free.free.rep.remove hq, fun k x hx => h.free.free.nodes k x (hsub k x hx), ?_, ?_⟩,
    ?_, fun x hx => ?_, fun x hx => ?_, fun x hx a ha => ?_, fun x hx y hy hxy => ?_⟩
  · rw [hfree]
    exact h.free.free.ordered
  · rw [hfree]
    exact h.free.free.word
  · rw [hfree]
    rintro x (hx | hx)
    · exact Finset.mem_singleton.mp hx ▸ h.bounds b hb
    · exact h.free.bounds x (.inr hx)
  · obtain rfl := Finset.mem_singleton.mp hx
    refine ⟨h.free.free.nodes .alloc x hb, fun k hk => ?_⟩
    by_cases hka : k = .alloc
    · subst hka
      rw [Function.update_self] at hk
      exact h.not_mem hq hk
    · exact h.free.free.rep.disjoint .alloc k (Ne.symm hka) x hb (hsub k x hk)
  · exact Finset.mem_singleton.mp hx ▸ hpos
  · rw [hfree]
    obtain rfl := Finset.mem_singleton.mp hx
    exact h.apart x hb a ha
  · exact absurd ((Finset.mem_singleton.mp hx).trans (Finset.mem_singleton.mp hy).symm) hxy

theorem release (h : ListsApart d q) (hq : q .alloc = A ++ b :: B) : ∃ d' q',
    insertSortedWithMergeFreeList (d.remove .alloc b) b = some d' ∧ ListsApart d' q' ∧
      d'.blocks .alloc = (A ++ B).map d.block ∧
      ∀ a, Covered (d'.blocks .free) a ↔ Covered (d.blocks .free) a ∨ (d.block b).Contains a := by
  obtain ⟨d', q', hd', hfree, halloc, hkeep, hcov⟩ := (h.takeOut hq).release (b := b)
    userHeap.word.le (by decide) (by simp)
  rw [Function.update_self] at halloc
  rw [Function.update_of_ne (by decide)] at hkeep
  rw [Function.update_of_ne (by decide), State.remove_block] at hcov
  have hmem : ∀ x ∈ A ++ B, x ∈ q .alloc ∧ x ≠ b := by
    intro x hx
    refine ⟨?_, fun he => h.not_mem hq (he ▸ hx)⟩
    rw [hq]
    simp only [List.mem_append, List.mem_cons] at hx ⊢
    tauto
  have hblock : ∀ x ∈ A ++ B, d'.block x = d.block x := fun x hx =>
    hkeep x (hmem x hx).2 (h.free.free.rep.disjoint .alloc .free (by decide) x (hmem x hx).1)
  have hmap : (q' .alloc).map d'.block = (A ++ B).map d.block := by
    rw [halloc]
    exact List.map_congr_left hblock
  have hord := h.alloc
  rw [hq, List.map_append, List.map_cons] at hord
  have hlists : ListsApart d' q' := by
    refine ⟨by simpa using hfree, ?_, fun x hx => ?_, fun x hx a ha => ?_⟩
    · rw [hmap, List.map_append]
      exact (Spaced.append_cons_iff.mp hord).1
    · rw [halloc] at hx
      rw [hblock x hx]
      exact h.bounds x (hmem x hx).1
    · rw [halloc] at hx
      rw [hblock x hx] at ha
      rw [hcov]
      rintro (hf | hba)
      · exact h.apart x (hmem x hx).1 a ha hf
      · refine hord.not_covered hba ?_
        rw [← List.map_append]
        exact ⟨_, List.mem_map_of_mem hx, ha⟩
  refine ⟨d', q', hd', hlists, by rw [hlists.blocks_eq, hmap], fun a => ?_⟩
  rw [hlists.blocks_eq, h.blocks_eq]
  exact hcov a

end ListsApart

/-- `find_block` finds the block of an address or walks the whole list. -/
private theorem ListsApart.find (h : ListsApart s.dyn q) (va : ℕ) :
    (∃ A b B, q .alloc = A ++ b :: B ∧ s.dyn.sva b = va ∧ findBlock s.dyn va = some (some b)) ∨
      (∀ b ∈ s.dyn.blocks .alloc, b.start ≠ va) ∧ findBlock s.dyn va = some none := by
  have hlen := h.free.free.length_le .alloc
  by_cases hex : ∃ x ∈ q .alloc, s.dyn.sva x = va
  · obtain ⟨A, b, B, hq, hb, hA⟩ := exists_first hex
    exact .inl ⟨A, b, B, hq, hb, findBlock_some h.free.free.rep hlen hq hb hA⟩
  · refine .inr ⟨fun b hb hva => ?_, findBlock_none h.free.free.rep hlen fun x hx hva => hex ⟨x, hx, hva⟩⟩
    rw [h.blocks_eq] at hb
    obtain ⟨x, hx, rfl⟩ := List.mem_map.mp hb
    exact hex ⟨x, hx, hva⟩

/-- `free` does what it is to do exactly at the starts of the allocated blocks. -/
theorem freesOnly_iff (h : ∃ q, ListsApart s.dyn q) :
    FreesOnly sysFreeUserMem k s va ↔ ∃ b ∈ s.dyn.blocks .alloc, b.start = va := by
  obtain ⟨q, h⟩ := h
  rcases h.find va with ⟨A, b, B, hq, hb, hfind⟩ | ⟨hnone, hfind⟩
  · have hblocks : s.dyn.blocks .alloc = A.map s.dyn.block ++ s.dyn.block b :: B.map s.dyn.block := by
      rw [h.blocks_eq, hq, List.map_append, List.map_cons]
    refine iff_of_true ⟨fun hne => ?_, fun n hn => ?_⟩ ⟨s.dyn.block b, by simp [hblocks], hb⟩
    · exact absurd hb (hne (s.dyn.block b) (by simp [hblocks]))
    · obtain ⟨d', q', hd', hlists, halloc, hcov⟩ := h.release hq
      obtain ⟨L, R, hLR⟩ := List.append_of_mem hn
      have hord := h.alloc
      rw [← h.blocks_eq] at hord
      obtain ⟨rfl, hbn, rfl⟩ := hord.append_cons_inj hblocks hLR hb
      have hsize : s.dyn.size b = n := congrArg IntervalLists.Interval.length hbn
      refine ⟨{ s with dyn := d' }, _, _, ?_, hLR, by rw [halloc, List.map_append], fun a => ?_⟩
      · rw [freeMemory, hfind]
        simp [hsize, hd', Option.map_eq_bind]
      · rw [← hbn]
        exact hcov a
  · refine iff_of_false (fun hfree => ?_) fun ⟨b, hb, hva⟩ => hnone b hb hva
    have := hfree.foreign hnone
    simp [freeMemory, hfind] at this

/-- Without the kernel's part it is the `free` of the heap. -/
theorem free_eq : free s va = (freeMemory (fun _ _ k => some k) () s va).map Prod.snd := by
  rw [free, freeMemory]
  rcases findBlock s.dyn va with _ | _ | b
  · rfl
  · rfl
  · cases hd : insertSortedWithMergeFreeList (s.dyn.remove .alloc b) b <;> simp [hd]

/-- The blocks of `malloc` that are not freed, after a call that returned `va`. -/
def Call.live (live : List Interval) (va : ℕ) : Call → List Interval
  | .malloc size _ => if va = 0 then live else ⟨va, roundUp size pageSize⟩ :: live
  | .free va => live.filter (·.start ≠ va)
  | _ => live

/-- The rounded size of a `malloc` does not wrap to 0. -/
def Call.Whole : Call → Prop
  | .malloc size _ => 0 < roundUp size pageSize
  | _ => True

inductive Reaches : Uheap → List Interval → Prop
  | init {s₀ s : Uheap} : s₀.firstTimeFlag = true → initializeUHeap s₀ = some s → Reaches s []
  | call {s s' : Uheap} {live : List Interval} {va : ℕ} (c : Call) : Reaches s live → c.Whole →
    c.run s = some (s', va) → Reaches s' (c.live live va)

namespace ListsApart

variable {L R : List ℕ} {r : ℕ} {q' : BlockList → List ℕ}

theorem served (h : ListsApart d q) (hq : q .free = L ++ b :: R)
    (hat : AllocatedAt d q n L b R d' q' r) : ListsApart d' q' ∧ q' .alloc = q .alloc ∧
      ∀ x ∈ q .alloc, d'.block x = d.block x := by
  have hb : b ∈ q .free := by simp [hq]
  have hdis := fun k (hk : BlockList.alloc ≠ k) => h.free.free.rep.disjoint .alloc k hk
  have hkeep : ∀ x ∈ q .alloc, d'.block x = d.block x := fun x hx =>
    hat.block_of_ne (fun he => hdis .free (by decide) x hx (he ▸ hb)) (hdis .available (by decide) x hx)
  have halloc : q' .alloc = q .alloc := by cases hat <;> simp
  have hmap : (q' .alloc).map d'.block = (q .alloc).map d.block := by
    rw [halloc]
    exact List.map_congr_left hkeep
  refine ⟨⟨h.free.served hq hat, hmap ▸ h.alloc, fun x hx => ?_, fun x hx a ha => ?_⟩, halloc, hkeep⟩
  · rw [halloc] at hx
    exact hkeep x hx ▸ h.bounds x hx
  · rw [halloc] at hx
    rw [HoldsApart.covered_iff h.free.free hq hat]
    exact fun hc => h.apart x hx a (hkeep x hx ▸ ha) hc.1

theorem insert (h : ListsApart d q) (hn : 0 < n) (hq : q .free = L ++ b :: R) (hle : n ≤ d.size b)
    (hat : AllocatedAt d q n L b R d' q' r) : ∃ d₂ q₂ A B, insertSortedAllocList d' r = some d₂ ∧
      ListsApart d₂ q₂ ∧ d₂.sva r = d.sva b ∧ d.blocks .alloc = A ++ B ∧
      d₂.blocks .alloc = A ++ ⟨d.sva b, n⟩ :: B := by
  obtain ⟨hlists, halloc, hkeep⟩ := h.served hq hat
  have hheld := h.free.alloc hn hq hle hat
  have hoff := hheld.off r (by simp)
  have hpos := hheld.pos r (by simp)
  have hxpos : ∀ x ∈ q' .alloc, 0 < (d'.block x).length := fun x hx =>
    hlists.alloc.pos _ (List.mem_map_of_mem hx)
  have hsorted : (q' .alloc).Pairwise fun x y => d'.sva x < d'.sva y := by
    refine (List.pairwise_map.mp hlists.alloc.sorted).imp_of_mem fun {x y} hx _ hxy => ?_
    exact (Nat.lt_add_of_pos_right (hxpos x hx)).trans_le hxy
  have hcovered : ∀ a, (d'.block r).Contains a → Covered ((q .free).map d.block) a := by
    intro a ha
    refine ⟨d.block b, List.mem_map_of_mem (by simp [hq]), ?_⟩
    rw [hat.block_eq] at ha
    simp only [Interval.Contains, Interval.stop, State.block] at ha ⊢
    omega
  have hapart : ∀ x ∈ q' .alloc, ∀ a, (d'.block x).Contains a → ¬ (d'.block r).Contains a := by
    intro x hx a ha hra
    rw [halloc] at hx
    exact h.apart x hx a (hkeep x hx ▸ ha) (hcovered a hra)
  obtain ⟨A, B, hAB, hA, hB⟩ := exists_split hsorted (v := d'.sva r) fun x hx he =>
    hapart x hx (d'.sva x) ⟨le_rfl, Nat.lt_add_of_pos_right (hxpos x hx)⟩
      (he ▸ ⟨le_rfl, Nat.lt_add_of_pos_right hpos⟩)
  obtain ⟨t, ht, hrep⟩ := insertSortedAllocList_eq hlists.free.free.rep
    (hlists.free.free.length_le .alloc) hoff.2 hAB hA hB
  have hrest : ∀ k, k ≠ .alloc → Function.update (q') .alloc (A ++ r :: B) k = q' k :=
    fun k hk => Function.update_of_ne hk _ _
  have hmem : ∀ x ∈ A ++ r :: B, x = r ∨ x ∈ q' .alloc := by
    intro x hx
    rw [hAB]
    simp only [List.mem_append, List.mem_cons] at hx ⊢
    tauto
  have hfree := hrest .free (by decide)
  set d₂ : DynamicAllocator.State := { d' with store := t } with hd₂
  have hord : Ordered ((A ++ r :: B).map d₂.block) := by
    have := hlists.alloc
    rw [hAB, List.map_append] at this
    rw [List.map_append, List.map_cons]
    refine Spaced.append_cons_iff.mpr ⟨this, hpos, fun c hc => ?_, fun c hc => ?_⟩
    · obtain ⟨x, hx, rfl⟩ := List.mem_map.mp hc
      exact Interval.stop_le_start (hA x hx).le hpos (hapart x (by simp [hAB, hx]))
    · obtain ⟨x, hx, rfl⟩ := List.mem_map.mp hc
      exact Interval.stop_le_start (hB x hx).le (hxpos x (by simp [hAB, hx]))
        fun a hra hxa => hapart x (by simp [hAB, hx]) a hxa hra
  have hnew : ListsApart d₂ (Function.update q' .alloc (A ++ r :: B)) := by
    refine ⟨⟨⟨hrep, fun k x hx => ?_, ?_, ?_⟩, ?_, by simp, by simp, by simp, by simp⟩, ?_,
      fun x hx => ?_, fun x hx a ha => ?_⟩
    · by_cases hk : k = .alloc
      · subst hk
        rw [Function.update_self] at hx
        rcases hmem x hx with rfl | hx
        · exact hoff.1
        · exact hlists.free.free.nodes .alloc x hx
      · exact hlists.free.free.nodes k x (hrest k hk ▸ hx)
    · exact hfree ▸ hlists.free.free.ordered
    · exact hfree ▸ hlists.free.free.word
    · exact hfree ▸ hlists.free.bounds
    · rw [Function.update_self]
      exact hord
    · rw [Function.update_self] at hx
      rcases hmem x hx with rfl | hx
      · exact hheld.bounds x (.inl (by simp))
      · exact hlists.bounds x hx
    · rw [hfree]
      rw [Function.update_self] at hx
      rcases hmem x hx with rfl | hx
      · exact hheld.apart x (by simp) a ha
      · exact hlists.apart x hx a ha
  have hr : d₂.block r = ⟨d.sva b, n⟩ := hat.block_eq
  refine ⟨d₂, _, A.map d'.block, B.map d'.block, ht, hnew, congrArg Interval.start hr, ?_, ?_⟩
  · rw [h.blocks_eq, ← List.map_append, ← hAB, halloc]
    exact (List.map_congr_left hkeep).symm
  · rw [hnew.blocks_eq, Function.update_self, List.map_append, List.map_cons, hr]
    rfl

end ListsApart

/-- The flag is down, the lists are apart, and the allocated blocks are the live ones of `malloc`. -/
structure HoldsLive (s : Uheap) (live : List Interval) : Prop where
  flag : s.firstTimeFlag = false
  lists : ∃ q, ListsApart s.dyn q
  live : ∀ b, b ∈ s.dyn.blocks .alloc ↔ b ∈ live

namespace HoldsLive

variable {s' : Uheap} {live : List Interval} {firstFit : Bool} {size : ℕ} {ret : ℤ}

theorem initializeUHeap_eq (h : HoldsLive s live) : initializeUHeap s = some s := by
  simp [initializeUHeap, h.flag]

theorem malloc (h : HoldsLive s live) (hsize : 0 < roundUp size pageSize)
    (hs : UserHeap.malloc s size firstFit = some (s', va)) :
    HoldsLive s' (if va = 0 then live else ⟨va, roundUp size pageSize⟩ :: live) := by
  obtain ⟨q, hl⟩ := h.lists
  have hsame : s' = s ∧ va = 0 → HoldsLive s' (if va = 0 then live else ⟨va, roundUp size pageSize⟩ :: live) := by
    rintro ⟨rfl, rfl⟩
    rw [if_pos rfl]
    exact h
  by_cases h0 : size = 0
  · simp only [UserHeap.malloc, h.initializeUHeap_eq, h0, Option.bind_eq_bind, Option.bind_some, if_true] at hs
    exact hsame (by simpa [eq_comm] using hs)
  · cases firstFit with
    | false =>
      simp only [UserHeap.malloc, h.initializeUHeap_eq, h0, Option.bind_eq_bind, Option.bind_some, if_false] at hs
      exact hsame (by simpa [eq_comm] using hs)
    | true =>
      simp only [UserHeap.malloc, h.initializeUHeap_eq, h0, Option.bind_eq_bind, Option.bind_some, if_false,
        if_true] at hs
      obtain ⟨⟨d, o⟩, hd, hs⟩ := Option.bind_eq_some_iff.mp hs
      rcases hl.free.free.allocBlockFF_cases hd with ⟨rfl, rfl⟩ | ⟨L, b, R, q', r, rfl, hq, hle, hat⟩
      · simp only [Option.pure_def, Option.some.injEq, Prod.mk.injEq] at hs
        exact hsame ⟨hs.1.symm, hs.2.symm⟩
      · obtain ⟨d₂, q₂, A, B, hins, hl₂, hsva, hold, hnew⟩ := hl.insert hsize hq hle hat
        simp only [hins, Option.bind_some, Option.pure_def, Option.some.injEq, Prod.mk.injEq] at hs
        obtain ⟨rfl, rfl⟩ := hs
        have hlo := (hl.free.bounds b (.inr (by simp [hq]))).1
        have hva : d₂.sva r ≠ 0 := by
          have hstart : 0 < userHeap.lo := by decide
          rw [hsva]
          exact (hstart.trans_le hlo).ne'
        rw [if_neg hva]
        refine ⟨h.flag, ⟨q₂, hl₂⟩, fun c => ?_⟩
        rw [hnew, List.mem_cons, ← h.live c, hold, hsva]
        simp only [List.mem_append, List.mem_cons]
        exact or_left_comm

theorem shareBlock (h : HoldsLive s live) (hs : UserHeap.shareBlock s n firstFit ret = some (s', va)) :
    HoldsLive s' live := by
  obtain ⟨q, hl⟩ := h.lists
  cases firstFit with
  | false =>
    simp only [UserHeap.shareBlock, Bool.false_eq_true, if_false, Option.pure_def, Option.some.injEq,
      Prod.mk.injEq] at hs
    exact hs.1 ▸ h
  | true =>
    simp only [UserHeap.shareBlock, if_true] at hs
    obtain ⟨⟨d, o⟩, hd, hs⟩ := Option.bind_eq_some_iff.mp hs
    have hs' : s' = { s with dyn := d } := by
      cases o <;> simp only [Option.pure_def, Option.some.injEq, Prod.mk.injEq] at hs <;> exact hs.1.symm
    subst hs'
    rcases hl.free.free.allocBlockFF_cases hd with ⟨-, rfl⟩ | ⟨L, b, R, q', r, -, hq, -, hat⟩
    · exact h
    · obtain ⟨hl', halloc, hkeep⟩ := hl.served hq hat
      refine ⟨h.flag, ⟨q', hl'⟩, fun c => ?_⟩
      rw [← h.live c, hl'.blocks_eq, hl.blocks_eq, halloc, List.map_congr_left hkeep]

theorem free (h : HoldsLive s live) (hs : UserHeap.free s va = some s') :
    HoldsLive s' (live.filter (·.start ≠ va)) := by
  obtain ⟨q, hl⟩ := h.lists
  rcases hl.find va with ⟨A, b, B, hq, hb, hfind⟩ | ⟨-, hfind⟩
  · obtain ⟨d', q', hd', hl', halloc, -⟩ := hl.release hq
    have hrun : freeMemory (fun _ _ k => some k) () s va = some ((), { s with dyn := d' }) := by
      rw [freeMemory, hfind]
      simp [hd']
    rw [free_eq, hrun] at hs
    obtain rfl := Option.some.inj hs
    refine ⟨h.flag, ⟨q', hl'⟩, fun c => ?_⟩
    have hord := hl.alloc
    rw [hq, List.map_append, List.map_cons] at hord
    have hsplit := Spaced.append_cons_iff.mp hord
    rw [halloc, List.mem_filter, ← h.live c, hl.blocks_eq, hq, List.map_append, List.map_append,
      List.map_cons]
    simp only [List.mem_append, List.mem_cons, ne_eq, decide_not, Bool.not_eq_eq_eq_not, Bool.not_true,
      decide_eq_false_iff_not]
    constructor
    · intro hc
      refine ⟨by tauto, fun hstart => ?_⟩
      have hpos := hsplit.1.pos c (List.mem_append.mpr hc)
      rcases hc with hc | hc
      · have := hsplit.2.2.1 c hc
        simp only [Interval.stop, State.block_start] at this
        omega
      · have := hsplit.2.2.2 c hc
        simp only [Interval.stop, State.block_start, State.block_length] at this
        have := hsplit.2.1
        simp only [State.block_length] at this
        omega
    · rintro ⟨hc | rfl | hc, hstart⟩
      · exact .inl hc
      · exact absurd hb hstart
      · exact .inr hc
  · simp [UserHeap.free, hfind] at hs

theorem call (h : HoldsLive s live) (c : Call) (hc : c.Whole) (hs : c.run s = some (s', va)) :
    HoldsLive s' (c.live live va) := by
  cases c with
  | malloc size firstFit => exact h.malloc hc hs
  | free v =>
    obtain ⟨t, ht, he⟩ := Option.map_eq_some_iff.mp hs
    obtain ⟨rfl, rfl⟩ := Prod.mk.inj he
    exact h.free ht
  | smalloc size firstFit ret =>
    simp only [Call.run, smalloc, h.initializeUHeap_eq, Option.bind_eq_bind, Option.bind_some] at hs
    split at hs
    · simp only [Option.pure_def, Option.some.injEq, Prod.mk.injEq] at hs
      exact hs.1 ▸ h
    · exact h.shareBlock hs
  | sget firstFit ret ret1 =>
    simp only [Call.run, sget, h.initializeUHeap_eq, Option.bind_eq_bind, Option.bind_some] at hs
    split at hs
    · simp only [Option.pure_def, Option.some.injEq, Prod.mk.injEq] at hs
      exact hs.1 ▸ h
    · exact h.shareBlock hs

end HoldsLive

theorem Reaches.holdsLive {live : List Interval} (h : Reaches s live) : HoldsLive s live := by
  induction h with
  | @init s₀ s hflag hs =>
    obtain ⟨d, q, hd, inv, hfree, halloc⟩ := initialize_inv userHeap s₀.dyn
    simp only [initializeUHeap, hflag, if_true, hd] at hs
    obtain rfl := Option.some.inj hs
    rw [inv.blocks_eq] at halloc
    have hnil : q .alloc = [] := by simpa using halloc
    refine ⟨rfl, ⟨q, inv.holdsApart, by simp [hnil], by simp [hnil], by simp [hnil]⟩, fun b => ?_⟩
    rw [inv.blocks_eq, halloc]
  | call c _ hc hs ih => exact ih.call c hc hs

private theorem exists_reaches : ∃ s, Reaches s [] ∧ Inv s [] ∧
    s.dyn.blocks .free = [⟨userHeapStart, userHeapMax - userHeapStart⟩] := by
  obtain ⟨d, q, hd, inv, hfree, -⟩ := initialize_inv userHeap zeroed
  exact ⟨⟨false, d⟩, @Reaches.init ⟨true, zeroed⟩ _ rfl (by simp [initializeUHeap, hd]),
    ⟨rfl, ⟨q, inv⟩, by simp⟩, hfree⟩

private theorem exists_onePage : ∃ s va, Reaches s [⟨va, pageSize⟩] := by
  obtain ⟨s, hs, hinv, hfree⟩ := exists_reaches
  have hround : roundUp pageSize pageSize = pageSize := by decide
  have hfit : Fits s.dyn (roundUp pageSize pageSize) :=
    ⟨by decide, by decide, _, hfree ▸ List.mem_singleton_self _, by decide⟩
  obtain ⟨t, va, hcall, hne, -⟩ := hinv.malloc_fits hfit (by decide)
  have := Reaches.call (.malloc pageSize true) hs (show 0 < roundUp pageSize pageSize by decide) hcall
  rw [Call.live, if_neg hne, hround] at this
  exact ⟨t, va, this⟩

theorem freesOnly_iff_onePage : ∃ s va, Reaches s [⟨va, pageSize⟩] ∧
    FreesOnly (fun _ _ k => some k) () s va := by
  obtain ⟨s, va, hs⟩ := exists_onePage
  have h := hs.holdsLive
  exact ⟨s, va, hs, (freesOnly_iff h.lists).mpr ⟨⟨va, pageSize⟩, by simp [h.live], rfl⟩⟩

/-- An address inside a live block and one that was never allocated. -/
theorem not_freesOnly_foreign : (∃ s va, Reaches s [⟨va, pageSize⟩] ∧
      ¬ FreesOnly (fun _ _ k => some k) () s (va + 1)) ∧
    ∃ s, Reaches s [] ∧ ¬ FreesOnly (fun _ _ k => some k) () s userHeapStart := by
  have hforeign {s : Uheap} {live : List Interval} {v : ℕ} (h : Reaches s live)
      (hv : ∀ b ∈ live, b.start ≠ v) : ¬ FreesOnly (fun _ _ k => some k) () s v := by
    obtain ⟨-, ⟨q, hl⟩, hlive⟩ := h.holdsLive
    have hnone : ∀ b ∈ s.dyn.blocks .alloc, b.start ≠ v := fun b hb => hv b ((hlive b).mp hb)
    intro hfree
    have hrun := hfree.foreign hnone
    rcases hl.find v with ⟨A, b, B, hq, hb, -⟩ | ⟨-, hfind⟩
    · exact hnone (s.dyn.block b) (by simp [hl.blocks_eq, hq]) hb
    · simp [freeMemory, hfind] at hrun
  obtain ⟨s, va, hs⟩ := exists_onePage
  obtain ⟨t, ht, -⟩ := exists_reaches
  exact ⟨⟨s, va, hs, hforeign hs (by simp)⟩, t, ht, hforeign ht (by simp)⟩

end FosKernel.UserHeap
