import FosKernel.DynamicAllocatorRuns

/-!
# Placement strategies

Which free block a request is served from. First fit takes the lowest block that
is large enough. Best fit takes the smallest one, and with none large enough it
relies on what its uninitialised locals hold.
-/

namespace FosKernel.DynamicAllocator
open IntrusiveList IntervalLists

/-- A sorted free list of non-empty disjoint blocks, made of nodes of `MemBlockNodes`. -/
structure SortedFree (s : State) (q : BlockList → List ℕ) : Prop where
  rep : s.store.Represents q
  nodes : ∀ k, ∀ x ∈ q k, x < s.maxMemBlockCnt
  ordered : Ordered ((q .free).map s.block)
  word : ∀ x ∈ q .free, (s.block x).stop ≤ 2 ^ 32

/-- What an allocation of `n` bytes may return when it has to pick a block that is `Chosen`:
NULL with nothing changed if no free block is large enough, and else the front of such a block. -/
inductive Serves (Chosen : ℕ → Prop) (s : State) (q : BlockList → List ℕ) (n : ℕ) :
    Option (State × Option ℕ) → Prop
  | refused (hnone : ∀ x ∈ q .free, s.size x < n) : Serves Chosen s q n (some (s, none))
  | served {L R : List ℕ} {b r : ℕ} {s' : State} {q' : BlockList → List ℕ}
      (hq : q .free = L ++ b :: R) (hfit : n ≤ s.size b) (hb : Chosen b)
      (hat : AllocatedAt s q n L b R s' q' r) (hblock : s'.block r = ⟨s.sva b, n⟩)
      (hsorted : SortedFree s' q') : Serves Chosen s q n (some (s', some r))

/-- The lowest of the blocks from address `va` on that are large enough. -/
structure LowestFrom (s : State) (q : BlockList → List ℕ) (n va b : ℕ) : Prop where
  fits : n ≤ s.size b
  above : va ≤ s.sva b
  lowest : ∀ y ∈ q .free, va ≤ s.sva y → n ≤ s.size y → s.sva b ≤ s.sva y

/-- The smallest of the blocks that are large enough, and the lowest among equals. -/
structure Tightest (s : State) (q : BlockList → List ℕ) (n b : ℕ) : Prop where
  fits : n ≤ s.size b
  smallest : ∀ y ∈ q .free, n ≤ s.size y →
    s.size b < s.size y ∨ s.size b = s.size y ∧ s.sva b ≤ s.sva y

abbrev FirstFit (s : State) (q : BlockList → List ℕ) (n : ℕ) : Option (State × Option ℕ) → Prop :=
  Serves (LowestFrom s q n 0) s q n

abbrev BestFit (s : State) (q : BlockList → List ℕ) (n : ℕ) : Option (State × Option ℕ) → Prop :=
  Serves (Tightest s q n) s q n

variable {s s' : State} {q q' : BlockList → List ℕ} {n b r : ℕ} {L R : List ℕ}

namespace SortedFree

theorem length_le (h : SortedFree s q) (k : BlockList) : (q k).length ≤ s.maxMemBlockCnt := by
  have hsub : q k ⊆ List.range s.maxMemBlockCnt := fun x hx => List.mem_range.mpr (h.nodes k x hx)
  simpa using ((h.rep.list k).nodup.subperm hsub).length_le

theorem size_pos (h : SortedFree s q) {x : ℕ} (hx : x ∈ q .free) : 0 < s.size x :=
  h.ordered.pos _ (List.mem_map_of_mem (f := s.block) hx)

theorem sorted (h : SortedFree s q) : (q .free).Pairwise fun x y => s.sva x < s.sva y := by
  refine (List.pairwise_map.mp h.ordered.sorted).imp_of_mem fun {x y} hx _ hxy => ?_
  have := h.size_pos hx
  simp only [State.block, Interval.stop] at hxy
  omega

theorem sva_lt (h : SortedFree s q) (hq : q .free = L ++ b :: R) {y : ℕ} (hy : y ∈ R) :
    s.sva b < s.sva y := by
  have hs := h.sorted
  rw [hq] at hs
  exact (List.pairwise_cons.mp (List.pairwise_append.mp hs).2.1).1 y hy

theorem mem_others (h : SortedFree s q) (hq : q .free = L ++ b :: R) {y : ℕ} :
    y ∈ L ++ R ↔ y ∈ q .free ∧ y ≠ b := by
  have hnd := (h.rep.list .free).nodup
  rw [hq] at hnd
  have hb := (List.nodup_cons.mp (List.nodup_middle.mp hnd)).1
  rw [hq, List.mem_append, List.mem_append, List.mem_cons] at *
  constructor
  · intro hy
    refine ⟨by tauto, ?_⟩
    rintro rfl
    exact hb hy
  · rintro ⟨hy, hne⟩
    tauto

end SortedFree

theorem AllocatedAt.block_of_ne (hat : AllocatedAt s q n L b R s' q' r) {y : ℕ} (hb : y ≠ b)
    (ha : y ∉ q .available) : s'.block y = s.block y := by
  cases hat with
  | whole => rfl
  | carved hm _ _ _ _ hrest => exact hrest y hb fun he => ha (by simp [he, hm])

theorem AllocatedAt.block_eq (hat : AllocatedAt s q n L b R s' q' r) :
    s'.block r = ⟨s.sva b, n⟩ := by
  cases hat with
  | whole hn => exact hn ▸ rfl
  | carved _ _ _ _ hm => exact hm

theorem AllocatedAt.count (hat : AllocatedAt s q n L b R s' q' r) :
    s'.maxMemBlockCnt = s.maxMemBlockCnt := by
  cases hat with
  | whole => rfl
  | carved _ _ _ _ _ _ hcnt => exact hcnt

theorem AllocatedAt.represents (hat : AllocatedAt s q n L b R s' q' r) :
    s'.store.Represents q' := by
  cases hat with
  | whole _ hrep => exact hrep
  | carved _ _ hrep => exact hrep

theorem SortedFree.mem_served (h : SortedFree s q) (hq : q .free = L ++ b :: R)
    (hat : AllocatedAt s q n L b R s' q' r) :
    (∃ k, r ∈ q k) ∧ ∀ k x, x ∈ q' k ↔ x ∈ q k ∧ x ≠ r := by
  have hmove : ∀ {k₀ : BlockList} {M : List ℕ}, r ∈ q k₀ → (∀ x, x ∈ M ↔ x ∈ q k₀ ∧ x ≠ r) →
      ∀ k x, x ∈ Function.update q k₀ M k ↔ x ∈ q k ∧ x ≠ r := by
    intro k₀ M hr hM k x
    by_cases hk : k = k₀
    · subst hk
      rw [Function.update_self]
      exact hM x
    · rw [Function.update_of_ne hk]
      refine ⟨fun hx => ⟨hx, ?_⟩, And.left⟩
      rintro rfl
      exact h.rep.disjoint k k₀ hk x hx hr
  cases hat with
  | whole hb hrep =>
    have hbq : b ∈ q .free := by simp [hq]
    exact ⟨⟨.free, hbq⟩, hmove hbq fun x => h.mem_others hq⟩
  | carved ha hlt hrep hb hm hrest hcnt =>
    have hrq : r ∈ q .available := by simp [ha]
    have hnd := (h.rep.list .available).nodup
    rw [ha, List.nodup_cons] at hnd
    refine ⟨⟨.available, hrq⟩, hmove hrq fun x => ?_⟩
    rw [ha, List.mem_cons]
    refine ⟨fun hx => ⟨.inr hx, ?_⟩, fun hx => hx.1.resolve_left hx.2⟩
    rintro rfl
    exact hnd.1 hx

theorem SortedFree.free_blocks (h : SortedFree s q) (hq : q .free = L ++ b :: R)
    (hat : AllocatedAt s q n L b R s' q' r) :
    s.size b = n ∧ (q' .free).map s'.block = L.map s.block ++ R.map s.block ∨
      n < s.size b ∧ (q' .free).map s'.block =
        L.map s.block ++ ⟨s.sva b + n, s.size b - n⟩ :: R.map s.block := by
  have hkeep : ∀ y ∈ L ++ R, s'.block y = s.block y := by
    intro y hy
    obtain ⟨hyq, hyb⟩ := (h.mem_others hq).mp hy
    exact hat.block_of_ne hyb (h.rep.disjoint .free .available (by decide) y hyq)
  cases hat with
  | whole hb hrep => exact .inl ⟨hb, by simp; rfl⟩
  | carved ha hlt hrep hb hm hrest hcnt =>
    refine .inr ⟨hlt, ?_⟩
    rw [Function.update_of_ne (by decide), hq, List.map_append, List.map_cons, hb,
      List.map_congr_left fun y hy => hkeep y (by simp [hy]),
      List.map_congr_left (l := R) fun y hy => hkeep y (by simp [hy])]

theorem SortedFree.served (h : SortedFree s q) (hq : q .free = L ++ b :: R)
    (hat : AllocatedAt s q n L b R s' q' r) : SortedFree s' q' := by
  have hord := h.ordered
  rw [hq, List.map_append, List.map_cons] at hord
  obtain ⟨hLR, -, hL, hR⟩ := Spaced.append_cons_iff.mp hord
  have hword : ∀ x ∈ q' .free, (s'.block x).stop ≤ 2 ^ 32 := by
    have hold : ∀ c ∈ (q .free).map s.block, c.stop ≤ 2 ^ 32 := by simpa using h.word
    rw [hq, List.map_append, List.map_cons] at hold
    intro x hx
    have hc := List.mem_map_of_mem (f := s'.block) hx
    generalize s'.block x = c at hc
    rcases h.free_blocks hq hat with ⟨-, he⟩ | ⟨hlt, he⟩
    · exact hold c (by rw [he] at hc; simp only [List.mem_append, List.mem_cons] at hc ⊢; tauto)
    · rw [he, List.mem_append, List.mem_cons] at hc
      rcases hc with hc | rfl | hc
      · exact hold c (by simp only [List.mem_append, hc, true_or])
      · have := hold (s.block b) (by simp)
        simp only [State.block, Interval.stop] at this ⊢
        omega
      · exact hold c (by simp only [List.mem_append, List.mem_cons, hc, or_true])
  have hordered : Ordered ((q' .free).map s'.block) := by
    rcases h.free_blocks hq hat with ⟨-, he⟩ | ⟨hlt, he⟩
    · exact he ▸ hLR
    · refine he ▸ Spaced.append_cons_iff.mpr ⟨hLR, Nat.sub_pos_of_lt hlt, fun l hl => ?_,
        fun c hc => ?_⟩
      · exact (hL l hl).trans (Nat.le_add_right _ _)
      · have := hR c hc
        simp only [State.block, Interval.stop] at this ⊢
        omega
  exact ⟨hat.represents, fun k x hx => hat.count ▸ h.nodes k x (((h.mem_served hq hat).2 k x).mp hx).1,
    hordered, hword⟩

theorem Inv.sortedFree {h : Heap} (inv : Inv h s q) : SortedFree s q where
  rep := inv.rep
  nodes k x hx := inv.cnt ▸ (inv.nodes x).mpr ⟨k, hx⟩
  ordered := inv.parts.coalesced.weaken
  word _ hx := (inv.word (.inl hx)).le

private theorem SortedFree.serves (h : SortedFree s q) {Chosen : ℕ → Prop}
    (hq : q .free = L ++ b :: R) (hfit : n ≤ s.size b) (hb : Chosen b)
    (hat : AllocatedAt s q n L b R s' q' r) : Serves Chosen s q n (some (s', some r)) :=
  .served hq hfit hb hat hat.block_eq (h.served hq hat)

theorem SortedFree.lowest (h : SortedFree s q) (hq : q .free = L ++ b :: R) (hb : n ≤ s.size b)
    (hL : ∀ y ∈ L, ¬ n ≤ s.size y) : LowestFrom s q n 0 b where
  fits := hb
  above := Nat.zero_le _
  lowest y hy _ hyn := by
    rw [hq, List.mem_append, List.mem_cons] at hy
    rcases hy with hy | rfl | hy
    · exact absurd hyn (hL y hy)
    · exact le_rfl
    · exact (h.sva_lt hq hy).le

theorem SortedFree.tightest (h : SortedFree s q) (hq : q .free = L ++ b :: R)
    (hb : FirstSmallest s (n ≤ s.size ·) L b R) : Tightest s q n b where
  fits := hb.1
  smallest y hy hyn := by
    rw [hq, List.mem_append, List.mem_cons] at hy
    rcases hy with hy | rfl | hy
    · exact .inl (hb.2.1 y hy hyn)
    · exact .inr ⟨rfl, le_rfl⟩
    · exact (hb.2.2 y hy hyn).lt_or_eq.imp_right fun he => ⟨he, (h.sva_lt hq hy).le⟩

/-- The loop that `alloc_block_FF` and `alloc_block_NF` share. -/
theorem SortedFree.firstFitLoop (h : SortedFree s q)
    (hav : ∀ b ∈ q .free, LowestFrom s q n 0 b → n < s.size b → q .available ≠ []) :
    FirstFit s q n (s.forEach id .free (firstFitBody (s.first .available) n) s) := by
  change FirstFit s q n (allocBlockFF s n)
  by_cases hfit : ∃ x ∈ q .free, n ≤ s.size x
  · obtain ⟨L, b, R, hq, hb, hL⟩ := exists_first hfit
    have hlow := h.lowest hq hb hL
    obtain ⟨s', q', r, hr, hat⟩ := allocBlockFF_at h.rep (h.length_le _) h.word hq hb hL
      (hav b (by simp [hq]) hlow)
    rw [hr]
    exact h.serves hq hb hlow hat
  · have hnone : ∀ x ∈ q .free, s.size x < n := fun x hx =>
      not_le.mp fun hle => hfit ⟨x, hx, hle⟩
    rw [allocBlockFF_none h.rep (h.length_le _) hnone]
    exact .refused hnone

/-- A call that does not fail returns NULL with nothing changed, or the front of the first block
that is large enough. -/
theorem SortedFree.allocBlockFF_cases (h : SortedFree s q) {o : Option ℕ}
    (hs : allocBlockFF s n = some (s', o)) :
    o = none ∧ s' = s ∨ ∃ L b R q' r, o = some r ∧ q .free = L ++ b :: R ∧ n ≤ s.size b ∧
      AllocatedAt s q n L b R s' q' r := by
  by_cases hfit : ∃ x ∈ q .free, n ≤ s.size x
  · obtain ⟨L, b, R, hq, hb, hL⟩ := exists_first hfit
    by_cases hnil : n < s.size b ∧ q .available = []
    · rw [allocBlockFF_fail h.rep (h.length_le _) hq hnil.1 hL hnil.2] at hs
      cases hs
    · obtain ⟨t, q', r, hr, hat⟩ := allocBlockFF_at h.rep (h.length_le _) h.word hq hb hL
        (fun hlt he => hnil ⟨hlt, he⟩)
      obtain ⟨rfl, rfl⟩ := Prod.mk.inj (Option.some.inj (hr.symm.trans hs))
      exact .inr ⟨L, b, R, q', r, rfl, hq, hb, hat⟩
  · rw [allocBlockFF_none h.rep (h.length_le _) fun x hx => not_le.mp fun hle => hfit ⟨x, hx, hle⟩] at hs
    obtain ⟨rfl, rfl⟩ := Prod.mk.inj (Option.some.inj hs)
    exact .inl ⟨rfl, rfl⟩

/-- `alloc_block_FF` is first fit. -/
theorem allocBlockFF_serves_lowest (h : SortedFree s q)
    (hav : ∀ b ∈ q .free, LowestFrom s q n 0 b → n < s.size b → q .available ≠ []) :
    FirstFit s q n (allocBlockFF s n) :=
  h.firstFitLoop hav

theorem exists_oneFree : ∃ s q, SortedFree s q ∧ q .available ≠ [] ∧
    ∃ x, q .free = [x] ∧ s.block x = ⟨userHeapStart, userHeapMax - userHeapStart⟩ := by
  obtain ⟨s, q, -, inv, hfree, -⟩ := initialize_inv userHeap zeroed
  rw [inv.blocks_eq, List.map_eq_singleton_iff] at hfree
  obtain ⟨x, hx, hb⟩ := hfree
  have hxq : x ∈ q .free := by simp [hx]
  refine ⟨s, q, inv.sortedFree, ?_, x, hx, hb⟩
  refine inv.available_ne_nil (n := pageSize) (by decide) dvd_rfl hxq ?_
  rw [show s.size x = userHeapMax - userHeapStart from congrArg IntervalLists.Interval.length hb]
  decide

def sixPages : Heap := ⟨0x1000, 0x7000, 6, by decide, by decide, by decide, by decide, threePages.dvd_lo⟩

/-- Two pages, then single pages; the two pages and the second single page are released. -/
def afterSixPages : Option State :=
  initializeDynBlockSystem sixPages zeroed >>= (runLegal ·
    [.allocFF 0x2000, .allocFF 0x1000, .allocFF 0x1000, .allocFF 0x1000, .free 0x1000, .free 0x4000])

def handedOut (r : Option (State × Option ℕ)) : Option Interval := r >>= fun (s, b) => b.map s.block

theorem exists_threeFree : ∃ s q, SortedFree s q ∧ q .available ≠ [] ∧
    (q .free).map s.block = [⟨0x1000, 0x2000⟩, ⟨0x4000, 0x1000⟩, ⟨0x6000, 0x1000⟩] ∧
    handedOut (allocBlockFF s pageSize) = some ⟨0x1000, 0x1000⟩ ∧
    handedOut (allocBlockBF s pageSize 0 0) = some ⟨0x4000, 0x1000⟩ := by
  have hrun : afterSixPages.map (fun s => (s.nodes .available, s.blocks .free,
      handedOut (allocBlockFF s pageSize), handedOut (allocBlockBF s pageSize 0 0))) =
      some ([1], [⟨0x1000, 0x2000⟩, ⟨0x4000, 0x1000⟩, ⟨0x6000, 0x1000⟩], some ⟨0x1000, 0x1000⟩,
        some ⟨0x4000, 0x1000⟩) := by decide +kernel
  obtain ⟨s, hs, he⟩ := Option.map_eq_some_iff.mp hrun
  rw [afterSixPages, Option.bind_eq_bind] at hs
  obtain ⟨s₁, hs₁, hs⟩ := Option.bind_eq_some_iff.mp hs
  obtain ⟨q, inv⟩ := (reachable_of_runLegal (.init hs₁) hs).inv
  simp only [Prod.mk.injEq] at he
  refine ⟨s, q, inv.sortedFree, ?_, inv.blocks_eq .free ▸ he.2.1, he.2.2.1, he.2.2.2⟩
  rw [← inv.nodes_eq, he.1]
  decide

/-- A page is taken from the first block. -/
theorem allocBlockFF_serves_lowest_page : ∃ s q, SortedFree s q ∧
    (q .free).map s.block = [⟨0x1000, 0x2000⟩, ⟨0x4000, 0x1000⟩, ⟨0x6000, 0x1000⟩] ∧
    handedOut (allocBlockFF s pageSize) = some ⟨0x1000, 0x1000⟩ ∧
    FirstFit s q pageSize (allocBlockFF s pageSize) := by
  obtain ⟨s, q, h, hav, hfree, hff, -⟩ := exists_threeFree
  exact ⟨s, q, h, hfree, hff, allocBlockFF_serves_lowest h fun _ _ _ _ => hav⟩

/-- `alloc_block_BF` is best fit unless no free block is large enough and its locals happen
to hold the size and the address of a free block. -/
theorem allocBlockBF_serves_tightest_iff (h : SortedFree s q) (hn : 0 < n)
    (hav : q .available ≠ []) (u v : ℕ) :
    BestFit s q n (allocBlockBF s n u v) ↔
      (∃ x ∈ q .free, n ≤ s.size x) ∨ ¬ ∃ x ∈ q .free, s.size x = u ∧ s.sva x = v := by
  by_cases hfit : ∃ x ∈ q .free, n ≤ s.size x
  · refine iff_of_true ?_ (.inl hfit)
    obtain ⟨L, b, R, s', q', r, hq, hb, hr, hat⟩ :=
      allocBlockBF_at h.rep (h.length_le _) h.word (fun _ => hav) hn hfit u v
    rw [hr]
    exact h.serves hq hb.1 (h.tightest hq hb) hat
  · have hnone : ∀ x ∈ q .free, s.size x < n := fun x hx =>
      not_le.mp fun hle => hfit ⟨x, hx, hle⟩
    by_cases huv : ∃ x ∈ q .free, s.size x = u ∧ s.sva x = v
    · refine iff_of_false ?_ (not_or.mpr ⟨hfit, not_not.mpr huv⟩)
      obtain ⟨s', r, hr, -⟩ := allocBlockBF_stale h.rep (h.length_le _) hnone huv hav
      rw [hr]
      intro hserves
      cases hserves with
      | served hq hle _ _ _ _ => exact hfit ⟨_, by simp [hq], hle⟩
    · refine iff_of_true ?_ (.inr huv)
      rw [allocBlockBF_none h.rep (h.length_le _) hnone huv]
      exact .refused hnone

/-- A page is taken from the second block. -/
theorem allocBlockBF_serves_tightest_iff_page : ∃ s q, SortedFree s q ∧
    (q .free).map s.block = [⟨0x1000, 0x2000⟩, ⟨0x4000, 0x1000⟩, ⟨0x6000, 0x1000⟩] ∧
    handedOut (allocBlockBF s pageSize 0 0) = some ⟨0x4000, 0x1000⟩ ∧
    BestFit s q pageSize (allocBlockBF s pageSize 0 0) ∧
    (BestFit s q pageSize (allocBlockBF s pageSize 0 0) ↔
      (∃ x ∈ q .free, pageSize ≤ s.size x) ∨ ¬ ∃ x ∈ q .free, s.size x = 0 ∧ s.sva x = 0) := by
  obtain ⟨s, q, h, hav, hfree, -, hbf⟩ := exists_threeFree
  have hiff := allocBlockBF_serves_tightest_iff h (n := pageSize) (by decide) hav 0 0
  have hmem : (⟨0x4000, 0x1000⟩ : Interval) ∈ (q .free).map s.block := by simp [hfree]
  obtain ⟨x, hx, hb⟩ := List.mem_map.mp hmem
  exact ⟨s, q, h, hfree, hbf, hiff.mpr (.inl ⟨x, hx, (congrArg IntervalLists.Interval.length hb).ge⟩), hiff⟩

/-- A request that exceeds the only free block is served from it when the locals still hold
the size and the address of that block. -/
theorem allocBlockBF_stale_locals : ∃ s q, SortedFree s q ∧ q .available ≠ [] ∧
    ¬ BestFit s q (userHeapMax - userHeapStart + pageSize)
      (allocBlockBF s (userHeapMax - userHeapStart + pageSize) (userHeapMax - userHeapStart)
        userHeapStart) := by
  obtain ⟨s, q, h, hav, x, hx, hb⟩ := exists_oneFree
  have hsize : s.size x = userHeapMax - userHeapStart := congrArg IntervalLists.Interval.length hb
  have hnone : ∀ y ∈ q .free, s.size y < userHeapMax - userHeapStart + pageSize := by
    intro y hy
    obtain rfl : y = x := by simpa [hx] using hy
    rw [hsize]
    exact Nat.lt_add_of_pos_right (by decide)
  refine ⟨s, q, h, hav, fun hserves => ?_⟩
  obtain ⟨s', r, hr, -⟩ := allocBlockBF_stale h.rep (h.length_le _) hnone
    ⟨x, by simp [hx], hsize, congrArg Interval.start hb⟩ hav
  rw [hr] at hserves
  cases hserves with
  | served hq hle _ _ _ _ => exact absurd (hnone _ (by simp [hq])) hle.not_gt

end FosKernel.DynamicAllocator
