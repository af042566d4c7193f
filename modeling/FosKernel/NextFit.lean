import FosKernel.FitStrategies

/-!
# Next fit over a run

Calls of `alloc_block_NF` and releases by `insert_sorted_with_merge_freeList`.
The blocks that are handed out stay apart from the free list and from each other,
so the free list is sorted throughout, and a call is next fit exactly when the
scan from the start of the list finds the same block.
-/

namespace FosKernel.DynamicAllocator
open IntrusiveList IntervalLists

/-- What next fit is to do when the last block that it handed out is at `last`. -/
abbrev NextFit (s : State) (q : BlockList → List ℕ) (n last : ℕ) :
    Option (State × Option ℕ) → Prop :=
  Serves (fun b => LowestFrom s q n last b ∨
    (∀ y ∈ q .free, last ≤ s.sva y → s.size y < n) ∧ LowestFrom s q n 0 b) s q n

/-- The lists, the blocks that are handed out and not released, and the address of the block
that the last successful call of `alloc_block_NF` returned. -/
structure Handed where
  state : State
  held : Finset ℕ
  last : ℕ

inductive Request
  | alloc (size : ℕ)
  | free (blk : ℕ)

namespace Handed

/-- Sizes are positive, and only blocks that were handed out are released. -/
def Allowed (c : Handed) : Request → Prop
  | .alloc size => 0 < size
  | .free blk => blk ∈ c.held

instance (c : Handed) : (op : Request) → Decidable (c.Allowed op)
  | .alloc size => inferInstanceAs (Decidable (0 < size))
  | .free blk => inferInstanceAs (Decidable (blk ∈ c.held))

def step (c : Handed) : Request → Option Handed
  | .alloc size => (allocBlockNF c.state size).map fun
    | (s, some blk) => ⟨s, insert blk c.held, s.sva blk⟩
    | (s, none) => ⟨s, c.held, c.last⟩
  | .free blk => (insertSortedWithMergeFreeList c.state blk).map (⟨·, c.held.erase blk, c.last⟩)

/-- A run of requests, `none` when one is not allowed or a call fails. -/
def run (c : Handed) : List Request → Option Handed
  | [] => some c
  | op :: ops => if c.Allowed op then c.step op >>= (run · ops) else none

end Handed

/-- The free list is sorted, and the blocks that are handed out lie apart from it and from each
other in `[lo, hi)`. -/
structure HoldsApart (lo hi : ℕ) (s : State) (held : Finset ℕ) (q : BlockList → List ℕ) : Prop where
  free : SortedFree s q
  bounds : ∀ x, x ∈ held ∨ x ∈ q .free → lo ≤ (s.block x).start ∧ (s.block x).stop ≤ hi
  off : ∀ x ∈ held, x < s.maxMemBlockCnt ∧ ∀ k, x ∉ q k
  pos : ∀ x ∈ held, 0 < (s.block x).length
  apart : ∀ x ∈ held, ∀ a, (s.block x).Contains a → ¬ Covered ((q .free).map s.block) a
  disjoint : ∀ x ∈ held, ∀ y ∈ held, x ≠ y →
    ∀ a, (s.block x).Contains a → ¬ (s.block y).Contains a

variable {lo hi n : ℕ} {s s' : State} {held : Finset ℕ} {q q' : BlockList → List ℕ}
  {L R : List ℕ} {b r : ℕ}

private theorem bounds_of_covered {xs : List Interval} (h : ∀ c ∈ xs, 0 < c.length)
    (hcov : ∀ a, Covered xs a → lo ≤ a ∧ a < hi) : ∀ c ∈ xs, lo ≤ c.start ∧ c.stop ≤ hi := by
  intro c hc
  have hpos := h c hc
  have hstart := hcov c.start ⟨c, hc, le_rfl, by simp only [Interval.stop]; omega⟩
  have hlast := hcov (c.stop - 1) ⟨c, hc, by simp only [Interval.stop]; omega,
    by simp only [Interval.stop]; omega⟩
  exact ⟨hstart.1, by omega⟩

namespace HoldsApart

theorem covered_iff (h : SortedFree s q) (hq : q .free = L ++ b :: R)
    (hat : AllocatedAt s q n L b R s' q' r) (a : ℕ) :
    Covered ((q' .free).map s'.block) a ↔
      Covered ((q .free).map s.block) a ∧ ¬ (s'.block r).Contains a := by
  have hord := h.ordered
  rw [hq, List.map_append, List.map_cons] at hord
  have hb := fun ha : (s.block b).Contains a => hord.not_covered ha
  rw [hat.block_eq, hq, List.map_append, List.map_cons]
  rcases h.free_blocks hq hat with ⟨hsize, he⟩ | ⟨hlt, he⟩
  · rw [he]
    have hcon : (⟨s.sva b, n⟩ : Interval).Contains a ↔ (s.block b).Contains a := by rw [← hsize]; rfl
    rw [hcon]
    simp only [covered_append, covered_cons] at hb ⊢
    tauto
  · rw [he]
    have hcon : (s.block b).Contains a ↔ (⟨s.sva b, n⟩ : Interval).Contains a ∨
        (⟨s.sva b + n, s.size b - n⟩ : Interval).Contains a := by
      simp only [Interval.Contains, Interval.stop, State.block]
      omega
    have hne : ¬ ((⟨s.sva b, n⟩ : Interval).Contains a ∧
        (⟨s.sva b + n, s.size b - n⟩ : Interval).Contains a) := by
      simp only [Interval.Contains, Interval.stop]
      omega
    simp only [covered_append, covered_cons] at hb ⊢
    tauto

private theorem covered_bounds (h : HoldsApart lo hi s held q) (a : ℕ)
    (ha : Covered ((q .free).map s.block) a) : lo ≤ a ∧ a < hi := by
  obtain ⟨c, hc, hca⟩ := ha
  obtain ⟨x, hx, rfl⟩ := List.mem_map.mp hc
  have := h.bounds x (.inr hx)
  exact ⟨this.1.trans hca.1, hca.2.trans_le this.2⟩

private theorem block_eq (h : HoldsApart lo hi s held q) (hq : q .free = L ++ b :: R)
    (hat : AllocatedAt s q n L b R s' q' r) : ∀ x ∈ held, s'.block x = s.block x := fun x hx =>
  hat.block_of_ne (fun he => (h.off x hx).2 .free (by simp [hq, he])) ((h.off x hx).2 .available)

theorem served (h : HoldsApart lo hi s held q) (hq : q .free = L ++ b :: R)
    (hat : AllocatedAt s q n L b R s' q' r) : HoldsApart lo hi s' held q' := by
  have hcov := covered_iff h.free hq hat
  have hkeep := h.block_eq hq hat
  have hmem := (h.free.mem_served hq hat).2
  have hfree := h.free.served hq hat
  refine ⟨hfree, fun x hx => ?_, fun x hx => ?_, fun x hx => ?_, fun x hx a ha => ?_,
    fun x hx y hy hxy a ha => ?_⟩
  · rcases hx with hx | hx
    · exact hkeep x hx ▸ h.bounds x (.inl hx)
    · exact bounds_of_covered hfree.ordered.pos (fun a ha => h.covered_bounds a ((hcov a).mp ha).1) _
        (List.mem_map_of_mem (f := s'.block) hx)
  · rw [hat.count]
    exact ⟨(h.off x hx).1, fun k hk => (h.off x hx).2 k ((hmem k x).mp hk).1⟩
  · exact hkeep x hx ▸ h.pos x hx
  · rw [hcov]
    exact fun hc => h.apart x hx a (hkeep x hx ▸ ha) hc.1
  · rw [hkeep x hx] at ha
    rw [hkeep y hy]
    exact h.disjoint x hx y hy hxy a ha

theorem alloc (h : HoldsApart lo hi s held q) (hn : 0 < n) (hq : q .free = L ++ b :: R)
    (hle : n ≤ s.size b) (hat : AllocatedAt s q n L b R s' q' r) :
    HoldsApart lo hi s' (insert r held) q' := by
  have hrb : ∀ a, (s'.block r).Contains a → Covered ((q .free).map s.block) a := by
    intro a ha
    refine ⟨s.block b, List.mem_map_of_mem (by simp [hq]), ?_⟩
    rw [hat.block_eq] at ha
    simp only [Interval.Contains, Interval.stop, State.block] at ha ⊢
    omega
  have hserved := h.served hq hat
  obtain ⟨⟨k₀, hr⟩, hmem⟩ := h.free.mem_served hq hat
  have hapart : ∀ x ∈ held, ∀ a, (s'.block x).Contains a → ¬ (s'.block r).Contains a :=
    fun x hx a ha hra => h.apart x hx a (h.block_eq hq hat x hx ▸ ha) (hrb a hra)
  have hheld {x : ℕ} : x ∈ insert r held → x = r ∨ x ∈ held := Finset.mem_insert.mp
  refine ⟨hserved.free, fun x hx => ?_, fun x hx => ?_, fun x hx => ?_, fun x hx a ha => ?_,
    fun x hx y hy hxy a ha => ?_⟩
  · rcases hx.imp_left hheld with (rfl | hx) | hx
    · have hpos : ∀ c ∈ [s'.block x], 0 < c.length := by simp [hat.block_eq, hn]
      exact bounds_of_covered hpos (fun a ha => h.covered_bounds a (hrb a (by simpa using ha))) _ (by simp)
    · exact hserved.bounds x (.inl hx)
    · exact hserved.bounds x (.inr hx)
  · rcases hheld hx with rfl | hx
    · exact ⟨hat.count ▸ h.free.nodes k₀ x hr, fun k hk => ((hmem k x).mp hk).2 rfl⟩
    · exact hserved.off x hx
  · rcases hheld hx with rfl | hx
    · exact hat.block_eq ▸ hn
    · exact hserved.pos x hx
  · rcases hheld hx with rfl | hx
    · exact fun hc => ((covered_iff h.free hq hat a).mp hc).2 ha
    · exact hserved.apart x hx a ha
  · rcases hheld hx with hxr | hxh <;> rcases hheld hy with hyr | hyh
    · exact absurd (hxr.trans hyr.symm) hxy
    · exact fun hya => hapart y hyh a hya (hxr ▸ ha)
    · exact hyr ▸ hapart x hxh a ha
    · exact hserved.disjoint x hxh y hyh hxy a ha

theorem release (h : HoldsApart lo hi s held q) (hhi : hi ≤ 2 ^ 32) (hspan : hi - lo < 2 ^ 32)
    (hb : b ∈ held) : ∃ s' q', insertSortedWithMergeFreeList s b = some s' ∧
      HoldsApart lo hi s' (held.erase b) q' ∧ q' .alloc = q .alloc ∧
      (∀ x, x ≠ b → x ∉ q .free → s'.block x = s.block x) ∧
      ∀ a, Covered ((q' .free).map s'.block) a ↔
        Covered ((q .free).map s.block) a ∨ (s.block b).Contains a := by
  have hbp := h.pos b hb
  have hbc : (s.block b).Contains (s.block b).start := ⟨le_rfl, by simp only [Interval.stop]; omega⟩
  have hne : ∀ x ∈ q .free, ∀ a, (s.block b).Contains a → ¬ (s.block x).Contains a :=
    fun x hx a ha hxa => h.apart b hb a ha ⟨_, List.mem_map_of_mem hx, hxa⟩
  have hxc : ∀ x ∈ q .free, (s.block x).Contains (s.block x).start := fun x hx =>
    ⟨le_rfl, Nat.lt_add_of_pos_right (h.free.size_pos hx)⟩
  obtain ⟨L, R, hq, hL, hR⟩ := exists_split h.free.sorted (v := s.sva b) fun x hx he =>
    hne x hx _ hbc (by rw [State.block_start, ← he]; exact hxc x hx)
  have hstopL : ∀ x ∈ L, (s.block x).stop ≤ s.sva b := fun x hx =>
    Interval.stop_le_start (c := s.block b) (hL x hx).le hbp
      fun a hxa hba => hne x (by simp [hq, hx]) a hba hxa
  have hstopR : ∀ x ∈ R, (s.block b).stop ≤ s.sva x := fun x hx =>
    Interval.stop_le_start (c := s.block x) (hR x hx).le (h.free.size_pos (by simp [hq, hx]))
      (hne x (by simp [hq, hx]))
  obtain ⟨s', q', hs', hrel⟩ := insertSortedWithMergeFreeList_eq h.free.rep (h.off b hb).2 hq
    hstopL hstopR (by
      rintro x (rfl | hx)
      · exact hbp
      · exact h.free.size_pos hx)
    (by
      rintro x (rfl | hx)
      · exact h.bounds x (.inl hb)
      · exact h.bounds x (.inr hx)) hhi hspan (h.free.length_le _)
  obtain ⟨L', c, R', hmap, hl, hr⟩ := hrel.joins
  have hord := h.free.ordered
  rw [hq, List.map_append] at hord
  obtain ⟨hord', hcov⟩ := Partition.joined_ordered (Spaced.append_cons_iff.mpr
    ⟨hord, hbp, by simpa using hstopL, by simpa using hstopR⟩) hl hr
  rw [← hmap] at hord' hcov
  have hcov : ∀ a, Covered ((q' .free).map s'.block) a ↔
      Covered ((q .free).map s.block) a ∨ (s.block b).Contains a := by
    intro a
    rw [hcov, hq, List.map_append]
    simp only [covered_append, covered_cons]
    tauto
  have hbounds : ∀ x ∈ q' .free, lo ≤ (s'.block x).start ∧ (s'.block x).stop ≤ hi := by
    intro x hx
    refine bounds_of_covered hord'.pos (fun a ha => ?_) _ (List.mem_map_of_mem (f := s'.block) hx)
    rcases (hcov a).mp ha with ⟨c, hc, hca⟩ | hba
    · obtain ⟨y, hy, rfl⟩ := List.mem_map.mp hc
      have := h.bounds y (.inr hy)
      exact ⟨this.1.trans hca.1, hca.2.trans_le this.2⟩
    · have := h.bounds b (.inl hb)
      exact ⟨this.1.trans hba.1, hba.2.trans_le this.2⟩
  have hkeep : ∀ x ∈ held.erase b, x ∈ held ∧ x ≠ b ∧ s'.block x = s.block x := by
    intro x hx
    obtain ⟨hxb, hx⟩ := Finset.mem_erase.mp hx
    exact ⟨hx, hxb, hrel.live x hxb ((h.off x hx).2 .free)⟩
  refine ⟨s', q', hs', ⟨⟨hrel.rep, fun k x hx => ?_, hord', fun x hx => (hbounds x hx).2.trans hhi⟩,
    fun x hx => ?_, fun x hx => ?_, fun x hx => ?_, fun x hx a ha => ?_, fun x hx y hy hxy a ha => ?_⟩,
    hrel.alloc, hrel.live, hcov⟩
  · rw [hrel.cnt]
    rcases (hrel.nodes x).mp ⟨k, hx⟩ with rfl | ⟨k', hx⟩
    · exact (h.off x hb).1
    · exact h.free.nodes k' x hx
  · rcases hx with hx | hx
    · obtain ⟨hx, -, he⟩ := hkeep x hx
      exact he ▸ h.bounds x (.inl hx)
    · exact hbounds x hx
  · obtain ⟨hx, hxb, -⟩ := hkeep x hx
    refine ⟨hrel.cnt ▸ (h.off x hx).1, fun k hk => ?_⟩
    rcases (hrel.nodes x).mp ⟨k, hk⟩ with rfl | ⟨k', hk'⟩
    · exact hxb rfl
    · exact (h.off x hx).2 k' hk'
  · obtain ⟨hx, -, he⟩ := hkeep x hx
    exact he ▸ h.pos x hx
  · obtain ⟨hx, hxb, he⟩ := hkeep x hx
    rw [he] at ha
    rw [hcov]
    rintro (hf | hba)
    · exact h.apart x hx a ha hf
    · exact h.disjoint x hx b hb hxb a ha hba
  · obtain ⟨hx, -, hex⟩ := hkeep x hx
    obtain ⟨hy, -, hey⟩ := hkeep y hy
    rw [hex] at ha
    rw [hey]
    exact h.disjoint x hx y hy hxy a ha

end HoldsApart

theorem HoldsApart.step {c c' : Handed} {op : Request} (h : HoldsApart lo hi c.state c.held q)
    (hhi : hi ≤ 2 ^ 32) (hspan : hi - lo < 2 ^ 32) (hop : c.Allowed op) (hs : c.step op = some c') :
    ∃ q', HoldsApart lo hi c'.state c'.held q' := by
  cases op with
  | alloc n =>
    obtain ⟨⟨s', o⟩, hs', rfl⟩ := Option.map_eq_some_iff.mp hs
    rcases h.free.allocBlockFF_cases hs' with ⟨rfl, rfl⟩ | ⟨L, b, R, q', r, rfl, hq, hle, hat⟩
    · exact ⟨q, h⟩
    · exact ⟨q', h.alloc hop hq hle hat⟩
  | free b =>
    obtain ⟨s', hs', rfl⟩ := Option.map_eq_some_iff.mp hs
    obtain ⟨t, q', ht, h', -⟩ := h.release hhi hspan hop
    obtain rfl := Option.some.inj (ht.symm.trans hs')
    exact ⟨q', h'⟩

theorem HoldsApart.run {c c' : Handed} {ops : List Request} (h : HoldsApart lo hi c.state c.held q)
    (hhi : hi ≤ 2 ^ 32) (hspan : hi - lo < 2 ^ 32) (hs : c.run ops = some c') :
    ∃ q', HoldsApart lo hi c'.state c'.held q' := by
  induction ops generalizing c q with
  | nil => exact Option.some.inj hs ▸ ⟨q, h⟩
  | cons op ops ih =>
    simp only [Handed.run] at hs
    split at hs
    · obtain ⟨c₁, hs₁, hs⟩ := Option.bind_eq_some_iff.mp hs
      obtain ⟨q₁, h₁⟩ := h.step hhi hspan ‹_› hs₁
      exact ih h₁ hs
    · cases hs

/-- The scan from the start is next fit when the blocks that are large enough all lie on one
side of `last`. -/
theorem SortedFree.nextFit_iff (h : SortedFree s q) (hav : q .available ≠ []) (last : ℕ) :
    NextFit s q n last (allocBlockNF s n) ↔
      (∀ x ∈ q .free, n ≤ s.size x → last ≤ s.sva x) ∨
        ∀ x ∈ q .free, n ≤ s.size x → s.sva x < last := by
  have hff : FirstFit s q n (allocBlockNF s n) := h.firstFitLoop fun _ _ _ _ => hav
  generalize allocBlockNF s n = r at hff
  cases hff with
  | refused hnone =>
    refine iff_of_true (.refused hnone) (.inl fun x hx hle => absurd (hnone x hx) hle.not_gt)
  | @served L R b r s' q' hq hfit hb hat hblock hsorted =>
    have hbq : b ∈ q .free := by simp [hq]
    constructor
    · intro hserves
      cases hserves with
      | @served L' R' b' _ _ _ hq' hfit' hb' hat' hblock' hsorted' =>
        have hsva : s.sva b = s.sva b' := congrArg Interval.start (hblock.symm.trans hblock')
        rcases hb' with hb' | ⟨hnone, -⟩
        · refine .inl fun x hx hle => ?_
          exact hb'.above.trans (hsva ▸ hb.lowest x hx (Nat.zero_le _) hle)
        · refine .inr fun x hx hle => ?_
          by_contra hge
          exact absurd (hnone x hx (not_lt.mp hge)) hle.not_gt
    · intro hside
      refine .served hq hfit ?_ hat hblock hsorted
      rcases hside with habove | hbelow
      · exact .inl ⟨hfit, habove b hbq hfit, fun y hy _ hle => hb.lowest y hy (Nat.zero_le _) hle⟩
      · refine .inr ⟨fun y hy hge => ?_, hb⟩
        by_contra hle
        exact absurd (hbelow y hy (not_lt.mp hle)) hge.not_gt

/-- After every run, a call is next fit if and only if the free blocks that are large enough do
not lie on both sides of the last result. -/
theorem allocBlockNF_serves_next_iff {c₀ c : Handed} {ops : List Request} {q₀ : BlockList → List ℕ}
    (h₀ : HoldsApart lo hi c₀.state c₀.held q₀) (hhi : hi ≤ 2 ^ 32) (hspan : hi - lo < 2 ^ 32)
    (hrun : c₀.run ops = some c) (hav : c.state.nodes .available ≠ []) :
    SortedFree c.state c.state.nodes ∧
      (NextFit c.state c.state.nodes n c.last (allocBlockNF c.state n) ↔
        (∀ x ∈ c.state.nodes .free, n ≤ c.state.size x → c.last ≤ c.state.sva x) ∨
          ∀ x ∈ c.state.nodes .free, n ≤ c.state.size x → c.state.sva x < c.last) := by
  obtain ⟨q, h⟩ := h₀.run hhi hspan hrun
  have hq : c.state.nodes = q := funext fun k => nodes_eq h.free.rep (h.free.length_le k)
  rw [hq] at hav ⊢
  exact ⟨h.free, h.free.nextFit_iff hav c.last⟩

theorem Inv.holdsApart {d : Heap} (inv : Inv d s q) : HoldsApart d.lo d.hi s ∅ q where
  free := inv.sortedFree
  bounds x hx := inv.bounds (.inl (hx.resolve_left (by simp)))
  off := by simp
  pos := by simp
  apart := by simp
  disjoint := by simp

def fourPages : Heap := ⟨0x1000, 0x5000, 4, by decide, by decide, by decide, by decide, threePages.dvd_lo⟩

/-- Two pages are handed out one after the other and the lower one is released. -/
def afterTwoPages : Option Handed := do
  let s ← initializeDynBlockSystem fourPages zeroed
  Handed.run ⟨s, ∅, 0⟩ [.alloc 0x1000, .alloc 0x1000, .free 3]

private theorem afterTwoPages_eq : ∃ s q c, initializeDynBlockSystem fourPages zeroed = some s ∧
    HoldsApart fourPages.lo fourPages.hi s ∅ q ∧
    Handed.run ⟨s, ∅, 0⟩ [.alloc 0x1000, .alloc 0x1000, .free 3] = some c ∧ c.last = 0x2000 ∧
    c.state.nodes .available ≠ [] ∧
    c.state.blocks .free = [⟨0x1000, 0x1000⟩, ⟨0x3000, 0x2000⟩] := by
  obtain ⟨s, q, hs, inv, -⟩ := initialize_inv fourPages zeroed
  have hrun : afterTwoPages.map (fun c => (c.last, c.state.nodes .available, c.state.blocks .free)) =
      some (0x2000, [1], [⟨0x1000, 0x1000⟩, ⟨0x3000, 0x2000⟩]) := by decide +kernel
  obtain ⟨c, hc, he⟩ := Option.map_eq_some_iff.mp hrun
  simp only [Prod.mk.injEq] at he
  simp only [afterTwoPages, hs, Option.bind_eq_bind, Option.bind_some] at hc
  exact ⟨s, q, c, hs, inv.holdsApart, hc, he.1, by simp [he.2.1], he.2.2⟩

theorem allocBlockNF_serves_next_iff_twoPages : ∃ c, afterTwoPages = some c ∧
    SortedFree c.state c.state.nodes ∧
      (NextFit c.state c.state.nodes 0x1000 c.last (allocBlockNF c.state 0x1000) ↔
        (∀ x ∈ c.state.nodes .free, 0x1000 ≤ c.state.size x → c.last ≤ c.state.sva x) ∨
          ∀ x ∈ c.state.nodes .free, 0x1000 ≤ c.state.size x → c.state.sva x < c.last) := by
  obtain ⟨s, q, c, hs, h, hrun, -, hav, -⟩ := afterTwoPages_eq
  exact ⟨c, by simp [afterTwoPages, hs, hrun],
    allocBlockNF_serves_next_iff h (by decide) (by decide) hrun hav⟩

/-- The third call takes the released page again although there is room above the last result. -/
theorem allocBlockNF_twoPages_not_next : ∃ c, afterTwoPages = some c ∧
    SortedFree c.state c.state.nodes ∧ c.state.nodes .available ≠ [] ∧
      ¬ NextFit c.state c.state.nodes 0x1000 c.last (allocBlockNF c.state 0x1000) := by
  obtain ⟨s, q, c, hs, h, hrun, hlast, hav, hfree⟩ := afterTwoPages_eq
  obtain ⟨q', h'⟩ := h.run (by decide) (by decide) hrun
  have hq : c.state.nodes = q' := funext fun k => nodes_eq h'.free.rep (h'.free.length_le k)
  have hblock : ∀ b ∈ [(⟨0x1000, 0x1000⟩ : Interval), ⟨0x3000, 0x2000⟩],
      ∃ x ∈ q' .free, c.state.block x = b := by
    rw [← hfree, State.blocks, hq]
    simp
  obtain ⟨x, hx, hbx⟩ := hblock ⟨0x1000, 0x1000⟩ (by simp)
  obtain ⟨y, hy, hby⟩ := hblock ⟨0x3000, 0x2000⟩ (by simp)
  simp only [State.block, Interval.mk.injEq] at hbx hby
  refine ⟨c, by simp [afterTwoPages, hs, hrun], hq ▸ h'.free, hav, ?_⟩
  rw [hq] at hav ⊢
  rw [h'.free.nextFit_iff hav, hlast]
  rintro (habove | hbelow)
  · have := habove x hx hbx.2.ge
    omega
  · have := hbelow y hy (by omega)
    omega

end FosKernel.DynamicAllocator
