import FosKernel.DynamicAllocatorLists

/-!
# Runs of the dynamic block allocator

The free and the allocated blocks always partition the managed range, the free
list being coalesced. Since no block is smaller than a page and there is a node
for every page, a node is available whenever a block has to be cut. The free
list is the list of gaps between the allocated blocks, whatever the history.
-/

namespace FosKernel.DynamicAllocator
open IntrusiveList IntervalLists

/-- An allocation, with what the uninitialised locals of best fit hold, or the
release of the block at an address. -/
inductive Op
  | allocFF (size : ℕ)
  | allocBF (size newsize newveradd : ℕ)
  | free (va : ℕ)

/-- The returned block goes into `AllocMemBlocksList`. -/
def insertReturned : State × Option ℕ → Option State
  | (s, some blk) => insertSortedAllocList s blk
  | (s, none) => some s

/-- `find_block`, `LIST_REMOVE`, `insert_sorted_with_merge_freeList` -/
def release (s : State) (va : ℕ) : Option State := do
  match ← findBlock s va with
  | some blk => insertSortedWithMergeFreeList (s.remove .alloc blk) blk
  | none => some s

def step (s : State) : Op → Option State
  | .allocFF size => allocBlockFF s size >>= insertReturned
  | .allocBF size newsize newveradd => allocBlockBF s size newsize newveradd >>= insertReturned
  | .free va => release s va

/-- Some free block can hold a positive number of whole pages. -/
def Fits (s : State) (size : ℕ) : Prop :=
  0 < size ∧ pageSize ∣ size ∧ ∃ b ∈ s.blocks .free, size ≤ b.length

/-- Requests fit, and a release names an allocated block. -/
def Legal (s : State) : Op → Prop
  | .allocFF size => Fits s size
  | .allocBF size _ _ => Fits s size
  | .free va => ∃ b ∈ s.blocks .alloc, b.start = va

instance (s : State) (size : ℕ) : Decidable (Fits s size) :=
  inferInstanceAs (Decidable (0 < size ∧ pageSize ∣ size ∧ ∃ b ∈ s.blocks .free, size ≤ b.length))

instance (s : State) : (op : Op) → Decidable (Legal s op)
  | .allocFF size => inferInstanceAs (Decidable (Fits s size))
  | .allocBF size _ _ => inferInstanceAs (Decidable (Fits s size))
  | .free va => inferInstanceAs (Decidable (∃ b ∈ s.blocks .alloc, b.start = va))

inductive Reachable (h : Heap) : State → Prop
  | init {s₀ s : State} : initializeDynBlockSystem h s₀ = some s → Reachable h s
  | step {s s' : State} (op : Op) : Reachable h s → Legal s op → step s op = some s' →
    Reachable h s'

/-- The invariant, on the sequences that the lists represent. -/
structure Inv (h : Heap) (s : State) (q : BlockList → List ℕ) : Prop where
  rep : s.store.Represents q
  cnt : s.maxMemBlockCnt = h.cnt
  nodes : ∀ n, n < h.cnt ↔ ∃ k, n ∈ q k
  parts : Partition h.lo h.hi ((q .free).map s.block) ((q .alloc).map s.block)
  pages : ∀ n, n ∈ q .free ∨ n ∈ q .alloc → (s.block n).Aligned pageSize

namespace Inv

variable {h : Heap} {s : State} {q : BlockList → List ℕ}

theorem length_le (inv : Inv h s q) (k : BlockList) : (q k).length ≤ s.maxMemBlockCnt := by
  have hsub : q k ⊆ List.range h.cnt := fun n hn =>
    List.mem_range.mpr ((inv.nodes n).mpr ⟨k, hn⟩)
  simpa [inv.cnt] using ((inv.rep.list k).nodup.subperm hsub).length_le

theorem nodes_eq (inv : Inv h s q) : s.nodes = q :=
  funext fun k => DynamicAllocator.nodes_eq inv.rep (inv.length_le k)

theorem blocks_eq (inv : Inv h s q) (k : BlockList) : s.blocks k = (q k).map s.block := by
  rw [State.blocks, inv.nodes_eq]

theorem bounds (inv : Inv h s q) {n : ℕ} (hn : n ∈ q .free ∨ n ∈ q .alloc) :
    h.lo ≤ s.sva n ∧ s.sva n + s.size n ≤ h.hi := by
  have := inv.parts.bounds (b := s.block n)
    (hn.imp (List.mem_map_of_mem) (List.mem_map_of_mem))
  exact this

theorem size_pos (inv : Inv h s q) {n : ℕ} (hn : n ∈ q .free ∨ n ∈ q .alloc) : 0 < s.size n :=
  hn.elim (fun hn => inv.parts.coalesced.pos _ (List.mem_map_of_mem (f := s.block) hn))
    (fun hn => inv.parts.ordered.pos _ (List.mem_map_of_mem (f := s.block) hn))

theorem word (inv : Inv h s q) {n : ℕ} (hn : n ∈ q .free ∨ n ∈ q .alloc) :
    s.sva n + s.size n < 2 ^ 32 := (inv.bounds hn).2.trans_lt h.word

theorem page_le_size (inv : Inv h s q) {n : ℕ} (hn : n ∈ q .free ∨ n ∈ q .alloc) :
    pageSize ≤ s.size n := Nat.le_of_dvd (inv.size_pos hn) (inv.pages n hn).2

private theorem page_le_length (inv : Inv h s q) (k : BlockList) (hk : k ≠ .available) :
    ∀ b ∈ (q k).map s.block, pageSize ≤ b.length := by
  simp only [List.mem_map, forall_exists_index, and_imp, forall_apply_eq_imp_iff₂]
  intro n hn
  cases k with
  | available => exact absurd rfl hk
  | free => exact inv.page_le_size (.inl hn)
  | alloc => exact inv.page_le_size (.inr hn)

private theorem cnt_le (inv : Inv h s q) (hnil : q .available = []) :
    h.cnt ≤ (q .free).length + (q .alloc).length := by
  have hsub : List.range h.cnt ⊆ q .free ++ q .alloc := by
    intro m hm
    have := exists_list.mp ((inv.nodes m).mp (List.mem_range.mp hm))
    simpa [hnil] using this
  simpa using (List.nodup_range.subperm hsub).length_le

theorem available_ne_nil_of_spare (inv : Inv h s q) (hspare : h.hi - h.lo < pageSize * h.cnt) : q .available ≠ [] := by
  intro hnil
  have hfree := mul_length_le_total (inv.page_le_length .free (by decide))
  have halloc := mul_length_le_total (inv.page_le_length .alloc (by decide))
  have htotal := inv.parts.total_eq h.lt.le
  have hmul := Nat.mul_le_mul_left pageSize (inv.cnt_le hnil)
  simp only [List.length_map, Nat.mul_add] at hfree halloc hmul
  omega

/-- When a free block exceeds a whole number of pages there are fewer blocks than
pages, hence fewer than nodes. -/
theorem available_ne_nil (inv : Inv h s q) {n b : ℕ} (hn : 0 < n) (hp : pageSize ∣ n)
    (hb : b ∈ q .free) (hlt : n < s.size b) : q .available ≠ [] := by
  intro hnil
  obtain ⟨L, R, hq⟩ := List.append_of_mem hb
  have htwo : 2 * pageSize ≤ s.size b := by
    obtain ⟨i, hi⟩ := hp
    obtain ⟨j, hj⟩ := (inv.pages b (.inl hb)).2
    rw [State.block_length] at hj
    have hps : 0 < pageSize := by decide
    have hi0 : 0 < i := Nat.pos_of_ne_zero (by rintro rfl; omega)
    have hij : i < j := lt_of_mul_lt_mul_left (hi ▸ hj ▸ hlt) (Nat.zero_le _)
    calc 2 * pageSize ≤ j * pageSize := Nat.mul_le_mul_right _ (by omega)
      _ = s.size b := by rw [hj, Nat.mul_comm]
  have hfree := mul_length_add_le_total (inv.page_le_length .free (by decide))
    (List.mem_map_of_mem (f := s.block) hb)
  have halloc := mul_length_le_total (inv.page_le_length .alloc (by decide))
  have htotal := inv.parts.total_eq h.lt.le
  have hnodes := inv.cnt_le hnil
  have hpages := h.pages
  have hmul := Nat.mul_le_mul_left pageSize hnodes
  simp only [List.length_map, Nat.mul_add, State.block] at hfree halloc hmul
  have hps : 0 < pageSize := by decide
  omega

theorem sva_ne (inv : Inv h s q) {x y : ℕ} (hx : x ∈ q .free) (hy : y ∈ q .alloc) :
    s.sva x ≠ s.sva y := by
  have hd := inv.parts.disjoint_blocks (List.mem_map_of_mem (f := s.block) hx)
    (List.mem_map_of_mem (f := s.block) hy)
  have hxp := inv.size_pos (.inl hx)
  have hyp := inv.size_pos (.inr hy)
  simp only [State.block, Interval.stop] at hd
  omega

theorem sorted_alloc (inv : Inv h s q) :
    (q .alloc).Pairwise fun x y => s.sva x < s.sva y := by
  have hsort := List.pairwise_map.mp inv.parts.ordered.sorted
  refine hsort.imp_of_mem fun {x y} hx _ hxy => ?_
  have := inv.size_pos (.inr hx)
  simp only [State.block, Interval.stop] at hxy
  omega

theorem sorted_free (inv : Inv h s q) :
    (q .free).Pairwise fun x y => s.sva x < s.sva y := by
  have hsort := List.pairwise_map.mp inv.parts.coalesced.sorted
  refine hsort.imp_of_mem fun {x y} hx _ hxy => ?_
  have := inv.size_pos (.inl hx)
  simp only [State.block, Interval.stop] at hxy
  omega

/-- `insert_sorted_allocList` of a node that is on no list, the rest of the
invariant being there already. -/
private theorem insert_node (inv : Inv h s q) (s₁ : State) {q₁ : BlockList → List ℕ} {r : ℕ}
    (rep : s₁.store.Represents q₁) (cnt : s₁.maxMemBlockCnt = s.maxMemBlockCnt)
    (hr : ∀ k, r ∉ q₁ k) (halloc : q₁ .alloc = q .alloc)
    (hblock : ∀ x ∈ q .alloc, s₁.block x = s.block x)
    (hva : ∀ x ∈ q .alloc, s.sva x ≠ s₁.sva r)
    (nodes : ∀ n, n < h.cnt ↔ n = r ∨ ∃ k, n ∈ q₁ k)
    (pages : ∀ n, n = r ∨ n ∈ q₁ .free → (s₁.block n).Aligned pageSize)
    (parts : ∀ A B, (q .alloc).map s.block = A ++ B → (∀ x ∈ A, x.start < s₁.sva r) →
      (∀ x ∈ B, s₁.sva r < x.start) →
      Partition h.lo h.hi ((q₁ .free).map s₁.block) (A ++ s₁.block r :: B)) :
    ∃ s₂ q₂ A B, insertSortedAllocList s₁ r = some s₂ ∧ Inv h s₂ q₂ ∧ s₂.block r = s₁.block r ∧
      (q .alloc).map s.block = A ++ B ∧ (q₂ .alloc).map s₂.block = A ++ s₁.block r :: B := by
  obtain ⟨A, B, hAB, hA, hB⟩ := exists_split inv.sorted_alloc hva
  have hsva : ∀ x ∈ q .alloc, s₁.sva x = s.sva x := fun x hx =>
    congrArg Interval.start (hblock x hx)
  obtain ⟨t, ht, hrep⟩ := insertSortedAllocList_eq rep
    (by rw [halloc, cnt]; exact inv.length_le .alloc) hr (halloc.trans hAB)
    (fun x hx => by rw [hsva x (by simp [hAB, hx])]; exact hA x hx)
    (fun x hx => by rw [hsva x (by simp [hAB, hx])]; exact hB x hx)
  have hmapA : A.map s₁.block = A.map s.block :=
    List.map_congr_left fun x hx => hblock x (by simp [hAB, hx])
  have hmapB : B.map s₁.block = B.map s.block :=
    List.map_congr_left fun x hx => hblock x (by simp [hAB, hx])
  have hmap : (q .alloc).map s.block = A.map s.block ++ B.map s.block := by simp [hAB]
  have hlive : (Function.update q₁ .alloc (A ++ r :: B) .alloc).map s₁.block =
      A.map s.block ++ s₁.block r :: B.map s.block := by simp [hmapA, hmapB]
  refine ⟨_, _, A.map s.block, B.map s.block, ht, ⟨hrep, cnt.trans inv.cnt, fun n => ?_, ?_, ?_⟩,
    rfl, hmap, hlive⟩
  · rw [nodes n, exists_list, exists_list]
    simp only [Function.update_self, ne_eq, reduceCtorEq, not_false_eq_true,
      Function.update_of_ne, List.mem_append, List.mem_cons, halloc, hAB]
    tauto
  · rw [Function.update_of_ne (by decide)]
    exact hlive ▸ parts _ _ hmap (by simpa using hA) (by simpa using hB)
  · intro n hn
    rw [Function.update_of_ne (by decide), Function.update_self] at hn
    have hsize : n ∈ q .alloc → (s₁.block n).Aligned pageSize := fun hn => by
      rw [hblock n hn]
      exact inv.pages n (.inr hn)
    rcases hn with hn | hn
    · exact pages n (.inr hn)
    · rw [List.mem_append, List.mem_cons] at hn
      rcases hn with hn | hn | hn
      · exact hsize (by simp [hAB, hn])
      · exact pages n (.inl hn)
      · exact hsize (by simp [hAB, hn])

/-- The node that is handed out is on no list until it is inserted. -/
theorem not_mem_allocated (inv : Inv h s q) {n : ℕ} {s₁ : State} {q₁ : BlockList → List ℕ} {r : ℕ}
    (hal : Allocated s q n s₁ q₁ r) :
    (∀ k, r ∉ q₁ k) ∧ ∀ x, x < h.cnt ↔ x = r ∨ ∃ k, x ∈ q₁ k := by
  cases hal with
  | @whole L R _ t hq hsize hrep =>
    have hrf : r ∈ q .free := by simp [hq]
    have hrLR : r ∉ L ++ R := by
      have hnd := (inv.rep.list .free).nodup
      rw [hq] at hnd
      exact (List.nodup_cons.mp (List.nodup_middle.mp hnd)).1
    refine ⟨?_, fun m => ?_⟩
    · rintro (k | k | k)
      · simpa using inv.rep.disjoint .free .available (by decide) r hrf
      · simpa using hrLR
      · simpa using inv.rep.disjoint .free .alloc (by decide) r hrf
    · rw [inv.nodes m, exists_list, exists_list]
      simp only [Function.update_self, ne_eq, reduceCtorEq, not_false_eq_true,
        Function.update_of_ne, List.mem_append, List.mem_cons, hq]
      tauto
  | @carved L R M b m s' hq ha hlt hrep hb hm hrest hcnt =>
    have hrv : r ∈ q .available := by simp [ha]
    have hnd := (inv.rep.list .available).nodup
    rw [ha] at hnd
    refine ⟨?_, fun x => ?_⟩
    · rintro (k | k | k)
      · simpa using (List.nodup_cons.mp hnd).1
      · simpa using inv.rep.disjoint .available .free (by decide) r hrv
      · simpa using inv.rep.disjoint .available .alloc (by decide) r hrv
    · rw [inv.nodes x, exists_list, exists_list]
      simp only [Function.update_self, ne_eq, reduceCtorEq, not_false_eq_true,
        Function.update_of_ne, List.mem_cons, ha]
      tauto

theorem not_mem_nodes (inv : Inv h s q) {n : ℕ} {s₁ : State} {q₁ : BlockList → List ℕ} {r : ℕ}
    (hal : Allocated s q n s₁ q₁ r) : r < h.cnt ∧ ∀ k, r ∉ s₁.nodes k := by
  obtain ⟨hnot, hnodes⟩ := inv.not_mem_allocated hal
  have hrep : s₁.store.Represents q₁ ∧ s₁.maxMemBlockCnt = h.cnt := by
    cases hal with
    | whole _ _ hrep => exact ⟨hrep, inv.cnt⟩
    | carved _ _ _ hrep _ _ _ hcnt => exact ⟨hrep, hcnt.trans inv.cnt⟩
  refine ⟨(hnodes r).mpr (.inl rfl), fun k => ?_⟩
  have hsub : q₁ k ⊆ List.range h.cnt := fun x hx =>
    List.mem_range.mpr ((hnodes x).mpr (.inr ⟨k, hx⟩))
  have hlen := ((hrep.1.list k).nodup.subperm hsub).length_le
  rw [List.length_range] at hlen
  rw [DynamicAllocator.nodes_eq hrep.1 (hlen.trans_eq hrep.2.symm)]
  exact hnot k

/-- Handing out `n` bytes and inserting them in `AllocMemBlocksList` keeps the
invariant and adds one block to the allocated ones. -/
theorem allocated (inv : Inv h s q) {n : ℕ} (hn : 0 < n) (hp : pageSize ∣ n) {s₁ : State}
    {q₁ : BlockList → List ℕ} {r : ℕ} (hal : Allocated s q n s₁ q₁ r) :
    ∃ s₂ q₂ A B va, insertSortedAllocList s₁ r = some s₂ ∧ Inv h s₂ q₂ ∧ s₂.block r = ⟨va, n⟩ ∧
      (q .alloc).map s.block = A ++ B ∧ (q₂ .alloc).map s₂.block = A ++ ⟨va, n⟩ :: B := by
  obtain ⟨hrq, hnodes⟩ := inv.not_mem_allocated hal
  cases hal with
  | @whole L R _ t hq hsize hrep =>
    have hrf : r ∈ q .free := by simp [hq]
    have hpages : ∀ m, m = r ∨ m ∈ Function.update q .free (L ++ R) .free →
        (s.block m).Aligned pageSize := by
      intro m hm
      refine inv.pages m (.inl ?_)
      rw [Function.update_self] at hm
      rw [hq]
      simp only [List.mem_append, List.mem_cons] at hm ⊢
      tauto
    obtain ⟨s₂, q₂, A, B, h₁, h₂, h₃, h₄, h₅⟩ := inv.insert_node { s with store := t }
      hrep rfl hrq (by simp) (fun _ _ => rfl) (fun x hx => (inv.sva_ne hrf hx).symm) hnodes hpages
      (fun A B hAB hA hB => by
        rw [Function.update_self, List.map_append]
        have hparts := inv.parts
        rw [hq, List.map_append, List.map_cons, hAB] at hparts
        exact hparts.take hA hB)
    have hblock : s.block r = ⟨s.sva r, n⟩ := by rw [← hsize]; rfl
    change s₂.block r = s.block r at h₃
    rw [hblock] at h₃
    exact ⟨s₂, q₂, A, B, s.sva r, h₁, h₂, h₃, h₄, by rw [h₅]; exact congrArg (A ++ · :: B) hblock⟩
  | @carved L R M b m s' hq ha hlt hrep hb hm hrest hcnt =>
    have hbf : b ∈ q .free := by simp [hq]
    have hrv : r ∈ q .available := by simp [ha]
    have hbr : b ≠ r := ne_of_mem inv.rep (by decide : BlockList.free ≠ .available) hbf hrv
    have hrsva : s₁.sva r = s.sva b := congrArg Interval.start hm
    have hbLR : b ∉ L ++ R := by
      have hnd := (inv.rep.list .free).nodup
      rw [hq] at hnd
      exact (List.nodup_cons.mp (List.nodup_middle.mp hnd)).1
    have hLR : ∀ x ∈ L ++ R, s₁.block x = s.block x := fun x hx => by
      have hxf : x ∈ q .free := by
        rw [hq]
        simp only [List.mem_append, List.mem_cons] at hx ⊢
        tauto
      exact hrest x (fun he => hbLR (he ▸ hx))
        (ne_of_mem inv.rep (by decide : BlockList.free ≠ .available) hxf hrv)
    have hpages : ∀ x, x = r ∨ x ∈ Function.update q .available M .free →
        (s₁.block x).Aligned pageSize := by
      intro x hx
      rw [Function.update_of_ne (by decide), hq, List.mem_append, List.mem_cons] at hx
      have hrestsize : x ∈ L ++ R → (s₁.block x).Aligned pageSize := fun hx => by
        rw [hLR x hx]
        refine inv.pages x (.inl ?_)
        rw [hq]
        simp only [List.mem_append, List.mem_cons] at hx ⊢
        tauto
      rcases hx with rfl | hx | rfl | hx
      · rw [hm]
        exact ⟨(inv.pages b (.inl hbf)).1, hp⟩
      · exact hrestsize (by simp [hx])
      · rw [hb]
        have hx := inv.pages x (.inl hbf)
        exact ⟨Nat.dvd_add hx.1 hp, Nat.dvd_sub hx.2 hp⟩
      · exact hrestsize (by simp [hx])
    obtain ⟨s₂, q₂, A, B, h₁, h₂, h₃, h₄, h₅⟩ := inv.insert_node s₁ (r := r) hrep hcnt hrq (by simp)
      (fun x hx => hrest x
        (ne_of_mem inv.rep (by decide : BlockList.alloc ≠ .free) hx hbf)
        (ne_of_mem inv.rep (by decide : BlockList.alloc ≠ .available) hx hrv))
      (fun x hx => by rw [hrsva]; exact (inv.sva_ne hbf hx).symm) hnodes hpages
      (fun A B hAB hA hB => by
        have hparts := inv.parts
        rw [hq, List.map_append, List.map_cons, hAB] at hparts
        rw [hrsva] at hA hB
        have hsplit := hparts.split hn hlt hA hB
        rw [Function.update_of_ne (by decide), hq, List.map_append, List.map_cons, hb, hm]
        rwa [List.map_congr_left fun x hx => hLR x (by simp [hx]),
          List.map_congr_left fun x hx => hLR x (by simp [hx])])
    rw [hm] at h₃ h₅
    exact ⟨s₂, q₂, A, B, s.sva b, h₁, h₂, h₃, h₄, h₅⟩

/-- Unlinking an allocated block and inserting it in the free list keeps the
invariant and takes one block from the allocated ones. -/
theorem released (inv : Inv h s q) {A B : List ℕ} {b : ℕ} (hq : q .alloc = A ++ b :: B) :
    ∃ s₂ q₂, insertSortedWithMergeFreeList (s.remove .alloc b) b = some s₂ ∧ Inv h s₂ q₂ ∧
      (q₂ .alloc).map s₂.block = (A ++ B).map s.block := by
  have hba : b ∈ q .alloc := by simp [hq]
  obtain ⟨L, R, hLR, hL, hR⟩ := exists_split inv.sorted_free fun x hx => inv.sva_ne hx hba
  have hrep : (s.remove .alloc b).store.Represents (Function.update q .alloc (A ++ B)) :=
    inv.rep.remove hq
  have hbAB : b ∉ A ++ B := by
    have hnd := (inv.rep.list .alloc).nodup
    rw [hq] at hnd
    exact (List.nodup_cons.mp (List.nodup_middle.mp hnd)).1
  have hb : ∀ k, b ∉ Function.update q .alloc (A ++ B) k := by
    rintro (k | k | k)
    · simpa using inv.rep.disjoint .alloc .available (by decide) b hba
    · simpa using inv.rep.disjoint .alloc .free (by decide) b hba
    · simpa using hbAB
  have hdis : ∀ x ∈ q .free, (s.block x).stop ≤ s.sva b ∨ (s.block b).stop ≤ s.sva x :=
    fun x hx => inv.parts.disjoint_blocks (List.mem_map_of_mem (f := s.block) hx)
      (List.mem_map_of_mem (f := s.block) hba)
  have hbp := inv.size_pos (.inr hba)
  have hor : ∀ x, x = b ∨ x ∈ q .free → x ∈ q .free ∨ x ∈ q .alloc := by
    rintro x (rfl | hx)
    · exact .inr hba
    · exact .inl hx
  obtain ⟨s₂, q₂, hs₂, hrel⟩ := insertSortedWithMergeFreeList_eq hrep hb (L := L) (R := R)
    (by simpa using hLR)
    (fun x hx => (hdis x (by simp [hLR, hx])).resolve_right fun hge => by
      have := hL x hx
      simp only [State.block, Interval.stop] at hge
      omega)
    (fun x hx => (hdis x (by simp [hLR, hx])).resolve_left fun hge => by
      have hxp := inv.size_pos (n := x) (.inl (by simp [hLR, hx]))
      have := hR x hx
      simp only [State.block, Interval.stop] at hge
      omega)
    (fun x hx => inv.size_pos (hor x (by simpa using hx)))
    (fun x hx => inv.bounds (hor x (by simpa using hx))) h.word.le
    ((Nat.sub_le _ _).trans_lt h.word) (by simpa using inv.length_le .free)
  obtain ⟨L', c, R', hmap, hl, hr⟩ := hrel.joins
  have halloc : q₂ .alloc = A ++ B := by simpa using hrel.alloc
  have hkeep : ∀ x ∈ A ++ B, s₂.block x = s.block x := by
    intro x hx
    refine hrel.live x (fun he => hbAB (he ▸ hx)) ?_
    rw [Function.update_of_ne (by decide)]
    refine inv.rep.disjoint .alloc .free (by decide) x ?_
    rw [hq]
    simp only [List.mem_append, List.mem_cons] at hx ⊢
    tauto
  have hlive : (q₂ .alloc).map s₂.block = (A ++ B).map s.block := by
    rw [halloc]
    exact List.map_congr_left hkeep
  have hparts : Partition h.lo h.hi ((q₂ .free).map s₂.block) ((q₂ .alloc).map s₂.block) := by
    have hp := inv.parts
    rw [hLR, hq, List.map_append, List.map_append, List.map_cons] at hp
    rw [hmap, hlive, List.map_append]
    exact hp.release (by simpa using hL) (by simpa using hR) hl hr
  have hpages : ∀ x ∈ (q₂ .free).map s₂.block, x.Aligned pageSize := by
    rw [hmap]
    refine Partition.joined_aligned hl hr (inv.pages b (.inr hba)) ?_ ?_
    all_goals
      simp only [List.mem_map, forall_exists_index, and_imp, forall_apply_eq_imp_iff₂]
      exact fun x hx => inv.pages x (.inl (by simp [hLR, hx]))
  refine ⟨s₂, q₂, hs₂, ⟨hrel.rep, hrel.cnt.trans inv.cnt, fun n => ?_, hparts, fun n hn => ?_⟩, hlive⟩
  · rw [inv.nodes n, hrel.nodes n, exists_list, exists_list]
    simp only [Function.update_self, ne_eq, reduceCtorEq, not_false_eq_true,
      Function.update_of_ne, List.mem_append, List.mem_cons, hq]
    tauto
  · rcases hn with hn | hn
    · exact hpages _ (List.mem_map_of_mem hn)
    · have hnq : n ∈ Function.update q .alloc (A ++ B) .alloc := by simpa [halloc] using hn
      rw [hkeep n (by simpa using hnq)]
      refine inv.pages n (.inr ?_)
      rw [hq]
      simp only [Function.update_self, List.mem_append, List.mem_cons] at hnq ⊢
      tauto

end Inv

section Runs

variable {h : Heap} {s : State}

private theorem insertNodes_represents {t : Store BlockList ℕ}
    (ht : ∀ k, t.head k = ⟨none, none, 0⟩) (n : ℕ) :
    (insertNodes t n).Represents
      (Function.update (fun _ => []) .available (List.range n).reverse) := by
  induction n with
  | zero => simpa [insertNodes] using Store.represents_nil ht
  | succ n ih =>
    have hn : ∀ k, n ∉ Function.update (fun _ => []) BlockList.available (List.range n).reverse k := by
      rintro (k | k | k) <;> simp
    simpa [insertNodes, List.range_succ] using ih.insertHead .available hn

theorem initialize_inv (h : Heap) (s₀ : State) :
    ∃ s q, initializeDynBlockSystem h s₀ = some s ∧ Inv h s q ∧
      s.blocks .free = [⟨h.lo, h.hi - h.lo⟩] ∧ s.blocks .alloc = [] := by
  obtain ⟨c, hc⟩ : ∃ c, h.cnt = c + 1 := by
    refine Nat.exists_eq_succ_of_ne_zero fun h0 => ?_
    have hp := h.pages
    have hlt := h.lt
    rw [h0] at hp
    omega
  have hrep := insertNodes_represents (t := (((s₀.store.init .alloc).init .free).init .available))
    (by rintro (k | k | k) <;> simp [Store.init]) h.cnt
  have hq : Function.update (fun _ => []) BlockList.available (List.range h.cnt).reverse .available =
      ((List.range c).map Nat.succ).reverse ++ 0 :: [] := by
    simp [hc, List.range_succ_eq_map]
  set as := ((List.range c).map Nat.succ).reverse with has
  have hrem := hrep.remove hq
  rw [List.append_nil, Function.update_idem] at hrem
  have h0 : ∀ k, 0 ∉ Function.update (fun _ => []) BlockList.available as k := by
    rintro (k | k | k) <;> simp [has]
  have hfin := hrem.insertTail .free h0
  rw [Function.update_of_ne (by decide), List.nil_append] at hfin
  have hlast : ((insertNodes (((s₀.store.init .alloc).init .free).init .available) h.cnt).head
      .available).last = some 0 := by
    rw [(hrep.list .available).head, hq]
    simp
  set q := Function.update (Function.update (fun _ => []) BlockList.available as) .free [0] with hqdef
  have hfree : q .free = [0] := by simp [hqdef]
  have halloc : q .alloc = [] := by simp [hqdef]
  have hav : q .available = as := by simp [hqdef]
  refine ⟨_, q, by simp [initializeDynBlockSystem, initializeMemBlocksList, State.last, hlast]; rfl, ?_⟩
  refine (fun inv => ⟨inv, ?_, ?_⟩) ⟨hfin, rfl, fun n => ?_, ?_, fun n hn => ?_⟩
  · rw [inv.blocks_eq, hfree]
    simp [State.block, State.insertTail, State.setSva, State.setSize, State.remove]
  · rw [inv.blocks_eq, halloc]
    rfl
  · rw [exists_list, hfree, halloc, hav, hc]
    cases n <;> simp [has]
  · rw [hfree, halloc]
    simpa [State.block, State.insertTail, State.setSva, State.setSize, State.remove] using
      Partition.initial h.lt
  · obtain rfl : n = 0 := by simpa [hfree, halloc] using hn
    simpa [State.block, State.insertTail, State.setSva, State.setSize, State.remove,
      Interval.Aligned] using And.intro h.dvd_lo h.dvd

variable {q : BlockList → List ℕ}

/-- `find_block` finds the allocated block with the given start, if there is one. -/
theorem Inv.findBlock_eq (inv : Inv h s q) (va : ℕ) :
    (∃ A b B, q .alloc = A ++ b :: B ∧ s.sva b = va ∧ findBlock s va = some (some b)) ∨
      (∀ b ∈ q .alloc, s.sva b ≠ va) ∧ findBlock s va = some none := by
  by_cases hex : ∃ b ∈ q .alloc, s.sva b = va
  · obtain ⟨A, b, B, hq, hb, hA⟩ := exists_first hex
    exact .inl ⟨A, b, B, hq, hb, findBlock_some inv.rep (inv.length_le _) hq hb hA⟩
  · have hne : ∀ b ∈ q .alloc, s.sva b ≠ va := fun b hb he => hex ⟨b, hb, he⟩
    exact .inr ⟨hne, findBlock_none inv.rep (inv.length_le _) hne⟩

theorem Inv.release_eq (inv : Inv h s q) (va : ℕ) :
    ∃ s' q', release s va = some s' ∧ Inv h s' q' ∧
      s'.blocks .alloc = (s.blocks .alloc).filter (·.start ≠ va) := by
  rcases inv.findBlock_eq va with ⟨A, b, B, hq, hb, hfind⟩ | ⟨hne, hfind⟩
  · obtain ⟨s', q', hs', inv', hlive⟩ := inv.released hq
    refine ⟨s', q', by simp [release, hfind, hs'], inv', ?_⟩
    have hsort := inv.sorted_alloc
    rw [hq, List.pairwise_append, List.pairwise_cons] at hsort
    have hA : ∀ x ∈ A, s.sva x ≠ va := fun x hx => hb ▸ (hsort.2.2 x hx b (by simp)).ne
    have hB : ∀ x ∈ B, s.sva x ≠ va := fun x hx => hb ▸ (hsort.2.1.1 x hx).ne'
    rw [inv'.blocks_eq, hlive, inv.blocks_eq, hq]
    simp only [List.map_append, List.map_cons, List.filter_append, List.filter_cons,
      State.block_start, hb, ne_eq, not_true_eq_false, decide_false, Bool.false_eq_true, if_false]
    congr 1 <;> symm <;> simpa [List.filter_eq_self]
  · refine ⟨s, q, by simp [release, hfind], inv, ?_⟩
    rw [inv.blocks_eq]
    symm
    simpa [List.filter_eq_self] using hne

def Op.size? : Op → Option ℕ
  | .allocFF size => some size
  | .allocBF size _ _ => some size
  | .free _ => none

theorem Inv.alloc_eq (inv : Inv h s q) {op : Op} {size : ℕ} (hsize : op.size? = some size)
    (hop : Legal s op) :
    ∃ s' q' A B va, step s op = some s' ∧ Inv h s' q' ∧ s.blocks .alloc = A ++ B ∧
      s'.blocks .alloc = A ++ ⟨va, size⟩ :: B := by
  have hall : ∀ {r : Option (State × Option ℕ)} (hf : Fits s size)
      (hr : ∃ s' q' b, r = some (s', some b) ∧ Allocated s q size s' q' b),
      ∃ s' q' A B va, r >>= insertReturned = some s' ∧ Inv h s' q' ∧ s.blocks .alloc = A ++ B ∧
        s'.blocks .alloc = A ++ ⟨va, size⟩ :: B := by
    rintro r hf ⟨s₁, q₁, b, rfl, hal⟩
    obtain ⟨s', q', A, B, va, hs', inv', -, hold, hnew⟩ := inv.allocated hf.1 hf.2.1 hal
    exact ⟨s', q', A, B, va, hs', inv', by rw [inv.blocks_eq, hold], by rw [inv'.blocks_eq, hnew]⟩
  have hfree : Fits s size → ∃ x ∈ q .free, size ≤ s.size x := by
    rintro ⟨-, -, b, hb, hle⟩
    rw [inv.blocks_eq] at hb
    obtain ⟨x, hx, rfl⟩ := List.mem_map.mp hb
    exact ⟨x, hx, hle⟩
  have hav : Fits s size → (∃ x ∈ q .free, size < s.size x) → q .available ≠ [] :=
    fun hf ⟨x, hx, hlt⟩ => inv.available_ne_nil hf.1 hf.2.1 hx hlt
  have hw : ∀ x ∈ q .free, s.sva x + s.size x ≤ 2 ^ 32 := fun x hx => (inv.word (.inl hx)).le
  cases op with
  | allocFF n =>
    obtain rfl : n = size := by simpa [Op.size?] using hsize
    exact hall hop (allocBlockFF_some inv.rep (inv.length_le _) hw (hav hop) (hfree hop))
  | allocBF n u v =>
    obtain rfl : n = size := by simpa [Op.size?] using hsize
    exact hall hop (allocBlockBF_some inv.rep (inv.length_le _) hw (hav hop) hop.1 (hfree hop) u v)
  | free va => simp [Op.size?] at hsize

/-- The block at `va` lies in the managed range and is made of pages. -/
theorem Inv.of_mem_blocks (inv : Inv h s q) {b : Interval} (hb : b ∈ s.blocks .alloc) :
    h.lo ≤ b.start ∧ b.stop ≤ h.hi ∧ b.Aligned pageSize ∧ 0 < b.length := by
  rw [inv.blocks_eq] at hb
  obtain ⟨x, hx, rfl⟩ := List.mem_map.mp hb
  exact ⟨(inv.bounds (.inr hx)).1, (inv.bounds (.inr hx)).2, inv.pages x (.inr hx),
    inv.size_pos (.inr hx)⟩

theorem Inv.ordered_blocks (inv : Inv h s q) : Ordered (s.blocks .alloc) := by
  rw [inv.blocks_eq]
  exact inv.parts.ordered

/-- The result `r` of an allocation, inserted in `AllocMemBlocksList`, adds `n` bytes at `va`. -/
structure HandsOut (h : Heap) (s : State) (n : ℕ) (r : Option (State × Option ℕ)) (s' : State)
    (va : ℕ) : Prop where
  result : ∃ s₁ b, r = some (s₁, some b) ∧ insertSortedAllocList s₁ b = some s' ∧ s'.sva b = va
  inv : ∃ q, Inv h s' q
  blocks : ∃ A B, s.blocks .alloc = A ++ B ∧ s'.blocks .alloc = A ++ ⟨va, n⟩ :: B

private theorem Inv.handsOut (inv : Inv h s q) {n : ℕ} (hf : Fits s n) {r : Option (State × Option ℕ)}
    (hr : ∃ s' q' b, r = some (s', some b) ∧ Allocated s q n s' q' b) :
    ∃ s' va, HandsOut h s n r s' va := by
  obtain ⟨s₁, q₁, b, rfl, hal⟩ := hr
  obtain ⟨s', q', A, B, va, hs', inv', hb, hold, hnew⟩ := inv.allocated hf.1 hf.2.1 hal
  exact ⟨s', va, ⟨s₁, b, rfl, hs', congrArg Interval.start hb⟩, ⟨q', inv'⟩, A, B,
    by rw [inv.blocks_eq, hold], by rw [inv'.blocks_eq, hnew]⟩

private theorem Inv.exists_of_fits (inv : Inv h s q) {n : ℕ} (hf : Fits s n) :
    (∃ x ∈ q .free, n ≤ s.size x) ∧ ((∃ x ∈ q .free, n < s.size x) → q .available ≠ []) := by
  refine ⟨?_, fun ⟨x, hx, hlt⟩ => inv.available_ne_nil hf.1 hf.2.1 hx hlt⟩
  obtain ⟨b, hb, hle⟩ := hf.2.2
  rw [inv.blocks_eq] at hb
  obtain ⟨x, hx, rfl⟩ := List.mem_map.mp hb
  exact ⟨x, hx, hle⟩

theorem Inv.allocBlockFF_spec (inv : Inv h s q) {n : ℕ} (hn : 0 < n) (hp : pageSize ∣ n) :
    (Fits s n ∧ ∃ s' va, HandsOut h s n (allocBlockFF s n) s' va) ∨
      ¬Fits s n ∧ allocBlockFF s n = some (s, none) := by
  by_cases hf : Fits s n
  · obtain ⟨hfit, hav⟩ := inv.exists_of_fits hf
    exact .inl ⟨hf, inv.handsOut hf (allocBlockFF_some inv.rep (inv.length_le _)
      (fun x hx => (inv.word (.inl hx)).le) hav hfit)⟩
  · refine .inr ⟨hf, allocBlockFF_none inv.rep (inv.length_le _) fun x hx => ?_⟩
    by_contra hle
    refine hf ⟨hn, hp, s.block x, ?_, not_lt.mp hle⟩
    rw [inv.blocks_eq]
    exact List.mem_map_of_mem hx

theorem Inv.allocBlockBF_spec (inv : Inv h s q) {n : ℕ} (hf : Fits s n) (u v : ℕ) :
    ∃ s' va, HandsOut h s n (allocBlockBF s n u v) s' va := by
  obtain ⟨hfit, hav⟩ := inv.exists_of_fits hf
  exact inv.handsOut hf (allocBlockBF_some inv.rep (inv.length_le _)
    (fun x hx => (inv.word (.inl hx)).le) hav hf.1 hfit u v)

theorem Inv.allocBlockBF_nil (inv : Inv h s q) {n u v : ℕ} (hnil : s.blocks .free = []) :
    allocBlockBF s n u v = some (s, none) := by
  have hq : q .free = [] := by simpa [inv.blocks_eq] using hnil
  have hnone {σ β : Type} {w : σ → State} {f : ℕ → σ → Option (Flow σ β)} {i : σ} (hw : w i = s) :
      s.forEach w .free f i = some (i, none) :=
    forEach_none inv.rep hw (inv.length_le _) (by simp [hq])
  simp [allocBlockBF, hnone]

theorem Inv.insert_stale (inv : Inv h s q) {v b m : ℕ} {s' : State} {M : List ℕ} (hc : CutStale s q v s' b m M) :
    ∃ s'', insertSortedAllocList s' m = some s'' ∧ s''.sva m = v ∧ s'' ≠ s := by
  have hmem : m ∈ q .available := by simp [hc.available]
  have hnd := (inv.rep.list .available).nodup
  rw [hc.available] at hnd
  have hnot : ∀ k, m ∉ Function.update q .available M k := by
    rintro (k | k | k)
    · simpa using (List.nodup_cons.mp hnd).1
    · simpa using inv.rep.disjoint .available .free (by decide) m hmem
    · simpa using inv.rep.disjoint .available .alloc (by decide) m hmem
  have halloc : Function.update q .available M .alloc = q .alloc := Function.update_of_ne (by decide) ..
  have hsva : ∀ x ∈ q .alloc, s'.sva x = s.sva x := fun x hx => hc.rest x
    (fun he => inv.rep.disjoint .free .alloc (by decide) b hc.free (he ▸ hx))
    fun he => inv.rep.disjoint .available .alloc (by decide) m hmem (he ▸ hx)
  obtain ⟨A, B, hAB, hA, hB⟩ := exists_split (v := v) inv.sorted_alloc fun x hx =>
    hc.start ▸ (inv.sva_ne hc.free hx).symm
  obtain ⟨t, ht, hrep⟩ := insertSortedAllocList_eq hc.rep (by rw [halloc, hc.cnt]; exact inv.length_le .alloc) hnot
    (halloc.trans hAB) (fun x hx => by rw [hsva x (by simp [hAB, hx]), hc.sva]; exact hA x hx)
    (fun x hx => by rw [hsva x (by simp [hAB, hx]), hc.sva]; exact hB x hx)
  refine ⟨_, ht, hc.sva, fun he => ?_⟩
  -- the first available node was another one before
  have hfirst : State.first { s' with store := t } .available = M.head? := by
    rw [first_eq hrep, Function.update_of_ne (by decide), Function.update_self]
  rw [he, first_eq inv.rep, hc.available] at hfirst
  exact (List.nodup_cons.mp hnd).1 (List.mem_of_mem_head? hfirst.symm)

/-- What `kfree` and `free` find at an address. -/
theorem Inv.findBlock_spec (inv : Inv h s q) (va : ℕ) :
    (∃ b n A B s', findBlock s va = some (some b) ∧ s.size b = n ∧
      insertSortedWithMergeFreeList (s.remove .alloc b) b = some s' ∧ (∃ q', Inv h s' q') ∧
      s.blocks .alloc = A ++ ⟨va, n⟩ :: B ∧ s'.blocks .alloc = A ++ B) ∨
    (∀ b ∈ s.blocks .alloc, b.start ≠ va) ∧ findBlock s va = some none := by
  rcases inv.findBlock_eq va with ⟨A, b, B, hq, hb, hfind⟩ | ⟨hne, hfind⟩
  · obtain ⟨s', q', hs', inv', hlive⟩ := inv.released hq
    refine .inl ⟨b, s.size b, A.map s.block, B.map s.block, s', hfind, rfl, hs', ⟨q', inv'⟩, ?_, ?_⟩
    · simp [inv.blocks_eq, hq, State.block, hb]
    · rw [inv'.blocks_eq, hlive, List.map_append]
  · refine .inr ⟨?_, hfind⟩
    rw [inv.blocks_eq]
    intro b hb
    obtain ⟨x, hx, rfl⟩ := List.mem_map.mp hb
    exact hne x hx

theorem Inv.step (inv : Inv h s q) {op : Op} (hop : Legal s op) :
    ∃ s' q', step s op = some s' ∧ Inv h s' q' := by
  cases hsize : op.size? with
  | some size =>
    obtain ⟨s', q', _, _, _, hs', inv', -⟩ := inv.alloc_eq hsize hop
    exact ⟨s', q', hs', inv'⟩
  | none =>
    cases op with
    | free va =>
      obtain ⟨s', q', hs', inv', -⟩ := inv.release_eq va
      exact ⟨s', q', hs', inv'⟩
    | allocFF n => simp [Op.size?] at hsize
    | allocBF n u v => simp [Op.size?] at hsize

theorem Reachable.inv (hs : Reachable h s) : ∃ q, Inv h s q := by
  induction hs with
  | @init s₀ s hs₀ =>
    obtain ⟨s', q, hs', inv, -⟩ := initialize_inv h s₀
    obtain rfl : s' = s := Option.some.inj (hs'.symm.trans hs₀)
    exact ⟨q, inv⟩
  | @step s s' op hr hop hs' ih =>
    obtain ⟨q, inv⟩ := ih
    obtain ⟨t, q', ht, inv'⟩ := inv.step hop
    obtain rfl : t = s' := Option.some.inj (ht.symm.trans hs')
    exact ⟨q', inv'⟩

/-- What the lists of a running allocator look like. -/
structure WellFormed (h : Heap) (s : State) : Prop where
  lists : s.store.Represents s.nodes
  sizes : ∀ k, (s.store.head k).size = (s.nodes k).length
  nodes : ∀ n < h.cnt, ∃! k, n ∈ s.nodes k
  nonempty : ∀ b ∈ s.blocks .free ++ s.blocks .alloc, 0 < b.length
  disjoint : (s.blocks .free ++ s.blocks .alloc).Pairwise
    fun b c => ∀ a, b.Contains a → ¬ c.Contains a
  cover : ∀ a, Covered (s.blocks .free ++ s.blocks .alloc) a ↔ h.lo ≤ a ∧ a < h.hi
  sorted_free : (s.blocks .free).Pairwise fun b c => b.start < c.start
  sorted_alloc : (s.blocks .alloc).Pairwise fun b c => b.start < c.start
  supply : ∀ size, 0 < size → pageSize ∣ size → (∃ b ∈ s.blocks .free, size < b.length) →
    s.first .available ≠ none

theorem Inv.wellFormed (inv : Inv h s q) : WellFormed h s := by
  have hordered : ∀ {xs : List Interval}, Ordered xs →
      xs.Pairwise fun b c => ∀ a, b.Contains a → ¬ c.Contains a := fun hx =>
    hx.sorted.imp fun hbc a hb hc => absurd (hb.2.trans_le (hbc.trans hc.1)) (lt_irrefl _)
  refine ⟨inv.nodes_eq ▸ inv.rep, fun k => ?_, fun n hn => ?_, ?_, ?_, fun a => ?_, ?_, ?_,
    fun size hpos hp => ?_⟩
  · rw [inv.nodes_eq, (inv.rep.list k).head]
  · obtain ⟨k, hk⟩ := (inv.nodes n).mp hn
    rw [inv.nodes_eq]
    refine ⟨k, hk, fun k' hk' => ?_⟩
    by_contra hne
    exact inv.rep.disjoint k' k hne n hk' hk
  · rw [inv.blocks_eq, inv.blocks_eq]
    intro b hb
    exact (List.mem_append.mp hb).elim (inv.parts.coalesced.pos b) (inv.parts.ordered.pos b)
  · rw [inv.blocks_eq, inv.blocks_eq, List.pairwise_append]
    refine ⟨hordered inv.parts.coalesced.weaken, hordered inv.parts.ordered, ?_⟩
    exact fun b hb c hc a hba hca => inv.parts.disjoint a ⟨b, hb, hba⟩ ⟨c, hc, hca⟩
  · rw [inv.blocks_eq, inv.blocks_eq, covered_append]
    exact (inv.parts.cover a).symm
  · rw [inv.blocks_eq]
    exact List.pairwise_map.mpr inv.sorted_free
  · rw [inv.blocks_eq]
    exact List.pairwise_map.mpr inv.sorted_alloc
  · rw [inv.blocks_eq]
    rintro ⟨b, hb, hlt⟩
    obtain ⟨x, hx, rfl⟩ := List.mem_map.mp hb
    rw [first_eq inv.rep]
    simpa using inv.available_ne_nil hpos hp hx hlt

/-- Initialization succeeds, and from there every run of fitting allocations and
of releases keeps the lists well formed and never fails. -/
theorem runs_wellFormed (h : Heap) :
    (∀ s₀, ∃ s, initializeDynBlockSystem h s₀ = some s) ∧
      ∀ s, Reachable h s → WellFormed h s ∧ ∀ op, Legal s op → ∃ s', step s op = some s' := by
  refine ⟨fun s₀ => ?_, fun s hs => ?_⟩
  · obtain ⟨s, _, hs, -⟩ := initialize_inv h s₀
    exact ⟨s, hs⟩
  · obtain ⟨q, inv⟩ := hs.inv
    refine ⟨inv.wellFormed, fun op hop => ?_⟩
    obtain ⟨s', _, hs', -⟩ := inv.step hop
    exact ⟨s', hs'⟩

/-- A run of legal steps, `none` when one of them is not legal. -/
def runLegal (s : State) : List Op → Option State
  | [] => some s
  | op :: ops => if Legal s op then step s op >>= (runLegal · ops) else none

theorem reachable_of_runLegal {ops : List Op} {t : State} (hs : Reachable h s)
    (hrun : runLegal s ops = some t) : Reachable h t := by
  induction ops generalizing s with
  | nil => exact Option.some.inj hrun ▸ hs
  | cons op ops ih =>
    simp only [runLegal] at hrun
    split at hrun
    · obtain ⟨s', hs', hrun⟩ := Option.bind_eq_some_iff.mp hrun
      exact ih (.step op hs ‹_› hs') hrun
    · cases hrun

/-- A range of three pages and globals that hold zeros. -/
def threePages : Heap := ⟨0x1000, 0x4000, 3, by decide, by decide, by decide, by decide, by decide⟩

def zeroed : State :=
  ⟨⟨fun _ => none, fun _ => none, fun _ => ⟨none, none, 0⟩⟩, fun _ => 0, fun _ => 0, 0⟩

def runThreePages (ops : List Op) : Option State :=
  initializeDynBlockSystem threePages zeroed >>= (runLegal · ops)

theorem reachable_of_runThreePages {ops : List Op} (hs : runThreePages ops = some s) :
    Reachable threePages s := by
  rw [runThreePages, Option.bind_eq_bind, Option.bind_eq_some_iff] at hs
  obtain ⟨s₁, hs₁, hs⟩ := hs
  exact reachable_of_runLegal (.init hs₁) hs

theorem runs_wellFormed_threePages : ∃ s, Reachable threePages s ∧ WellFormed threePages s ∧
    s.blocks .alloc = [⟨0x2000, 0x1000⟩] ∧ ∃ s', step s (.free 0x2000) = some s' := by
  have hrun : (runThreePages [.allocFF 0x1000, .allocBF 0x1000 7 9, .free 0x1000]).map
      (·.blocks .alloc) = some [⟨0x2000, 0x1000⟩] := by decide +kernel
  obtain ⟨s, hs, hlive⟩ := Option.map_eq_some_iff.mp hrun
  have hr := reachable_of_runThreePages hs
  obtain ⟨hwf, hstep⟩ := (runs_wellFormed threePages).2 s hr
  exact ⟨s, hr, hwf, hlive, hstep (.free 0x2000) ⟨_, by rw [hlive]; exact List.mem_cons_self, rfl⟩⟩

end Runs

section FreeList

variable {h : Heap} {s : State} {q : BlockList → List ℕ}

theorem Inv.free_eq_gaps (inv : Inv h s q) :
    s.blocks .free = gaps h.lo h.hi (s.blocks .alloc) := by
  rw [inv.blocks_eq, inv.blocks_eq]
  exact inv.parts.free_eq_gaps

theorem Inv.free_eq_of_alloc {t : State} {q' : BlockList → List ℕ} (inv : Inv h s q)
    (inv' : Inv h t q') (hst : ∀ b, b ∈ s.blocks .alloc ↔ b ∈ t.blocks .alloc) :
    s.blocks .free = t.blocks .free := by
  rw [inv.blocks_eq, inv'.blocks_eq] at hst ⊢
  refine inv.parts.coalesced.ext inv'.parts.coalesced fun a => ?_
  have hlive : Covered ((q .alloc).map s.block) a ↔ Covered ((q' .alloc).map t.block) a := by
    simp only [Covered, hst]
  have h₁ := inv.parts.cover a
  have h₂ := inv'.parts.cover a
  have h₃ := inv.parts.disjoint a
  have h₄ := inv'.parts.disjoint a
  tauto

/-- Releases drop exactly the blocks that start at one of the addresses. -/
theorem Inv.releases_eq (inv : Inv h s q) (vas : List ℕ) :
    ∃ s' q', vas.foldlM release s = some s' ∧ Inv h s' q' ∧
      ∀ b, b ∈ s'.blocks .alloc ↔ b ∈ s.blocks .alloc ∧ b.start ∉ vas := by
  induction vas generalizing s q with
  | nil => exact ⟨s, q, rfl, inv, by simp⟩
  | cons va vas ih =>
    obtain ⟨s₁, q₁, hs₁, inv₁, hlive⟩ := inv.release_eq va
    obtain ⟨s', q', hs', inv', hrest⟩ := ih inv₁
    refine ⟨s', q', by simp [List.foldlM_cons, hs₁, hs'], inv', fun b => ?_⟩
    rw [hrest, hlive]
    simp only [List.mem_filter, ne_eq, decide_not, Bool.not_eq_eq_eq_not, Bool.not_true,
      decide_eq_false_iff_not, List.mem_cons, not_or, and_assoc]

/-- The free list is the list of maximal gaps between the allocated blocks. It
depends on the set of these blocks only, so not on the order of releases, and an
allocation followed by its release restores it. -/
theorem freeList_history_independent {t : State} (hs : Reachable h s) (ht : Reachable h t) :
    s.blocks .free = gaps h.lo h.hi (s.blocks .alloc) ∧
    (s.blocks .free).Pairwise (fun b c => b.stop < c.start) ∧
    ((∀ b, b ∈ s.blocks .alloc ↔ b ∈ t.blocks .alloc) → s.blocks .free = t.blocks .free) ∧
    (∀ vas vas' : List ℕ, (∀ va, va ∈ vas ↔ va ∈ vas') → ∃ u u', vas.foldlM release s = some u ∧
      vas'.foldlM release s = some u' ∧ u.blocks .free = u'.blocks .free) ∧
    ∀ op size, op.size? = some size → Legal s op → ∃ s₁ b u, step s op = some s₁ ∧
      b.length = size ∧ b ∉ s.blocks .alloc ∧ b ∈ s₁.blocks .alloc ∧
      release s₁ b.start = some u ∧ u.blocks .free = s.blocks .free := by
  obtain ⟨q, inv⟩ := hs.inv
  obtain ⟨q', inv'⟩ := ht.inv
  refine ⟨inv.free_eq_gaps, ?_, inv.free_eq_of_alloc inv', fun vas vas' hv => ?_,
    fun op size hsize hop => ?_⟩
  · rw [inv.blocks_eq]
    exact inv.parts.coalesced.sorted
  · obtain ⟨u, _, hu, invu, hlive⟩ := inv.releases_eq vas
    obtain ⟨u', _, hu', invu', hlive'⟩ := inv.releases_eq vas'
    exact ⟨u, u', hu, hu', invu.free_eq_of_alloc invu' fun b => by rw [hlive, hlive', hv]⟩
  · obtain ⟨s₁, q₁, A, B, va, hs₁, inv₁, hold, hnew⟩ := inv.alloc_eq hsize hop
    obtain ⟨u, _, hu, invu, hlive⟩ := inv₁.release_eq va
    have hsort := inv₁.wellFormed.sorted_alloc
    rw [hnew, List.pairwise_append, List.pairwise_cons] at hsort
    have hA : ∀ b ∈ A, b.start ≠ va := fun b hb => (hsort.2.2 b hb _ List.mem_cons_self).ne
    have hB : ∀ b ∈ B, b.start ≠ va := fun b hb => (hsort.2.1.1 b hb).ne'
    refine ⟨s₁, ⟨va, size⟩, u, hs₁, rfl, fun hm => ?_, by simp [hnew], hu, ?_⟩
    · rw [hold, List.mem_append] at hm
      exact hm.elim (fun hm => hA _ hm rfl) (fun hm => hB _ hm rfl)
    · refine invu.free_eq_of_alloc inv fun b => ?_
      rw [hlive, hnew, hold]
      simp only [List.mem_filter, List.mem_append, List.mem_cons, ne_eq, decide_not,
        Bool.not_eq_eq_eq_not, Bool.not_true, decide_eq_false_iff_not]
      constructor
      · rintro ⟨hb | rfl | hb, hne⟩
        · exact .inl hb
        · exact absurd rfl hne
        · exact .inr hb
      · rintro (hb | hb)
        · exact ⟨.inl hb, hA b hb⟩
        · exact ⟨.inr (.inr hb), hB b hb⟩

theorem freeList_history_independent_threePages : ∃ s t, Reachable threePages s ∧
    Reachable threePages t ∧ s.blocks .alloc = [⟨0x2000, 0x1000⟩] ∧
    t.blocks .alloc = [⟨0x2000, 0x1000⟩] ∧ s.blocks .free = t.blocks .free := by
  have hrun : (runThreePages [.allocFF 0x1000, .allocFF 0x1000, .free 0x1000]).map
      (·.blocks .alloc) = some [⟨0x2000, 0x1000⟩] := by decide +kernel
  have hrun' : (runThreePages [.allocFF 0x1000, .allocBF 0x1000 0 0, .allocFF 0x1000, .free 0x3000,
      .free 0x1000]).map (·.blocks .alloc) = some [⟨0x2000, 0x1000⟩] := by decide +kernel
  obtain ⟨s, hs, hlive⟩ := Option.map_eq_some_iff.mp hrun
  obtain ⟨t, ht, hlive'⟩ := Option.map_eq_some_iff.mp hrun'
  have hr := reachable_of_runThreePages hs
  have hr' := reachable_of_runThreePages ht
  exact ⟨s, t, hr, hr', hlive, hlive',
    (freeList_history_independent hr hr').2.2.1 fun b => by rw [hlive, hlive']⟩

end FreeList

end FosKernel.DynamicAllocator
