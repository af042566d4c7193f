import FosKernel.DynamicAllocator

/-!
# What each allocator routine does to the three sequences

Every routine is described on the sequences that its lists represent: which
branch is taken, which node moves, and which fields change.
-/

namespace FosKernel.DynamicAllocator
open IntrusiveList IntervalLists

variable {s : State} {q : BlockList → List ℕ}

theorem first_eq (h : s.store.Represents q) (k : BlockList) : s.first k = (q k).head? := by
  simp [State.first, (h.list k).head]

theorem last_eq (h : s.store.Represents q) (k : BlockList) : s.last k = (q k).getLast? := by
  simp [State.last, (h.list k).head]

theorem next_eq (h : s.store.Represents q) {k : BlockList} {as bs : List ℕ} {x : ℕ}
    (hq : q k = as ++ x :: bs) : s.store.next x = bs.head? :=
  (hq ▸ h.list k : s.store.IsList k (as ++ x :: bs)).links.2

theorem prev_eq (h : s.store.Represents q) {k : BlockList} {as bs : List ℕ} {x : ℕ}
    (hq : q k = as ++ x :: bs) : s.store.prev x = as.getLast? :=
  (hq ▸ h.list k : s.store.IsList k (as ++ x :: bs)).links.1

theorem nodes_eq (h : s.store.Represents q) {k : BlockList}
    (hlen : (q k).length ≤ s.maxMemBlockCnt) : s.nodes k = q k := by
  rw [State.nodes, first_eq h]
  exact walk_eq (fun as x bs he => next_eq h he) hlen

section Loops

variable {σ β : Type*} {v : σ → State} {f : ℕ → σ → Option (Flow σ β)} {i : σ} {k : BlockList}

theorem forEach_first (h : s.store.Represents q) (hv : v i = s)
    (hlen : (q k).length ≤ s.maxMemBlockCnt) {as bs : List ℕ} {x : ℕ} (hq : q k = as ++ x :: bs)
    (hskip : ∀ y ∈ as, f y i = some (.next i)) {t : σ} {r : β}
    (hx : f x i = some (.exit t r)) : s.forEach v k f i = some (t, some r) := by
  unfold State.forEach
  rw [first_eq h, hq]
  rw [hq] at hlen
  exact IntrusiveList.forEach_first
    (fun as' y bs' he => by simpa [hv] using next_eq h (hq.trans he)) hskip hx hlen

theorem forEach_fail (h : s.store.Represents q) (hv : v i = s)
    (hlen : (q k).length ≤ s.maxMemBlockCnt) {as bs : List ℕ} {x : ℕ} (hq : q k = as ++ x :: bs)
    (hskip : ∀ y ∈ as, f y i = some (.next i)) (hx : f x i = none) : s.forEach v k f i = none := by
  unfold State.forEach
  rw [first_eq h, hq]
  rw [hq] at hlen
  exact IntrusiveList.forEach_fail
    (fun as' y bs' he => by simpa [hv] using next_eq h (hq.trans he)) hskip hx hlen

theorem forEach_none (h : s.store.Represents q) (hv : v i = s)
    (hlen : (q k).length ≤ s.maxMemBlockCnt)
    (hskip : ∀ y ∈ q k, f y i = some (.next i)) :
    s.forEach v k f i = some (i, none) := by
  unfold State.forEach
  rw [first_eq h]
  exact IntrusiveList.forEach_none
    (fun as' y bs' he => by simpa [hv] using next_eq h he) hskip hlen

end Loops

theorem exists_split {f : ℕ → ℕ} {xs : List ℕ} (h : xs.Pairwise (fun x y => f x < f y)) {v : ℕ}
    (hv : ∀ x ∈ xs, f x ≠ v) :
    ∃ A B, xs = A ++ B ∧ (∀ x ∈ A, f x < v) ∧ ∀ x ∈ B, v < f x := by
  induction xs with
  | nil => exact ⟨[], [], by simp⟩
  | cons x xs ih =>
    obtain ⟨hx, hxs⟩ := List.pairwise_cons.mp h
    rcases lt_or_gt_of_ne (hv x (by simp)) with hlt | hgt
    · obtain ⟨A, B, rfl, hA, hB⟩ := ih hxs fun y hy => hv y (by simp [hy])
      exact ⟨x :: A, B, rfl, by simpa [hlt] using hA, hB⟩
    · refine ⟨[], x :: xs, rfl, by simp, fun y hy => ?_⟩
      rcases List.mem_cons.mp hy with rfl | hy
      · exact hgt
      · exact hgt.trans (hx y hy)

theorem findBlock_some (h : s.store.Represents q) (hlen : (q .alloc).length ≤ s.maxMemBlockCnt)
    {as bs : List ℕ} {x va : ℕ} (hq : q .alloc = as ++ x :: bs) (hx : s.sva x = va)
    (has : ∀ y ∈ as, s.sva y ≠ va) : findBlock s va = some (some x) := by
  have hloop := forEach_first (f := findBody va) (v := id) h rfl hlen hq
    (fun y hy => by simp [findBody, has y hy]) (t := s) (r := x) (by simp [findBody, hx])
  simp [findBlock, hloop]

theorem findBlock_none (h : s.store.Represents q) (hlen : (q .alloc).length ≤ s.maxMemBlockCnt)
    {va : ℕ} (hva : ∀ y ∈ q .alloc, s.sva y ≠ va) : findBlock s va = some none := by
  have hloop := forEach_none (f := findBody va) (v := id) h rfl hlen
    (fun y hy => by simp [findBody, hva y hy])
  simp [findBlock, hloop]

/-- The block goes between the blocks below and above it, through the head, the
tail or the inner branch. -/
theorem insertSortedAllocList_eq (h : s.store.Represents q)
    (hlen : (q .alloc).length ≤ s.maxMemBlockCnt) {A B : List ℕ} {b : ℕ} (hb : ∀ k, b ∉ q k)
    (hq : q .alloc = A ++ B) (hA : ∀ x ∈ A, s.sva x < s.sva b) (hB : ∀ x ∈ B, s.sva b < s.sva x) :
    ∃ t, insertSortedAllocList s b = some { s with store := t } ∧
      t.Represents (Function.update q .alloc (A ++ b :: B)) := by
  rcases Store.eq_nil_or_concat A with rfl | ⟨A, a, rfl⟩
  · refine ⟨s.store.insertHead .alloc b, ?_, by simpa [hq] using h.insertHead .alloc hb⟩
    unfold insertSortedAllocList
    rw [first_eq h, hq]
    cases B with
    | nil => rfl
    | cons c B => simp [hB c (by simp), State.insertHead]
  obtain ⟨f, hf, hfm⟩ : ∃ f, (q .alloc).head? = some f ∧ f ∈ A ++ [a] := by
    cases A with
    | nil => exact ⟨a, by simp [hq], by simp⟩
    | cons f A => exact ⟨f, by simp [hq], by simp⟩
  have hnf : ¬ s.sva b < s.sva f := (hA f hfm).asymm
  cases B with
  | nil =>
    refine ⟨s.store.insertTail .alloc b, ?_, by simpa [hq] using h.insertTail .alloc hb⟩
    have hl : s.last .alloc = some a := by rw [last_eq h, hq]; simp
    simp [insertSortedAllocList, first_eq h, hf, hnf, hl, hA a (by simp), State.insertTail]
  | cons c B =>
    have hq' : q .alloc = A ++ a :: c :: B := by simp [hq]
    refine ⟨s.store.insertAfter .alloc a b, ?_, by simpa using h.insertAfter hq' hb⟩
    obtain ⟨l, hl⟩ : ∃ l, (c :: B).getLast? = some l := by simp [List.getLast?_cons]
    have hlast : s.last .alloc = some l := by
      rw [last_eq h, hq, List.getLast?_append, hl, Option.some_or]
    have hnl : ¬ s.sva l < s.sva b := (hB l (List.mem_of_mem_getLast? hl)).asymm
    -- below `a` the next block is still below the new one, so the loop goes on
    have hskip : ∀ y ∈ A, insertBody b y s = some (.next s) := by
      intro y hy
      obtain ⟨as, bs, rfl⟩ := List.append_of_mem hy
      have hys : q .alloc = as ++ y :: (bs ++ a :: c :: B) := by simp [hq']
      have hn := next_eq h hys
      obtain ⟨z, hz, hzm⟩ : ∃ z, (bs ++ a :: c :: B).head? = some z ∧ z ∈ bs ++ [a] := by
        cases bs with
        | nil => exact ⟨a, rfl, by simp⟩
        | cons z bs => exact ⟨z, rfl, by simp⟩
      have hzA : z ∈ as ++ y :: bs ++ [a] := by
        rcases List.mem_append.mp hzm with hm | hm <;> simp [hm]
      have hzb : ¬ s.sva b < s.sva z := (hA z hzA).asymm
      simp [insertBody, hn, hz, hzb]
    have hloop := forEach_first (v := id) h rfl hlen hq' hskip
      (t := s.insertAfter .alloc a b) (r := ())
      (by simp [insertBody, next_eq h hq', hA a (by simp), hB c (by simp)])
    simp [insertSortedAllocList, first_eq h, hf, hnf, hlast, hnl, hloop]
    rfl

section Allocation

/-- Allocation of `n` bytes either unlinks a free block of that size or cuts the
front off a larger one and gives it the first available node. -/
inductive Allocated (s : State) (q : BlockList → List ℕ) (n : ℕ) :
    State → (BlockList → List ℕ) → ℕ → Prop
  | whole {L R : List ℕ} {b : ℕ} {t : Store BlockList ℕ} (hq : q .free = L ++ b :: R)
      (hn : s.size b = n) (hrep : t.Represents (Function.update q .free (L ++ R))) :
      Allocated s q n { s with store := t } (Function.update q .free (L ++ R)) b
  | carved {L R M : List ℕ} {b m : ℕ} {s' : State} (hq : q .free = L ++ b :: R)
      (ha : q .available = m :: M) (hn : n < s.size b)
      (hrep : s'.store.Represents (Function.update q .available M))
      (hb : s'.block b = ⟨s.sva b + n, s.size b - n⟩) (hm : s'.block m = ⟨s.sva b, n⟩)
      (hrest : ∀ x, x ≠ b → x ≠ m → s'.block x = s.block x)
      (hcnt : s'.maxMemBlockCnt = s.maxMemBlockCnt) :
      Allocated s q n s' (Function.update q .available M) m

/-- The same for the free block `b` between the free blocks `L` and `R`. -/
inductive AllocatedAt (s : State) (q : BlockList → List ℕ) (n : ℕ) (L : List ℕ) (b : ℕ) (R : List ℕ) :
    State → (BlockList → List ℕ) → ℕ → Prop
  | whole {t : Store BlockList ℕ} (hn : s.size b = n)
      (hrep : t.Represents (Function.update q .free (L ++ R))) :
      AllocatedAt s q n L b R { s with store := t } (Function.update q .free (L ++ R)) b
  | carved {M : List ℕ} {m : ℕ} {s' : State} (ha : q .available = m :: M) (hn : n < s.size b)
      (hrep : s'.store.Represents (Function.update q .available M))
      (hb : s'.block b = ⟨s.sva b + n, s.size b - n⟩) (hm : s'.block m = ⟨s.sva b, n⟩)
      (hrest : ∀ x, x ≠ b → x ≠ m → s'.block x = s.block x)
      (hcnt : s'.maxMemBlockCnt = s.maxMemBlockCnt) :
      AllocatedAt s q n L b R s' (Function.update q .available M) m

theorem AllocatedAt.allocated {n : ℕ} {L R : List ℕ} {b : ℕ} {s' : State} {q' : BlockList → List ℕ}
    {r : ℕ} (h : AllocatedAt s q n L b R s' q' r) (hq : q .free = L ++ b :: R) :
    Allocated s q n s' q' r := by
  cases h with
  | whole hn hrep => exact .whole hq hn hrep
  | carved ha hn hrep hb hm hrest hcnt => exact .carved hq ha hn hrep hb hm hrest hcnt

variable (h : s.store.Represents q) (hlen : (q .free).length ≤ s.maxMemBlockCnt)
  (hw : ∀ x ∈ q .free, s.sva x + s.size x ≤ 2 ^ 32) {n : ℕ}
  (hav : (∃ x ∈ q .free, n < s.size x) → q .available ≠ [])

include h in
theorem ne_of_mem {k k' : BlockList} (hk : k ≠ k') {x y : ℕ} (hx : x ∈ q k) (hy : y ∈ q k') :
    x ≠ y := fun he => h.disjoint k k' hk x hx (he ▸ hy)

section Position

variable {L R : List ℕ} {b : ℕ} (hq : q .free = L ++ b :: R)

include h hw hq in
/-- Both loops cut a block in the same way, whatever order they assign in. -/
private theorem allocated_of_carve {M : List ℕ} {m : ℕ} {s' : State}
    (ha : q .available = m :: M) (hn : n < s.size b)
    (hs : s' = { s with
      store := s.store.remove .available m
      sva := Function.update (Function.update s.sva b (u32 (s.sva b + n))) m (s.sva b)
      size := Function.update (Function.update s.size b (s.size b - n)) m n }) :
    AllocatedAt s q n L b R s' (Function.update q .available M) m := by
  have hbm : b ≠ m := ne_of_mem h (by decide : BlockList.free ≠ .available)
    (by simp [hq]) (by simp [ha])
  have hbw := hw b (by simp [hq])
  subst hs
  refine .carved ha hn ?_ ?_ ?_ (fun x hxb hxm => ?_) rfl
  · exact h.remove (show q .available = [] ++ m :: M from ha)
  · simp [State.block, Function.update_of_ne hbm, u32_of_lt (by omega : s.sva b + n < 2 ^ 32)]
  · simp [State.block]
  · simp [State.block, Function.update_of_ne hxb, Function.update_of_ne hxm]

include h hw hq in
theorem splitBlock_eq {M : List ℕ} {m : ℕ} (ha : q .available = m :: M) (hn : n < s.size b) :
    ∃ s', splitBlock s (some m) b n = some (s', m) ∧
      AllocatedAt s q n L b R s' (Function.update q .available M) m := by
  have hbm : b ≠ m := ne_of_mem h (by decide : BlockList.free ≠ .available)
    (by simp [hq]) (by simp [ha])
  refine ⟨_, rfl, allocated_of_carve h hw hq ha hn ?_⟩
  simp [State.setSva, State.setSize, State.remove, Function.update_of_ne hbm,
    Function.update_of_ne hbm.symm, Function.update_comm hbm]

private theorem firstFitBody_skip {m : Option ℕ} (hL : ∀ y ∈ L, ¬ n ≤ s.size y) :
    ∀ y ∈ L, firstFitBody m n y s = some (.next s) := by
  intro y hy
  have := hL y hy
  simp [firstFitBody, show s.size y ≠ n by omega, show ¬ n < s.size y by omega]

include h hlen hw hq in
theorem allocBlockFF_at (hb : n ≤ s.size b) (hL : ∀ y ∈ L, ¬ n ≤ s.size y)
    (hav : n < s.size b → q .available ≠ []) :
    ∃ s' q' r, allocBlockFF s n = some (s', some r) ∧ AllocatedAt s q n L b R s' q' r := by
  have hskip := firstFitBody_skip (m := s.first .available) hL
  rcases hb.eq_or_lt with hb | hb
  · refine ⟨_, _, b, ?_, .whole hb.symm (h.remove hq)⟩
    exact forEach_first (v := id) h rfl hlen hq hskip (by simp [firstFitBody, hb, State.remove])
  · obtain ⟨m, M, ha⟩ := List.exists_cons_of_ne_nil (hav hb)
    obtain ⟨s', hs', hal⟩ := splitBlock_eq h hw hq ha hb
    refine ⟨s', _, m, ?_, hal⟩
    have hm : s.first .available = some m := by rw [first_eq h, ha]; rfl
    refine forEach_first (v := id) h rfl hlen hq hskip ?_
    simp [firstFitBody, hm, hb.ne', hb, hs']

include h hlen hq in
theorem allocBlockFF_fail (hb : n < s.size b) (hL : ∀ y ∈ L, ¬ n ≤ s.size y)
    (ha : q .available = []) : allocBlockFF s n = none := by
  have hm : s.first .available = none := by rw [first_eq h, ha]; rfl
  refine forEach_fail (v := id) h rfl hlen hq (firstFitBody_skip hL) ?_
  simp [firstFitBody, hm, hb.ne', hb, splitBlock]

end Position

theorem exists_first {p : ℕ → Prop} [DecidablePred p] {xs : List ℕ} (h : ∃ x ∈ xs, p x) :
    ∃ L b R, xs = L ++ b :: R ∧ p b ∧ ∀ y ∈ L, ¬ p y := by
  induction xs with
  | nil => simp at h
  | cons x xs ih =>
    by_cases hx : p x
    · exact ⟨[], x, xs, rfl, hx, by simp⟩
    · obtain ⟨L, b, R, rfl, hb, hL⟩ := ih (by simpa [hx] using h)
      exact ⟨x :: L, b, R, rfl, hb, by simpa [hx] using hL⟩

include h hlen hw in
/-- With a block that is large enough, first fit fails only where it has to cut
it and there is no node left. -/
theorem allocBlockFF_eq (hfit : ∃ x ∈ q .free, n ≤ s.size x) :
    (∃ s' q' r, allocBlockFF s n = some (s', some r) ∧ Allocated s q n s' q' r) ∨
      q .available = [] ∧ (∃ x ∈ q .free, n < s.size x) ∧ allocBlockFF s n = none := by
  obtain ⟨L, b, R, hq, hb, hL⟩ := exists_first hfit
  by_cases hnil : n < s.size b ∧ q .available = []
  · exact .inr ⟨hnil.2, ⟨b, by simp [hq], hnil.1⟩, allocBlockFF_fail h hlen hq hnil.1 hL hnil.2⟩
  · obtain ⟨s', q', r, hr, hal⟩ := allocBlockFF_at h hlen hw hq hb hL
      (fun hlt he => hnil ⟨hlt, he⟩)
    exact .inl ⟨s', q', r, hr, hal.allocated hq⟩

include h hlen hw hav in
theorem allocBlockFF_some (hfit : ∃ x ∈ q .free, n ≤ s.size x) :
    ∃ s' q' r, allocBlockFF s n = some (s', some r) ∧ Allocated s q n s' q' r := by
  rcases allocBlockFF_eq h hlen hw hfit with hsome | ⟨hnil, hlt, -⟩
  · exact hsome
  · exact absurd hnil (hav hlt)

include h hlen in
theorem allocBlockFF_none (hfit : ∀ x ∈ q .free, s.size x < n) :
    allocBlockFF s n = some (s, none) := by
  refine forEach_none (v := id) h rfl hlen fun y hy => ?_
  have := hfit y hy
  simp [firstFitBody, this.ne, this.le]

/-- Of the nodes of `L ++ b :: R` with property `p`, `b` is the first of the smallest ones. -/
def FirstSmallest (s : State) (p : ℕ → Prop) (L : List ℕ) (b : ℕ) (R : List ℕ) : Prop :=
  p b ∧ (∀ y ∈ L, p y → s.size b < s.size y) ∧ ∀ y ∈ R, p y → s.size b ≤ s.size y

include h hlen in
private theorem smallest_eq {A B : List ℕ} {f : ℕ} (hq : q .free = A ++ f :: B)
    (hfn : n < s.size f) (hA : ∀ y ∈ A, ¬ n < s.size y) :
    ∃ L x R, q .free = L ++ x :: R ∧ FirstSmallest s (n < s.size ·) L x R ∧
      s.forEach Best.state .free (smallestBody n) ⟨s, s.size f, s.sva f⟩ =
        some (⟨s, s.size x, s.sva x⟩, none) := by
  have hrun := IntrusiveList.forEach_run (g := fun t => t.state.store.next)
    (f := smallestBody n) (E := fun _ _ => False)
    (R := fun xs t => ∃ pre, q .free = pre ++ xs ∧ ∃ L x R, q .free = L ++ x :: R ∧
      n < s.size x ∧ t = ⟨s, s.size x, s.sva x⟩ ∧ (∀ y ∈ L, n < s.size y → s.size x < s.size y) ∧
      ∀ y ∈ pre, n < s.size y → s.size x ≤ s.size y)
    (fun x xs t ⟨pre, hq, _, _, _, _, _, ht, _⟩ => by simpa [ht] using next_eq h hq)
    (fun x xs t ⟨pre, hpre, L, z, R, hz, hzn, ht, hL, hmin⟩ => .inl ?_)
    (l := q .free) (s := ⟨s, s.size f, s.sva f⟩)
    ⟨[], rfl, A, f, B, hq, hfn, rfl, fun y hy hyn => absurd hyn (hA y hy), by simp⟩ hlen
  · obtain ⟨t, ht, pre, hpre, L, x, R, hx, hxn, rfl, hL, hmin⟩ | ⟨_, _, _, hF⟩ := hrun
    · rw [List.append_nil] at hpre
      subst hpre
      refine ⟨L, x, R, hx, ⟨hxn, hL, fun y hy => hmin y (by simp [hx, hy])⟩, ?_⟩
      rw [State.forEach, first_eq h]
      exact ht
    · exact hF.elim
  · refine ⟨_, rfl, pre ++ [x], by simp [hpre], ?_⟩
    subst ht
    by_cases hc : s.size x < s.size z ∧ n < s.size x
    · -- everything visited so far is at least as large as the old candidate
      refine ⟨pre, x, xs, hpre, hc.2, by simp [hc],
        fun y hy hyn => hc.1.trans_le (hmin y hy hyn), fun y hy hyn => ?_⟩
      rcases List.mem_append.mp hy with hy | hy
      · exact hc.1.le.trans (hmin y hy hyn)
      · simp [List.mem_singleton.mp hy]
    · refine ⟨L, z, R, hz, hzn, by simp [hc], hL, fun y hy hyn => ?_⟩
      rcases List.mem_append.mp hy with hy | hy
      · exact hmin y hy hyn
      · rw [List.mem_singleton.mp hy] at hyn ⊢
        omega

include h hlen in
private theorem exact_none {u v : ℕ} (hex : ∀ x ∈ q .free, s.size x ≠ n) :
    allocBlockBF s n u v = (do
      let (b, _) ← s.forEach Best.state .free (candidateBody n) ⟨s, u, v⟩
      let (b, _) ← s.forEach Best.state .free (smallestBody n) b
      s.forEach id .free (carveBody (s.first .available) n b.newsize b.newveradd) s) := by
  have hexact := forEach_none (v := id) h rfl hlen (f := exactBody n) (i := s)
    (fun y hy => by simp [exactBody, hex y hy])
  simp [allocBlockBF, hexact]

include h hlen hw hav in
theorem allocBlockBF_at (hn : 0 < n) (hfit : ∃ x ∈ q .free, n ≤ s.size x) (u v : ℕ) :
    ∃ L b R s' q' r, q .free = L ++ b :: R ∧ FirstSmallest s (n ≤ s.size ·) L b R ∧
      allocBlockBF s n u v = some (s', some r) ∧ AllocatedAt s q n L b R s' q' r := by
  by_cases hex : ∃ x ∈ q .free, s.size x = n
  · obtain ⟨L, b, R, hq, hb, hL⟩ := exists_first hex
    have hloop := forEach_first (v := id) h rfl hlen hq (f := exactBody n) (i := s)
      (fun y hy => by simp [exactBody, hL y hy]) (t := s.remove .free b) (r := b)
      (by simp [exactBody, hb])
    refine ⟨L, b, R, _, _, b, hq, ⟨hb.ge, fun y hy hyn => ?_, fun y _ hyn => hb.trans_le hyn⟩, ?_,
      .whole hb (h.remove hq)⟩
    · exact hb.trans_lt (lt_of_le_of_ne hyn fun he => hL y hy he.symm)
    · simp [allocBlockBF, hloop, State.remove]
  have hne : ∀ x ∈ q .free, s.size x ≠ n := fun x hx he => hex ⟨x, hx, he⟩
  have hlarge : ∃ x ∈ q .free, n < s.size x := by
    obtain ⟨x, hx, hn⟩ := hfit
    exact ⟨x, hx, lt_of_le_of_ne hn (hne x hx).symm⟩
  obtain ⟨A, f, B, hqf, hf, hA⟩ := exists_first hlarge
  have hcand := forEach_first (v := Best.state) (i := ⟨s, u, v⟩) h rfl hlen hqf
    (f := candidateBody n) (fun y hy => by simp [candidateBody, hA y hy])
    (t := ⟨s, s.size f, s.sva f⟩) (r := ()) (by simp [candidateBody, hf])
  obtain ⟨L, b, R, hq, ⟨hbn, hL, hR⟩, hsmall⟩ := smallest_eq h hlen hqf hf hA
  obtain ⟨m, M, ha⟩ := List.exists_cons_of_ne_nil (hav hlarge)
  have hm : s.first .available = some m := by rw [first_eq h, ha]; rfl
  have hbm : b ≠ m := ne_of_mem h (by decide : BlockList.free ≠ .available)
    (by simp [hq]) (by simp [ha])
  have hbw := hw b (by simp [hq])
  have hsub : u32 (s.size b + 4294967296 - n) = s.size b - n := by
    rw [show s.size b + 4294967296 - n = s.size b - n + 2 ^ 32 by omega]
    simp only [u32, Nat.add_mod_right]
    exact Nat.mod_eq_of_lt (by omega)
  have hlt : ∀ y, y ∈ q .free → n ≤ s.size y → n < s.size y := fun y hy hyn =>
    lt_of_le_of_ne hyn (hne y hy).symm
  refine ⟨L, b, R, _, _, m, hq, ⟨hbn.le, fun y hy hyn => hL y hy (hlt y (by simp [hq, hy]) hyn),
    fun y hy hyn => hR y hy (hlt y (by simp [hq, hy]) hyn)⟩, ?_,
    allocated_of_carve h hw hq ha hbn rfl⟩
  have hcarve := forEach_first (v := id) h rfl hlen hq (i := s)
    (f := carveBody (some m) n (s.size b) (s.sva b))
    (fun y hy => ?_) (t := _) (r := m)
    (by simp only [carveBody, and_self, if_true]; rfl)
  · simp only [exact_none h hlen hne, hm, hcand, hsmall, hcarve, Option.bind_eq_bind,
      Option.bind_some]
    simp [State.setSva, State.setSize, State.remove, Function.update_of_ne hbm,
      Function.update_of_ne hbm.symm, Function.update_comm hbm, hsub]
  · have hskip : s.size y ≠ s.size b := fun he => (hL y hy (hbn.trans_eq he.symm)).ne he.symm
    simp [carveBody, hskip]

include h hlen hw hav in
theorem allocBlockBF_some (hn : 0 < n) (hfit : ∃ x ∈ q .free, n ≤ s.size x) (u v : ℕ) :
    ∃ s' q' r, allocBlockBF s n u v = some (s', some r) ∧ Allocated s q n s' q' r := by
  obtain ⟨L, b, R, s', q', r, hq, -, hr, hal⟩ := allocBlockBF_at h hlen hw hav hn hfit u v
  exact ⟨s', q', r, hr, hal.allocated hq⟩

include h hlen in
/-- With no block that is large enough, best fit compares the blocks with what its
locals happen to hold. -/
theorem allocBlockBF_small (hfit : ∀ x ∈ q .free, s.size x < n) (u v : ℕ) :
    allocBlockBF s n u v = s.forEach id .free (carveBody (s.first .available) n u v) s := by
  have hcand := forEach_none (v := Best.state) (i := ⟨s, u, v⟩) h rfl hlen (f := candidateBody n)
    (fun y hy => by simp [candidateBody, (hfit y hy).le])
  have hsmall := forEach_none (v := Best.state) (i := ⟨s, u, v⟩) h rfl hlen (f := smallestBody n)
    (fun y hy => by simp [smallestBody, (hfit y hy).le])
  simp [exact_none h hlen fun x hx => (hfit x hx).ne, hcand, hsmall]

include h hlen in
theorem allocBlockBF_none (hfit : ∀ x ∈ q .free, s.size x < n) {u v : ℕ}
    (huv : ¬ ∃ x ∈ q .free, s.size x = u ∧ s.sva x = v) :
    allocBlockBF s n u v = some (s, none) := by
  rw [allocBlockBF_small h hlen hfit]
  refine forEach_none (v := id) h rfl hlen fun y hy => ?_
  have hskip : ¬ (s.size y = u ∧ s.sva y = v) := fun he => huv ⟨y, hy, he⟩
  simp [carveBody, hskip]

/-- The node `m` was handed out for a block at `v`, where the free block `b` starts. -/
structure CutStale (s : State) (q : BlockList → List ℕ) (v : ℕ) (s' : State) (b m : ℕ) (M : List ℕ) : Prop where
  free : b ∈ q .free
  start : s.sva b = v
  available : q .available = m :: M
  rep : s'.store.Represents (Function.update q .available M)
  cnt : s'.maxMemBlockCnt = s.maxMemBlockCnt
  sva : s'.sva m = v
  rest : ∀ x, x ≠ b → x ≠ m → s'.sva x = s.sva x

include h hlen in
/-- The block that stale locals point at is cut although it is too small. -/
theorem allocBlockBF_stale (hfit : ∀ x ∈ q .free, s.size x < n) {u v : ℕ}
    (huv : ∃ x ∈ q .free, s.size x = u ∧ s.sva x = v) (ha : q .available ≠ []) :
    ∃ s' m, allocBlockBF s n u v = some (s', some m) ∧ ∃ b M, CutStale s q v s' b m M := by
  obtain ⟨L, b, R, hq, hb, hL⟩ := exists_first huv
  obtain ⟨m, M, ha⟩ := List.exists_cons_of_ne_nil ha
  have hm : s.first .available = some m := by rw [first_eq h, ha]; rfl
  have hbm : b ≠ m := ne_of_mem h (by decide : BlockList.free ≠ .available) (by simp [hq]) (by simp [ha])
  have hloop := forEach_first (v := id) h rfl hlen hq (i := s) (f := carveBody (some m) n u v)
    (fun y hy => by simp [carveBody, hL y hy]) (t := _) (r := m)
    (by simp only [carveBody, hb, and_self, if_true]; rfl)
  rw [allocBlockBF_small h hlen hfit, hm]
  refine ⟨_, m, hloop, b, M, by simp [hq], hb.2, ha, ?_, rfl, ?_, fun x hxb hxm => ?_⟩
  · exact h.remove (show q .available = [] ++ m :: M from ha)
  · simp [State.setSva, State.setSize, Function.update_of_ne hbm.symm]
  · simp [State.setSva, State.setSize, State.remove, Function.update_of_ne hxb, Function.update_of_ne hxm]

end Allocation

section Merging

/-- What freeing the block `b` between the free blocks `L` below it and `R`
above it does to the lists. -/
structure Released (s : State) (q : BlockList → List ℕ) (b : ℕ) (L R : List ℕ) (s' : State)
    (q' : BlockList → List ℕ) : Prop where
  rep : s'.store.Represents q'
  cnt : s'.maxMemBlockCnt = s.maxMemBlockCnt
  alloc : q' .alloc = q .alloc
  live : ∀ x, x ≠ b → x ∉ q .free → s'.block x = s.block x
  nodes : ∀ n, (∃ k, n ∈ q' k) ↔ n = b ∨ ∃ k, n ∈ q k
  joins : ∃ L' c R', (q' .free).map s'.block = L' ++ c :: R' ∧
    Partition.JoinsLeft (L.map s.block) L' (s.block b) c ∧
    Partition.JoinsRight (R.map s.block) R' (s.block b) c

theorem exists_list {p : BlockList → Prop} : (∃ k, p k) ↔ p .available ∨ p .free ∨ p .alloc := by
  constructor
  · rintro ⟨k | k | k, h⟩ <;> simp [h]
  · rintro (h | h | h) <;> exact ⟨_, h⟩

theorem addToAvail_represents (h : s.store.Represents q) {b : ℕ} (hb : ∀ k, b ∉ q k) :
    (addToAvailMemBlocksList s b).store.Represents
      (Function.update q .available (q .available ++ [b])) :=
  h.insertTail .available hb

theorem addToAvail_block {b x : ℕ} (hx : x ≠ b) :
    (addToAvailMemBlocksList s b).block x = s.block x := by
  simp [addToAvailMemBlocksList, State.insertTail, State.setSva, State.setSize, State.block,
    Function.update_of_ne hx]

variable (h : s.store.Represents q) {b : ℕ} (hb : ∀ k, b ∉ q k) {L R : List ℕ}
  (hq : q .free = L ++ R)

def Apart (s : State) (b : ℕ) (L R : List ℕ) : Prop :=
  (∀ p, L.getLast? = some p → (s.block p).stop ≠ s.sva b) ∧
    ∀ n, R.head? = some n → (s.block b).stop ≠ s.sva n

include hq in
private theorem released_insert (hap : Apart s b L R) {t : Store BlockList ℕ}
    (ht : t.Represents (Function.update q .free (L ++ b :: R))) :
    Released s q b L R { s with store := t } (Function.update q .free (L ++ b :: R)) where
  rep := ht
  cnt := rfl
  alloc := by simp
  live _ _ _ := rfl
  nodes n := by
    simp only [exists_list, Function.update_self, hq, List.mem_append, List.mem_cons, ne_eq,
      reduceCtorEq, not_false_eq_true, Function.update_of_ne]
    tauto
  joins := by
    refine ⟨L.map s.block, s.block b, R.map s.block, by simp; rfl, .inl ⟨rfl, rfl, ?_⟩,
      .inl ⟨rfl, rfl, ?_⟩⟩
    · intro p hp
      rw [List.getLast?_map, Option.map_eq_some_iff] at hp
      obtain ⟨p, hp, rfl⟩ := hp
      exact hap.1 p hp
    · intro n hn
      rw [List.head?_map, Option.map_eq_some_iff] at hn
      obtain ⟨n, hn, rfl⟩ := hn
      exact hap.2 n hn

include h hb in
private theorem released_enlarge {x : ℕ} {L₀ R₀ : List ℕ} (hx : q .free = L₀ ++ x :: R₀) {c : Interval}
    {L' R' : List Interval} (hL' : L₀.map s.block = L') (hR' : R₀.map s.block = R')
    (hl : Partition.JoinsLeft (L.map s.block) L' (s.block b) c)
    (hr : Partition.JoinsRight (R.map s.block) R' (s.block b) c) {s₁ : State}
    (hs₁ : s₁.store = s.store) (hcnt : s₁.maxMemBlockCnt = s.maxMemBlockCnt)
    (hc : s₁.block x = c) (hrest : ∀ y, y ≠ x → s₁.block y = s.block y) :
    Released s q b L R (addToAvailMemBlocksList s₁ b)
      (Function.update q .available (q .available ++ [b])) := by
  have hnd := (h.list .free).nodup
  rw [hx] at hnd
  have hmem : ∀ y ∈ L₀ ++ R₀, y ≠ x ∧ y ≠ b := by
    intro y hy
    have hyq : y ∈ q .free := by
      rw [hx]
      simp only [List.mem_append, List.mem_cons] at hy ⊢
      tauto
    refine ⟨?_, fun he => hb .free (he ▸ hyq)⟩
    rintro rfl
    exact (List.nodup_middle.mp hnd |> List.nodup_cons.mp).1 hy
  have hxb : x ≠ b := fun he => hb .free (by simp [hx, he])
  refine ⟨addToAvail_represents (s := s₁) (hs₁ ▸ h) hb, hcnt, by simp, fun y hyb hy => ?_, fun n => ?_,
    L', c, R', ?_, hl, hr⟩
  · have hyx : y ≠ x := fun he => hy (by simp [hx, he])
    rw [addToAvail_block hyb, hrest y hyx]
  · simp only [exists_list, Function.update_self, List.mem_append, List.mem_singleton, ne_eq,
      reduceCtorEq, not_false_eq_true, Function.update_of_ne]
    tauto
  · rw [Function.update_of_ne (by decide), hx, List.map_append, List.map_cons, ← hL', ← hR',
      addToAvail_block hxb, hc]
    congr 1
    · refine List.map_congr_left fun y hy => ?_
      have := hmem y (by simp [hy])
      rw [addToAvail_block this.2, hrest y this.1]
    · congr 1
      refine List.map_congr_left fun y hy => ?_
      have := hmem y (by simp [hy])
      rw [addToAvail_block this.2, hrest y this.1]

include h hb in
private theorem released_bridge {p i : ℕ} {L₀ R₀ : List ℕ} (hx : q .free = L₀ ++ p :: i :: R₀)
    (hl : (s.block p).stop = s.sva b) (hr : (s.block b).stop = s.sva i) {s₁ : State}
    (hs₁ : s₁ = (s.setSize p (s.size p + s.size b + s.size i)).remove .free i) :
    Released s q b (L₀ ++ [p]) (i :: R₀)
      (addToAvailMemBlocksList (addToAvailMemBlocksList s₁ b) i)
      (Function.update (Function.update q .free (L₀ ++ p :: R₀)) .available
        (q .available ++ [b, i])) := by
  have hx' : q .free = (L₀ ++ [p]) ++ i :: R₀ := by simp [hx]
  have hnd := (h.list .free).nodup
  rw [hx] at hnd
  simp only [List.nodup_append, List.nodup_cons, List.mem_cons, not_or] at hnd
  have hpi : p ≠ i := hnd.2.1.1.1
  have hmem : ∀ y ∈ L₀ ++ R₀, y ≠ p ∧ y ≠ i ∧ y ≠ b := by
    intro y hy
    have hyb : y ≠ b := by
      rintro rfl
      refine hb .free ?_
      rw [hx]
      simp only [List.mem_append, List.mem_cons] at hy ⊢
      tauto
    rcases List.mem_append.mp hy with hy | hy
    · exact ⟨hnd.2.2 y hy p (.inl rfl), hnd.2.2 y hy i (.inr (.inl rfl)), hyb⟩
    · exact ⟨fun he => hnd.2.1.1.2 (he ▸ hy), fun he => hnd.2.1.2.1 (he ▸ hy), hyb⟩
  have hpb : p ≠ b := fun he => hb .free (by simp [hx, he])
  have hib : i ≠ b := fun he => hb .free (by simp [hx, he])
  have hrep : s₁.store.Represents (Function.update q .free (L₀ ++ p :: R₀)) := by
    subst hs₁
    simpa [State.remove, State.setSize] using h.remove hx'
  have hblock : ∀ y, y ≠ p → s₁.block y = s.block y := by
    intro y hy
    simp [hs₁, State.block, State.setSize, State.remove, Function.update_of_ne hy]
  have hblock' : ∀ y, y ≠ i → y ≠ b →
      (addToAvailMemBlocksList (addToAvailMemBlocksList s₁ b) i).block y = s₁.block y :=
    fun y hyi hyb => (addToAvail_block hyi).trans (addToAvail_block hyb)
  have hbq : ∀ k, b ∉ Function.update q .free (L₀ ++ p :: R₀) k := by
    rintro (k | k | k)
    · simpa using hb .available
    · have := hb .free
      simp only [hx, List.mem_append, List.mem_cons, Function.update_self] at this ⊢
      tauto
    · simpa using hb .alloc
  have hiq : ∀ k, i ∉ Function.update (Function.update q .free (L₀ ++ p :: R₀)) .available
      (q .available ++ [b]) k := by
    have hif : i ∈ q .free := by simp [hx]
    rintro (k | k | k)
    · simpa [hib] using h.disjoint .free .available (by decide) i hif
    · have hiL : i ∉ L₀ := fun hm => hnd.2.2 i hm i (.inr (.inl rfl)) rfl
      simp [hpi.symm, hnd.2.1.2.1, hiL]
    · simpa using h.disjoint .free .alloc (by decide) i hif
  refine ⟨?_, by simp [hs₁, addToAvailMemBlocksList, State.setSva, State.setSize, State.insertTail,
    State.remove], by simp, fun y hyb hy => ?_, fun n => ?_, L₀.map s.block,
    ⟨s.sva p, s.size p + s.size b + s.size i⟩, R₀.map s.block, ?_, .inr ⟨s.block p, by simp, ?_⟩,
    .inr ⟨s.block i, by simp, ?_⟩⟩
  · have h₁ := addToAvail_represents hrep hbq
    rw [Function.update_of_ne (by decide)] at h₁
    simpa using addToAvail_represents h₁ hiq
  · have hyp : y ≠ p := fun he => hy (by simp [hx, he])
    have hyi : y ≠ i := fun he => hy (by simp [hx, he])
    rw [hblock' y hyi hyb, hblock y hyp]
  · simp only [exists_list, Function.update_self, List.mem_append, List.mem_cons, ne_eq,
      reduceCtorEq, not_false_eq_true, Function.update_of_ne, hx, List.not_mem_nil, or_false]
    tauto
  · have hc : s₁.block p = ⟨s.sva p, s.size p + s.size b + s.size i⟩ := by
      simp [hs₁, State.block, State.setSize, State.remove]
    rw [Function.update_of_ne (by decide), Function.update_self, List.map_append, List.map_cons,
      hblock' p hpi hpb, hc]
    congr 1
    · refine List.map_congr_left fun y hy => ?_
      have := hmem y (by simp [hy])
      rw [hblock' y this.2.1 this.2.2, hblock y this.1]
    · congr 1
      refine List.map_congr_left fun y hy => ?_
      have := hmem y (by simp [hy])
      rw [hblock' y this.2.1 this.2.2, hblock y this.1]
  · exact ⟨hl, rfl⟩
  · refine ⟨hr, ?_⟩
    simp only [State.block, Interval.stop] at hl hr ⊢
    omega

variable (hL : ∀ x ∈ L, (s.block x).stop ≤ s.sva b) (hR : ∀ x ∈ R, (s.block b).stop ≤ s.sva x)
  (hpos : ∀ x, x = b ∨ x ∈ q .free → 0 < s.size x)
  {lo hi : ℕ} (hw : ∀ x, x = b ∨ x ∈ q .free → lo ≤ s.sva x ∧ (s.block x).stop ≤ hi)
  (hhi : hi ≤ 2 ^ 32) (hspan : hi - lo < 2 ^ 32)

include h hb hq hL hR hpos hw hhi hspan in
/-- The five cases at the first free block `i` above the new one. -/
private theorem mergeAt_released {i : ℕ} {R₀ : List ℕ} (hRi : R = i :: R₀) :
    ∃ q', Released s q b L R (mergeAt s b i) q' := by
  subst hRi
  have hprev := prev_eq h hq
  have hib := hR i (by simp)
  have hiw := hw i (.inr (by simp [hq]))
  have hbw := hw b (.inl rfl)
  have hip := hpos i (.inr (by simp [hq]))
  have hbi : b ≠ i := fun he => hb .free (by simp [hq, he])
  simp only [State.block, Interval.stop] at hib hiw hbw
  have hsum : u32 (s.size b + s.sva b) = s.sva b + s.size b := by rw [u32_of_lt] <;> omega
  have hright : ∀ hne : (∀ p, L.getLast? = some p → (s.block p).stop ≠ s.sva b),
      s.sva b + s.size b = s.sva i →
      ∃ q', Released s q b L (i :: R₀) (addToAvailMemBlocksList
        ((s.setSva i (s.sva b)).setSize i (u32 (s.size i + s.size b))) b) q' := by
    intro hne heq
    refine ⟨_, released_enlarge h hb hq (c := ⟨s.sva b, s.size i + s.size b⟩) rfl rfl
      (.inl ⟨rfl, rfl, fun p hp => ?_⟩) (.inr ⟨s.block i, rfl, heq, ?_⟩) rfl rfl ?_ fun y hy => ?_⟩
    · rw [List.getLast?_map, Option.map_eq_some_iff] at hp
      obtain ⟨p, hp, rfl⟩ := hp
      exact hne p hp
    · simp only [State.block, Interval.stop]
      omega
    · simp [State.block, State.setSva, State.setSize,
        u32_of_lt (show s.size i + s.size b < 2 ^ 32 by omega)]
    · simp [State.block, State.setSva, State.setSize, Function.update_of_ne hy]
  have hins : (∀ p, L.getLast? = some p → (s.block p).stop ≠ s.sva b) →
      s.sva b + s.size b ≠ s.sva i →
      ∃ q', Released s q b L (i :: R₀) (s.insertBefore .free i b) q' := fun hne heq =>
    ⟨_, released_insert hq ⟨hne, by simpa [State.block, Interval.stop] using heq⟩
      (h.insertBefore hq hb)⟩
  rcases Store.eq_nil_or_concat L with rfl | ⟨L₀, p, rfl⟩
  · have hp : s.store.prev i = none := by simpa using hprev
    simp only [mergeAt, hp, hsum]
    split
    · exact hright (by simp) ‹_›
    · exact hins (by simp) ‹_›
  · have hp : s.store.prev i = some p := by simpa using hprev
    have hpb := hL p (by simp)
    have hpw := hw p (.inr (by simp [hq]))
    have hne : p ≠ i := by
      have := (h.list .free).nodup
      rw [hq] at this
      exact (List.nodup_append.mp this).2.2 p (by simp) i (by simp)
    have hpp : p ≠ b := fun he => hb .free (by simp [hq, he])
    simp only [State.block, Interval.stop] at hpb hpw
    have hsum₃ : u32 (s.sva p + s.size p + s.size b) = s.sva p + s.size p + s.size b := by
      rw [u32_of_lt]
      omega
    have hsum₂ : u32 (s.sva p + s.size p) = s.sva p + s.size p := u32_of_lt (by omega)
    simp only [mergeAt, hp, hsum, hsum₂, hsum₃]
    split
    · rw [u32_of_lt (by omega)]
      exact ⟨_, released_bridge h hb (by simpa using hq) (by simp only [State.block, Interval.stop]; omega)
        (by simp only [State.block, Interval.stop]; omega) rfl⟩
    split
    · refine ⟨_, released_enlarge h hb (show q .free = L₀ ++ p :: (i :: R₀) by simp [hq])
        (c := ⟨s.sva p, s.size p + s.size b⟩) rfl rfl (.inr ⟨s.block p, by simp, ‹_›, rfl⟩)
        (.inl ⟨rfl, ?_, ?_⟩) rfl rfl ?_ fun y hy => ?_⟩
      · simp only [State.block, Interval.stop]
        omega
      · simp only [State.block, Interval.stop, List.map_cons, List.head?_cons, Option.some.injEq,
          forall_eq']
        omega
      · simp [State.block, State.setSize, u32_of_lt (show s.size p + s.size b < 2 ^ 32 by omega)]
      · simp [State.block, State.setSize, Function.update_of_ne hy]
    · have hapart : ∀ p', (L₀ ++ [p]).getLast? = some p' → (s.block p').stop ≠ s.sva b := by
        simpa [State.block, Interval.stop] using ‹¬ s.sva p + s.size p = s.sva b›
      split
      · exact hright hapart ‹_›
      · exact hins hapart ‹_›

include h hb hq hL hR hpos hw hhi hspan in
theorem insertSortedWithMergeFreeList_eq (hlen : (q .free).length ≤ s.maxMemBlockCnt) :
    ∃ s' q', insertSortedWithMergeFreeList s b = some s' ∧ Released s q b L R s' q' := by
  have hsize : (s.store.head .free).size = (q .free).length := by rw [(h.list .free).head]
  by_cases hnil : q .free = []
  · obtain ⟨rfl, rfl⟩ : L = [] ∧ R = [] := by simpa [hnil] using hq
    refine ⟨_, _, by simp [insertSortedWithMergeFreeList, hsize, hnil]; rfl,
      released_insert hq ⟨by simp, by simp⟩ ?_⟩
    simpa [hnil] using h.insertHead .free hb
  have hsize' : (s.store.head .free).size ≠ 0 := by simpa [hsize] using hnil
  cases R with
  | nil =>
    obtain ⟨L₀, p, rfl⟩ := (Store.eq_nil_or_concat L).resolve_left fun he => hnil (by simp [hq, he])
    rw [List.append_nil] at hq
    have hp : s.last .free = some p := by rw [last_eq h, hq]; simp
    have hpb := hL p (by simp)
    have hpp := hpos p (.inr (by simp [hq]))
    have hpw := hw p (.inr (by simp [hq]))
    have hbw := hw b (.inl rfl)
    simp only [State.block, Interval.stop] at hpb hpw hbw
    have hbp := hpos b (.inl rfl)
    have hsum : u32 (s.sva p + s.size p) = s.sva p + s.size p := u32_of_lt (by omega)
    have hlt : s.sva p < s.sva b := by omega
    simp only [insertSortedWithMergeFreeList, hsize', if_false, hp, Option.bind_eq_bind,
      Option.bind_some, hlt, if_true, hsum]
    split
    · refine ⟨_, _, rfl, released_enlarge h hb (show q .free = L₀ ++ p :: [] by simp [hq])
        (c := ⟨s.sva p, s.size p + s.size b⟩) rfl rfl (.inr ⟨s.block p, by simp, ‹_›, rfl⟩)
        (.inl ⟨rfl, ?_, by simp⟩) rfl rfl ?_ fun y hy => ?_⟩
      · simp only [State.block, Interval.stop]
        omega
      · simp [State.block, State.setSize, u32_of_lt (show s.size p + s.size b < 2 ^ 32 by omega)]
      · simp [State.block, State.setSize, Function.update_of_ne hy]
    · have hap : Apart s b (L₀ ++ [p]) [] :=
        ⟨by simpa [State.block, Interval.stop] using ‹¬ s.sva p + s.size p = s.sva b›, by simp⟩
      refine ⟨_, _, rfl, released_insert (by simpa using hq) hap ?_⟩
      simpa using h.insertAfter (by simpa using hq) hb
  | cons i R₀ =>
    obtain ⟨l, hl⟩ : ∃ l, (i :: R₀).getLast? = some l := by simp [List.getLast?_cons]
    have hlast : s.last .free = some l := by
      rw [last_eq h, hq, List.getLast?_append, hl, Option.some_or]
    have hbp := hpos b (.inl rfl)
    have habove : ∀ x ∈ i :: R₀, s.sva b < s.sva x := by
      intro x hx
      have := hR x hx
      simp only [State.block, Interval.stop] at this
      omega
    have hnl : ¬ s.sva l < s.sva b := (habove l (List.mem_of_mem_getLast? hl)).asymm
    have hskip : ∀ y ∈ L, mergeBody b y s = some (.next s) := by
      intro y hy
      have := hL y hy
      simp only [State.block, Interval.stop] at this
      simp [mergeBody, show ¬ s.sva b < s.sva y by omega]
    have hloop := forEach_first (v := id) h rfl hlen hq hskip (t := mergeAt s b i) (r := ())
      (by simp [mergeBody, habove i (by simp)])
    obtain ⟨q', hq'⟩ := mergeAt_released h hb hq hL hR hpos hw hhi hspan rfl
    exact ⟨_, q', by simp [insertSortedWithMergeFreeList, hsize', hlast, hnl, hloop], hq'⟩

end Merging

end FosKernel.DynamicAllocator
