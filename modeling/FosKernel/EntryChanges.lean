import FosKernel.UserMappings

/-!
# Changing entries whatever they hold

The counters of the frames and the entries for user pages may hold anything here. What
the memory manager relies on for its own pages is `Ready`: directories and tables lie
where they should, and the free list names no frame of theirs. `Stocked` adds the kernel
heap, from which new tables come.
-/

namespace FosKernel.Machine
open FailingPrograms PageEntries DynamicAllocator IntervalLists ReferenceCounts

variable {s t u : Machine} {E : Finset ℕ} {g g' g'' : Obj → ℕ} {τ τ' : Tree} {o : Obj} {x : Cell}
  {p f f' i j m n w va perm pt : ℕ} {fs : List ℕ} {I J : Finset ℕ} {cpt : ℕ → ℕ → Kernel ℕ}

/-- A page of the kernel heap is mapped to the frame. -/
def HeapFrame (s : Machine) (f : ℕ) : Prop := ∃ p, HeapPage p ∧ nameOf (s.kernelPte p) = some f

/-- A frame that the kernel does not use for itself. -/
structure Ordinary (s : Machine) (f : ℕ) : Prop where
  managed : s.Managed f
  not_heap : ¬s.HeapFrame f

/-- A frame that entries for user pages may name. -/
structure InUse (s : Machine) (f : ℕ) : Prop extends Ordinary s f where
  not_free : f ∉ s.freeFrameList

/-- The layout, and a free list of ordinary frames. -/
structure Ready (E : Finset ℕ) (s : Machine) (g : Obj → ℕ) : Prop extends Layout E s g where
  nodup : s.freeFrameList.Nodup
  free : ∀ f ∈ s.freeFrameList, Ordinary s f ∧ (s.framesInfo f).isBuffered = false

structure Stocked (E : Finset ℕ) (s : Machine) (g : Obj → ℕ) : Prop extends Ready E s g where
  heap : HeapInv s

theorem System.stocked {L : Set ℕ} (h : System E s g L) : Stocked E s g where
  toLayout := h.toLayout
  nodup := h.pool.nodup
  free f hf := by
    obtain ⟨hm, -, hnot⟩ := h.free_managed hf
    refine ⟨⟨hm, ?_⟩, h.unbuffered f⟩
    rintro ⟨p, hp, hn⟩
    refine hnot _ (page_mem_slots.mpr hp.shared) ?_
    rwa [cellWord_page hp.shared]
  heap := h.heap

theorem heapFrame_congr (h : ∀ p, HeapPage p → t.kernelPte p = s.kernelPte p) :
    t.HeapFrame f ↔ s.HeapFrame f := by
  constructor
  · rintro ⟨p, hp, hn⟩
    exact ⟨p, hp, h p hp ▸ hn⟩
  · rintro ⟨p, hp, hn⟩
    exact ⟨p, hp, (h p hp).symm ▸ hn⟩

theorem Ordinary.congr (hf : Ordinary s f) (hst : SameBoot s t)
    (h : ∀ p, HeapPage p → t.kernelPte p = s.kernelPte p) : Ordinary t f :=
  ⟨by rw [hst.managed]; exact hf.managed, fun hh => hf.not_heap ((heapFrame_congr h).mp hh)⟩

theorem Layout.heapFrame_object (h : Layout E s g) (hk : o ≠ .root .kernel) (ho : g o ≠ 0) :
    s.HeapFrame (s.pageFrame (g o)) := by
  have hp := (h.object o hk ho).heap
  have hn := h.nameOf_object hk ho
  rw [cellWord_page hp.shared] at hn
  exact ⟨_, hp, hn⟩

theorem Layout.ordinary_ne (h : Layout E s g) (hf : Ordinary s f) (ho : g o ≠ 0) :
    s.pageFrame (g o) ≠ f := by
  rintro rfl
  by_cases hk : o = .root .kernel
  · subst hk
    rw [h.pageFrame_kernelRoot] at hf
    exact h.reserved.1 hf.managed
  · exact hf.not_heap (h.heapFrame_object hk ho)

theorem MapsPage.heapFrame (hf : MapsPage s p f) (hp : HeapPage p) : s.HeapFrame f :=
  ⟨p, hp, by rw [hf.entry]; exact nameOf_heapEntry⟩

theorem HeapInv.keep (hi : HeapInv s) (ht : Ready E t g) (hheap : t.heap = s.heap)
    (hn : t.numberOfFrames = s.numberOfFrames)
    (hpte : ∀ p, HeapPage p → t.kernelPte p = s.kernelPte p)
    (hinfo : ∀ f, s.HeapFrame f → t.framesInfo f = s.framesInfo f) : HeapInv t := by
  have hlive : t.Live = s.Live := by
    funext p
    rw [Live, Live, hheap]
  refine ⟨hheap ▸ hi.lists, ?_⟩
  rw [hlive]
  refine hi.pages.keep (ht.tables.mono heapTables_subset) hn hpte (fun p f hp hf => ?_) ht.nodup fun f hf => ?_
  · exact ⟨hinfo f (hf.heapFrame hp), fun hfree => (ht.free f hfree).1.not_heap
      ((heapFrame_congr hpte).mpr (hf.heapFrame hp))⟩
  · exact ⟨ht.managed_lt (ht.free f hf).1.managed, (ht.free f hf).2⟩

theorem Stocked.load (h : Stocked E s g) {e : ℕ} (he : e ∈ E) (ho : g (.root (.user e)) ≠ 0) :
    Stocked E { s with cr3 := (s.envs e).envCr3 } g := by
  have hready : Ready E { s with cr3 := (s.envs e).envCr3 } g :=
    ⟨h.toLayout.load he ho, h.nodup, fun f hf => (h.free f hf).imp_left fun hf => ⟨hf.managed, hf.not_heap⟩⟩
  exact ⟨hready, h.heap.keep hready rfl rfl (fun _ _ => rfl) fun _ _ => rfl⟩

theorem kernelPte_of_user (hva : va < userTop)
    (hcell : t.cellWord g = Function.update (s.cellWord g) (cellAt τ va) w) (hp : HeapPage p) :
    t.kernelPte p = s.kernelPte p := by
  have := congrFun hcell (.page p)
  rwa [cellAt_user hva, Function.update_of_ne (by simp), cellWord_page hp.shared,
    cellWord_page hp.shared] at this

/-- A step that changes one entry for a user page, and records of frames that the kernel does
not use for itself. -/
structure UserStep (s t : Machine) : Prop where
  places : SamePlaces s t
  heap : t.heap = s.heap
  strategy : t.kHeapPlacementStrategy = s.kHeapPlacementStrategy
  info : ∀ f, s.HeapFrame f → t.framesInfo f = s.framesInfo f
  nodup : t.freeFrameList.Nodup
  free : ∀ f ∈ t.freeFrameList, Ordinary s f ∧ (t.framesInfo f).isBuffered = false

theorem Ready.step (h : Ready E s g) (hs : UserStep s t) (hva : va < userTop)
    (hcell : t.cellWord g = Function.update (s.cellWord g) (cellAt τ va) w) : Ready E t g where
  toLayout := h.toLayout.of_update hs.places hcell (fun o hk _ => by simp [cellAt_user hva])
    (fun _ _ => cellAt_ne_root) fun o hk ho => by rw [hs.info _ (h.heapFrame_object hk ho)]
  nodup := hs.nodup
  free f hf := (hs.free f hf).imp_left fun hf =>
    hf.congr hs.places.toSameBoot fun _ hp => kernelPte_of_user hva hcell hp

theorem Stocked.step (h : Stocked E s g) (hs : UserStep s t) (hva : va < userTop)
    (hcell : t.cellWord g = Function.update (s.cellWord g) (cellAt τ va) w) : Stocked E t g where
  toReady := h.toReady.step hs hva hcell
  heap := h.heap.keep (h.toReady.step hs hva hcell) hs.heap hs.places.numberOfFrames
    (fun _ hp => kernelPte_of_user hva hcell hp) hs.info

theorem UserStep.setEntry {r : Machine} (hr : UserStep s r) (F j w : ℕ) :
    UserStep s (r.setEntry F j w) where
  places := hr.places.trans (sameGlobals_setEntry r F j w).places
  heap := hr.heap
  strategy := hr.strategy
  info := hr.info
  nodup := hr.nodup
  free := hr.free

theorem Ready.userStep_self (h : Ready E s g) : UserStep s s where
  places := (SameGlobals.refl s).places
  heap := rfl
  strategy := rfl
  info _ _ := rfl
  nodup := h.nodup
  free := h.free

theorem UserStep.addReference {r : Machine} (hr : UserStep s r) (hf : ¬s.HeapFrame f) :
    UserStep s (r.addReference f) where
  places := hr.places.trans (sameMemory_setInfo r f _).toSameGlobals.places
  heap := hr.heap
  strategy := hr.strategy
  info f' hf' := by
    have hne : f' ≠ f := fun he => hf (he ▸ hf')
    rw [Machine.addReference, setInfo_of_ne hne, hr.info f' hf']
  nodup := hr.nodup
  free f' hf' := by
    refine (hr.free f' hf').imp_right fun hb => ?_
    by_cases hff : f' = f
    · rw [hff, Machine.addReference, setInfo_self, addReferences_isBuffered, ← hff, hb]
    · rw [Machine.addReference, setInfo_of_ne hff, hb]

theorem Ready.dropReference (h : Ready E s g) (hf : InUse s f) : UserStep s (s.dropReference f) where
  places := (sameMemory_dropReference s f).toSameGlobals.places
  heap := (sameMemory_dropReference s f).heap
  strategy := (sameMemory_dropReference s f).strategy
  info f' hf' := dropReference_info_of_ne fun he => hf.not_heap (he ▸ hf')
  nodup := by
    unfold Machine.dropReference
    split
    · exact List.nodup_cons.mpr ⟨hf.not_free, h.nodup⟩
    · exact h.nodup
  free f' hf' := by
    by_cases hff : f' = f
    · subst f'
      rw [Machine.dropReference] at hf' ⊢
      split at hf'
      · rename_i hz
        rw [if_pos hz, setFree_framesInfo, setInfo_self]
        exact ⟨hf.toOrdinary, rfl⟩
      · exact absurd hf' hf.not_free
    · rw [dropReference_info_of_ne hff]
      refine h.free f' ?_
      rw [Machine.dropReference] at hf'
      split at hf'
      · exact (List.mem_cons.mp hf').resolve_left hff
      · exact hf'

/-- The word of a table where the entry for an address lies. -/
def entryFrame (s : Machine) (g : Obj → ℕ) (τ : Tree) (va : ℕ) : ℕ := s.pageFrame (g (.leaf τ (pdx va)))

theorem Layout.setEntry_cells {r : Machine} (h : Layout E s g) (hr : SamePlaces s r) (hram : r.ram = s.ram)
    (hva : va < userTop) (hl : g (.leaf τ (pdx va)) ≠ 0) (hw : w < 2 ^ 32) :
    (r.setEntry (s.entryFrame g τ va) (ptx va) w).cellWord g =
      Function.update (s.cellWord g) (cellAt τ va) w :=
  (h.located_leaf hva hl).set (hr.trans (sameGlobals_setEntry r _ _ w).places) hw
    (by simp only [setEntry, setFrame, hram, entryFrame])

theorem Stocked.set {r : Machine} (h : Stocked E s g) (hr : UserStep s r) (hram : r.ram = s.ram)
    (hva : va < userTop) (hl : g (.leaf τ (pdx va)) ≠ 0) (hw : w < 2 ^ 32) :
    Stocked E (r.setEntry (s.entryFrame g τ va) (ptx va) w) g ∧
      (r.setEntry (s.entryFrame g τ va) (ptx va) w).entries g =
        Function.update (s.entries g) (τ, pageNumber va) w := by
  have hcell := h.setEntry_cells hr.places hram hva hl hw
  exact ⟨h.step (hr.setEntry _ _ _) hva hcell, entries_update hva hcell⟩

def newEntry (f perm : ℕ) : ℕ := constructEntry (toPhysicalAddress f) (perm ||| permPresent)

theorem newEntry_present (f perm : ℕ) : HasPerm (newEntry f perm) permPresent :=
  HasPerm.or_left (HasPerm.or_left (by decide))

theorem newEntry_ne_zero (f perm : ℕ) : newEntry f perm ≠ 0 :=
  ne_zero_of_hasPerm_present (newEntry_present f perm)

theorem nameOf_newEntry (hperm : perm < 4096) : nameOf (newEntry f perm) = some f := nameOf_construct hperm

theorem frameNumber_newEntry (hperm : perm < 4096) : frameNumber (newEntry f perm) = f :=
  (nameOf_eq_some.mp (nameOf_newEntry hperm)).2

theorem Layout.newEntry_lt (h : Layout E s g) (hf : f < s.numberOfFrames) (hperm : perm < 4096) :
    newEntry f perm < 2 ^ 32 :=
  constructEntry_lt (hf.trans_le h.tables.frames) (Nat.or_lt_two_pow (n := 12) hperm (by decide))

theorem setEntry_setEntry (s : Machine) (f j w w' : ℕ) : (s.setEntry f j w).setEntry f j w' = s.setEntry f j w' := by
  have hpage (q : Page) : setWord (setWord q j w) j w' = setWord q j w' := by
    funext o
    simp only [setWord]
    split <;> rfl
  simp only [setEntry, setFrame_ram_self, hpage]
  simp only [setFrame, Function.update_idem]

theorem setEntry_framesInfo (s : Machine) (f j w : ℕ) : (s.setEntry f j w).framesInfo = s.framesInfo := rfl

theorem setEntry_freeFrameList (s : Machine) (f j w : ℕ) : (s.setEntry f j w).freeFrameList = s.freeFrameList := rfl

theorem addReference_setEntry (s : Machine) (f j w f' : ℕ) :
    (s.setEntry f j w).addReference f' = (s.addReference f').setEntry f j w := rfl

theorem Layout.setEntry {r : Machine} (h : Layout E s g) (hr : SamePlaces s r) (hram : r.ram = s.ram)
    (hinfo : ∀ o, o ≠ .root .kernel → g o ≠ 0 →
      (r.framesInfo (s.pageFrame (g o))).va = (s.framesInfo (s.pageFrame (g o))).va)
    (hva : va < userTop) (hl : g (.leaf τ (pdx va)) ≠ 0) (hw : w < 2 ^ 32) :
    Layout E (r.setEntry (s.entryFrame g τ va) (ptx va) w) g :=
  h.of_update (hr.trans (sameGlobals_setEntry r _ _ w).places) (h.setEntry_cells hr hram hva hl hw)
    (fun o hk _ => by simp [cellAt_user hva]) (fun _ _ => cellAt_ne_root) hinfo

theorem addReference_va (s : Machine) (f f' : ℕ) : ((s.addReference f).framesInfo f').va = (s.framesInfo f').va := by
  by_cases hf : f' = f
  · rw [hf, addReference, setInfo_self, addReferences_va]
  · rw [addReference, setInfo_of_ne hf]

theorem addReference_references (s : Machine) (f : ℕ) :
    ((s.addReference f).framesInfo f).references = ((s.framesInfo f).references + 1) % 2 ^ 16 := by
  rw [addReference, setInfo_self, addReferences_references]

theorem Layout.word_entry (h : Layout E s g) (hva : va < userTop) (hl : g (.leaf τ (pdx va)) ≠ 0) :
    wordAt (s.ram (s.entryFrame g τ va)) (ptx va) = s.entries g (τ, pageNumber va) := by
  rw [entryFrame, (h.located_leaf hva hl).word, entries_cellAt hva]

theorem entries_absent (hva : va < userTop) (hl : g (.leaf τ (pdx va)) = 0) :
    s.entries g (τ, pageNumber va) = 0 := by
  rw [entries_apply hva, cellWord_absent hl]

theorem table_of_entry (hva : va < userTop) (h0 : s.entries g (τ, pageNumber va) ≠ 0) :
    g (.leaf τ (pdx va)) ≠ 0 := fun hl => h0 (entries_absent hva hl)

theorem entries_word (s : Machine) (g : Obj → ℕ) (τ : Tree) (i : ℕ) {j : ℕ} (hj : j < 1024) :
    s.cellWord g (.word (.leaf τ i) j) = s.entries g (τ, 1024 * i + j) := by
  rw [entries, show (1024 * i + j) / 1024 = i by omega, show (1024 * i + j) % 1024 = j by omega]

theorem entries_lt (s : Machine) (g : Obj → ℕ) (x : Tree × ℕ) : s.entries g x < 2 ^ 32 := cellWord_lt ..

namespace Layout

theorem hasTable (h : Layout E s g) (hva : va < userTop) (hl : g (.leaf τ (pdx va)) ≠ 0) :
    HasTable s (g (.root τ)) va (g (.leaf τ (pdx va))) (s.entryFrame g τ va) :=
  (h.located_leaf hva hl).toHasTable

theorem getFrameInfo_absent (h : Layout E s g) (ho : g (.root τ) ≠ 0) (hva : va < userTop)
    (hl : g (.leaf τ (pdx va)) = 0) :
    (getFrameInfo (g (.root τ)) va).run s = .ok ((none, 0), s) := by
  rw [getFrameInfo, run_bind_ok (h.getPageTable_none ho hva hl)]
  rfl

theorem isMapped_run (h : Layout E s g) (ho : g (.root τ) ≠ 0) (hva : va < userTop)
    (hlt : s.entries g (τ, pageNumber va) ≠ 0 →
      frameNumber (s.entries g (τ, pageNumber va)) < s.numberOfFrames) :
    (isMapped (g (.root τ)) va).run s = .ok (decide (s.entries g (τ, pageNumber va) ≠ 0), s) := by
  by_cases hl : g (.leaf τ (pdx va)) = 0
  · rw [isMapped, run_bind_ok (h.getFrameInfo_absent ho hva hl), entries_absent hva hl]
    rfl
  · rw [← h.word_entry hva hl] at hlt ⊢
    exact (h.hasTable hva hl).isMapped_run hlt

theorem unmapFrame_zero (h : Layout E s g) (ho : g (.root τ) ≠ 0) (hva : va < userTop)
    (h0 : s.entries g (τ, pageNumber va) = 0) : (unmapFrame (g (.root τ)) va).run s = .ok ((), s) := by
  by_cases hl : g (.leaf τ (pdx va)) = 0
  · rw [unmapFrame, run_bind_ok (h.getFrameInfo_absent ho hva hl)]
    rfl
  · exact (h.hasTable hva hl).unmapFrame_zero ((h.word_entry hva hl).trans h0)

theorem unmapFrame_run (h : Layout E s g) (hva : va < userTop)
    (hn : nameOf (s.entries g (τ, pageNumber va)) = some f) (hlt : f < s.numberOfFrames) :
    (unmapFrame (g (.root τ)) va).run s =
      .ok ((), (s.dropReference f).setEntry (s.entryFrame g τ va) (ptx va) 0) := by
  obtain ⟨h0, hf⟩ := nameOf_eq_some.mp hn
  have hl := table_of_entry hva h0
  rw [← h.word_entry hva hl] at h0 hf
  rw [(h.hasTable hva hl).unmapFrame_run h0 (hf ▸ hlt), hf]

end Layout

theorem Layout.ordinary_lt (h : Layout E s g) (hf : Ordinary s f) : f < s.numberOfFrames :=
  h.managed_lt hf.managed

/-- The machine after the next free frame was taken. -/
def taken (s : Machine) (f : ℕ) (fs : List ℕ) : Machine := (s.setFree fs).setInfo f .initial

theorem Ready.allocateFrame_run (h : Ready E s g) (hfree : s.freeFrameList = f :: fs) :
    allocateFrame.run s = .ok (f, s.taken f fs) :=
  Machine.allocateFrame_run hfree (h.free f (by simp [hfree])).2

theorem taken_info_of_ne (h : f' ≠ f) : (s.taken f fs).framesInfo f' = s.framesInfo f' := setInfo_of_ne h

theorem Ready.take (h : Ready E s g) (hfree : s.freeFrameList = f :: fs) : UserStep s (s.taken f fs) where
  places := SameGlobals.places (by constructor <;> rfl)
  heap := rfl
  strategy := rfl
  info f' hf' := taken_info_of_ne fun he => (h.free f (by simp [hfree])).1.not_heap (he ▸ hf')
  nodup := (List.nodup_cons.mp (hfree ▸ h.nodup)).2
  free f' hf' := by
    have hne : f' ≠ f := fun he => (List.nodup_cons.mp (hfree ▸ h.nodup)).1 (he ▸ hf')
    have hmem := h.free f' (by rw [hfree]; exact List.mem_cons_of_mem _ hf')
    exact hmem.imp_right fun hb => (congrArg FrameInfo.isBuffered (taken_info_of_ne hne)).trans hb

theorem Ready.same (h : Ready E s g) (hs : UserStep s t) (hram : t.ram = s.ram) : Ready E t g := by
  have hcell := Layout.cellWord_congr hs.places.toSameBoot hram g
  refine ⟨h.toLayout.congr hs.places hcell fun o hk ho => by rw [hs.info _ (h.heapFrame_object hk ho)],
    hs.nodup, fun f hf => (hs.free f hf).imp_left fun hf => hf.congr hs.places.toSameBoot fun p hp => ?_⟩
  have := congrFun hcell (.page p)
  rwa [cellWord_page hp.shared, cellWord_page hp.shared] at this

/-- What a request for a page of the kernel heap leaves, whatever users have mapped. -/
structure TakesPage (E : Finset ℕ) (s : Machine) (g : Obj → ℕ) (p f : ℕ) (t : Machine) : Prop where
  stocked : Stocked E t g
  page : HeapPage p
  empty : s.kernelPte p = 0
  cell : t.cellWord g = Function.update (s.cellWord g) (.page p) (heapEntry f)
  free : s.freeFrameList = f :: t.freeFrameList
  info : t.framesInfo = Function.update s.framesInfo f ⟨1, p, none, false⟩
  ram : ∀ f', (∀ i ∈ heapTables, f' ≠ s.kernelTable i) → t.ram f' = s.ram f'
  globals : ∃ h, SameGlobals (s.setHeap h) t
  blocks : ∃ A B, s.heap.blocks .alloc = A ++ B ∧ t.heap.blocks .alloc = A ++ ⟨p, pageSize⟩ :: B
  room : Room s 1
  spent : Spent s t 1 1

theorem Layout.setHeap (h : Layout E s g) (d : DynamicAllocator.State) : Layout E (s.setHeap d) g :=
  h.congr ⟨⟨rfl, rfl, rfl, rfl⟩, fun _ => rfl, fun _ => rfl, fun _ => rfl⟩ rfl fun _ _ _ => rfl

theorem Layout.ne_object_of_unmapped (h : Layout E s g) (hp : HeapPage p) (h0 : s.kernelPte p = 0) (o : Obj) :
    g o ≠ p := by
  rintro rfl
  have h₁ := h.tables.lt_free
  have h₂ := h.tables.free_le
  have h₃ := hp.start
  have hstart : 0 < kernelHeapStart := by decide
  by_cases hk : o = .root .kernel
  · rw [hk, h.kernelRoot] at h₃
    omega
  · have hentry := (h.object o hk (by omega)).entry
    rw [h0] at hentry
    exact ne_zero_of_hasPerm_present (HasPerm.or_left (HasPerm.or_left (by decide))) hentry.symm

theorem heapFrame_placed (hp : HeapPage p) (h0 : s.kernelPte p = 0)
    (hpage : ∀ q, t.cellWord g' (.page q) = Function.update (s.cellWord g) (.page p) (heapEntry f) (.page q)) :
    t.HeapFrame f' ↔ s.HeapFrame f' ∨ f' = f := by
  have hpte (q : ℕ) (hq : HeapPage q) : t.kernelPte q = if q = p then heapEntry f else s.kernelPte q := by
    rw [← cellWord_page hq.shared g', hpage]
    split
    · rename_i he
      rw [he, Function.update_self]
    · rename_i hne
      rw [Function.update_of_ne (by simpa using hne), cellWord_page hq.shared]
  constructor
  · rintro ⟨q, hq, hn⟩
    rw [hpte q hq] at hn
    split at hn
    · exact .inr (Option.some.inj (nameOf_heapEntry.symm.trans hn)).symm
    · exact .inl ⟨q, hq, hn⟩
  · rintro (⟨q, hq, hn⟩ | rfl)
    · refine ⟨q, hq, ?_⟩
      rw [hpte q hq, if_neg]
      · exact hn
      · rintro rfl
        rw [h0] at hn
        cases hn
    · exact ⟨p, hp, by rw [hpte p hp, if_pos rfl]; exact nameOf_heapEntry⟩

theorem Ready.placeFrame (h : Ready E s g) (hp : HeapPage p) (h0 : s.kernelPte p = 0)
    (hfree : s.freeFrameList = f :: fs) :
    Ready E (s.placeFrame f fs p permWriteable) g ∧
      (s.placeFrame f fs p permWriteable).cellWord g =
        Function.update (s.cellWord g) (.page p) (heapEntry f) := by
  have hnd := List.nodup_cons.mp (hfree ▸ h.nodup)
  have hf := (h.free f (by simp [hfree])).1
  have hnot := h.ne_object_of_unmapped hp h0
  have hst := (sameGlobals_placeFrame s f fs p permWriteable).places
  have hlt : heapEntry f < 2 ^ 32 := constructEntry_lt ((h.ordinary_lt hf).trans_le h.tables.frames) (by decide)
  have hcell : (s.placeFrame f fs p permWriteable).cellWord g =
      Function.update (s.cellWord g) (.page p) (heapEntry f) :=
    h.cellWord_setShared hp.shared hlt (fun o _ => hnot o) hst.toSameBoot rfl
  have hinfo (f' : ℕ) (hne : f' ≠ f) :
      (s.placeFrame f fs p permWriteable).framesInfo f' = s.framesInfo f' := setInfo_of_ne hne
  refine ⟨⟨h.toLayout.of_update hst hcell (fun o _ _ he => hnot o (Cell.page.inj he).symm) (fun _ _ => by simp)
    fun o hk ho => by rw [hinfo _ (h.ordinary_ne hf ho)], hnd.2, fun f' hf' => ?_⟩, hcell⟩
  have hne : f' ≠ f := fun he => hnd.1 (he ▸ hf')
  have hf₁ := h.free f' (by rw [hfree]; exact List.mem_cons_of_mem _ hf')
  refine ⟨⟨by rw [hst.managed]; exact hf₁.1.managed, fun hh => ?_⟩, by rw [hinfo f' hne]; exact hf₁.2⟩
  exact ((heapFrame_placed hp h0 fun q => congrFun hcell (.page q)).mp hh).elim hf₁.1.not_heap hne

variable (cpt) in
theorem Stocked.kmalloc_page (h : Stocked E s g) :
    Sat (fun e => e = .noFreeFrame ∧ s.freeFrameList.length < 1) (kmalloc cpt pageSize) s fun p t =>
      (∃ f, TakesPage E s g p f t) ∨ ¬Room s 1 ∧ p = 0 ∧ t = s := by
  refine ((h.heap.kmalloc_page cpt).weaken fun e he => ⟨he.1, by simp [he.2]⟩).mono ?_
  rintro p t (⟨hr, hm⟩ | hn)
  · obtain ⟨d, hplaces⟩ := hm.places
    have hglob := hplaces.globals
    have hblocks := hm.blocks
    have hroom (m : ℕ) (hm' : Room s (m + 1)) : Room t m := hm.room h.heap hm'
    obtain @⟨_⟩ | @⟨u, n, f, fs, hz, hp, h0, hfree⟩ := hplaces
    cases hz
    rw [Nat.mul_zero, Nat.add_zero] at hp h0 hglob hm hroom hblocks ⊢
    have hready : Ready E (s.setHeap d) g := ⟨h.toLayout.setHeap d, h.nodup, fun f hf =>
      (h.free f hf).imp_left fun hf => hf.congr ⟨rfl, rfl, rfl, rfl⟩ fun _ _ => rfl⟩
    obtain ⟨hready', hcell⟩ := hready.placeFrame hp h0 hfree
    refine .inl ⟨f, ⟨hready', hm.inv⟩, hp, h0, hcell, hfree, ?_, fun f' hf' => ?_, ⟨d, hglob⟩, hblocks, hr,
      ⟨?_, hroom⟩⟩
    · funext f'
      exact (setInfo_apply ..).trans (Function.update_apply ..).symm
    · exact setFrame_ram_of_ne (hf' _ hp.index)
    · rw [show s.freeFrameList = f :: fs from hfree]
      exact le_rfl
  · exact .inr hn

namespace TakesPage

theorem object (h : TakesPage E s g p f t) (hs : Ready E s g) : ObjectPage t p ∧ t.pageFrame p = f := by
  have hcell : t.cellWord g (.page p) = heapEntry f := by rw [h.cell, Function.update_self]
  have hpte : t.kernelPte p = heapEntry f := by rw [← cellWord_page h.page.shared g, hcell]
  have hframe : t.pageFrame p = f := by
    rw [h.stocked.pageFrame_heap h.page, hpte]
    exact frameNumber_constructEntry (by decide)
  obtain ⟨d, hst⟩ := h.globals
  have hboot : SameBoot s t := ⟨hst.cr3, hst.numberOfFrames, hst.ptrFreeMem, hst.ptrPageDirectory⟩
  refine ⟨⟨h.page, hframe.symm ▸ hpte, ?_, ?_⟩, hframe⟩
  · rw [hframe, hboot.managed]
    exact (hs.free f (by simp [h.free])).1.managed
  · rw [hframe, h.info, Function.update_self]

end TakesPage

/-- What `create_page_table` leaves: one page of the kernel heap more, which is linked to the
directory and whose words are 0. -/
structure NewTable (E : Finset ℕ) (s : Machine) (g : Obj → ℕ) (τ : Tree) (i pt f : ℕ) (t : Machine) : Prop where
  stocked : Stocked E t (Function.update g (.leaf τ i) pt)
  page : HeapPage pt
  empty : s.kernelPte pt = 0
  cell : t.cellWord (Function.update g (.leaf τ i) pt) = Function.update
    (Function.update (s.cellWord g) (.page pt) (heapEntry f)) (.word (.root τ) i)
    (constructEntry (toPhysicalAddress f) τ.perm)
  free : s.freeFrameList = f :: t.freeFrameList
  info : t.framesInfo = Function.update s.framesInfo f ⟨1, pt, none, false⟩
  ram : ∀ f', (∀ i ∈ heapTables, f' ≠ s.kernelTable i) → (∀ o, g o ≠ 0 → s.pageFrame (g o) ≠ f') →
    f' ≠ f → t.ram f' = s.ram f'
  globals : ∃ h, SameGlobals (s.setHeap h) t
  blocks : ∃ A B, s.heap.blocks .alloc = A ++ B ∧ t.heap.blocks .alloc = A ++ ⟨pt, pageSize⟩ :: B
  room : Room s 1
  spent : Spent s t 1 1

/-- Linking the page to the directory of `τ` and clearing it makes it a table. -/
theorem TakesPage.link (hnew : TakesPage E s g p f t) (h : Stocked E s g) (ho : g (.root τ) ≠ 0) (hva : va < userTop)
    (hl : g (.leaf τ (pdx va)) = 0) : p ≠ 0 ∧
      (kheapPhysicalAddress p).run t = .ok (toPhysicalAddress f, t) ∧ ∃ r u,
      (writeEntry (g (.root τ)) (pdx va) (constructEntry (toPhysicalAddress f) τ.perm)).run t = .ok ((), r) ∧
      (clearPage p).run r = .ok ((), u) ∧ NewTable E s g τ (pdx va) p f u := by
  obtain ⟨hobj, hframe⟩ := hnew.object h.toReady
  have hsys := hnew.stocked
  have hi := pdx_lt_userTop hva
  set w := constructEntry (toPhysicalAddress f) τ.perm with hw
  obtain ⟨hpa, hwrite, hclear⟩ := hsys.linkPage_run hobj ho hi w
  rw [hframe] at hpa hclear
  refine ⟨hobj.ne_zero, hpa, _, _, hwrite, hclear, ?_⟩
  have hst : SameGlobals t ((t.setEntry (t.pageFrame (g (.root τ))) (pdx va) w).setFrame f zeroPage) := by
    constructor <;> rfl
  obtain ⟨hlay, hcell⟩ := hsys.toLayout.attach_leaf hobj (h.ne_object_of_unmapped hnew.page hnew.empty) ho hi hl
    hst.places (fun _ => rfl) (by rw [hframe])
  rw [hframe, ← hw] at hcell
  set u := (t.setEntry (t.pageFrame (g (.root τ))) (pdx va) w).setFrame f zeroPage with hu
  have hkpte (q : ℕ) (hq : HeapPage q) : u.kernelPte q = t.kernelPte q := by
    have := congrFun hcell (.page q)
    rwa [Function.update_of_ne (by simp), cellWord_page hq.shared, cellWord_page hq.shared] at this
  have hready : Ready E u (Function.update g (.leaf τ (pdx va)) p) := ⟨hlay, hsys.nodup, fun f' hf' =>
    (hsys.free f' hf').imp_left fun hf' => hf'.congr hst.places.toSameBoot hkpte⟩
  obtain ⟨d, hsd⟩ := hnew.globals
  refine ⟨⟨hready, hsys.heap.keep hready rfl rfl hkpte fun _ _ => rfl⟩, hnew.page, hnew.empty, ?_, hnew.free,
    hnew.info, fun f' htab ho' hne => ?_, ⟨d, hsd.trans hst⟩, hnew.blocks, hnew.room,
    ⟨hnew.spent.frames, hnew.spent.room⟩⟩
  · rw [hcell, hnew.cell]
  · have hroot : t.pageFrame (g (.root τ)) = s.pageFrame (g (.root τ)) := by
      have hboot : SameBoot s t := ⟨hsd.cr3, hsd.numberOfFrames, hsd.ptrFreeMem, hsd.ptrPageDirectory⟩
      by_cases hk : Obj.root τ = .root .kernel
      · rw [hk, hsys.pageFrame_kernelRoot, h.pageFrame_kernelRoot, kernelDir_congr hboot.ptrPageDirectory]
      · rw [hsys.pageFrame_cell hk ho, h.pageFrame_cell hk ho, hnew.cell, Function.update_of_ne]
        exact fun he => h.ne_object_of_unmapped hnew.page hnew.empty _ (Cell.page.inj he)
    rw [hu, setFrame_ram_of_ne hne, setEntry, setFrame_ram_of_ne (hroot ▸ (ho' _ ho).symm),
      hnew.ram f' htab]

theorem Stocked.createPageTable_sat (h : Stocked E s g) (ho : g (.root τ) ≠ 0)
    (hτ : τ.perm = permPresent ||| permUser ||| permWriteable) (hva : va < userTop)
    (hl : g (.leaf τ (pdx va)) = 0) :
    Sat (Short s 1 1) (createPageTable (g (.root τ)) va) s fun pt t =>
      ∃ f, NewTable E s g τ (pdx va) pt f t := by
  rw [createPageTable, createPageTableWithin, createPageTableWith]
  refine ((h.kmalloc_page _).weaken fun e he => .inl he).bind ?_
  rintro p t (⟨f, hnew⟩ | ⟨hroom, rfl, rfl⟩)
  · obtain ⟨hne, hpa, r, u, hwrite, hclear, htab⟩ := hnew.link h ho hva hl
    rw [if_neg hne]
    exact .bind_ok hpa (.bind_ok (hτ ▸ hwrite) (.bind_ok hclear (.pure ⟨f, htab⟩)))
  · exact .of_error (if_pos rfl ▸ rfl) (.inr ⟨rfl, hroom⟩)

/-- Those of the tables `I` that are missing. -/
def absent (g : Obj → ℕ) (τ : Tree) (I : Finset ℕ) : Finset ℕ := I.filter fun i => g (.leaf τ i) = 0

/-- Tables of `τ` with the indices `I` were created where they were missing, and `n` frames were
taken for pages. What was in use stays as it was. -/
structure AddsTables (τ : Tree) (I : Finset ℕ) (n : ℕ) (s : Machine) (g : Obj → ℕ) (t : Machine) (g' : Obj → ℕ) :
    Prop where
  globals : ∃ h, SameGlobals (s.setHeap h) t
  table : ∀ i ∈ I, g' (.leaf τ i) ≠ 0
  objects : ∀ o, g o ≠ 0 → g' o = g o
  other : ∀ o, (∀ i ∈ I, o ≠ .leaf τ i) → g' o = g o
  page : ∀ p, (∀ i ∈ absent g τ I, g' (.leaf τ i) ≠ p) → t.cellWord g' (.page p) = s.cellWord g (.page p)
  root : ∀ τ' i, (τ' = τ → i ∉ absent g τ I) → t.cellWord g' (.word (.root τ') i) = s.cellWord g (.word (.root τ') i)
  blocks : ∀ b, b ∈ t.heap.blocks .alloc ↔
    b ∈ s.heap.blocks .alloc ∨ ∃ i ∈ absent g τ I, b = ⟨g' (.leaf τ i), pageSize⟩
  info : ∀ f, f ∉ s.freeFrameList → t.framesInfo f = s.framesInfo f
  inUse : ∀ f, InUse s f → Ordinary t f ∧ t.ram f = s.ram f
  frames : (absent g τ I).card + n ≤ s.freeFrameList.length
  free : t.freeFrameList = s.freeFrameList.drop ((absent g τ I).card + n)
  room : ∀ m, Room s (m + (absent g τ I).card) → Room t m

@[simp] theorem mem_absent : i ∈ absent g τ I ↔ i ∈ I ∧ g (.leaf τ i) = 0 := Finset.mem_filter

theorem absent_eq_empty (h : ∀ i ∈ I, g (.leaf τ i) ≠ 0) : absent g τ I = ∅ :=
  Finset.filter_eq_empty_iff.mpr fun i hi h0 => h i hi h0

theorem absent_mono (h : I ⊆ J) : absent g τ I ⊆ absent g τ J := Finset.filter_subset_filter _ h

namespace AddsTables

theorem refl (h : ∀ i ∈ I, g (.leaf τ i) ≠ 0) (s : Machine) : AddsTables τ I 0 s g s g where
  globals := ⟨s.heap, .refl s⟩
  table := h
  objects _ _ := rfl
  other _ _ := rfl
  page _ _ := rfl
  root _ _ _ := rfl
  blocks _ := by simp [absent_eq_empty h]
  info _ _ := rfl
  inUse _ hf := ⟨hf.toOrdinary, rfl⟩
  frames := by simp [absent_eq_empty h]
  free := by simp [absent_eq_empty h]
  room _ := by simp [absent_eq_empty h]

variable (h : AddsTables τ I n s g t g')
include h

theorem places : SamePlaces s t := by
  obtain ⟨d, hst⟩ := h.globals
  exact ⟨⟨hst.cr3, hst.numberOfFrames, hst.ptrFreeMem, hst.ptrPageDirectory⟩,
    fun e => by rw [hst.envs]; rfl, fun e => by rw [hst.envs]; rfl, fun e => by rw [hst.envs]; rfl⟩

theorem rootTable (τ' : Tree) : g' (.root τ') = g (.root τ') := h.other _ fun _ _ => by simp

theorem suffix : t.freeFrameList <:+ s.freeFrameList := h.free ▸ List.drop_suffix ..

theorem not_free (hf : f ∉ s.freeFrameList) : f ∉ t.freeFrameList := fun hm => hf (h.suffix.subset hm)

theorem stays (hf : InUse s f) : InUse t f := ⟨(h.inUse f hf).1, h.not_free hf.not_free⟩

theorem spent : Spent s t ((absent g τ I).card + n) (absent g τ I).card where
  frames := by
    rw [h.free, List.length_drop]
    omega
  room := h.room

theorem leaf_zero (hi : g' (.leaf τ i) = 0) : g (.leaf τ i) = 0 := by
  by_contra hg
  exact hg (h.objects _ hg ▸ hi)

theorem leaf_eq (hi : i ∉ I) : g' (.leaf τ i) = g (.leaf τ i) :=
  h.other _ fun _ hj he => hi ((Obj.leaf.inj he).2 ▸ hj)

/-- What is missing of `I` and `J` is what is missing of `I`, and of `J` afterwards. -/
theorem absent_union (J : Finset ℕ) : absent g τ (I ∪ J) = absent g τ I ∪ absent g' τ J := by
  ext i
  simp only [mem_absent, Finset.mem_union]
  constructor
  · rintro ⟨hi | hj, h0⟩
    · exact .inl ⟨hi, h0⟩
    · by_cases hi : i ∈ I
      · exact .inl ⟨hi, h0⟩
      · exact .inr ⟨hj, (h.leaf_eq hi).trans h0⟩
  · rintro (⟨hi, h0⟩ | ⟨hj, h0⟩)
    · exact ⟨.inl hi, h0⟩
    · exact ⟨.inr hj, h.leaf_zero h0⟩

theorem card_union (J : Finset ℕ) : (absent g τ (I ∪ J)).card = (absent g τ I).card + (absent g' τ J).card := by
  rw [h.absent_union, Finset.card_union_of_disjoint]
  refine Finset.disjoint_left.mpr fun i hi hj => ?_
  exact h.table i (mem_absent.mp hi).1 (mem_absent.mp hj).2

theorem trans (h' : AddsTables τ J m t g' u g'') : AddsTables τ (I ∪ J) (n + m) s g u g'' where
  globals := by
    obtain ⟨d, hst⟩ := h.globals
    obtain ⟨d', htu⟩ := h'.globals
    exact ⟨d', hst.setHeap.trans htu⟩
  table i hi := by
    rcases Finset.mem_union.mp hi with hI | hJ
    · rw [h'.objects _ (h.table i hI)]
      exact h.table i hI
    · exact h'.table i hJ
  objects o ho := (h'.objects o (h.objects o ho ▸ ho)).trans (h.objects o ho)
  other o ho := (h'.other o fun i hi => ho i (Finset.mem_union_right _ hi)).trans
    (h.other o fun i hi => ho i (Finset.mem_union_left _ hi))
  page p hp := by
    rw [h.absent_union] at hp
    rw [h'.page p fun i hi => hp i (Finset.mem_union_right _ hi), h.page p fun i hi => ?_]
    rw [← h'.objects _ (h.table i (mem_absent.mp hi).1)]
    exact hp i (Finset.mem_union_left _ hi)
  root τ' i hi := by
    rw [h.absent_union] at hi
    rw [h'.root τ' i fun hτ hJ => hi hτ (Finset.mem_union_right _ hJ),
      h.root τ' i fun hτ hI => hi hτ (Finset.mem_union_left _ hI)]
  blocks b := by
    rw [h'.blocks, h.blocks, h.absent_union]
    constructor
    · rintro ((hb | ⟨i, hi, rfl⟩) | ⟨i, hi, rfl⟩)
      · exact .inl hb
      · exact .inr ⟨i, Finset.mem_union_left _ hi, by rw [h'.objects _ (h.table i (mem_absent.mp hi).1)]⟩
      · exact .inr ⟨i, Finset.mem_union_right _ hi, rfl⟩
    · rintro (hb | ⟨i, hi, rfl⟩)
      · exact .inl (.inl hb)
      · rcases Finset.mem_union.mp hi with hI | hJ
        · exact .inl (.inr ⟨i, hI, by rw [h'.objects _ (h.table i (mem_absent.mp hI).1)]⟩)
        · exact .inr ⟨i, hJ, rfl⟩
  info f hf := (h'.info f (h.not_free hf)).trans (h.info f hf)
  inUse f hf := (h'.inUse f (h.stays hf)).imp_right fun hr => hr.trans (h.inUse f hf).2
  frames := by
    have h₁ := h'.frames
    have h₂ := h.frames
    rw [h.free, List.length_drop] at h₁
    rw [h.card_union]
    omega
  free := by
    rw [h'.free, h.free, List.drop_drop, h.card_union]
    congr 1
    omega
  room k hr := h'.room k (h.room _ (by rwa [h.card_union, Nat.add_left_comm, Nat.add_comm] at hr))

theorem congr {I' : Finset ℕ} {n' : ℕ} (hI : I = I') (hn : n = n') : AddsTables τ I' n' s g t g' := hn ▸ hI ▸ h

end AddsTables

theorem AddsTables.of_step (hs : SameGlobals s t) (hcell : ∀ x, (∀ τ i j, x ≠ .word (.leaf τ i) j) →
      t.cellWord g x = s.cellWord g x)
    (hinfo : ∀ f, f ∉ s.freeFrameList → t.framesInfo f = s.framesInfo f)
    (hinUse : ∀ f, InUse s f → Ordinary t f ∧ t.ram f = s.ram f) (hn : n ≤ s.freeFrameList.length)
    (hfree : t.freeFrameList = s.freeFrameList.drop n) : AddsTables τ ∅ n s g t g where
  globals := ⟨t.heap, hs.heap ▸ hs⟩
  table _ hi := absurd hi (Finset.notMem_empty _)
  objects _ _ := rfl
  other _ _ := rfl
  page p _ := hcell _ (by simp)
  root τ' i _ := hcell _ (by simp)
  blocks b := by
    rw [hs.heap]
    simp [absent]
  info := hinfo
  inUse := hinUse
  frames := by simpa [absent] using hn
  free := by simpa [absent] using hfree
  room m hr := by
    rw [Room, hs.heap, hs.strategy]
    rwa [absent, Finset.filter_empty, Finset.card_empty, Nat.add_zero] at hr

theorem NewTable.table (h : NewTable E s g τ i pt f t) : Function.update g (.leaf τ i) pt (.leaf τ i) ≠ 0 := by
  have h₁ := h.page.start
  have h₂ : 0 < kernelHeapStart := by decide
  rw [Function.update_self]
  omega

theorem NewTable.grows (h : NewTable E s g τ i pt f t) (hs : Ready E s g) (hl : g (.leaf τ i) = 0) :
    AddsTables τ {i} 0 s g t (Function.update g (.leaf τ i) pt) := by
  have hself : Function.update g (.leaf τ i) pt (.leaf τ i) = pt := Function.update_self ..
  have habs : absent g τ {i} = {i} := Finset.filter_true_of_mem fun j hj => Finset.mem_singleton.mp hj ▸ hl
  have hpage (q : ℕ) : t.cellWord (Function.update g (.leaf τ i) pt) (.page q) =
      Function.update (s.cellWord g) (.page pt) (heapEntry f) (.page q) := by
    rw [h.cell, Function.update_of_ne (by simp)]
  have hfree : f ∈ s.freeFrameList := by simp [h.free]
  obtain ⟨d, hst⟩ := h.globals
  have hboot : SameBoot s t := ⟨hst.cr3, hst.numberOfFrames, hst.ptrFreeMem, hst.ptrPageDirectory⟩
  refine ⟨⟨d, hst⟩, fun j hj => ?_, fun o ho => ?_, fun o ho => ?_, fun p hp => ?_, fun τ' k hk => ?_, fun b => ?_,
    fun f' hf' => ?_, fun f' hf' => ⟨⟨?_, fun hh => ?_⟩, ?_⟩, ?_, ?_, ?_⟩
  · rw [Finset.mem_singleton.mp hj]
    exact h.table
  · exact Function.update_of_ne (by rintro rfl; exact ho hl) ..
  · exact Function.update_of_ne (ho i (Finset.mem_singleton_self i)) ..
  · rw [hpage, Function.update_of_ne]
    intro he
    exact hp i (by simp [habs]) (hself.trans (Cell.page.inj he).symm)
  · rw [h.cell, Function.update_of_ne, Function.update_of_ne (by simp)]
    intro he
    obtain ⟨ho, rfl⟩ := Cell.word.inj he
    exact hk (Obj.root.inj ho) (by simp [habs])
  · obtain ⟨A, B, hold, hnew⟩ := h.blocks
    rw [hold, hnew, habs]
    simp only [List.mem_append, List.mem_cons, Finset.mem_singleton, exists_eq_left, hself]
    tauto
  · rw [h.info, Function.update_of_ne]
    rintro rfl
    exact hf' hfree
  · rw [hboot.managed]
    exact hf'.managed
  · exact ((heapFrame_placed h.page h.empty hpage).mp hh).elim hf'.not_heap fun he => hf'.not_free (he ▸ hfree)
  · refine h.ram f' (fun k hk he => hs.reserved.2 k (heapTables_subset hk) ?_)
      (fun o ho => hs.ordinary_ne hf'.toOrdinary ho) fun he => hf'.not_free (he ▸ hfree)
    rw [← he]
    exact hf'.managed
  · simp [habs, h.free]
  · simp [habs, h.free]
  · rw [habs]
    exact h.spent.room

theorem NewTable.entries_eq (h : NewTable E s g τ i pt f t) :
    t.entries (Function.update g (.leaf τ i) pt) = s.entries g :=
  entries_congr fun τ' k j => by rw [h.cell, Function.update_of_ne (by simp), Function.update_of_ne (by simp)]

/-- `map_frame` looks for the table first, and creates it if it is missing. -/
theorem Stocked.mapFrame_sat {Q : ℤ → Machine → Prop} (h : Stocked E s g) (hτ : τ ∈ mmuTrees E)
    (ho : g (.root τ) ≠ 0) (hva : va < userTop)
    (hold : g (.leaf τ (pdx va)) ≠ 0 → Sat (Short s 0 0) (mapFrame createPageTable (g (.root τ)) f va perm) s Q)
    (hnew : ∀ pt f' t, g (.leaf τ (pdx va)) = 0 → NewTable E s g τ (pdx va) pt f' t →
      Sat (Short t 0 0) (mapFrame createPageTable (g (.root τ)) f va perm) t Q) :
    Sat (Short s (missing g τ va) (missing g τ va)) (mapFrame createPageTable (g (.root τ)) f va perm) s Q := by
  by_cases hl : g (.leaf τ (pdx va)) = 0
  · have hnone := h.getPageTable_none ho hva hl
    have hcreate := h.createPageTable_sat ho (mmuTrees_perm hτ) hva hl
    rw [missing, if_pos hl]
    rcases hc : (Machine.createPageTable (g (.root τ)) va).run s with e | ⟨pt, t⟩
    · exact .of_error (mapFrame_error hnone hc) (hcreate.error hc)
    · obtain ⟨f', ht⟩ := hcreate.ok hc
      have hroot : Function.update g (.leaf τ (pdx va)) pt (.root τ) = g (.root τ) :=
        Function.update_of_ne (by simp) ..
      have hget := (ht.stocked.hasTable hva ht.table).get
      rw [hroot, Function.update_self] at hget
      have := (hnew pt f' t hl ht).weaken fun e he => ht.spent.short he
      rwa [Sat, ← mapFrame_created hnone hc hget] at this
  · rw [missing, if_neg hl]
    exact hold hl

theorem Stocked.ensureTable_sat {α : Type} {Q : α → Machine → Prop} {a b : ℕ} {x : Kernel α} {k : Option ℕ → Kernel α}
    (h : Stocked E s g) (hτ : τ ∈ mmuTrees E) (ho : g (.root τ) ≠ 0) (hva : va < userTop)
    (hsome : ∀ pt, pt ≠ 0 → k (some pt) = x)
    (hnone : k none = do let _ ← createPageTable (g (.root τ)) va; x)
    (hx : ∀ t g', Stocked E t g' → AddsTables τ {pdx va} 0 s g t g' → t.entries g' = s.entries g →
      Sat (Short t a b) x t Q) :
    Sat (Short s (missing g τ va + a) (missing g τ va + b)) (getPageTable (g (.root τ)) va >>= k) s Q := by
  by_cases hl : g (.leaf τ (pdx va)) = 0
  · refine .bind_ok (h.getPageTable_none ho hva hl) ?_
    rw [missing, if_pos hl, hnone]
    refine ((h.createPageTable_sat ho (mmuTrees_perm hτ) hva hl).weaken fun e he => he.mono (by omega) (by omega)).bind ?_
    rintro pt t ⟨f, ht⟩
    exact (hx t _ ht.stocked (ht.grows h.toReady hl) ht.entries_eq).weaken fun e he => ht.spent.short he
  · refine .bind_ok (h.hasTable hva hl).get ?_
    rw [missing, if_neg hl, hsome _ hl]
    have hI : ∀ i ∈ ({pdx va} : Finset ℕ), g (.leaf τ i) ≠ 0 := fun i hi => Finset.mem_singleton.mp hi ▸ hl
    exact (hx s g h (.refl hI s) rfl).weaken fun e he => he.mono (by omega) (by omega)

theorem Stocked.of_layout (h : Stocked E s g) (ht : Layout E t g) (hst : SameGlobals s t)
    (hpte : ∀ p, HeapPage p → t.kernelPte p = s.kernelPte p) (hinfo : t.framesInfo = s.framesInfo)
    (hfree : t.freeFrameList = s.freeFrameList) : Stocked E t g := by
  have hready : Ready E t g := ⟨ht, hfree ▸ h.nodup, fun f hf =>
    have hf := h.free f (hfree ▸ hf)
    ⟨hf.1.congr hst.places.toSameBoot hpte, hinfo ▸ hf.2⟩⟩
  exact ⟨hready, h.heap.keep hready hst.heap hst.numberOfFrames hpte fun f _ => congrFun hinfo f⟩

/-- The indices of the tables of `n` pages. -/
def tablesOf (va n : ℕ) : Finset ℕ := (Finset.range n).image fun i => pdx (va + pageSize * i)

theorem tablesOf_zero (va : ℕ) : tablesOf va 0 = ∅ := rfl

theorem tablesOf_succ (va n : ℕ) : tablesOf va (n + 1) = tablesOf va n ∪ {pdx (va + pageSize * n)} := by
  rw [tablesOf, Finset.range_add_one, Finset.image_insert, Finset.insert_eq, Finset.union_comm, tablesOf]

theorem tablesOf_mono (va : ℕ) (h : m ≤ n) : tablesOf va m ⊆ tablesOf va n :=
  Finset.image_subset_image (Finset.range_mono h)

theorem card_absent_singleton (g : Obj → ℕ) (τ : Tree) (va : ℕ) :
    (absent g τ {pdx va}).card = missing g τ va := by
  rw [absent, Finset.filter_singleton, missing]
  split <;> rfl

theorem pageOf_user (h : va + pageSize * n ≤ userTop) (hi : i < n) :
    pageOf va i = va + pageSize * i ∧ va + pageSize * i < userTop := by
  have htop := userTop_lt
  have : pageSize * i < pageSize * n := Nat.mul_lt_mul_of_pos_left hi (by decide)
  rw [pageOf, u32_of_lt (by omega)]
  exact ⟨rfl, by omega⟩

theorem pageNumber_roundDown (va : ℕ) : pageNumber (roundDown va pageSize) = pageNumber va := by
  simp only [pageNumber, roundDown, pageSize]
  omega

theorem Layout.anyMapped_run (h : Layout E s g) (ho : g (.root τ) ≠ 0)
    (hle : va + pageSize * n ≤ userTop) (hlt : ∀ k < n, s.entries g (τ, pageNumber va + k) ≠ 0 →
      frameNumber (s.entries g (τ, pageNumber va + k)) < s.numberOfFrames) :
    (anyRange (fun i => isMapped (g (.root τ)) (pageOf va i)) 0 n).run s =
      .ok (decide (∃ k < n, s.entries g (τ, pageNumber va + k) ≠ 0), s) := by
  refine anyRange_decide fun k hk => ?_
  obtain ⟨hpage, hlt'⟩ := pageOf_user hle hk
  have := h.isMapped_run ho hlt'
  rw [pageNumber_add] at this
  rw [hpage]
  exact this (hlt k hk)

end FosKernel.Machine
