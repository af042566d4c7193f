import FosKernel.FrameAccounting
import FosKernel.KernelHeap

/-!
# Creating page tables

A new table is a page of the kernel heap, so that a directory entry, a kernel heap
page and a block of the allocator appear together. `System` adds the kernel heap to
the accounting of the frames, and `Grows` says what the creation of tables leaves
alone.
-/

namespace FosKernel.Machine
open FailingPrograms PageEntries DynamicAllocator IntervalLists ReferenceCounts

variable {s t u : Machine} {E : Finset ℕ} {g g' : Obj → ℕ} {L : Set ℕ} {τ : Tree} {o : Obj} {x : Cell}
  {p f i j m n w va : ℕ} {fs : List ℕ} {pg : Page} {cpt : ℕ → ℕ → Kernel ℕ}

/-- `kmalloc` serves `m` requests for one page. -/
def Room (s : Machine) (m : ℕ) : Prop :=
  (s.kHeapPlacementStrategy = .firstFit ∨ s.kHeapPlacementStrategy = .bestFit) ∧
    pageSize * m ≤ total (s.heap.blocks .free)

namespace HeapInv

theorem page_le_of_free (hi : HeapInv s) {b : Interval} (hb : b ∈ s.heap.blocks .free) :
    pageSize ≤ b.length := by
  obtain ⟨q, inv⟩ := hi.lists
  rw [inv.blocks_eq] at hb
  obtain ⟨x, hx, rfl⟩ := List.mem_map.mp hb
  exact inv.page_le_size (.inl hx)

theorem fits_page_iff (hi : HeapInv s) :
    Fits s.heap pageSize ↔ pageSize ≤ total (s.heap.blocks .free) := by
  constructor
  · rintro ⟨-, -, b, hb, hle⟩
    obtain ⟨A, B, hq⟩ := List.append_of_mem hb
    simp only [hq, total_append, total_cons]
    omega
  · intro hle
    have hpage : 0 < pageSize := by decide
    cases hq : s.heap.blocks .free with
    | nil => simp [hq] at hle; omega
    | cons b bs =>
      exact ⟨hpage, dvd_rfl, b, by simp [hq], hi.page_le_of_free (by simp [hq])⟩

theorem served_page_iff (hi : HeapInv s) : Served s pageSize ↔ Room s 1 := by
  have hround : roundUp pageSize pageSize = pageSize := by decide
  rw [Served, Room, hround, hi.fits_page_iff, Nat.mul_one]

theorem total_blocks (hi : HeapInv s) :
    total (s.heap.blocks .free) + total (s.heap.blocks .alloc) = kernelHeap.hi - kernelHeap.lo := by
  obtain ⟨q, inv⟩ := hi.lists
  rw [inv.blocks_eq, inv.blocks_eq]
  exact inv.parts.total_eq kernelHeap.lt.le

variable (cpt) in
/-- A request for one page is served as long as there is a free block, unless the
frames run out. -/
theorem kmalloc_page (hi : HeapInv s) :
    Sat (fun e => e = .noFreeFrame ∧ s.freeFrameList = []) (kmalloc cpt pageSize) s fun va t =>
      Room s 1 ∧ Mapped s 1 va t ∨ ¬Room s 1 ∧ va = 0 ∧ t = s := by
  have hround : roundUp pageSize pageSize = pageSize := by decide
  have hone : roundUp pageSize pageSize / pageSize = 1 := by decide
  by_cases hbest : s.kHeapPlacementStrategy = .bestFit → Fits s.heap (roundUp pageSize pageSize)
  · have h := hi.kmalloc_sat cpt (hround.symm ▸ (by decide : 0 < pageSize)) hbest
    rw [hi.served_page_iff, hone] at h
    refine (h.weaken fun e he => ⟨he.1, ?_⟩).mono fun va t => id
    exact List.length_eq_zero_iff.mp (Nat.lt_one_iff.mp he.2.2)
  · push Not at hbest
    obtain ⟨hbf, hfit⟩ := hbest
    rw [hround] at hfit
    have hnil : s.heap.blocks .free = [] := by
      rw [hi.fits_page_iff] at hfit
      cases hq : s.heap.blocks .free with
      | nil => rfl
      | cons b bs =>
        have := hi.page_le_of_free (b := b) (by simp [hq])
        simp only [hq, total_cons] at hfit
        omega
    obtain ⟨q, inv⟩ := hi.lists
    have hinit : ¬readsUninitialized s.heap pageSize := fun h => h.1 hnil
    have hrun : (kmallocWith cpt (allocBlockBF · · 0 0) pageSize).run s = .ok (none, s) := by
      rw [kmallocWith, run_bind_ok run_get, inv.allocBlockBF_nil hnil]
      rfl
    refine .of_run (kmalloc_run_from cpt fun _ => hround.symm ▸ hinit) ?_
    rw [kmallocFrom, hround]
    refine .bind_ok run_get ?_
    rw [if_neg (by simp [hbf])]
    refine .bind_ok run_get ?_
    rw [if_pos hbf]
    refine .bind_ok hrun (.pure (.inr ⟨fun h => hfit ?_, rfl, rfl⟩))
    rw [hi.fits_page_iff]
    simpa using h.2

end HeapInv

theorem Mapped.room (h : Mapped s 1 va t) (hi : HeapInv s) (hr : Room s (m + 1)) : Room t m := by
  obtain ⟨h', hplaces⟩ := h.places
  obtain ⟨A, B, hold, hnew⟩ := h.blocks
  have hs := hi.total_blocks
  have ht := h.inv.total_blocks
  rw [hold] at hs
  rw [hnew] at ht
  simp only [total_append, total_cons] at hs ht
  refine ⟨hplaces.globals.strategy ▸ hr.1, ?_⟩
  have := hr.2
  simp only [pageSize] at *
  omega

/-- The frame of a kernel heap page has no other entry. -/
def Apart (E : Finset ℕ) (s : Machine) (g : Obj → ℕ) : Prop :=
  ∀ p, HeapPage p → ∀ x ∈ slots E, ∀ f, nameOf (s.cellWord g (.page p)) = some f →
    nameOf (s.cellWord g x) = some f → x = .page p

/-- The accounting of the frames, together with the kernel heap. -/
structure System (E : Finset ℕ) (s : Machine) (g : Obj → ℕ) (L : Set ℕ) : Prop
    extends Core E s g L Set.univ where
  heap : HeapInv s
  apart : Apart E s g

/-- The entry of a page of the kernel heap after it was mapped to a frame. -/
def heapEntry (f : ℕ) : ℕ := constructEntry (toPhysicalAddress f) (permWriteable ||| permPresent)

theorem nameOf_heapEntry : nameOf (heapEntry f) = some f := nameOf_construct (by decide)

theorem heapEntry_present : HasPerm (heapEntry f) permPresent :=
  HasPerm.or_left (HasPerm.or_left (by decide))

namespace Core

variable {M : Set ℕ}

theorem free_managed (h : Core E s g L M) (hf : f ∈ s.freeFrameList) :
    s.Managed f ∧ f ∉ L ∧ ∀ x ∈ slots E, nameOf (s.cellWord g x) ≠ some f := by
  obtain ⟨hm, hc, hl⟩ := (h.pool.free f).mp hf
  exact ⟨hm, hl, count_eq_zero.mp hc⟩

theorem placeFrame (h : Core E s g L M) (hp : HeapPage p) (hpM : p ∈ M) (h0 : s.kernelPte p = 0)
    (hfree : s.freeFrameList = f :: fs) :
    Core E (s.placeFrame f fs p permWriteable) g L M ∧
      (s.placeFrame f fs p permWriteable).cellWord g =
        Function.update (s.cellWord g) (.page p) (heapEntry f) := by
  have hmem : f ∈ s.freeFrameList := by simp [hfree]
  obtain ⟨hmanaged, hl, hnot⟩ := h.free_managed hmem
  have hslot : Cell.page p ∈ slots E := page_mem_slots.mpr hp.shared
  have hcell0 : s.cellWord g (.page p) = 0 := (cellWord_page hp.shared g).trans h0
  have hno : NoObject g (.page p) := fun o hk ho he => by
    obtain rfl := Cell.page.inj he
    have hn := h.nameOf_object hk ho
    rw [hcell0] at hn
    cases hn
  have hne (o : Obj) (hk : o ≠ .root .kernel) (ho : g o ≠ 0) : s.pageFrame (g o) ≠ f := fun he =>
    hnot _ (page_mem_slots.mpr (h.object o hk ho).heap.shared) (he ▸ h.nameOf_object hk ho)
  have hst := (sameGlobals_placeFrame s f fs p permWriteable).places
  have hlt : heapEntry f < 2 ^ 32 :=
    constructEntry_lt ((h.managed_lt hmanaged).trans_le h.tables.frames) (by decide)
  have hcell : (s.placeFrame f fs p permWriteable).cellWord g =
      Function.update (s.cellWord g) (.page p) (heapEntry f) :=
    h.cellWord_setShared hp.shared hlt (fun o hk he => by
      by_cases ho : g o = 0
      · have := hp.start
        rw [← he, ho] at this
        exact absurd this (by decide)
      · exact hno o hk ho (congrArg _ he.symm)) hst.toSameBoot rfl
  have hinfo (f' : ℕ) : (s.placeFrame f fs p permWriteable).framesInfo f' =
      if f' = f then ⟨1, p, none, false⟩ else s.framesInfo f' := setInfo_apply ..
  refine ⟨h.update hst hcell hno (fun _ _ => by simp) (fun o hk ho => ?_) (fun f' => ?_)
    (fun _ _ => heapEntry_present) (fun q hq _ _ => Cell.page.inj hq ▸ hpM) (fun _ o hk ho => ?_) ?_, hcell⟩
  · rw [hinfo, if_neg (hne o hk ho)]
  · rw [hinfo]
    split
    · rfl
    · exact h.unbuffered f'
  · rw [nameOf_heapEntry]
    exact fun he => hne o hk ho (Option.some.inj he).symm
  · rw [hst.managed]
    have htake := h.pool.take hfree
    have hsets : insert f L \ {f} = L := by
      ext f'
      by_cases hff : f' = f
      · simp [hff, hl]
      · simp [hff]
    rw [← hsets]
    refine htake.assign hslot (by simp [Machine.pool, hcell0]) hmanaged (.inl (Set.mem_insert _ _))
      (fun y _ => ?_) (fun f' _ => ?_) rfl
    · simp only [Machine.pool, hcell]
      by_cases hy : y = .page p
      · subst hy
        rw [Function.update_self, Function.update_self, nameOf_heapEntry]
      · rw [Function.update_of_ne hy, Function.update_of_ne hy]
    · simp only [Machine.pool, hinfo]
      by_cases hff : f' = f
      · simp [hff]
      · simp [hff]

end Core

theorem Apart.placeFrame {M : Set ℕ} (ha : Apart E s g) (h : Core E s g L M) {fs : List ℕ}
    (hfree : s.freeFrameList = f :: fs)
    (hcell : t.cellWord g = Function.update (s.cellWord g) (.page p) (heapEntry f)) : Apart E t g := by
  have hnot := (h.free_managed (f := f) (by simp [hfree])).2.2
  intro q hq x hx f' hn hn'
  rw [hcell] at hn hn'
  by_cases hqp : q = p
  · subst hqp
    by_cases hxq : x = .page q
    · exact hxq
    · rw [Function.update_self, nameOf_heapEntry] at hn
      rw [Function.update_of_ne hxq] at hn'
      exact absurd (hn'.trans hn.symm) (hnot x hx)
  · rw [Function.update_of_ne (by simpa using hqp)] at hn
    by_cases hxp : x = .page p
    · rw [hxp, Function.update_self, nameOf_heapEntry] at hn'
      exact absurd (hn.trans hn'.symm) (hnot _ (page_mem_slots.mpr hq.shared))
    · rw [Function.update_of_ne hxp] at hn'
      exact ha q hq x hx f' hn hn'

theorem ObjectPage.ne_zero (hp : ObjectPage s p) : p ≠ 0 := fun h0 => by
  have := hp.heap.start
  rw [h0] at this
  exact absurd this (by decide)

namespace Layout

theorem pageFrame_ne_new (h : Layout E s g) (hp : ObjectPage s p) (hnew : ∀ o, g o ≠ p) (ho : g o ≠ 0) :
    s.pageFrame (g o) ≠ s.pageFrame p := by
  intro he
  by_cases hk : o = .root .kernel
  · subst hk
    rw [h.pageFrame_kernelRoot] at he
    exact h.reserved.1 (he ▸ hp.managed)
  · refine hnew o ?_
    rw [← (h.object o hk ho).va, he, hp.va]

/-- What a change of memory leaves in place as long as the kernel's entries stay, also
for the objects that are new in `g'`. -/
theorem extend_objects (h : Layout E s g) (hst : SameBoot s t)
    (hgrow : ∀ o, g o ≠ 0 → g' o = g o)
    (hroot : ∀ i ∈ kernelTables, t.cellWord g (.word (.root .kernel) i) =
      s.cellWord g (.word (.root .kernel) i))
    (hpage : ∀ p, t.cellWord g (.page p) = s.cellWord g (.page p))
    (hobj : ∀ o, g o = 0 → g' o ≠ 0 → ObjectPage s (g' o))
    (hva : ∀ f, (t.framesInfo f).va = (s.framesInfo f).va) :
    (∀ i ∈ kernelTables, t.kernelPde i = s.kernelPde i) ∧
      (∀ o, g' o ≠ 0 → t.pageFrame (g' o) = s.pageFrame (g' o)) ∧
      ∀ o, o ≠ .root .kernel → g' o ≠ 0 → ObjectPage t (g' o) := by
  have hroot₀ : t.pageFrame (g (.root .kernel)) = s.kernelDir := by
    rw [Machine.pageFrame, h.kernelRoot, hst.ptrFreeMem, if_pos h.tables.lt_free, kernelDir]
  have hpde (i : ℕ) (hi : i ∈ kernelTables) : t.kernelPde i = s.kernelPde i := by
    have := hroot i hi
    rw [cellWord_word h.kernelRoot_ne (kernelTables_lt hi), hroot₀, cellWord_word h.kernelRoot_ne
      (kernelTables_lt hi), h.pageFrame_kernelRoot] at this
    rw [kernelPde, kernelDir_congr hst.ptrPageDirectory, this, kernelPde]
  have hold (o : Obj) (hk : o ≠ .root .kernel) (ho : g' o ≠ 0) : ObjectPage s (g' o) := by
    by_cases h0 : g o = 0
    · exact hobj o h0 ho
    · exact (hgrow o h0).symm ▸ h.object o hk h0
  have hpte (o : Obj) (hk : o ≠ .root .kernel) (ho : g' o ≠ 0) :
      t.kernelPte (g' o) = s.kernelPte (g' o) := by
    have hp := (hold o hk ho).heap.shared
    rw [← cellWord_page hp g, hpage, cellWord_page hp]
  have hframe (o : Obj) (ho : g' o ≠ 0) : t.pageFrame (g' o) = s.pageFrame (g' o) := by
    by_cases hk : o = .root .kernel
    · subst hk
      rw [hgrow _ h.kernelRoot_ne, hroot₀, h.pageFrame_kernelRoot]
    · exact hst.pageFrame fun _ => hpte o hk ho
  refine ⟨hpde, hframe, fun o hk ho => ⟨(hold o hk ho).heap, ?_, ?_, ?_⟩⟩
  · rw [hpte o hk ho, hframe o ho]
    exact (hold o hk ho).entry
  · rw [hst.managed, hframe o ho]
    exact (hold o hk ho).managed
  · rw [hframe o ho, hva]
    exact (hold o hk ho).va

theorem reserved_congr (h : Layout E s g) (hst : SameBoot s t)
    (hpde : ∀ i ∈ kernelTables, t.kernelPde i = s.kernelPde i) :
    ¬t.Managed t.kernelDir ∧ ∀ i ∈ kernelTables, ¬t.Managed (t.kernelTable i) := by
  rw [hst.managed, kernelDir_congr hst.ptrPageDirectory]
  refine ⟨h.reserved.1, fun i hi => ?_⟩
  rw [kernelTable, hpde i hi, ← kernelTable]
  exact h.reserved.2 i hi

private theorem inj_update (h : Layout E s g) (hnew : ∀ o, g o ≠ p) (o₀ : Obj) {o o' : Obj}
    (ho : Function.update g o₀ p o ≠ 0) (he : Function.update g o₀ p o = Function.update g o₀ p o') :
    o = o' := by
  by_cases ho₀ : o = o₀
  · by_cases ho₀' : o' = o₀
    · rw [ho₀, ho₀']
    · rw [ho₀, Function.update_self, Function.update_of_ne ho₀'] at he
      exact absurd he.symm (hnew o')
  · by_cases ho₀' : o' = o₀
    · rw [ho₀', Function.update_self, Function.update_of_ne ho₀] at he
      exact absurd he (hnew o)
    · rw [Function.update_of_ne ho₀, Function.update_of_ne ho₀'] at he
      rw [Function.update_of_ne ho₀] at ho
      exact h.inj o o' ho he

theorem cellWord_attach (ho : g o = 0) (hp : p ≠ 0) (s : Machine) :
    (∀ j < 1024, s.cellWord (Function.update g o p) (.word o j) = wordAt (s.ram (s.pageFrame p)) j) ∧
      ∀ x, (∀ j < 1024, x ≠ .word o j) → s.cellWord (Function.update g o p) x = s.cellWord g x := by
  refine ⟨fun j hj => by rw [cellWord_word (by simpa using hp) hj, Function.update_self], fun x hx => ?_⟩
  cases x with
  | page q => rfl
  | word o' j =>
    by_cases hoo : o' = o
    · subst hoo
      have hj : 1024 ≤ j := not_lt.mp fun hj => hx j hj rfl
      simp [cellWord, hj]
    · simp only [cellWord, Function.update_of_ne hoo]

theorem setNew (h : Layout E s g) (hp : ObjectPage s p) (hnew : ∀ o, g o ≠ p) (pg : Page) :
    Layout E (s.setFrame (s.pageFrame p) pg) g ∧
      (s.setFrame (s.pageFrame p) pg).cellWord g = s.cellWord g := by
  have hst : SamePlaces s (s.setFrame (s.pageFrame p) pg) := SameGlobals.places (by constructor <;> rfl)
  have hcell := h.cellWord_setData hp.managed (fun o _ ho => h.pageFrame_ne_new hp hnew ho)
    hst.toSameBoot rfl
  exact ⟨h.congr hst hcell fun _ _ _ => rfl, hcell⟩

theorem attach_leaf (h : Layout E s g) (hp : ObjectPage s p) (hnew : ∀ o, g o ≠ p)
    (ho : g (.root τ) ≠ 0) (hi : i < pdx userTop) (hl : g (.leaf τ i) = 0) (hst : SamePlaces s t)
    (hva : ∀ f, (t.framesInfo f).va = (s.framesInfo f).va)
    (hram : t.ram = ((s.setEntry (s.pageFrame (g (.root τ))) i
      (constructEntry (toPhysicalAddress (s.pageFrame p)) τ.perm)).setFrame (s.pageFrame p) zeroPage).ram) :
    Layout E t (Function.update g (.leaf τ i) p) ∧ t.cellWord (Function.update g (.leaf τ i) p) =
      Function.update (s.cellWord g) (.word (.root τ) i)
        (constructEntry (toPhysicalAddress (s.pageFrame p)) τ.perm) := by
  set w := constructEntry (toPhysicalAddress (s.pageFrame p)) τ.perm
  set g' := Function.update g (.leaf τ i) p with hg'
  have hp0 := hp.ne_zero
  have hw : w < 2 ^ 32 :=
    constructEntry_lt ((h.managed_lt hp.managed).trans_le h.tables.frames) τ.perm_lt
  have hik : i ∉ kernelTables := fun hk => absurd (kernelTables_ge hk) (not_le.mpr hi)
  -- the page can be cleared first, as long as no directory refers to it
  obtain ⟨hvlay, hvcell⟩ := h.setNew hp hnew zeroPage
  set v := s.setFrame (s.pageFrame p) zeroPage with hv
  have hsv : SameBoot s v := ⟨rfl, rfl, rfl, rfl⟩
  have hvt : SameBoot v t := ⟨hst.cr3, hst.numberOfFrames, hst.ptrFreeMem, hst.ptrPageDirectory⟩
  have hvroot : v.pageFrame (g (.root τ)) = s.pageFrame (g (.root τ)) :=
    (h.extend_objects hsv (fun o (_ : g o ≠ 0) => Eq.refl (g o)) (fun _ _ => by rw [hvcell]) (fun _ => by rw [hvcell])
      (fun _ h0 ho => absurd h0 ho) fun _ => rfl).2.1 _ ho
  have htg : t.cellWord g = Function.update (s.cellWord g) (.word (.root τ) i) w := by
    rw [← hvcell]
    refine hvlay.cellWord_setWord ho (hi.trans (pdx_lt _)) hw (fun _ => hik) hvt ?_
    rw [hram, hvroot, setEntry, setEntry, hv]
    simp only [setFrame, Function.update_of_ne (h.pageFrame_ne_new hp hnew ho)]
    exact Function.update_comm (h.pageFrame_ne_new hp hnew ho) _ _ _
  have hgrow (o : Obj) (h0 : g o ≠ 0) : g' o = g o :=
    Function.update_of_ne (by rintro rfl; exact h0 hl) ..
  have hobj (o : Obj) (h0 : g o = 0) (ho' : g' o ≠ 0) : ObjectPage s (g' o) := by
    by_cases hol : o = .leaf τ i
    · rwa [hg', hol, Function.update_self]
    · rw [hg', Function.update_of_ne hol] at ho'
      exact absurd h0 ho'
  obtain ⟨hpde, hframe, hobject⟩ := h.extend_objects hst.toSameBoot hgrow (fun k hk => by
      rw [htg, Function.update_of_ne]
      intro he
      obtain ⟨-, rfl⟩ := Cell.word.inj he
      exact hik hk) (fun q => by rw [htg, Function.update_of_ne (by simp)]) hobj hva
  have hcell : t.cellWord g' = Function.update (s.cellWord g) (.word (.root τ) i) w := by
    have hattach := cellWord_attach hl hp0 t
    funext x
    by_cases hx : ∀ j < 1024, x ≠ .word (.leaf τ i) j
    · rw [hattach.2 x hx, htg]
    · push Not at hx
      obtain ⟨j, hj, rfl⟩ := hx
      have hpf : t.pageFrame p = s.pageFrame p := by
        have := hframe (.leaf τ i) (by rw [hg', Function.update_self]; exact hp0)
        rwa [hg', Function.update_self] at this
      rw [hattach.1 j hj, hpf, hram, setFrame_ram_self, wordAt_zeroPage,
        Function.update_of_ne (by simp), cellWord_absent hl]
  have hroot (τ' : Tree) : g' (.root τ') = g (.root τ') := Function.update_of_ne (by simp) ..
  refine ⟨⟨h.tables.congr_pde hst.ptrPageDirectory hst.ptrFreeMem hst.numberOfFrames hpde,
    h.reserved_congr hst.toSameBoot hpde, hst.numberOfFrames ▸ h.enough, ?_, hobject,
    fun o o' => h.inj_update hnew _, fun τ' k hk => ?_, fun e he => ?_, fun e => ?_, fun e he => ?_,
    fun τ' k hk ho' => ?_, fun e he k hk => ?_, ?_⟩, hcell⟩
  · rw [hroot, hst.ptrPageDirectory]
    exact h.kernelRoot
  · rw [hroot]
    by_cases hkl : Obj.leaf τ' k = .leaf τ i
    · obtain ⟨rfl, rfl⟩ := Obj.leaf.inj hkl
      exact ⟨hi, ho⟩
    · rw [hg', Function.update_of_ne hkl] at hk
      exact h.leaf τ' k hk
  · rw [hroot]
    exact h.absent e he
  · rw [hroot, hroot, hst.envPageDirectory, hst.diskEnvPgdir]
    exact h.roots e
  · rw [hst.envCr3, hframe _ he]
    rw [hroot] at he ⊢
    exact h.envCr3 e he
  · rw [hcell]
    rw [hroot] at ho'
    by_cases hkl : Obj.leaf τ' k = .leaf τ i
    · obtain ⟨rfl, rfl⟩ := Obj.leaf.inj hkl
      have hleaf : g' (.leaf τ' k) = p := Function.update_self ..
      rw [Function.update_self, hleaf, if_neg hp0, ← hleaf, hframe _ (hleaf ▸ hp0), hleaf]
    · have hne : Cell.word (.root τ') k ≠ .word (.root τ) i := fun he => hkl (by
        obtain ⟨hτ, rfl⟩ := Cell.word.inj he
        rw [Obj.root.inj hτ])
      have hleaf : g' (.leaf τ' k) = g (.leaf τ' k) := Function.update_of_ne hkl ..
      rw [Function.update_of_ne hne, h.pde τ' k hk ho', hleaf]
      split
      · rfl
      · rename_i h0
        rw [← hleaf, hframe _ (hleaf ▸ h0)]
  · rw [hroot] at he
    rw [hcell, Function.update_of_ne, h.kpde e he k hk, hpde k hk]
    intro hek
    obtain ⟨-, rfl⟩ := Cell.word.inj hek
    exact hik hk
  · obtain ⟨τ', hτ, ho', hcr⟩ := h.loaded
    refine ⟨τ', hτ, by rwa [hroot], ?_⟩
    rw [hst.cr3, hframe _ (by rwa [hroot]), hroot, hcr]

theorem cellWord_congr (hst : SameBoot s t) (hram : t.ram = s.ram) (g : Obj → ℕ) :
    t.cellWord g = s.cellWord g := by
  have hpte : t.kernelPte = s.kernelPte := by
    funext q
    simp only [kernelPte, kernelTable, kernelPde, kernelDir, hst.ptrPageDirectory, hram]
  funext x
  cases x with
  | page q => simp only [cellWord, hpte]
  | word o j => simp only [cellWord, Machine.pageFrame, hst.ptrFreeMem, hpte, hram]

theorem attach_root (h : Layout E s g) (hp : ObjectPage s p) (hnew : ∀ o, g o ≠ p)
    (hr : g (.root τ) = 0) (hpg : ∀ i < pdx userTop, wordAt pg i = 0)
    (huser : ∀ e, τ = .user e → e ∈ E ∧ ∀ i ∈ kernelTables, wordAt pg i = s.kernelPde i)
    (hst : SameBoot s t) (hva : ∀ f, (t.framesInfo f).va = (s.framesInfo f).va)
    (hroots : ∀ e, (t.envs e).envPageDirectory = Function.update g (.root τ) p (.root (.user e)) ∧
      (t.envs e).diskEnvPgdir = Function.update g (.root τ) p (.root (.disk e)))
    (hcr3 : ∀ e, Function.update g (.root τ) p (.root (.user e)) ≠ 0 → (t.envs e).envCr3 =
      toPhysicalAddress (s.pageFrame (Function.update g (.root τ) p (.root (.user e)))))
    (hram : t.ram = (s.setFrame (s.pageFrame p) pg).ram) :
    Layout E t (Function.update g (.root τ) p) ∧
      (∀ j < 1024, t.cellWord (Function.update g (.root τ) p) (.word (.root τ) j) = wordAt pg j) ∧
      ∀ x, (∀ j < 1024, x ≠ .word (.root τ) j) →
        t.cellWord (Function.update g (.root τ) p) x = s.cellWord g x := by
  set g' := Function.update g (.root τ) p with hg'
  have hp0 := hp.ne_zero
  obtain ⟨hvlay, hvcell⟩ := h.setNew hp hnew pg
  have hboot : SameBoot (s.setFrame (s.pageFrame p) pg) t :=
    ⟨hst.cr3, hst.numberOfFrames, hst.ptrFreeMem, hst.ptrPageDirectory⟩
  have htg : t.cellWord g = s.cellWord g := (cellWord_congr hboot hram g).trans hvcell
  have hgrow (o : Obj) (h0 : g o ≠ 0) : g' o = g o :=
    Function.update_of_ne (by rintro rfl; exact h0 hr) ..
  have hobj (o : Obj) (h0 : g o = 0) (ho' : g' o ≠ 0) : ObjectPage s (g' o) := by
    by_cases hor : o = .root τ
    · rwa [hg', hor, Function.update_self]
    · rw [hg', Function.update_of_ne hor] at ho'
      exact absurd h0 ho'
  obtain ⟨hpde, hframe, hobject⟩ := h.extend_objects hst hgrow (fun k _ => by rw [htg])
    (fun q => by rw [htg]) hobj hva
  have hself : g' (.root τ) = p := Function.update_self ..
  have hleaf (τ' : Tree) (k : ℕ) : g' (.leaf τ' k) = g (.leaf τ' k) := Function.update_of_ne (by simp) ..
  have hroot {τ' : Tree} (hτ : τ' ≠ τ) : g' (.root τ') = g (.root τ') :=
    Function.update_of_ne (by simpa using hτ) ..
  have hpf : t.pageFrame p = s.pageFrame p := hself ▸ hframe (.root τ) (hself ▸ hp0)
  have hattach := cellWord_attach hr hp0 t
  have hword (j : ℕ) (hj : j < 1024) : t.cellWord g' (.word (.root τ) j) = wordAt pg j := by
    rw [hattach.1 j hj, hpf, hram, setFrame_ram_self]
  have hother (x : Cell) (hx : ∀ j < 1024, x ≠ .word (.root τ) j) : t.cellWord g' x = s.cellWord g x := by
    rw [hattach.2 x hx, htg]
  refine ⟨⟨h.tables.congr_pde hst.ptrPageDirectory hst.ptrFreeMem hst.numberOfFrames hpde,
    h.reserved_congr hst hpde, hst.numberOfFrames ▸ h.enough, ?_, hobject, fun o o' => h.inj_update hnew _,
    fun τ' k hk => ?_, fun e he => ?_, hroots, fun e he => ?_, fun τ' k hk ho' => ?_,
    fun e he k hk => ?_, ?_⟩, hword, hother⟩
  · rw [hgrow _ h.kernelRoot_ne, hst.ptrPageDirectory]
    exact h.kernelRoot
  · obtain ⟨hi, ho⟩ := h.leaf τ' k (hleaf τ' k ▸ hk)
    exact ⟨hi, hgrow _ ho ▸ ho⟩
  · have hτ : Tree.user e ≠ τ := fun hτ => he (huser e hτ.symm).1
    rw [hroot hτ]
    exact h.absent e he
  · rw [hcr3 e he, hframe _ he]
  · rw [hleaf]
    by_cases hτ : τ' = τ
    · subst hτ
      have hl : g (.leaf τ' k) = 0 := by
        by_contra hl
        exact (h.leaf τ' k hl).2 hr
      rw [hword k (hk.trans (pdx_lt _)), hpg k hk, if_pos hl]
    · rw [hother _ (by simp [hτ]), h.pde τ' k hk (hroot hτ ▸ ho')]
      split
      · rfl
      · rename_i h0
        rw [← hleaf, hframe _ (hleaf τ' k ▸ h0)]
  · by_cases hτ : Tree.user e = τ
    · subst hτ
      rw [hword k (kernelTables_lt hk), (huser e rfl).2 k hk, hpde k hk]
    · rw [hother _ (by simp [hτ]), h.kpde e (hroot hτ ▸ he) k hk, hpde k hk]
  · obtain ⟨τ', hτ, ho', hcr⟩ := h.loaded
    refine ⟨τ', hτ, by rwa [hgrow _ ho'], ?_⟩
    rw [hst.cr3, hframe _ (by rwa [hgrow _ ho']), hgrow _ ho', hcr]

/-- Writing a directory's entry for user addresses does not change what kernel heap
addresses mean, even if the directory is loaded. -/
theorem translate_setRoot (h : Layout E s g) (ho : g (.root τ) ≠ 0) (hi : i < pdx userTop)
    (hp : HeapPage p) (need w : ℕ) :
    (s.setEntry (s.pageFrame (g (.root τ))) i w).translate need p = s.translate need p := by
  have hidx := hp.shared.index
  have hne : pdx p ≠ i := fun he => absurd (kernelTables_ge hidx) (not_le.mpr (he ▸ hi))
  have hpde : (s.setEntry (s.pageFrame (g (.root τ))) i w).pde p = s.pde p := by
    by_cases hcr : frameNumber s.cr3 = s.pageFrame (g (.root τ))
    · rw [Machine.pde, setEntry, setFrame_cr3, hcr, setFrame_ram_self, wordAt_setWord_of_ne (pdx_lt p) hne,
        ← hcr, Machine.pde]
    · rw [Machine.pde, setEntry, setFrame_cr3, setFrame_ram_of_ne hcr, Machine.pde]
  have hpte : (s.setEntry (s.pageFrame (g (.root τ))) i w).pte p = s.pte p := by
    have htab : frameNumber (s.pde p) = s.kernelTable (pdx p) := by
      rw [Machine.pde, h.pde_loaded hidx, kernelTable]
    rw [Machine.pte, hpde, setEntry, setFrame_ram_of_ne, Machine.pte]
    rw [htab]
    exact (h.pageFrame_ne_table ho hidx).symm
  simp only [translate, hpde, hpte]
  rfl

end Layout

theorem Core.attach {M : Set ℕ} (h : Core E s g L M) (ha : Apart E s g) (hst : SameBoot s t)
    (hlay : Layout E t (Function.update g o p))
    (hcell : ∀ x ∈ slots E, t.cellWord (Function.update g o p) x = s.cellWord g x)
    (hinfo : t.framesInfo = s.framesInfo) (hfree : t.freeFrameList = s.freeFrameList) :
    Core E t (Function.update g o p) L M ∧ Apart E t (Function.update g o p) := by
  have hpage {q : ℕ} (hq : HeapPage q) : Cell.page q ∈ slots E := page_mem_slots.mpr hq.shared
  have hapart : Apart E t (Function.update g o p) := fun q hq x hx f hn hn' => by
    rw [hcell _ (hpage hq)] at hn
    rw [hcell x hx] at hn'
    exact ha q hq x hx f hn hn'
  refine ⟨⟨hlay, fun f => by rw [hinfo]; exact h.unbuffered f, fun x hx => by rw [hcell x hx]; exact h.present x hx,
    fun q hq => by rw [hcell _ (hpage hq)]; exact h.idle q hq, ?_, fun o' hk' ho' x hx hn => ?_⟩, hapart⟩
  · rw [hst.managed]
    exact h.pool.congr (fun x hx => by simp only [Machine.pool, hcell x hx])
      (fun f _ => by simp only [Machine.pool, hinfo]) hfree
  · exact hapart _ (hlay.object o' hk' ho').heap x hx _ (hlay.nameOf_object hk' ho') hn

namespace HeapMap

variable {M : ℕ → Prop}

theorem keep (hm : HeapMap s M) (kt : KernelTables t heapTables)
    (hn : t.numberOfFrames = s.numberOfFrames)
    (hpte : ∀ p, HeapPage p → t.kernelPte p = s.kernelPte p)
    (hinfo : ∀ p f, HeapPage p → MapsPage s p f → t.framesInfo f = s.framesInfo f ∧ f ∉ t.freeFrameList)
    (hnodup : t.freeFrameList.Nodup)
    (hfree : ∀ f ∈ t.freeFrameList, f < t.numberOfFrames ∧ (t.framesInfo f).isBuffered = false) :
    HeapMap t M where
  tables := kt
  mapped p hp hM := by
    obtain ⟨f, hf⟩ := hm.mapped p hp hM
    obtain ⟨hi, hnf⟩ := hinfo p f hp hf
    exact ⟨f, (hpte p hp).trans hf.entry, hi.trans hf.info, hn ▸ hf.lt, hnf⟩
  unmapped p hp hM := (hpte p hp).trans (hm.unmapped p hp hM)
  nodup := hnodup
  free := hfree

end HeapMap

theorem MapsPage.nameOf (hf : MapsPage s p f) (hp : HeapPage p) (g : Obj → ℕ) :
    nameOf (s.cellWord g (.page p)) = some f := by
  rw [cellWord_page hp.shared, hf.entry]
  exact nameOf_heapEntry

namespace System

theorem of_core (h : System E s g L) {L' : Set ℕ} (hc : Core E t g' L' Set.univ) (ha : Apart E t g')
    (hheap : t.heap = s.heap) (hpage : ∀ p, HeapPage p → t.cellWord g' (.page p) = s.cellWord g (.page p))
    (hn : t.numberOfFrames = s.numberOfFrames)
    (hinfo : ∀ p f, HeapPage p → MapsPage s p f → t.framesInfo f = s.framesInfo f) :
    System E t g' L' := by
  have hpte (p : ℕ) (hp : HeapPage p) : t.kernelPte p = s.kernelPte p := by
    rw [← cellWord_page hp.shared g', hpage p hp, cellWord_page hp.shared]
  refine ⟨hc, ⟨hheap ▸ h.heap.lists, ?_⟩, ha⟩
  have hlive : t.Live = s.Live := by
    funext p
    rw [Live, Live, hheap]
  rw [hlive]
  refine h.heap.pages.keep (hc.tables.mono heapTables_subset) hn hpte (fun p f hp hf => ?_) hc.pool.nodup
    fun f hf => ⟨hc.managed_lt (hc.free_managed hf).1, hc.unbuffered f⟩
  refine ⟨hinfo p f hp hf, fun hfree => (hc.free_managed hfree).2.2 _ (page_mem_slots.mpr hp.shared) ?_⟩
  rw [hpage p hp]
  exact hf.nameOf hp g

end System

/-- Frames or kernel heap pages ran out, of which `a` and `b` would have been enough. -/
def Short (s : Machine) (a b : ℕ) (e : Panic) : Prop :=
  e = .noFreeFrame ∧ s.freeFrameList.length < a ∨ e = .heapSpace ∧ ¬Room s b

/-- At most `a` frames and `b` kernel heap pages were used. -/
structure Spent (s t : Machine) (a b : ℕ) : Prop where
  frames : s.freeFrameList.length ≤ t.freeFrameList.length + a
  room : ∀ m, Room s (m + b) → Room t m

theorem Room.mono (h : Room s n) (hle : m ≤ n) : Room s m :=
  ⟨h.1, (Nat.mul_le_mul_left _ hle).trans h.2⟩

theorem Short.mono {a b a' b' : ℕ} {e : Panic} (h : Short s a b e) (ha : a ≤ a') (hb : b ≤ b') :
    Short s a' b' e :=
  h.imp (fun h => ⟨h.1, h.2.trans_le ha⟩) fun h => ⟨h.1, fun hr => h.2 (hr.mono hb)⟩

namespace Spent

variable {a b a' b' : ℕ} {e : Panic}

theorem refl (s : Machine) : Spent s s 0 0 := ⟨le_rfl, fun _ => id⟩

theorem trans (h : Spent s t a b) (h' : Spent t u a' b') : Spent s u (a + a') (b + b') := by
  refine ⟨?_, fun m hr => h'.room m (h.room _ (hr.mono (by omega)))⟩
  have := h.frames
  have := h'.frames
  omega

theorem mono (h : Spent s t a b) (ha : a ≤ a') (hb : b ≤ b') : Spent s t a' b' := by
  refine ⟨?_, fun m hr => h.room m (hr.mono (by omega))⟩
  have := h.frames
  omega

theorem short (h : Spent s t a b) (he : Short t a' b' e) : Short s (a + a') (b + b') e := by
  rcases he with ⟨he, hlt⟩ | ⟨he, hr⟩
  · refine .inl ⟨he, ?_⟩
    have := h.frames
    omega
  · exact .inr ⟨he, fun hr' => hr (h.room _ (hr'.mono (by omega)))⟩

end Spent

/-- What a request for a kernel heap page leaves. -/
structure NewPage (E : Finset ℕ) (s : Machine) (g : Obj → ℕ) (L : Set ℕ) (p f : ℕ) (t : Machine) : Prop where
  system : System E t g L
  heap : HeapPage p
  empty : s.kernelPte p = 0
  cell : t.cellWord g = Function.update (s.cellWord g) (.page p) (heapEntry f)
  free : s.freeFrameList = f :: t.freeFrameList
  info : t.framesInfo = Function.update s.framesInfo f ⟨1, p, none, false⟩
  ram : ∀ f', (∀ i ∈ heapTables, f' ≠ s.kernelTable i) → t.ram f' = s.ram f'
  globals : ∃ h, SameGlobals (s.setHeap h) t
  spent : Spent s t 1 1

namespace System

theorem setHeap (h : Core E s g L Set.univ) (hp : DynamicAllocator.State) :
    Core E (s.setHeap hp) g L Set.univ :=
  h.congr ⟨⟨rfl, rfl, rfl, rfl⟩, fun _ => rfl, fun _ => rfl, fun _ => rfl⟩ rfl rfl rfl

variable (cpt) in
theorem kmalloc_page (h : System E s g L) :
    Sat (fun e => e = .noFreeFrame ∧ s.freeFrameList.length < 1) (kmalloc cpt pageSize) s fun p t =>
      (∃ f, NewPage E s g L p f t) ∨ ¬Room s 1 ∧ p = 0 ∧ t = s := by
  refine ((h.heap.kmalloc_page cpt).weaken fun e he => ⟨he.1, by simp [he.2]⟩).mono ?_
  rintro p t (⟨hr, hm⟩ | hn)
  · obtain ⟨d, hplaces⟩ := hm.places
    have hglob := hplaces.globals
    have hroom (m : ℕ) (hr : Room s (m + 1)) : Room t m := hm.room h.heap hr
    obtain @⟨_⟩ | @⟨u, n, f, fs, hz, hp, h0, hfree⟩ := hplaces
    cases hz
    rw [Nat.mul_zero, Nat.add_zero] at hp h0 hglob hm hroom ⊢
    obtain ⟨hcore, hcell⟩ := (setHeap h.toCore d).placeFrame hp (Set.mem_univ _) h0 hfree
    have hapart := Apart.placeFrame (s := s.setHeap d) h.apart (setHeap h.toCore d) hfree hcell
    refine .inl ⟨f, ⟨hcore, hm.inv, hapart⟩, hp, h0, hcell, hfree, ?_, fun f' hf' => ?_,
      ⟨d, hglob⟩, ⟨?_, hroom⟩⟩
    · funext f'
      exact (setInfo_apply ..).trans (Function.update_apply ..).symm
    · exact setFrame_ram_of_ne (hf' _ hp.index)
    · rw [show s.freeFrameList = f :: fs from hfree]
      exact le_rfl
  · exact .inr hn

end System

namespace NewPage

theorem object (h : NewPage E s g L p f t) : ObjectPage t p ∧ t.pageFrame p = f := by
  have hcell : t.cellWord g (.page p) = heapEntry f := by rw [h.cell, Function.update_self]
  have hpte : t.kernelPte p = heapEntry f := by rw [← cellWord_page h.heap.shared g, hcell]
  have hframe : t.pageFrame p = f := by
    rw [h.system.pageFrame_heap h.heap, hpte]
    exact frameNumber_constructEntry (by decide)
  refine ⟨⟨h.heap, hframe.symm ▸ hpte, ?_, ?_⟩, hframe⟩
  · rw [hframe]
    exact (h.system.frame_managed (page_mem_slots.mpr h.heap.shared) (hcell ▸ nameOf_heapEntry)).1
  · rw [hframe, h.info, Function.update_self]

theorem new (h : NewPage E s g L p f t) (hs : Layout E s g) (o : Obj) : g o ≠ p := by
  rintro rfl
  by_cases hk : o = .root .kernel
  · have h₁ := hs.tables.lt_free
    have h₂ := hs.tables.free_le
    have h₃ := h.heap.start
    rw [hk, hs.kernelRoot] at h₃
    omega
  · have hobj := (hs.object o hk h.object.1.ne_zero).entry
    rw [h.empty] at hobj
    exact ne_zero_of_hasPerm_present (HasPerm.or_left (HasPerm.or_left (by decide))) hobj.symm

end NewPage

/-- Objects stay where they are, and memory changes in tables, in frames that were
free and in frames with objects only. -/
structure Keeps (s : Machine) (g : Obj → ℕ) (t : Machine) (g' : Obj → ℕ) : Prop where
  globals : ∃ h, SameGlobals (s.setHeap h) t
  objects : ∀ o, g o ≠ 0 → g' o = g o
  frame : ∀ o, g o ≠ 0 → t.pageFrame (g o) = s.pageFrame (g o)
  fresh : ∀ o, g o = 0 → g' o ≠ 0 → t.pageFrame (g' o) ∈ s.freeFrameList
  kernelPde : ∀ i ∈ kernelTables, t.kernelPde i = s.kernelPde i
  root : ∀ τ i, pdx userTop ≤ i → t.cellWord g' (.word (.root τ) i) = s.cellWord g (.word (.root τ) i)
  page : ∀ p, s.cellWord g (.page p) ≠ 0 → t.cellWord g' (.page p) = s.cellWord g (.page p)
  ram : ∀ f, (∀ i ∈ heapTables, f ≠ s.kernelTable i) → (∀ o, g o ≠ 0 → s.pageFrame (g o) ≠ f) →
    f ∉ s.freeFrameList → t.ram f = s.ram f
  free : ∀ f ∈ t.freeFrameList, f ∈ s.freeFrameList

namespace Keeps

theorem refl (s : Machine) (g : Obj → ℕ) : Keeps s g s g where
  globals := ⟨s.heap, .refl s⟩
  objects _ _ := rfl
  frame _ _ := rfl
  fresh _ h0 ho := absurd h0 ho
  kernelPde _ _ := rfl
  root _ _ _ := rfl
  page _ _ := rfl
  ram _ _ _ _ := rfl
  free _ := id

theorem trans {g'' : Obj → ℕ} (h : Keeps s g t g') (h' : Keeps t g' u g'') : Keeps s g u g'' where
  globals := by
    obtain ⟨d, hst⟩ := h.globals
    obtain ⟨d', htu⟩ := h'.globals
    exact ⟨d', hst.setHeap.trans htu⟩
  objects o ho := (h'.objects o (h.objects o ho ▸ ho)).trans (h.objects o ho)
  frame o ho := by
    have := h'.frame o (h.objects o ho ▸ ho)
    rw [h.objects o ho] at this
    exact this.trans (h.frame o ho)
  fresh o h0 ho := by
    by_cases h1 : g' o = 0
    · exact h.free _ (h'.fresh o h1 ho)
    · rw [h'.objects o h1, h'.frame o h1]
      exact h.fresh o h0 h1
  kernelPde i hi := (h'.kernelPde i hi).trans (h.kernelPde i hi)
  root τ i hi := (h'.root τ i hi).trans (h.root τ i hi)
  page p hp := (h'.page p (h.page p hp ▸ hp)).trans (h.page p hp)
  ram f htab hobj hfree := by
    rw [h'.ram f (fun i hi => ?_) (fun o ho => ?_) fun hf => hfree (h.free f hf), h.ram f htab hobj hfree]
    · rw [kernelTable, h.kernelPde i (heapTables_subset hi), ← kernelTable]
      exact htab i hi
    · by_cases h0 : g o = 0
      · exact fun he => hfree (he ▸ h.fresh o h0 ho)
      · rw [h.objects o h0, h.frame o h0]
        exact hobj o h0
  free f hf := h.free f (h'.free f hf)

end Keeps

theorem NewPage.keeps (h : NewPage E s g L p f t) (hs : Layout E s g) : Keeps s g t g := by
  obtain ⟨d, hst⟩ := h.globals
  have hboot : SameBoot s t := ⟨hst.cr3, hst.numberOfFrames, hst.ptrFreeMem, hst.ptrPageDirectory⟩
  have hword (o : Obj) (j : ℕ) : t.cellWord g (.word o j) = s.cellWord g (.word o j) := by
    rw [h.cell, Function.update_of_ne (by simp)]
  have hpage (q : ℕ) (hq : s.cellWord g (.page q) ≠ 0) : t.cellWord g (.page q) = s.cellWord g (.page q) := by
    rw [h.cell, Function.update_of_ne]
    rintro hqp
    obtain rfl := Cell.page.inj hqp
    rw [cellWord_page h.heap.shared] at hq
    exact hq h.empty
  have hframe (o : Obj) (ho : g o ≠ 0) : t.pageFrame (g o) = s.pageFrame (g o) := by
    by_cases hk : o = .root .kernel
    · subst hk
      rw [h.system.pageFrame_kernelRoot, hs.pageFrame_kernelRoot, kernelDir_congr hboot.ptrPageDirectory]
    · have hn := hs.nameOf_object hk ho
      rw [h.system.pageFrame_cell hk ho, hs.pageFrame_cell hk ho, hpage]
      intro h0
      rw [h0] at hn
      cases hn
  have hpde (i : ℕ) (hi : i ∈ kernelTables) : t.kernelPde i = s.kernelPde i := by
    rw [← h.system.cellWord_root kernel_mem_mmuTrees hs.kernelRoot_ne hi, hword,
      hs.cellWord_root kernel_mem_mmuTrees hs.kernelRoot_ne hi]
  refine ⟨⟨d, hst⟩, fun _ _ => rfl, hframe, fun _ h0 ho => absurd h0 ho, hpde, fun τ i _ => hword _ i, hpage,
    fun f' hf' _ _ => h.ram f' hf', fun f' hf' => ?_⟩
  rw [h.free]
  exact List.mem_cons_of_mem _ hf'

theorem Keeps.attach (h : Keeps s g t g) (ht : Layout E t g) (hu : Layout E u (Function.update g o p))
    (ho : g o = 0) (hst : SameGlobals t u)
    (hroot : ∀ τ i, pdx userTop ≤ i → u.cellWord (Function.update g o p) (.word (.root τ) i) =
      t.cellWord g (.word (.root τ) i))
    (hpage : ∀ q, u.cellWord (Function.update g o p) (.page q) = t.cellWord g (.page q))
    (hfresh : u.pageFrame p ∈ s.freeFrameList)
    (hram : ∀ f, u.pageFrame p ≠ f → (∀ o, g o ≠ 0 → t.pageFrame (g o) ≠ f) → u.ram f = t.ram f)
    (hfree : u.freeFrameList = t.freeFrameList) : Keeps s g u (Function.update g o p) := by
  have hobj (o' : Obj) (ho' : g o' ≠ 0) : Function.update g o p o' = g o' :=
    Function.update_of_ne (by rintro rfl; exact ho' ho) ..
  have hframe (o' : Obj) (ho' : g o' ≠ 0) : u.pageFrame (g o') = t.pageFrame (g o') := by
    have hu' : Function.update g o p o' ≠ 0 := hobj o' ho' ▸ ho'
    rw [← hobj o' ho']
    by_cases hk : o' = .root .kernel
    · subst hk
      rw [hu.pageFrame_kernelRoot, hobj _ ho', ht.pageFrame_kernelRoot, kernelDir_congr hst.ptrPageDirectory]
    · rw [hu.pageFrame_cell hk hu', hpage, hobj o' ho', ht.pageFrame_cell hk ho']
  have hpde (i : ℕ) (hi : i ∈ kernelTables) : u.kernelPde i = t.kernelPde i := by
    rw [← hu.cellWord_root kernel_mem_mmuTrees hu.kernelRoot_ne hi, hroot _ _ (kernelTables_ge hi),
      ht.cellWord_root kernel_mem_mmuTrees ht.kernelRoot_ne hi]
  obtain ⟨d, hs⟩ := h.globals
  refine ⟨⟨u.heap, hst.heap ▸ hs.setHeap.trans hst⟩, hobj, fun o' ho' => (hframe o' ho').trans (h.frame o' ho'),
    fun o' h0 ho' => ?_, fun i hi => (hpde i hi).trans (h.kernelPde i hi),
    fun τ i hi => (hroot τ i hi).trans (h.root τ i hi), fun q hq => (hpage q).trans (h.page q hq),
    fun f htab hobj' hf => ?_, fun f hf => h.free f (hfree ▸ hf)⟩
  · by_cases hoo : o' = o
    · rwa [hoo, Function.update_self]
    · rw [Function.update_of_ne hoo] at ho'
      exact absurd h0 ho'
  · rw [hram f (fun he => hf (he ▸ hfresh)) fun o' ho' => h.frame o' ho' ▸ hobj' o' ho']
    exact h.ram f htab hobj' hf

/-- A table was created as the object `o`; all other tables keep their words. -/
structure Created (E : Finset ℕ) (s : Machine) (g : Obj → ℕ) (L : Set ℕ) (o : Obj) (pt : ℕ) (t : Machine) :
    Prop where
  system : System E t (Function.update g o pt) L
  ne : pt ≠ 0
  keeps : Keeps s g t (Function.update g o pt)
  leaf : ∀ τ i j, t.cellWord (Function.update g o pt) (.word (.leaf τ i) j) =
    s.cellWord g (.word (.leaf τ i) j)
  spent : Spent s t 1 1

/-- `kheap_physical_address` of a page of the kernel heap. -/
theorem KernelTables.kheapPhysicalAddress_run (kt : KernelTables s heapTables) (hp : HeapPage p)
    (hlt : frameNumber (s.kernelPte p) < 2 ^ 20) :
    (kheapPhysicalAddress p).run s = .ok (toPhysicalAddress (frameNumber (s.kernelPte p)), s) := by
  have hu : u32 (frameNumber (s.kernelPte p) * pageSize) = toPhysicalAddress (frameNumber (s.kernelPte p)) := by
    rw [toPhysicalAddress, Nat.mul_comm, u32_of_lt]
    simp only [pageSize]
    omega
  rw [kheapPhysicalAddress, run_bind_ok run_get, (kt.hasTable hp.index hp.userTop_le).virtualToPhysical_run,
    ← hu]
  rfl

theorem Layout.linkPage_run (h : Layout E t g) (hp : ObjectPage t p) (ho : g (.root τ) ≠ 0) (hi : i < pdx userTop) (w : ℕ) :
    (kheapPhysicalAddress p).run t = .ok (toPhysicalAddress (t.pageFrame p), t) ∧
      (writeEntry (g (.root τ)) i w).run t = .ok ((), t.setEntry (t.pageFrame (g (.root τ))) i w) ∧
      (clearPage p).run (t.setEntry (t.pageFrame (g (.root τ))) i w) =
        .ok ((), (t.setEntry (t.pageFrame (g (.root τ))) i w).setFrame (t.pageFrame p) zeroPage) := by
  have hpte := h.pageFrame_heap hp.heap
  have hlt : t.pageFrame p < 2 ^ 20 := (h.managed_lt hp.managed).trans_le h.tables.frames
  have hpa := (h.tables.mono heapTables_subset).kheapPhysicalAddress_run hp.heap (hpte ▸ hlt)
  have hperm : HasPerm (t.kernelPte p) (permPresent ||| permWriteable) := by
    rw [hp.entry]
    exact HasPerm.or_left (by decide)
  have hwrite : (t.setEntry (t.pageFrame (g (.root τ))) i w).translate (permPresent ||| permWriteable) p =
      some (t.pageFrame p) := by
    rw [h.translate_setRoot ho hi hp.heap, h.translate_shared hp.heap.shared (by decide) hperm, hpte]
  refine ⟨?_, writeEntry_run (h.translate_object ho (by decide)), clearPage_run hwrite⟩
  rw [hpte]
  exact hpa

theorem System.createPageTable (h : System E s g L) (ho : g (.root τ) ≠ 0)
    (hτ : τ.perm = permPresent ||| permUser ||| permWriteable) (hva : va < userTop)
    (hl : g (.leaf τ (pdx va)) = 0) :
    Sat (Short s 1 1) (createPageTable (g (.root τ)) va) s (Created E s g L (.leaf τ (pdx va))) := by
  rw [Machine.createPageTable, createPageTableWithin, createPageTableWith]
  refine ((h.kmalloc_page _).weaken fun e he => .inl he).bind ?_
  rintro p t (⟨f, hnew⟩ | ⟨hroom, rfl, rfl⟩)
  · obtain ⟨hobj, hframe⟩ := hnew.object
    have hsys := hnew.system
    have hi := pdx_lt_userTop hva
    have hpte : frameNumber (t.kernelPte p) = f := by
      rw [← hsys.pageFrame_heap hnew.heap, hframe]
    set w := constructEntry (toPhysicalAddress f) (permPresent ||| permUser ||| permWriteable) with hw
    obtain ⟨hpa, hwrite, hclear⟩ := hsys.linkPage_run hobj ho hi w
    rw [hframe] at hpa hclear
    rw [if_neg hobj.ne_zero]
    refine .bind_ok hpa (.bind_ok hwrite (.bind_ok hclear (.pure ?_)))
    have hnot := hnew.new h.toLayout
    have hst : SameGlobals t ((t.setEntry (t.pageFrame (g (.root τ))) (pdx va) w).setFrame f zeroPage) := by
      constructor <;> rfl
    obtain ⟨hlay, hcell⟩ := hsys.toLayout.attach_leaf hobj hnot ho hi hl hst.places (fun _ => rfl)
      (by rw [hframe, hτ])
    rw [hframe, hτ, ← hw] at hcell
    set u := (t.setEntry (t.pageFrame (g (.root τ))) (pdx va) w).setFrame f zeroPage with hu
    have hpage (q : ℕ) : u.cellWord (Function.update g (.leaf τ (pdx va)) p) (.page q) =
        t.cellWord g (.page q) := by
      rw [hcell, Function.update_of_ne (by simp)]
    obtain ⟨hcore, hapart⟩ := hsys.toCore.attach hsys.apart hst.places.toSameBoot hlay (fun x hx => by
      rw [hcell, Function.update_of_ne (root_ne_of_slot hx τ _)]) rfl rfl
    have hupage : u.pageFrame p = f := by
      have := hlay.pageFrame_cell (o := .leaf τ (pdx va)) (by simp) (by
        rw [Function.update_self]; exact hobj.ne_zero)
      rw [Function.update_self, hpage, cellWord_page hnew.heap.shared, hpte] at this
      exact this
    refine ⟨hsys.of_core hcore hapart rfl (fun q _ => hpage q) rfl fun _ _ _ _ => rfl, hobj.ne_zero,
      (hnew.keeps h.toLayout).attach hsys.toLayout hlay hl hst (fun τ' k hk => ?_) hpage ?_
        (fun f' hf' ho' => ?_) rfl, fun τ' k j => ?_, ⟨hnew.spent.frames, hnew.spent.room⟩⟩
    · rw [hcell, Function.update_of_ne]
      intro he
      obtain ⟨-, rfl⟩ := Cell.word.inj he
      exact absurd hk (not_le.mpr hi)
    · rw [hupage, hnew.free]
      exact List.mem_cons_self
    · rw [hu, setFrame_ram_of_ne fun he => hf' (hupage.trans he.symm), setEntry,
        setFrame_ram_of_ne (ho' _ ho).symm]
    · rw [hcell, Function.update_of_ne (by simp), hnew.cell, Function.update_of_ne (by simp)]
  · exact .of_error (if_pos rfl ▸ rfl) (.inr ⟨rfl, hroom⟩)

end FosKernel.Machine
