import FosKernel.AddressSpaces

/-!
# The accounting of frames

The entries of all page tables are the slots of a pool of counted frames. Each
elementary change of the memory manager is one step of that pool.
-/

namespace FosKernel.Machine
open FailingPrograms PageEntries ReferenceCounts

variable {s t u : Machine} {E : Finset ℕ} {g : Obj → ℕ} {L M : Set ℕ} {τ : Tree} {o : Obj} {x : Cell}
  {p f i j w va pt F perm : ℕ} {fs : List ℕ} {pg : Page}

def nameOf (w : ℕ) : Option ℕ := if w = 0 then none else some (frameNumber w)

@[simp] theorem nameOf_zero : nameOf 0 = none := rfl

theorem nameOf_eq_some : nameOf w = some f ↔ w ≠ 0 ∧ frameNumber w = f := by
  unfold nameOf
  split <;> simp_all

theorem nameOf_construct (hperm : perm < 4096) :
    nameOf (constructEntry (toPhysicalAddress f) (perm ||| permPresent)) = some f := by
  have hlt : perm ||| permPresent < 4096 := Nat.or_lt_two_pow (n := 12) hperm (by decide)
  refine nameOf_eq_some.mpr ⟨ne_zero_of_hasPerm_present ?_, frameNumber_constructEntry hlt⟩
  exact HasPerm.or_left (HasPerm.or_left (by decide))

noncomputable def pool (s : Machine) (g : Obj → ℕ) : Pool Cell ℕ where
  name x := nameOf (s.cellWord g x)
  refs f := (s.framesInfo f).references
  free := s.freeFrameList

noncomputable def uses (E : Finset ℕ) (s : Machine) (g : Obj → ℕ) (f : ℕ) : ℕ :=
  count (slots E) (s.pool g).name f

/-- The entry is not the kernel's own of a directory or table. -/
def NoObject (g : Obj → ℕ) (x : Cell) : Prop := ∀ o, o ≠ .root .kernel → g o ≠ 0 → x ≠ .page (g o)

/-- The layout, and the accounting of the frames: those in `L` were taken off the
free list and are not mapped yet, and only the heap pages in `M` may be mapped. -/
structure Core (E : Finset ℕ) (s : Machine) (g : Obj → ℕ) (L M : Set ℕ) : Prop
    extends Layout E s g where
  unbuffered : ∀ f, (s.framesInfo f).isBuffered = false
  present : ∀ x ∈ slots E, s.cellWord g x ≠ 0 → HasPerm (s.cellWord g x) permPresent
  idle : ∀ p, HeapPage p → s.cellWord g (.page p) ≠ 0 → p ∈ M
  pool : Sound (2 ^ 16) (slots E) {f | s.Managed f} L (s.pool g)
  only : ∀ o, o ≠ .root .kernel → g o ≠ 0 → ∀ x ∈ slots E,
    nameOf (s.cellWord g x) = some (s.pageFrame (g o)) → x = .page (g o)

/-- A frame that may be mapped: in limbo, or mapped already but not for a table. -/
def Client (E : Finset ℕ) (s : Machine) (g : Obj → ℕ) (L : Set ℕ) (f : ℕ) : Prop :=
  f ∈ L ∧ s.Managed f ∨ ∃ x ∈ slots E, NoObject g x ∧ nameOf (s.cellWord g x) = some f

theorem Usable.noObject (hva : Usable g va) : NoObject g (cellAt τ va) :=
  fun _ hk _ => hva.ne_page hk

theorem Layout.pageFrame_cell (h : Layout E s g) (hk : o ≠ .root .kernel) (ho : g o ≠ 0) :
    s.pageFrame (g o) = frameNumber (s.cellWord g (.page (g o))) := by
  have hp := (h.object o hk ho).heap
  rw [h.pageFrame_heap hp, cellWord_page hp.shared]

theorem Layout.nameOf_object (h : Layout E s g) (hk : o ≠ .root .kernel) (ho : g o ≠ 0) :
    nameOf (s.cellWord g (.page (g o))) = some (s.pageFrame (g o)) := by
  have hobj := h.object o hk ho
  rw [cellWord_page hobj.heap.shared, hobj.entry]
  exact nameOf_construct (by decide)

theorem root_ne_of_slot (hx : x ∈ slots E) (τ : Tree) (i : ℕ) : x ≠ .word (.root τ) i := by
  rintro rfl
  exact root_notMem_slots hx

namespace Core

theorem frame_managed (h : Core E s g L M) (hx : x ∈ slots E) (hn : nameOf (s.cellWord g x) = some f) :
    s.Managed f ∧ f ∉ L := h.pool.named x hx f hn

theorem client_managed (h : Core E s g L M) (hf : Client E s g L f) : s.Managed f := by
  rcases hf with hf | ⟨x, hx, -, hn⟩
  · exact hf.2
  · exact (h.frame_managed hx hn).1

theorem client_ne (h : Core E s g L M) (hf : Client E s g L f) (hk : o ≠ .root .kernel) (ho : g o ≠ 0) :
    s.pageFrame (g o) ≠ f := by
  rintro rfl
  rcases hf with hf | ⟨x, hx, hno, hn⟩
  · have hp := (h.object o hk ho).heap.shared
    exact (h.frame_managed (page_mem_slots.mpr hp) (h.nameOf_object hk ho)).2 hf.1
  · exact hno o hk ho (h.only o hk ho x hx hn)

theorem client_lt (h : Core E s g L M) (hf : Client E s g L f) : f < s.numberOfFrames :=
  h.managed_lt (h.client_managed hf)

theorem entry_lt (h : Core E s g L M) (hf : Client E s g L f) (hperm : perm < 4096) :
    constructEntry (toPhysicalAddress f) (perm ||| permPresent) < 2 ^ 32 :=
  constructEntry_lt ((h.client_lt hf).trans_le h.tables.frames)
    (Nat.or_lt_two_pow (n := 12) hperm (by decide))

theorem frame_lt (h : Core E s g L M) (hx : x ∈ slots E) (h0 : s.cellWord g x ≠ 0) :
    frameNumber (s.cellWord g x) < s.numberOfFrames :=
  h.managed_lt (h.frame_managed hx (nameOf_eq_some.mpr ⟨h0, rfl⟩)).1

theorem update (h : Core E s g L M) {L' : Set ℕ} (hst : SamePlaces s t)
    (hcell : t.cellWord g = Function.update (s.cellWord g) x w) (hno : NoObject g x)
    (hroot : ∀ τ i, x ≠ .word (.root τ) i)
    (hva : ∀ o, o ≠ .root .kernel → g o ≠ 0 →
      (t.framesInfo (s.pageFrame (g o))).va = (s.framesInfo (s.pageFrame (g o))).va)
    (hbuf : ∀ f, (t.framesInfo f).isBuffered = false)
    (hw : x ∈ slots E → w ≠ 0 → HasPerm w permPresent)
    (hM : ∀ p, x = .page p → HeapPage p → w ≠ 0 → p ∈ M)
    (honly : x ∈ slots E → ∀ o, o ≠ .root .kernel → g o ≠ 0 → nameOf w ≠ some (s.pageFrame (g o)))
    (hpool : Sound (2 ^ 16) (slots E) {f | t.Managed f} L' (t.pool g)) : Core E t g L' M := by
  have hlay := h.toLayout.of_update hst hcell (fun o hk ho => hno o hk ho) hroot hva
  refine ⟨hlay, hbuf, fun y hy => ?_, fun p hp => ?_, hpool, fun o hk ho y hy => ?_⟩
  · rw [hcell]
    by_cases hyx : y = x
    · subst hyx
      rw [Function.update_self]
      exact hw hy
    · rw [Function.update_of_ne hyx]
      exact h.present y hy
  · rw [hcell]
    by_cases hpx : Cell.page p = x
    · subst hpx
      rw [Function.update_self]
      exact hM p rfl hp
    · rw [Function.update_of_ne hpx]
      exact h.idle p hp
  · rw [hlay.pageFrame_cell hk ho, hcell, Function.update_of_ne (hno o hk ho).symm,
      ← h.pageFrame_cell hk ho]
    by_cases hyx : y = x
    · subst hyx
      rw [Function.update_self]
      exact fun hn => absurd hn (honly hy o hk ho)
    · rw [Function.update_of_ne hyx]
      exact h.only o hk ho y hy

theorem congr (h : Core E s g L M) (hst : SamePlaces s t) (hcell : t.cellWord g = s.cellWord g)
    (hinfo : t.framesInfo = s.framesInfo) (hfree : t.freeFrameList = s.freeFrameList) :
    Core E t g L M := by
  have hlay := h.toLayout.congr hst hcell fun o _ _ => by rw [hinfo]
  refine ⟨hlay, fun f => by rw [hinfo]; exact h.unbuffered f, fun y hy => by rw [hcell]; exact h.present y hy,
    fun p hp => by rw [hcell]; exact h.idle p hp, ?_, fun o hk ho y hy => ?_⟩
  · rw [hst.managed]
    exact h.pool.congr (fun y _ => by simp only [Machine.pool, hcell])
      (fun f _ => by simp only [Machine.pool, hinfo]) hfree
  · rw [hlay.pageFrame_cell hk ho, hcell, ← h.pageFrame_cell hk ho]
    exact h.only o hk ho y hy

private theorem name_update (hcell : t.cellWord g = Function.update (s.cellWord g) x w) (y : Cell) :
    (t.pool g).name y = Function.update (s.pool g).name x (nameOf w) y := by
  by_cases hyx : y = x
  · subst hyx
    simp only [Machine.pool, hcell, Function.update_self]
  · simp only [Machine.pool, hcell, Function.update_of_ne hyx]

theorem assign (h : Core E s g L M) (hst : SamePlaces s t) (hx : x ∈ slots E) (hno : NoObject g x)
    (h0 : s.cellWord g x = 0) (hf : Client E s g L f) (hw : nameOf w = some f)
    (hwp : HasPerm w permPresent) (hM : ∀ p, x = .page p → HeapPage p → p ∈ M)
    (hcell : t.cellWord g = Function.update (s.cellWord g) x w)
    (hinfo : t.framesInfo = (s.addReference f).framesInfo)
    (hfree : t.freeFrameList = s.freeFrameList) : Core E t g (L \ {f}) M := by
  have hne (o : Obj) (hk : o ≠ .root .kernel) (ho : g o ≠ 0) := h.client_ne hf hk ho
  refine h.update hst hcell hno (root_ne_of_slot hx) (fun o hk ho => ?_) (fun f' => ?_) (fun _ _ => hwp)
    (fun p hp hh _ => hM p hp hh) (fun _ o hk ho he => hne o hk ho ?_) ?_
  · rw [hinfo, addReference, setInfo_of_ne (hne o hk ho)]
  · rw [hinfo, addReference]
    by_cases hff : f' = f
    · rw [hff, setInfo_self]
      exact h.unbuffered f
    · rw [setInfo_of_ne hff]
      exact h.unbuffered f'
  · exact (Option.some.inj (hw.symm.trans he)).symm
  · rw [hst.managed]
    refine h.pool.assign hx (by simp [Machine.pool, h0]) (h.client_managed hf) ?_
      (fun y _ => by rw [name_update hcell, hw]) (fun f' _ => ?_) hfree
    · rcases hf with hf | ⟨y, hy, -, hn⟩
      · exact .inl hf.1
      · exact .inr (count_pos hy hn)
    · simp only [Machine.pool, hinfo, addReference]
      by_cases hff : f' = f
      · subst hff
        rw [setInfo_self, Function.update_self, addReferences_references]
      · rw [setInfo_of_ne hff, Function.update_of_ne hff]

theorem clear (h : Core E s g L M) (hst : SamePlaces s t) (hx : x ∈ slots E) (hno : NoObject g x)
    (hn : nameOf (s.cellWord g x) = some f) (hle : uses E s g f ≤ 2 ^ 16)
    (hcell : t.cellWord g = Function.update (s.cellWord g) x 0)
    (hinfo : t.framesInfo = (s.dropReference f).framesInfo)
    (hfree : t.freeFrameList = (s.dropReference f).freeFrameList) : Core E t g L M := by
  have hf : Client E s g L f := .inr ⟨x, hx, hno, hn⟩
  refine h.update hst hcell hno (root_ne_of_slot hx) (fun o hk ho => ?_) (fun f' => ?_)
    (fun _ h0 => absurd rfl h0) (fun _ _ _ h0 => absurd rfl h0) (by simp) ?_
  · rw [hinfo, dropReference_info_of_ne (h.client_ne hf hk ho)]
  · rw [hinfo]
    by_cases hff : f' = f
    · subst hff
      rw [dropReference]
      split
      · rw [setFree_framesInfo, setInfo_self]
        rfl
      · rw [setInfo_self, addReferences_isBuffered]
        exact h.unbuffered f'
    · rw [dropReference_info_of_ne hff]
      exact h.unbuffered f'
  · rw [hst.managed]
    refine h.pool.clear (by decide) hx hn hle (fun y _ => name_update hcell y) (fun hl => ?_) fun hl => ?_
    all_goals
      have hl' := hl
      simp only [Machine.pool, ← addReferences_references] at hl'
    · have hdrop : s.dropReference f = (s.setInfo f .initial).setFree (f :: s.freeFrameList) := by
        rw [dropReference, if_pos hl']
      refine ⟨fun f' _ => ?_, by simp only [Machine.pool, hfree, hdrop]; rfl⟩
      simp only [Machine.pool, hinfo, hdrop, setFree_framesInfo]
      by_cases hff : f' = f
      · subst hff
        rw [setInfo_self, Function.update_self]
        rfl
      · rw [setInfo_of_ne hff, Function.update_of_ne hff]
    · have hdrop : s.dropReference f = s.setInfo f ((s.framesInfo f).addReferences (2 ^ 16 - 1)) := by
        rw [dropReference, if_neg hl']
      refine ⟨fun f' _ => ?_, by simp only [Machine.pool, hfree, hdrop]; rfl⟩
      simp only [Machine.pool, hinfo, hdrop]
      by_cases hff : f' = f
      · subst hff
        rw [setInfo_self, Function.update_self, addReferences_references]
      · rw [setInfo_of_ne hff, Function.update_of_ne hff]

theorem retag (h : Core E s g L M) (hst : SamePlaces s t) (hno : NoObject g x)
    (hroot : ∀ τ i, x ≠ .word (.root τ) i)
    (hw : x ∈ slots E → nameOf w = nameOf (s.cellWord g x) ∧ (w ≠ 0 → HasPerm w permPresent))
    (hcell : t.cellWord g = Function.update (s.cellWord g) x w)
    (hinfo : t.framesInfo = s.framesInfo) (hfree : t.freeFrameList = s.freeFrameList) :
    Core E t g L M := by
  refine h.update hst hcell hno hroot (fun o _ _ => by rw [hinfo]) (fun f => by rw [hinfo]; exact h.unbuffered f)
    (fun hx => (hw hx).2) (fun p hp hh h0 => ?_) (fun hx o hk ho he => ?_) ?_
  · subst hp
    have hx : Cell.page p ∈ slots E := page_mem_slots.mpr hh.shared
    have hn := (hw hx).1
    apply h.idle p hh
    intro hz
    rw [hz, nameOf_zero, nameOf, if_neg h0] at hn
    cases hn
  · exact hno o hk ho (h.only o hk ho x hx ((hw hx).1.symm.trans he))
  · rw [hst.managed]
    refine h.pool.congr (fun y hy => ?_) (fun f _ => by simp only [Machine.pool, hinfo]) hfree
    rw [name_update hcell]
    by_cases hyx : y = x
    · subst hyx
      rw [Function.update_self, (hw hy).1]
      rfl
    · rw [Function.update_of_ne hyx]

end Core

end FosKernel.Machine
