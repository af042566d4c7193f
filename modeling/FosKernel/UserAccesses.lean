import FosKernel.ChunkAllocation

/-!
# Kernel accesses at user addresses

The kernel reads and writes user pages through the loaded directory. Each access marks the
entry of its page; the frame and the permissions of the entry stay.
-/

namespace FosKernel.Machine
open FailingPrograms PageEntries

variable {s t u : Machine} {E : Finset ℕ} {g : Obj → ℕ} {τ : Tree} {f m n va w w' : ℕ} {pg : Page} {b : UInt8}

def readByte (va : ℕ) : Kernel UInt8 := do
  let f ← frameAt permPresent va
  modify fun s => s.touch va permUsed
  return byteAt ((← get).ram f) va

def writeByte (va : ℕ) (b : UInt8) : Kernel Unit := do
  let f ← frameAt (permPresent ||| permWriteable) va
  modify fun s => (s.setFrame f (setByte (s.ram f) va b)).touch va (permUsed ||| permModified)

/-- The second entry is the first with marks of accesses. -/
def Marked (w w' : ℕ) : Prop := ∃ m, m < 4096 ∧ m &&& 7 = 0 ∧ w' = setPerm w m

namespace Marked

theorem refl (w : ℕ) : Marked w w := ⟨0, by decide, by decide, (Nat.or_zero w).symm⟩

theorem setPerm (h : Marked w w') (hm : m < 4096) (h0 : m &&& 7 = 0) : Marked w (setPerm w' m) := by
  obtain ⟨m', hm', h0', rfl⟩ := h
  refine ⟨m' ||| m, Nat.or_lt_two_pow (n := 12) hm' hm, ?_, Nat.or_assoc ..⟩
  rw [Nat.and_or_distrib_right, h0, h0', Nat.or_zero]

theorem frameNumber_eq (h : Marked w w') : frameNumber w' = frameNumber w := by
  obtain ⟨m, hm, -, rfl⟩ := h
  exact frameNumber_setPerm hm

theorem testBit_eq (h : Marked w w') {k : ℕ} (hk : k < 3) : w'.testBit k = w.testBit k := by
  obtain ⟨m, -, h0, rfl⟩ := h
  have hbit := congrArg (Nat.testBit · k) h0
  simp only [Nat.testBit_and, Nat.zero_testBit] at hbit
  have h7 : (7 : ℕ).testBit k = true := by
    obtain rfl | rfl | rfl : k = 0 ∨ k = 1 ∨ k = 2 := by omega
    all_goals rfl
  rw [h7, Bool.and_true] at hbit
  rw [testBit_setPerm, hbit, Bool.or_false]

theorem present (h : Marked w w') : HasPerm w' permPresent ↔ HasPerm w permPresent := by
  rw [hasPerm_present, hasPerm_present, h.testBit_eq (by decide)]

theorem writeable (h : Marked w w') : HasPerm w' permWriteable ↔ HasPerm w permWriteable := by
  rw [hasPerm_writeable, hasPerm_writeable, h.testBit_eq (by decide)]

theorem user (h : Marked w w') : HasPerm w' permUser ↔ HasPerm w permUser := by
  rw [hasPerm_user, hasPerm_user, h.testBit_eq (by decide)]

end Marked

/-- The frame that an entry for a user page names. -/
noncomputable def backing (s : Machine) (g : Obj → ℕ) (τ : Tree) (va : ℕ) : ℕ :=
  frameNumber (s.entries g (τ, pageNumber va))

/-- Only marks in the entries of `τ` and frames of user pages changed. -/
structure MarksOnly (E : Finset ℕ) (s : Machine) (g : Obj → ℕ) (τ : Tree) (t : Machine) : Prop where
  layout : Layout E t g
  globals : SameGlobals s t
  info : t.framesInfo = s.framesInfo
  free : t.freeFrameList = s.freeFrameList
  other : ∀ x, (∀ j i, x ≠ .word (.leaf τ i) j) → t.cellWord g x = s.cellWord g x
  entry : ∀ p, Marked (s.entries g (τ, p)) (t.entries g (τ, p))

namespace MarksOnly

theorem refl (h : Layout E s g) : MarksOnly E s g τ s :=
  ⟨h, .refl s, rfl, rfl, fun _ _ => rfl, fun _ => .refl _⟩

theorem kernelPte (h : MarksOnly E s g τ t) {p : ℕ} (hp : HeapPage p) : t.kernelPte p = s.kernelPte p := by
  rw [← cellWord_page hp.shared g, h.other _ (by simp), cellWord_page hp.shared]

theorem ordinary (h : MarksOnly E s g τ t) (hf : Ordinary s f) : Ordinary t f :=
  hf.congr h.globals.places.toSameBoot fun _ hp => h.kernelPte hp

theorem loaded (h : MarksOnly E s g τ t) (hs : Layout E s g) (ho : g (.root τ) ≠ 0)
    (hcr : frameNumber s.cr3 = s.pageFrame (g (.root τ))) : frameNumber t.cr3 = t.pageFrame (g (.root τ)) := by
  rw [hs.pageFrame_eq h.layout h.globals.places.toSameBoot ho rfl (h.other _ (by simp)), h.globals.cr3, hcr]

theorem backing_eq (h : MarksOnly E s g τ t) (va : ℕ) : t.backing g τ va = s.backing g τ va :=
  (h.entry _).frameNumber_eq

theorem trans (h : MarksOnly E s g τ t) (h' : MarksOnly E t g τ u) : MarksOnly E s g τ u where
  layout := h'.layout
  globals := h.globals.trans h'.globals
  info := h'.info.trans h.info
  free := h'.free.trans h.free
  other x hx := (h'.other x hx).trans (h.other x hx)
  entry p := by
    obtain ⟨m, hm, h0, he⟩ := h'.entry p
    rw [he]
    exact (h.entry p).setPerm hm h0

end MarksOnly

theorem Layout.storeFrame (h : Layout E s g) (hf : Ordinary s f) (pg : Page) : MarksOnly E s g τ (s.setFrame f pg) := by
  have hst : SameGlobals s (s.setFrame f pg) := by constructor <;> rfl
  have hcell : (s.setFrame f pg).cellWord g = s.cellWord g :=
    h.cellWord_setData hf.managed (fun o _ ho => h.ordinary_ne hf ho) hst.places.toSameBoot rfl
  refine ⟨h.congr hst.places hcell fun _ _ _ => rfl, hst, rfl, rfl, fun x _ => congrFun hcell x, fun p => ?_⟩
  have he : (s.setFrame f pg).entries g = s.entries g := entries_congr fun _ _ _ => congrFun hcell _
  rw [he]
  exact .refl _

/-- A user address, in the directory that is loaded. -/
structure Reaches (E : Finset ℕ) (s : Machine) (g : Obj → ℕ) (τ : Tree) (va : ℕ) : Prop where
  layout : Layout E s g
  tree : τ ∈ mmuTrees E
  root : g (.root τ) ≠ 0
  loaded : frameNumber s.cr3 = s.pageFrame (g (.root τ))
  user : va < userTop

namespace Reaches

variable (h : Reaches E s g τ va)
include h

theorem marked (ht : MarksOnly E s g τ t) : Reaches E t g τ va :=
  ⟨ht.layout, h.tree, h.root, ht.loaded h.layout h.root h.loaded, h.user⟩

theorem translate {need : ℕ} (hneed : HasPerm (permPresent ||| permUser ||| permWriteable) need) (hpos : need ≠ 0) :
    s.translate need va = if HasPerm (s.entries g (τ, pageNumber va)) need then some (s.backing g τ va) else none := by
  have hperm := mmuTrees_perm h.tree
  rw [h.layout.translate_user h.root h.loaded h.user (hperm ▸ hneed) hpos, backing, entries_apply h.user]

theorem translate_ne_none {need : ℕ} (hneed : HasPerm (permPresent ||| permUser ||| permWriteable) need) (hpos : need ≠ 0) :
    s.translate need va ≠ none ↔ HasPerm (s.entries g (τ, pageNumber va)) need := by
  rw [h.translate hneed hpos]
  split
  · exact iff_of_true (Option.some_ne_none _) ‹_›
  · exact iff_of_false (fun hc => hc rfl) ‹_›

theorem touch_eq (hl : g (.leaf τ (pdx va)) ≠ 0) (marks : ℕ) : s.touch va marks =
    s.setEntry (s.entryFrame g τ va) (ptx va) (setPerm (s.entries g (τ, pageNumber va)) marks) := by
  have hpde : frameNumber (s.pde va) = s.entryFrame g τ va := by
    have hw := h.layout.pde τ _ (pdx_lt_userTop h.user) h.root
    rw [if_neg hl, cellWord_word h.root (pdx_lt va)] at hw
    rw [Machine.pde, h.loaded, hw, toPhysicalAddress, pageSize, frameNumber_constructEntry τ.perm_lt, entryFrame]
  have hpte : s.pte va = s.entries g (τ, pageNumber va) := by
    rw [pte, hpde, h.layout.word_entry h.user hl]
  rw [Machine.touch, if_pos h.user]
  simp only [hpde, hpte]
  rfl

theorem touch (hl : g (.leaf τ (pdx va)) ≠ 0) (hm : m < 4096) (h0 : m &&& 7 = 0) :
    MarksOnly E s g τ (s.touch va m) ∧ ∀ f, Ordinary s f → (s.touch va m).ram f = s.ram f := by
  rw [h.touch_eq hl]
  have hw : setPerm (s.entries g (τ, pageNumber va)) m < 2 ^ 32 := setPerm_lt (entries_lt ..) hm
  have hst := SameGlobals.refl s
  have hcell := h.layout.setEntry_cells hst.places rfl h.user hl hw
  refine ⟨⟨h.layout.setEntry hst.places rfl (fun _ _ _ => rfl) h.user hl hw, sameGlobals_setEntry .., rfl, rfl,
    fun x hx => ?_, fun p => ?_⟩, fun f hf => setFrame_ram_of_ne (h.layout.ordinary_ne hf hl).symm⟩
  · rw [hcell, cellAt_user h.user, Function.update_of_ne (hx _ _)]
  · rw [entries_update h.user hcell]
    by_cases hp : p = pageNumber va
    · rw [hp, Function.update_self]
      exact (Marked.refl _).setPerm hm h0
    · rw [Function.update_of_ne (by simpa using hp)]
      exact .refl _

theorem table (hp : HasPerm (s.entries g (τ, pageNumber va)) permPresent) : g (.leaf τ (pdx va)) ≠ 0 :=
  table_of_entry h.user (ne_zero_of_hasPerm_present hp)

theorem readByte_run (hp : HasPerm (s.entries g (τ, pageNumber va)) permPresent) (hf : Ordinary s (s.backing g τ va)) :
    ∃ t, (readByte va).run s = .ok (byteAt (s.ram (s.backing g τ va)) va, t) ∧ MarksOnly E s g τ t ∧
      ∀ f, Ordinary s f → t.ram f = s.ram f := by
  obtain ⟨ht, hram⟩ := h.touch (h.table hp) (m := permUsed) (by decide) (by decide)
  refine ⟨_, ?_, ht, hram⟩
  have htr : s.translate permPresent va = some (s.backing g τ va) := by
    rw [h.translate (by decide) (by decide), if_pos hp]
  rw [readByte, run_bind_ok (frameAt_run htr), run_bind_ok (run_modify _), run_bind_ok run_get, run_pure, hram _ hf]

theorem writeByte_run (hp : HasPerm (s.entries g (τ, pageNumber va)) (permPresent ||| permWriteable))
    (hf : Ordinary s (s.backing g τ va)) :
    ∃ t, (writeByte va b).run s = .ok ((), t) ∧ MarksOnly E s g τ t ∧ ∀ f, Ordinary s f →
      t.ram f = if f = s.backing g τ va then setByte (s.ram f) va b else s.ram f := by
  have hst : MarksOnly E s g τ (s.setFrame (s.backing g τ va) (setByte (s.ram (s.backing g τ va)) va b)) :=
    h.layout.storeFrame hf _
  obtain ⟨ht, hram⟩ := (h.marked hst).touch (h.table (hasPerm_or.mp hp).1)
    (m := permUsed ||| permModified) (by decide) (by decide)
  refine ⟨_, ?_, hst.trans ht, fun f hf' => ?_⟩
  · have htr : s.translate (permPresent ||| permWriteable) va = some (s.backing g τ va) := by
      rw [h.translate (by decide) (by decide), if_pos hp]
    rw [writeByte, run_bind_ok (frameAt_run htr)]
    rfl
  · rw [hram f (hst.ordinary hf')]
    split
    · rename_i he
      rw [he, setFrame_ram_self]
    · exact setFrame_ram_of_ne ‹_›

theorem writeByte_error (hp : ¬HasPerm (s.entries g (τ, pageNumber va)) (permPresent ||| permWriteable)) :
    (writeByte va b).run s = .error (.pageFault va) := by
  have htr : s.translate (permPresent ||| permWriteable) va = none := by
    rw [h.translate (by decide) (by decide), if_neg hp]
  have herr : (frameAt (permPresent ||| permWriteable) va).run s = .error (.pageFault va) := by
    rw [frameAt, run_bind_ok run_get, htr]
    rfl
  rw [writeByte, run_bind_error herr]

end Reaches

end FosKernel.Machine
