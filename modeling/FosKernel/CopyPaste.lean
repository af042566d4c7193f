import FosKernel.CutPaste
import FosKernel.UserAccesses

/-!
# Copying and pasting a range of bytes

`copy_paste_chunk` looks at the pages of `dest_va`, `dest_va + PAGE_SIZE`, …, maps those that
are not mapped, and then copies byte by byte. The range may end in one page more.
-/

namespace FosKernel.Machine
open FailingPrograms PageEntries

/-- Whether a test answers yes in `for (i = va; i < stop; i += PAGE_SIZE)`. -/
def anyPages (test : ℕ → Kernel Bool) (stop : ℕ) : ℕ → ℕ → Kernel Bool
  | 0, i => if i < stop then throw .nesting else pure false
  | n + 1, i =>
    if i < stop then do
      if ← test i then return true
      anyPages test stop n (u32 (i + pageSize))
    else pure false

/-- The test of the first loop of `copy_paste_chunk`. -/
def isReadOnly (dir va : ℕ) : Kernel Bool := do
  let (info, pt) ← getFrameInfo dir va
  match info with
  | some _ => return !decide (HasPerm (← readEntry pt (ptx va)) permWriteable)
  | none => return false

/-- One round of the second loop, at the address `i`. -/
def copyPastePage (dir sourcePtr i : ℕ) : Kernel Unit := do
  match ← getPageTable dir i with
  | some _ => pure ()
  | none => let _ ← createPageTable dir i
  let (info, _) ← getFrameInfo dir i
  let pt := (← getPageTable dir sourcePtr).getD 0
  let sourcePerm := (← readEntry pt (ptx sourcePtr)) &&& permUser
  match info with
  | none =>
    let f ← allocateFrame
    let pt := (← getPageTable dir sourcePtr).getD 0
    let sourcePerm := (← readEntry pt (ptx sourcePtr)) &&& permUser
    let _ ← mapFrame createPageTable dir f i (sourcePerm ||| permWriteable)
  | some _ => ptSetPagePermissions dir i sourcePerm 0

def copyByte (source i : ℕ) : Kernel Unit := do
  let b ← readByte source
  writeByte i b

def copyPasteChunk (dir source dest size : ℕ) : Kernel ℤ := do
  let stop := u32 (dest + size)
  if ← anyPages (isReadOnly dir) stop (2 ^ 20) dest then return -1
  forPages (fun i k => copyPastePage dir (u32 (source + pageSize * k)) i) stop (2 ^ 20) dest 0
  forRange (fun k => copyByte (u32 (source + k)) (u32 (dest + k))) 0 (stop - dest)
  return 0

variable {s t u : Machine} {E : Finset ℕ} {g g' : Obj → ℕ} {τ : Tree} {e : Tree × ℕ → ℕ}
  {f i j k m n source dest size stop va w ws : ℕ} {fs : List ℕ}

theorem anyPages_eq {test : ℕ → Kernel Bool} (hstop : stop + pageSize ≤ 2 ^ 32) {fuel : ℕ}
    (hfuel : pagesBetween va stop ≤ k + fuel) (hk : k ≤ pagesBetween va stop) :
    anyPages test stop fuel (va + pageSize * k) =
      anyRange (fun i => test (va + pageSize * i)) k (pagesBetween va stop - k) := by
  have hlt : va + pageSize * k < stop ↔ k < pagesBetween va stop := by
    simp only [pagesBetween, pageSize]
    omega
  induction fuel generalizing k with
  | zero =>
    rw [anyPages, if_neg (by rw [hlt]; omega), show pagesBetween va stop - k = 0 by omega]
    rfl
  | succ fuel ih =>
    rw [anyPages]
    by_cases hkn : k < pagesBetween va stop
    · have hnext : u32 (va + pageSize * k + pageSize) = va + pageSize * (k + 1) := by
        have := hlt.mpr hkn
        rw [u32_of_lt (by omega), Nat.mul_succ, Nat.add_assoc]
      rw [if_pos (hlt.mpr hkn), hnext, ih (by omega) hkn (by simp only [pagesBetween, pageSize] at *; omega),
        show pagesBetween va stop - k = pagesBetween va stop - (k + 1) + 1 by omega, anyRange]
    · rw [if_neg (by rw [hlt]; exact hkn), show pagesBetween va stop - k = 0 by omega]
      rfl

def ReadOnly (w : ℕ) : Prop := w ≠ 0 ∧ ¬HasPerm w permWriteable

instance (w : ℕ) : Decidable (ReadOnly w) := inferInstanceAs (Decidable (_ ∧ _))

theorem Layout.isReadOnly_run (h : Layout E s g) (ho : g (.root τ) ≠ 0) (hva : va < userTop)
    (hlt : s.entries g (τ, pageNumber va) ≠ 0 → frameNumber (s.entries g (τ, pageNumber va)) < s.numberOfFrames) :
    (isReadOnly (g (.root τ)) va).run s = .ok (decide (ReadOnly (s.entries g (τ, pageNumber va))), s) := by
  rw [isReadOnly]
  by_cases hl : g (.leaf τ (pdx va)) = 0
  · rw [run_bind_ok (h.getFrameInfo_absent ho hva hl), entries_absent hva hl]
    rfl
  · have htab := h.hasTable hva hl
    rw [← h.word_entry hva hl] at hlt ⊢
    by_cases h0 : wordAt (s.ram (s.entryFrame g τ va)) (ptx va) = 0
    · rw [run_bind_ok (htab.getFrameInfo_zero h0), h0]
      rfl
    · rw [run_bind_ok (htab.getFrameInfo_some h0 (hlt h0))]
      simp only
      rw [run_bind_ok (readEntry_run htab.read), run_pure]
      congr 3
      simp only [ReadOnly, ne_eq, h0, not_false_eq_true, true_and, decide_not]

/-- Bytes of the two ranges lie at different places, as do different bytes of the second. -/
structure SeparateBytes (s : Machine) (g : Obj → ℕ) (τ : Tree) (source dest n : ℕ) : Prop where
  source : ∀ i < n, ∀ j < n, s.backing g τ (source + i) = s.backing g τ (dest + j) →
    (source + i) % pageSize ≠ (dest + j) % pageSize
  dest : ∀ i < n, ∀ j < n, i ≠ j → s.backing g τ (dest + i) = s.backing g τ (dest + j) →
    (dest + i) % pageSize ≠ (dest + j) % pageSize

/-- The state after `k` of `n` bytes were copied. -/
structure CopiedBytes (E : Finset ℕ) (s : Machine) (g : Obj → ℕ) (τ : Tree) (source dest n k : ℕ) (t : Machine) :
    Prop where
  marks : MarksOnly E s g τ t
  written : ∀ j < k, HasPerm (s.entries g (τ, pageNumber (dest + j))) (permPresent ||| permWriteable)
  kept : ∀ f, Ordinary s f → ∀ o, (∀ j < k, s.backing g τ (dest + j) = f → (dest + j) % pageSize ≠ o % pageSize) →
    byteAt (t.ram f) o = byteAt (s.ram f) o
  copied : SeparateBytes s g τ source dest n → ∀ j < k, byteAt (t.ram (s.backing g τ (dest + j))) (dest + j) =
    byteAt (s.ram (s.backing g τ (source + j))) (source + j)

/-- What the third loop relies on: source pages are present, and the pages of both ranges lie in ordinary frames. -/
structure CanRead (E : Finset ℕ) (s : Machine) (g : Obj → ℕ) (τ : Tree) (source dest n : ℕ) : Prop where
  layout : Layout E s g
  tree : τ ∈ mmuTrees E
  root : g (.root τ) ≠ 0
  loaded : frameNumber s.cr3 = s.pageFrame (g (.root τ))
  source_le : source + n ≤ userTop
  dest_le : dest + n ≤ userTop
  present : ∀ i < n, HasPerm (s.entries g (τ, pageNumber (source + i))) permPresent
  source : ∀ i < n, Ordinary s (s.backing g τ (source + i))
  dest : ∀ i < n, s.entries g (τ, pageNumber (dest + i)) ≠ 0 → Ordinary s (s.backing g τ (dest + i))

/-- A write at a byte of the range whose page is not mapped writable. -/
def Faults (s : Machine) (g : Obj → ℕ) (τ : Tree) (dest n : ℕ) (e : Panic) : Prop :=
  ∃ j < n, e = .pageFault (dest + j) ∧
    ¬HasPerm (s.entries g (τ, pageNumber (dest + j))) (permPresent ||| permWriteable)

namespace CanRead

variable (h : CanRead E s g τ source dest n)
include h

theorem reaches (hva : va < userTop) : Reaches E s g τ va := ⟨h.layout, h.tree, h.root, h.loaded, hva⟩

theorem copyByte_sat (hk : k < n) (ht : CopiedBytes E s g τ source dest n k t) :
    Sat (Faults s g τ dest n) (copyByte (source + k) (dest + k)) t fun _ u => CopiedBytes E s g τ source dest n (k + 1) u := by
  have hsource : source + k < userTop := by
    have := h.source_le
    omega
  have hdest : dest + k < userTop := by
    have := h.dest_le
    omega
  have hread := (h.reaches hsource).marked ht.marks
  have hps := h.present k hk
  have hfs := h.source k hk
  obtain ⟨u, hrun, hu, huram⟩ := hread.readByte_run ((ht.marks.entry _).present.mpr hps)
    (ht.marks.backing_eq _ ▸ ht.marks.ordinary hfs)
  rw [ht.marks.backing_eq] at hrun
  rw [copyByte]
  refine .bind_ok hrun ?_
  have hmu := ht.marks.trans hu
  have hwrite := (h.reaches hdest).marked hmu
  have hiff : HasPerm (u.entries g (τ, pageNumber (dest + k))) (permPresent ||| permWriteable) ↔
      HasPerm (s.entries g (τ, pageNumber (dest + k))) (permPresent ||| permWriteable) := by
    rw [hasPerm_or, hasPerm_or, (hmu.entry _).present, (hmu.entry _).writeable]
  by_cases hpd : HasPerm (s.entries g (τ, pageNumber (dest + k))) (permPresent ||| permWriteable)
  · have hfd := h.dest k hk (ne_zero_of_hasPerm_present (hasPerm_or.mp hpd).1)
    obtain ⟨v, hrun', hv, hvram⟩ := hwrite.writeByte_run
      (b := byteAt (t.ram (s.backing g τ (source + k))) (source + k)) (hiff.mpr hpd)
      (hmu.backing_eq _ ▸ hmu.ordinary hfd)
    have hram (f : ℕ) (hf : Ordinary s f) : v.ram f = if f = s.backing g τ (dest + k) then
        setByte (t.ram f) (dest + k) (byteAt (t.ram (s.backing g τ (source + k))) (source + k)) else t.ram f := by
      rw [hvram f (hmu.ordinary hf), hmu.backing_eq, huram f (ht.marks.ordinary hf)]
    have hold (f : ℕ) (hf : Ordinary s f) (o : ℕ)
        (hne : s.backing g τ (dest + k) = f → (dest + k) % pageSize ≠ o % pageSize) :
        byteAt (v.ram f) o = byteAt (t.ram f) o := by
      rw [hram f hf]
      split
      · rename_i he
        exact byteAt_setByte_of_ne (hne he.symm).symm
      · rfl
    refine .of_ok hrun' ⟨hmu.trans hv, fun j hj => ?_, fun f hf o ho => ?_, fun hap j hj => ?_⟩
    · rcases Nat.lt_succ_iff_lt_or_eq.mp hj with hj | rfl
      · exact ht.written j hj
      · exact hpd
    · rw [hold f hf o (ho k (Nat.lt_succ_self k)), ht.kept f hf o fun j hj => ho j (by omega)]
    · rcases Nat.lt_succ_iff_lt_or_eq.mp hj with hjk | rfl
      · have hfj := h.dest j (by omega) (ne_zero_of_hasPerm_present (hasPerm_or.mp (ht.written j hjk)).1)
        rw [hold _ hfj _ fun he => hap.dest k hk j (by omega) (by omega) he, ht.copied hap j hjk]
      · rw [hram _ hfd, if_pos rfl, byteAt_setByte]
        exact ht.kept _ hfs _ fun i hi he hmod => hap.source j hk i (by omega) he.symm hmod.symm
  · exact .of_error (hwrite.writeByte_error fun hp => hpd (hiff.mp hp)) ⟨k, hk, rfl, hpd⟩

theorem copyBytes_sat : Sat (Faults s g τ dest n)
    (forRange (fun k => copyByte (u32 (source + k)) (u32 (dest + k))) 0 n) s fun _ t =>
      CopiedBytes E s g τ source dest n n t := by
  have htop := userTop_lt
  have hs := h.source_le
  have hd := h.dest_le
  have hloop := Sat.forRange (s := s) (i := 0) (n := n) (fun k t => CopiedBytes E s g τ source dest n k t)
    ⟨.refl h.layout, fun j hj => absurd hj (Nat.not_lt_zero j), fun _ _ _ _ => rfl,
      fun _ j hj => absurd hj (Nat.not_lt_zero j)⟩
    fun k t _ hk ht => show Sat _ (copyByte (u32 (source + k)) (u32 (dest + k))) t _ by
      rw [u32_of_lt (by omega), u32_of_lt (by omega)]
      exact h.copyByte_sat (by omega) ht
  rwa [Nat.zero_add] at hloop

end CanRead

theorem HasTable.ptSetPagePermissions_set {dir pt set : ℕ} (h : HasTable s dir va pt f) :
    (ptSetPagePermissions dir va set 0).run s =
      .ok ((), if set = 0 then s else s.setEntry f (ptx va) (setPerm (wordAt (s.ram f) (ptx va)) set)) := by
  rw [ptSetPagePermissions, run_bind_ok h.get]
  simp only [Option.getD_some, if_pos h.ne]
  by_cases h0 : set = 0
  · rw [if_neg fun hc => hc.1 h0, if_neg fun hc => hc.1 rfl, if_neg fun hc => hc.1 rfl, if_pos h0]
    rfl
  · rw [if_pos ⟨h0, trivial⟩, run_bind_ok (readEntry_run h.read), writeEntry_run h.write, if_neg h0]

/-- The entry that a round leaves, with `f` as the frame of a page that was not mapped. -/
def pastedEntry (w set f : ℕ) : ℕ := if w = 0 then newEntry f (set ||| permWriteable) else setPerm w set

/-- A frame is taken for a page that is not mapped; otherwise its entry may get `PERM_USER`. -/
theorem Stocked.pasteEntry_sat (h : Stocked E s g) (hs : source < userTop) (hva : va < userTop)
    (hl : g (.leaf τ (pdx va)) ≠ 0) (hws : s.entries g (τ, pageNumber source) = ws) (h0 : ws ≠ 0)
    (hw : s.entries g (τ, pageNumber va) = w) (hlt : w ≠ 0 → frameNumber w < s.numberOfFrames) :
    Sat (fun e => e = .noFreeFrame ∧ w = 0 ∧ s.freeFrameList = []) (do
        let (info, _) ← getFrameInfo (g (.root τ)) va
        let pt := (← getPageTable (g (.root τ)) source).getD 0
        let sourcePerm := (← readEntry pt (ptx source)) &&& permUser
        match info with
        | none =>
          let f ← allocateFrame
          let pt := (← getPageTable (g (.root τ)) source).getD 0
          let sourcePerm := (← readEntry pt (ptx source)) &&& permUser
          let _ ← mapFrame createPageTable (g (.root τ)) f va (sourcePerm ||| permWriteable)
        | some _ => ptSetPagePermissions (g (.root τ)) va sourcePerm 0 : Kernel Unit) s fun _ t =>
      ∃ f, Stocked E t g ∧ AddsTables τ ∅ (if w = 0 then 1 else 0) s g t g ∧
        t.entries g = Function.update (s.entries g) (τ, pageNumber va) (pastedEntry w (ws &&& permUser) f) ∧
        (w = 0 → f ∈ s.freeFrameList ∧ InUse t f) := by
  have hls : g (.leaf τ (pdx source)) ≠ 0 := table_of_entry hs (hws ▸ h0)
  have htab := h.hasTable hva hl
  have hsrc := h.hasTable hs hls
  have hword : wordAt (s.ram (s.entryFrame g τ va)) (ptx va) = w := (h.word_entry hva hl).trans hw
  have hsword : wordAt (s.ram (s.entryFrame g τ source)) (ptx source) = ws := (h.word_entry hs hls).trans hws
  have hset : ws &&& permUser < 4096 := (Nat.and_le_right).trans_lt (by decide)
  by_cases hz : w = 0
  · refine .bind_ok (htab.getFrameInfo_zero (hword.trans hz)) (.bind_ok hsrc.get (.bind_ok (readEntry_run hsrc.read) ?_))
    rcases hfree : s.freeFrameList with - | ⟨f, fs⟩
    · exact .of_error (run_bind_error (allocateFrame_nil hfree)) ⟨rfl, hz, rfl⟩
    have hf := (h.free f (by simp [hfree])).1
    have htake := h.toReady.take hfree
    have htaken := h.toReady.same htake rfl
    have hsrc' := htaken.hasTable hs hls
    have hword' : wordAt ((s.taken f fs).ram ((s.taken f fs).entryFrame g τ source)) (ptx source) = ws := hsword
    have hnp : ¬HasPerm (wordAt ((s.taken f fs).ram ((s.taken f fs).entryFrame g τ va)) (ptx va)) permPresent := by
      show ¬HasPerm (wordAt (s.ram (s.entryFrame g τ va)) (ptx va)) permPresent
      rw [hword, hz]
      decide
    have hperm : ws &&& permUser ||| permWriteable < 4096 := Nat.or_lt_two_pow (n := 12) hset (by decide)
    have hstep := htake.addReference hf.not_heap
    obtain ⟨ht, hentries⟩ := h.set hstep rfl hva hl (h.newEntry_lt (h.ordinary_lt hf) hperm)
    have hcells := h.setEntry_cells hstep.places rfl hva hl (h.newEntry_lt (h.ordinary_lt hf) hperm)
    have hplaces := (hstep.setEntry (s.entryFrame g τ va) (ptx va)
      (newEntry f (ws &&& permUser ||| permWriteable))).places
    have hord (f' : ℕ) (hf' : Ordinary s f') := hf'.congr hplaces.toSameBoot fun p hp => kernelPte_of_user hva hcells hp
    refine .bind_ok (h.toReady.allocateFrame_run hfree) (.bind_ok hsrc'.get (.bind_ok (readEntry_run hsrc'.read) ?_))
    simp only [hword']
    refine .bind_ok ((htaken.hasTable hva hl).mapFrame_unmapped hnp) (.pure ⟨f, ht, ?_, ?_, fun _ => ⟨by simp, hord f hf, ?_⟩⟩)
    · rw [if_pos hz]
      refine .of_step (by constructor <;> rfl) (fun x hx => ?_) (fun f' hf' => ?_)
        (fun f' hf' => ⟨hord f' hf'.toOrdinary, ?_⟩) (by simp [hfree]) (by rw [hfree]; rfl)
      · refine (congrFun hcells x).trans (Function.update_of_ne ?_ ..)
        rw [cellAt_user hva]
        exact hx _ _ _
      · have hne : f' ≠ f := fun he => hf' (by simp [hfree, he])
        exact (setInfo_of_ne hne).trans (taken_info_of_ne hne)
      · exact setFrame_ram_of_ne (h.ordinary_ne hf'.toOrdinary hl).symm
    · rw [pastedEntry, if_pos hz]
      exact hentries
    · exact (List.nodup_cons.mp (hfree ▸ h.nodup)).1
  · have hsome := htab.getFrameInfo_some (hword.symm ▸ hz) (hword.symm ▸ hlt hz)
    refine .bind_ok hsome (.bind_ok hsrc.get (.bind_ok (readEntry_run hsrc.read) ?_))
    simp only [hsword]
    have hwlt : w < 2 ^ 32 := hw ▸ entries_lt ..
    obtain ⟨ht, hgrows, hentries⟩ := h.store hva hl (setPerm_lt hwlt hset)
    refine .of_ok htab.ptSetPagePermissions_set ⟨0, ?_⟩
    rw [hword, if_neg hz, pastedEntry, if_neg hz]
    by_cases hu : ws &&& permUser = 0
    · rw [if_pos hu, hu]
      refine ⟨h, .refl (by simp) s, ?_, fun hc => absurd hc hz⟩
      rw [← hw, setPerm, Nat.or_zero, Function.update_eq_self]
    · rw [if_neg hu]
      exact ⟨ht, hgrows, hentries, fun hc => absurd hc hz⟩

/-- The number of pages without a frame among `k` pages from page `n` on. -/
def newPages (e : Tree × ℕ → ℕ) (τ : Tree) (n k : ℕ) : ℕ := ((Finset.range k).filter fun j => e (τ, n + j) = 0).card

theorem newPages_succ : newPages e τ n (k + 1) = newPages e τ n k + if e (τ, n + k) = 0 then 1 else 0 := by
  rw [newPages, Finset.range_add_one, Finset.filter_insert]
  split
  · rw [Finset.card_insert_of_notMem (by simp), newPages]
  · rw [newPages, Nat.add_zero]

theorem newPages_mono (h : k ≤ m) : newPages e τ n k ≤ newPages e τ n m :=
  Finset.card_le_card (Finset.filter_subset_filter _ (Finset.range_mono h))

/-- What a call relies on: both ranges are user addresses of the loaded directory, the source pages
are mapped, and the entries of the two ranges name frames in use. -/
structure CanCopy (E : Finset ℕ) (s : Machine) (g : Obj → ℕ) (τ : Tree) (source dest size : ℕ) : Prop where
  stocked : Stocked E s g
  tree : τ ∈ mmuTrees E
  root : g (.root τ) ≠ 0
  loaded : frameNumber s.cr3 = s.pageFrame (g (.root τ))
  pos : 0 < size
  source_le : source + size ≤ userTop
  dest_le : dest + size ≤ userTop
  mapped : ∀ i < size, HasPerm (s.entries g (τ, pageNumber (source + i))) permPresent
  source : ∀ i < size, InUse s (frameNumber (s.entries g (τ, pageNumber (source + i))))
  dest : ∀ i < size, s.entries g (τ, pageNumber (dest + i)) ≠ 0 →
    InUse s (frameNumber (s.entries g (τ, pageNumber (dest + i))))

/-- `PERM_USER` or nothing, and no less than the entry `ws` has of it. -/
structure UserPart (ws set : ℕ) : Prop where
  eq : set = 0 ∨ set = permUser
  le : HasPerm ws permUser → set = permUser

/-- The entry after a round, whose frame `f` was free in `s` if the page was not mapped. -/
def PastedEntry (s t : Machine) (w ws w' : ℕ) : Prop :=
  ∃ set f, UserPart ws set ∧ w' = pastedEntry w set f ∧ (w = 0 → f ∈ s.freeFrameList ∧ InUse t f)

/-- The state after `k` rounds of the second loop. -/
structure PastedPages (E : Finset ℕ) (s : Machine) (g : Obj → ℕ) (τ : Tree) (source dest k : ℕ) (t : Machine)
    (g' : Obj → ℕ) : Prop where
  stocked : Stocked E t g'
  grows : AddsTables τ (tablesOf dest k) (newPages (s.entries g) τ (pageNumber dest) k) s g t g'
  pasted : ∀ j < k, PastedEntry s t (s.entries g (τ, pageNumber dest + j)) (s.entries g (τ, pageNumber source + j))
    (t.entries g' (τ, pageNumber dest + j))
  distinct : ∀ i < k, ∀ j < k, i ≠ j → s.entries g (τ, pageNumber dest + i) = 0 →
    s.entries g (τ, pageNumber dest + j) = 0 →
      frameNumber (t.entries g' (τ, pageNumber dest + i)) ≠ frameNumber (t.entries g' (τ, pageNumber dest + j))
  other : ∀ x, (∀ j < k, x ≠ (τ, pageNumber dest + j)) → t.entries g' x = s.entries g x

/-- The addresses at which the page loops stop. -/
def steppedPages (dest size : ℕ) : ℕ := pagesBetween dest (dest + size)

theorem userPart_and (ws : ℕ) {w : ℕ} (h : HasPerm ws permUser → HasPerm w permUser) : UserPart ws (w &&& permUser) where
  eq := by
    have : w &&& permUser = (w &&& 2 ^ 2) := rfl
    rw [this, Nat.and_two_pow, permUser]
    cases w.testBit 2 <;> simp
  le hu := h hu

theorem UserPart.lt (h : UserPart ws i) : i < 4096 := by
  rcases h.eq with rfl | rfl <;> decide

theorem PastedEntry.frame {w' : ℕ} (h : PastedEntry s t w ws w') : w ≠ 0 ∧ frameNumber w' = frameNumber w ∨
    w = 0 ∧ frameNumber w' ∈ s.freeFrameList ∧ InUse t (frameNumber w') := by
  obtain ⟨set, f, hset, rfl, hf⟩ := h
  rw [pastedEntry]
  by_cases hw : w = 0
  · rw [if_pos hw, frameNumber_newEntry (Nat.or_lt_two_pow (n := 12) hset.lt (by decide))]
    exact .inr ⟨hw, hf hw⟩
  · rw [if_neg hw, frameNumber_setPerm hset.lt]
    exact .inl ⟨hw, rfl⟩

theorem hasPerm_setPerm {p : ℕ} (h : HasPerm w p) (set : ℕ) : HasPerm (setPerm w set) p := by
  rw [setPerm, Nat.or_comm]
  exact h.or_left

theorem present_of_setPerm {set : ℕ} (hset : set = 0 ∨ set = permUser) (h : HasPerm (setPerm w set) permPresent) :
    HasPerm w permPresent := by
  rw [show permPresent = 2 ^ 0 from rfl, hasPerm_two_pow, setPerm, Nat.testBit_or] at *
  rcases hset with rfl | rfl <;> simpa [permUser] using h

namespace PastedPages

variable (h : PastedPages E s g τ source dest k t g')
include h

/-- Pages that were mapped keep their frame and permissions, but for `PERM_USER`. -/
theorem old {p : ℕ} (h0 : s.entries g (τ, p) ≠ 0) :
    ∃ set, (set = 0 ∨ set = permUser) ∧ t.entries g' (τ, p) = setPerm (s.entries g (τ, p)) set := by
  by_cases hp : ∃ j < k, p = pageNumber dest + j
  · obtain ⟨j, hj, rfl⟩ := hp
    obtain ⟨set, f, hset, he, -⟩ := h.pasted j hj
    exact ⟨set, hset.eq, by rw [he, pastedEntry, if_neg h0]⟩
  · refine ⟨0, .inl rfl, ?_⟩
    rw [h.other _ fun j hj he => hp ⟨j, hj, (Prod.mk.inj he).2⟩, setPerm, Nat.or_zero]

theorem frame_old {p : ℕ} (h0 : s.entries g (τ, p) ≠ 0) :
    frameNumber (t.entries g' (τ, p)) = frameNumber (s.entries g (τ, p)) := by
  obtain ⟨set, hset, he⟩ := h.old h0
  rw [he]
  rcases hset with rfl | rfl <;> exact frameNumber_setPerm (by decide)

theorem inUse {p : ℕ} (hin : s.entries g (τ, p) ≠ 0 → InUse s (frameNumber (s.entries g (τ, p))))
    (h0 : t.entries g' (τ, p) ≠ 0) : InUse t (frameNumber (t.entries g' (τ, p))) := by
  by_cases hs : s.entries g (τ, p) = 0
  · by_cases hp : ∃ j < k, p = pageNumber dest + j
    · obtain ⟨j, hj, rfl⟩ := hp
      obtain ⟨set, f, hset, he, hf⟩ := h.pasted j hj
      rw [he, pastedEntry, if_pos hs, frameNumber_newEntry (Nat.or_lt_two_pow (n := 12) hset.lt (by decide))]
      exact (hf hs).2
    · rw [h.other _ fun j hj he => hp ⟨j, hj, (Prod.mk.inj he).2⟩] at h0
      exact absurd hs h0
  · exact h.frame_old hs ▸ h.grows.stays (hin hs)

theorem present_old {p : ℕ} (h0 : s.entries g (τ, p) ≠ 0) (hp : HasPerm (t.entries g' (τ, p)) permPresent) :
    HasPerm (s.entries g (τ, p)) permPresent := by
  obtain ⟨set, hset, he⟩ := h.old h0
  exact present_of_setPerm hset (he ▸ hp)

end PastedPages

theorem PastedEntry.grows {I : Finset ℕ} {w' : ℕ} (h : PastedEntry s t w ws w') (hg : AddsTables τ I n t g u g') :
    PastedEntry s u w ws w' := by
  obtain ⟨set, f, hset, he, hf⟩ := h
  exact ⟨set, f, hset, he, fun hw => (hf hw).imp_right hg.stays⟩

/-- One more entry is pasted; a new one names a frame that was still free. -/
theorem PastedPages.succ {v : Machine} {g'' : Obj → ℕ} (ht : PastedPages E s g τ source dest k t g') (hv : Stocked E v g'')
    (hg : AddsTables τ {pdx (dest + pageSize * k)} (if s.entries g (τ, pageNumber dest + k) = 0 then 1 else 0) t g' v g'')
    (hother : ∀ x, x ≠ (τ, pageNumber dest + k) → v.entries g'' x = t.entries g' x)
    (hpasted : PastedEntry s v (s.entries g (τ, pageNumber dest + k)) (s.entries g (τ, pageNumber source + k))
      (v.entries g'' (τ, pageNumber dest + k)))
    (hfree : s.entries g (τ, pageNumber dest + k) = 0 →
      frameNumber (v.entries g'' (τ, pageNumber dest + k)) ∈ t.freeFrameList) :
    PastedPages E s g τ source dest (k + 1) v g'' := by
  have hkept (j : ℕ) (hj : j < k) : v.entries g'' (τ, pageNumber dest + j) = t.entries g' (τ, pageNumber dest + j) :=
    hother _ fun he => by
      have := (Prod.mk.inj he).2
      omega
  have hfresh (j : ℕ) (hj : j < k) (hzj : s.entries g (τ, pageNumber dest + j) = 0)
      (hz : s.entries g (τ, pageNumber dest + k) = 0) :
      frameNumber (v.entries g'' (τ, pageNumber dest + j)) ≠ frameNumber (v.entries g'' (τ, pageNumber dest + k)) := by
    intro he
    rw [hkept j hj] at he
    rcases (ht.pasted j hj).frame with ⟨h0, -⟩ | ⟨-, -, huse⟩
    · exact h0 hzj
    · exact huse.not_free (he ▸ hfree hz)
  refine ⟨hv, (ht.grows.trans hg).congr ?_ ?_, fun j hj => ?_, fun i hi j hj hij h0i h0j => ?_, fun x hx => ?_⟩
  · rw [tablesOf_succ]
  · rw [newPages_succ]
  · rcases Nat.lt_succ_iff_lt_or_eq.mp hj with hj | rfl
    · rw [hkept j hj]
      exact (ht.pasted j hj).grows hg
    · exact hpasted
  · rcases Nat.lt_succ_iff_lt_or_eq.mp hi with hi | rfl
    · rcases Nat.lt_succ_iff_lt_or_eq.mp hj with hj | rfl
      · rw [hkept i hi, hkept j hj]
        exact ht.distinct i hi j hj hij h0i h0j
      · exact hfresh i hi h0i h0j
    · rcases Nat.lt_succ_iff_lt_or_eq.mp hj with hj | rfl
      · exact (hfresh j hj h0j h0i).symm
      · exact absurd rfl hij
  · rw [hother x (hx k (Nat.lt_succ_self k))]
    exact ht.other x fun j hj => hx j (by omega)

namespace CanCopy

variable (h : CanCopy E s g τ source dest size)
include h

theorem source_add (hk : k < steppedPages dest size) : pageSize * k < size := by
  have := h.pos
  simp only [steppedPages, pagesBetween, pageSize] at *
  omega

theorem copyPastePage_sat (hk : k < steppedPages dest size) (ht : PastedPages E s g τ source dest k t g') :
    Sat (Short s ((absent g τ (tablesOf dest (steppedPages dest size))).card +
        newPages (s.entries g) τ (pageNumber dest) (steppedPages dest size))
      (absent g τ (tablesOf dest (steppedPages dest size))).card)
      (copyPastePage (g (.root τ)) (u32 (source + pageSize * k)) (dest + pageSize * k)) t fun _ u =>
        ∃ g'', PastedPages E s g τ source dest (k + 1) u g'' := by
  have hlt := h.source_add hk
  have htop := userTop_lt
  have hs : source + pageSize * k < userTop := by
    have := h.source_le
    omega
  have hd : dest + pageSize * k < userTop := by
    have := h.dest_le
    omega
  have hns := pageNumber_add source k
  have hnd := pageNumber_add dest k
  have hcard : (absent g τ (tablesOf dest k)).card + missing g' τ (dest + pageSize * k) ≤
      (absent g τ (tablesOf dest (steppedPages dest size))).card := by
    rw [← card_absent_singleton, ← ht.grows.card_union, ← tablesOf_succ]
    exact Finset.card_le_card (absent_mono (tablesOf_mono _ hk))
  have hnew : newPages (s.entries g) τ (pageNumber dest) k + (if s.entries g (τ, pageNumber dest + k) = 0 then 1 else 0) ≤
      newPages (s.entries g) τ (pageNumber dest) (steppedPages dest size) :=
    newPages_succ (e := s.entries g) ▸ newPages_mono hk
  have hold : t.entries g' (τ, pageNumber dest + k) = s.entries g (τ, pageNumber dest + k) :=
    ht.other _ fun j hj he => by
      have := (Prod.mk.inj he).2
      omega
  rw [copyPastePage, u32_of_lt (by omega), ← ht.grows.rootTable]
  refine (ht.stocked.ensureTable_sat (a := if s.entries g (τ, pageNumber dest + k) = 0 then 1 else 0) (b := 0) h.tree
    (ht.grows.rootTable τ ▸ h.root) hd (fun _ _ => rfl) rfl fun u g'' hu hgu heu => ?_).weaken fun e he =>
      (ht.grows.spent.short he).mono (by omega) (by omega)
  rw [← hgu.rootTable]
  have hsource : HasPerm (s.entries g (τ, pageNumber source + k)) permPresent := hns ▸ h.mapped _ hlt
  obtain ⟨set, hset, hes⟩ := ht.old (ne_zero_of_hasPerm_present hsource)
  have hws : u.entries g'' (τ, pageNumber (source + pageSize * k)) = setPerm (s.entries g (τ, pageNumber source + k)) set := by
    rw [hns, heu, hes]
  have hw : u.entries g'' (τ, pageNumber (dest + pageSize * k)) = s.entries g (τ, pageNumber dest + k) := by
    rw [hnd, heu, hold]
  refine ((hu.pasteEntry_sat hs hd (hgu.table _ (Finset.mem_singleton_self _)) hws ?_ hw fun h0 => ?_).weaken fun e he => ?_).mono ?_
  · exact ne_zero_of_hasPerm_present (hasPerm_setPerm hsource _)
  · exact hu.ordinary_lt (hgu.stays (ht.grows.stays (hnd ▸ h.dest _ hlt (hnd.symm ▸ h0)))).toOrdinary
  · obtain ⟨rfl, hz, hfree⟩ := he
    rw [if_pos hz]
    exact .inl ⟨rfl, by simp [hfree]⟩
  rintro - v ⟨f, hv, hgv, hev, hf⟩
  have hevk : v.entries g'' (τ, pageNumber dest + k) =
      pastedEntry (s.entries g (τ, pageNumber dest + k)) (setPerm (s.entries g (τ, pageNumber source + k)) set &&& permUser) f := by
    rw [hev, hnd, Function.update_self]
  have huser : UserPart (s.entries g (τ, pageNumber source + k))
      (setPerm (s.entries g (τ, pageNumber source + k)) set &&& permUser) := userPart_and _ fun hu => hasPerm_setPerm hu _
  refine ⟨g'', ht.succ hv ((hgu.trans hgv).congr ?_ ?_) (fun x hx => ?_) ?_ fun hz => ?_⟩
  · rw [Finset.union_empty]
  · rw [Nat.zero_add]
  · rw [hev, Function.update_of_ne (hnd ▸ hx), heu]
  · exact ⟨_, f, huser, hevk, fun hz => (hf hz).imp_left fun hm => ht.grows.suffix.subset (hgu.suffix.subset hm)⟩
  · rw [hevk, pastedEntry, if_pos hz, frameNumber_newEntry (Nat.or_lt_two_pow (n := 12) huser.lt (by decide))]
    exact hgu.suffix.subset (hf hz).1

end CanCopy

/-- The last page of the range is one that the page loops visit, or it is mapped writable, with
`PERM_USER` if the last page of the source has it. -/
def Covered (s : Machine) (g : Obj → ℕ) (τ : Tree) (source dest size : ℕ) : Prop :=
  pageNumber (dest + size - 1) < pageNumber dest + steppedPages dest size ∨
    HasPerm (s.entries g (τ, pageNumber (dest + size - 1))) (permPresent ||| permWriteable) ∧
      (HasPerm (s.entries g (τ, pageNumber (source + size - 1))) permUser →
        HasPerm (s.entries g (τ, pageNumber (dest + size - 1))) permUser)

/-- The pages that the page loops find mapped are present. -/
def DestPresent (s : Machine) (g : Obj → ℕ) (τ : Tree) (dest size : ℕ) : Prop :=
  ∀ k < steppedPages dest size, s.entries g (τ, pageNumber dest + k) ≠ 0 →
    HasPerm (s.entries g (τ, pageNumber dest + k)) permPresent

/-- The page loops meet a page that is mapped but not writable. -/
def MeetsReadOnly (s : Machine) (g : Obj → ℕ) (τ : Tree) (dest size : ℕ) : Prop :=
  ∃ k < steppedPages dest size, ReadOnly (s.entries g (τ, pageNumber dest + k))

/-- The frames and tables that a call may need. -/
noncomputable def copyFrames (s : Machine) (g : Obj → ℕ) (τ : Tree) (dest size : ℕ) : ℕ :=
  (absent g τ (tablesOf dest (steppedPages dest size))).card +
    newPages (s.entries g) τ (pageNumber dest) (steppedPages dest size)

def copyTables (g : Obj → ℕ) (τ : Tree) (dest size : ℕ) : ℕ := (absent g τ (tablesOf dest (steppedPages dest size))).card

/-- No byte of memory is met twice by the two ranges. -/
structure DisjointBytes (s : Machine) (source dest n : ℕ) : Prop where
  source : ∀ i < n, ∀ j < n, ∀ f, s.translate permPresent (source + i) = some f →
    s.translate permPresent (dest + j) = some f → (source + i) % pageSize ≠ (dest + j) % pageSize
  dest : ∀ i < n, ∀ j < n, i ≠ j → ∀ f, s.translate permPresent (dest + i) = some f →
    s.translate permPresent (dest + j) = some f → (dest + i) % pageSize ≠ (dest + j) % pageSize

def loadByte (s : Machine) (va : ℕ) : Option UInt8 :=
  (s.translate permPresent va).map fun f => byteAt (s.ram f) va

/-- The range was copied: its pages are mapped writable, and for the user where the page of the
source is, its bytes are those of the source, and the other bytes of frames in use stay. -/
structure PastedChunk (s : Machine) (source dest size : ℕ) (t : Machine) : Prop where
  written : ∀ i < size, ∃ f, t.translate (permPresent ||| permWriteable) (dest + i) = some f
  user : ∀ k, pageNumber dest + k ≤ pageNumber (dest + size - 1) →
    s.translate (permPresent ||| permUser) (source + min (pageSize * k) (size - 1)) ≠ none →
      t.translate (permPresent ||| permUser) (pageSize * (pageNumber dest + k)) ≠ none
  copied : DisjointBytes s source dest size → ∀ i < size, t.loadByte (dest + i) = s.loadByte (source + i)
  kept : ∀ f, InUse s f → ∀ o,
    (∀ i < size, t.translate permPresent (dest + i) = some f → (dest + i) % pageSize ≠ o % pageSize) →
      byteAt (t.ram f) o = byteAt (s.ram f) o

/-- Refused with nothing changed if a page of the range is read-only, and else done. -/
def CopyPasteContract (s : Machine) (g : Obj → ℕ) (τ : Tree) (source dest size : ℕ) (r : ℤ) (t : Machine) : Prop :=
  (∃ i < size, ReadOnly (s.entries g (τ, pageNumber (dest + i)))) ∧ r = -1 ∧ t = s ∨
    (∀ i < size, ¬ReadOnly (s.entries g (τ, pageNumber (dest + i)))) ∧ r = 0 ∧ PastedChunk s source dest size t

theorem PastedPages.entry_last (ht : PastedPages E s g τ source dest (steppedPages dest size) t g')
    (hlast : pageNumber (dest + size - 1) = pageNumber dest + steppedPages dest size) :
    t.entries g' (τ, pageNumber (dest + size - 1)) = s.entries g (τ, pageNumber (dest + size - 1)) :=
  ht.other _ fun j hj he => by
    have := (Prod.mk.inj he).2
    omega

theorem hasPerm_newEntry {perm p : ℕ} (h : HasPerm perm p) : HasPerm (newEntry f perm) p :=
  HasPerm.or_left (hasPerm_setPerm h permPresent)

theorem page_of_byte (dest : ℕ) (hj : j < size) : (∃ k < steppedPages dest size, pageNumber (dest + j) = pageNumber dest + k) ∨
    pageNumber (dest + j) = pageNumber (dest + size - 1) ∧ pageNumber (dest + size - 1) = pageNumber dest + steppedPages dest size := by
  by_cases hlt : pageNumber (dest + j) < pageNumber dest + steppedPages dest size
  · refine .inl ⟨pageNumber (dest + j) - pageNumber dest, ?_, ?_⟩ <;>
      simp only [pageNumber, pageSize] at * <;> omega
  · right
    simp only [pageNumber, pageSize, steppedPages, pagesBetween] at *
    omega

namespace CanCopy

variable (h : CanCopy E s g τ source dest size)
include h

theorem reaches (hva : va < userTop) : Reaches E s g τ va := ⟨h.stocked.toLayout, h.tree, h.root, h.loaded, hva⟩

theorem source_ne_zero (hi : i < size) : s.entries g (τ, pageNumber (source + i)) ≠ 0 :=
  ne_zero_of_hasPerm_present (h.mapped i hi)

theorem translate_source (hi : i < size) : s.translate permPresent (source + i) = some (s.backing g τ (source + i)) := by
  have := h.source_le
  rw [(h.reaches (by omega)).translate (by decide) (by decide), if_pos (h.mapped i hi)]

theorem dest_add (hk : k < steppedPages dest size) : dest + pageSize * k < userTop := by
  have := h.source_add hk
  have := h.dest_le
  omega

theorem check_run : (anyPages (isReadOnly (g (.root τ))) (dest + size) (2 ^ 20) dest).run s =
    .ok (decide (∃ k < steppedPages dest size, ReadOnly (s.entries g (τ, pageNumber dest + k))), s) := by
  have hle := h.dest_le
  have heq : anyPages (isReadOnly (g (.root τ))) (dest + size) (2 ^ 20) (dest + pageSize * 0) =
      anyRange (fun i => isReadOnly (g (.root τ)) (dest + pageSize * i)) 0 (pagesBetween dest (dest + size) - 0) := anyPages_eq
    (by simp only [userTop, pageSize] at *; omega) (by simp only [pagesBetween, userTop, pageSize] at *; omega) (Nat.zero_le _)
  rw [Nat.mul_zero, Nat.add_zero, Nat.sub_zero] at heq
  rw [heq]
  refine anyRange_decide fun k hk => ?_
  have hd := h.dest_add hk
  have hrun := h.stocked.isReadOnly_run h.root hd fun h0 => h.stocked.ordinary_lt (h.dest _ (h.source_add hk) h0).toOrdinary
  rwa [pageNumber_add] at hrun

theorem refuse_run (hro : MeetsReadOnly s g τ dest size) :
    (copyPasteChunk (g (.root τ)) source dest size).run s = .ok (-1, s) := by
  have hle := h.dest_le
  have htop := userTop_lt
  have hcheck := h.check_run
  rw [decide_eq_true (show ∃ k < steppedPages dest size, _ from hro)] at hcheck
  rw [copyPasteChunk, u32_of_lt (by omega), run_bind_ok hcheck]
  rfl

omit h in
theorem writable (hno : ¬MeetsReadOnly s g τ dest size) (hpres : DestPresent s g τ dest size) (ht : PastedPages E s g τ source dest (steppedPages dest size) t g')
    (hk : k < steppedPages dest size) :
    HasPerm (t.entries g' (τ, pageNumber dest + k)) (permPresent ||| permWriteable) := by
  obtain ⟨set, f, hset, he, -⟩ := ht.pasted k hk
  rw [he, pastedEntry, hasPerm_or]
  by_cases hw : s.entries g (τ, pageNumber dest + k) = 0
  · rw [if_pos hw]
    exact ⟨newEntry_present .., hasPerm_newEntry (HasPerm.or_left (by decide))⟩
  · rw [if_neg hw]
    have hwr : HasPerm (s.entries g (τ, pageNumber dest + k)) permWriteable := by
      by_contra hn
      exact hno ⟨k, hk, hw, hn⟩
    exact ⟨hasPerm_setPerm (hpres k hk hw) _, hasPerm_setPerm hwr _⟩

theorem canRead (ht : PastedPages E s g τ source dest k t g') : CanRead E t g' τ source dest size where
  layout := ht.stocked.toLayout
  tree := h.tree
  root := ht.grows.rootTable τ ▸ h.root
  loaded := by
    rw [ht.grows.pageFrame h.stocked.toLayout ht.stocked.toLayout h.root, ht.grows.places.cr3, h.loaded]
  source_le := h.source_le
  dest_le := h.dest_le
  present i hi := by
    obtain ⟨set, -, he⟩ := ht.old (h.source_ne_zero hi)
    rw [he]
    exact hasPerm_setPerm (h.mapped i hi) set
  source i hi := by
    rw [backing, ht.frame_old (h.source_ne_zero hi)]
    exact (ht.grows.stays (h.source i hi)).toOrdinary
  dest i hi h0 := (ht.inUse (h.dest i hi) h0).toOrdinary

theorem copyPasteChunk_sat (hno : ¬MeetsReadOnly s g τ dest size) :
    Sat (fun e => Short s (copyFrames s g τ dest size) (copyTables g τ dest size) e ∨
        ¬(DestPresent s g τ dest size ∧ Covered s g τ source dest size))
      (copyPasteChunk (g (.root τ)) source dest size) s fun r u => r = 0 ∧ ∃ t g',
        PastedPages E s g τ source dest (steppedPages dest size) t g' ∧ CopiedBytes E t g' τ source dest size size u := by
  have hle := h.dest_le
  have htop := userTop_lt
  have hcheck := h.check_run
  rw [decide_eq_false (show ¬∃ k < steppedPages dest size, _ from hno)] at hcheck
  rw [copyPasteChunk, u32_of_lt (by omega)]
  refine .bind_ok hcheck ?_
  have hloop : Sat (Short s (copyFrames s g τ dest size) (copyTables g τ dest size))
      (forPages (fun i k => copyPastePage (g (.root τ)) (u32 (source + pageSize * k)) i) (dest + size) (2 ^ 20) dest 0) s
      fun _ t => ∃ g', PastedPages E s g τ source dest (steppedPages dest size) t g' :=
    forUserPages_sat (fun k t => ∃ g', PastedPages E s g τ source dest k t g') hle
    ⟨g, h.stocked, .refl (by simp [tablesOf_zero]) s, fun j hj => absurd hj (Nat.not_lt_zero j),
      fun i hi => absurd hi (Nat.not_lt_zero i), fun _ _ => rfl⟩
    fun k t hk ht => by
      obtain ⟨g', ht⟩ := ht
      exact h.copyPastePage_sat hk ht
  refine (hloop.weaken fun e he => .inl he).bind ?_
  rintro - t ⟨g', ht⟩
  rw [Nat.add_sub_cancel_left]
  refine (((h.canRead ht).copyBytes_sat).weaken fun e he => .inr ?_).bind fun _ u hu => .pure ⟨rfl, t, g', ht, hu⟩
  obtain ⟨j, hj, -, hnp⟩ := he
  rcases page_of_byte dest hj with ⟨k, hk, hpage⟩ | ⟨hpage, hlast⟩
  · rw [hpage] at hnp
    exact fun hc => absurd (writable hno hc.1 ht hk) hnp
  · rw [hpage, ht.entry_last hlast] at hnp
    rintro ⟨-, hlt | ⟨hp, -⟩⟩
    · omega
    · exact hnp hp

/-- Where the bytes of the range lie after the page loops: where they lay, or in a frame that was
taken for a page they visit. -/
theorem backing_dest (ht : PastedPages E s g τ source dest (steppedPages dest size) t g') (hj : j < size)
    (hp : HasPerm (t.entries g' (τ, pageNumber (dest + j))) permPresent) :
    s.translate permPresent (dest + j) = some (t.backing g' τ (dest + j)) ∧ InUse s (t.backing g' τ (dest + j)) ∨
      s.entries g (τ, pageNumber (dest + j)) = 0 ∧ t.backing g' τ (dest + j) ∈ s.freeFrameList ∧
        ∃ k < steppedPages dest size, pageNumber (dest + j) = pageNumber dest + k := by
  by_cases hs : s.entries g (τ, pageNumber (dest + j)) = 0
  · by_cases hk : ∃ k < steppedPages dest size, pageNumber (dest + j) = pageNumber dest + k
    · refine .inr ⟨hs, ?_, hk⟩
      obtain ⟨k, hk, hpage⟩ := hk
      rw [hpage] at hs
      rcases (ht.pasted k hk).frame with ⟨hne, -⟩ | ⟨-, hfree, -⟩
      · exact absurd hs hne
      · rwa [backing, hpage]
    · rw [ht.other _ fun k hk' he => hk ⟨k, hk', (Prod.mk.inj he).2⟩] at hp
      exact absurd hs (ne_zero_of_hasPerm_present hp)
  · left
    have hlt := h.dest_le
    rw [(h.reaches (by omega)).translate (by decide) (by decide), if_pos (ht.present_old hs hp), backing, backing,
      ht.frame_old hs]
    exact ⟨rfl, h.dest j hj hs⟩

theorem separateBytes (ht : PastedPages E s g τ source dest (steppedPages dest size) t g')
    (hw : ∀ j < size, HasPerm (t.entries g' (τ, pageNumber (dest + j))) permPresent) (hd : DisjointBytes s source dest size) :
    SeparateBytes t g' τ source dest size where
  source i hi j hj he := by
    have hsource : t.backing g' τ (source + i) = s.backing g τ (source + i) := ht.frame_old (h.source_ne_zero hi)
    have htr := h.translate_source hi
    rw [← hsource, he] at htr
    rcases h.backing_dest ht hj (hw j hj) with ⟨htr', -⟩ | ⟨-, hfree, -⟩
    · exact hd.source i hi j hj _ htr htr'
    · rw [← he, hsource] at hfree
      exact absurd hfree (h.source i hi).not_free
  dest i hi j hj hij he := by
    rcases h.backing_dest ht hi (hw i hi) with ⟨htr, huse⟩ | ⟨hzi, hfree, k, hk, hpage⟩
    · rcases h.backing_dest ht hj (hw j hj) with ⟨htr', -⟩ | ⟨-, hfree, -⟩
      · exact hd.dest i hi j hj hij _ htr (he ▸ htr')
      · exact absurd (he ▸ hfree) huse.not_free
    · rcases h.backing_dest ht hj (hw j hj) with ⟨-, huse⟩ | ⟨hzj, -, k', hk', hpage'⟩
      · exact absurd (he ▸ hfree) huse.not_free
      · -- different pages got different frames
        by_cases hkk : k = k'
        · simp only [pageNumber, pageSize] at *
          omega
        · rw [backing, backing, hpage, hpage'] at he
          exact absurd he (ht.distinct k hk k' hk' hkk (hpage ▸ hzi) (hpage' ▸ hzj))

section Result

variable (ht : PastedPages E s g τ source dest (steppedPages dest size) t g')
  (hu : CopiedBytes E t g' τ source dest size size u)
include ht hu

theorem translate_copied {need : ℕ} (hneed : HasPerm (permPresent ||| permWriteable) need) (hpos : need ≠ 0) (hi : i < size) :
    u.translate need (dest + i) = some (t.backing g' τ (dest + i)) := by
  have hle := h.dest_le
  have hr := ((h.canRead ht).reaches (show dest + i < userTop by omega)).marked hu.marks
  have hp : HasPerm (u.entries g' (τ, pageNumber (dest + i))) (permPresent ||| permWriteable) := by
    have := hu.written i hi
    rw [hasPerm_or] at this ⊢
    exact ⟨(hu.marks.entry _).present.mpr this.1, (hu.marks.entry _).writeable.mpr this.2⟩
  rw [hr.translate ?_ hpos, if_pos (hp.trans hneed), hu.marks.backing_eq]
  exact HasPerm.trans (by decide) hneed

theorem copied_eq (hd : DisjointBytes s source dest size) (hi : i < size) : u.loadByte (dest + i) = s.loadByte (source + i) := by
  have hw (j : ℕ) (hj : j < size) := (hasPerm_or.mp (hu.written j hj)).1
  have hb := hu.copied (h.separateBytes ht hw hd) i hi
  have h0 := h.source_ne_zero hi
  have hback : t.backing g' τ (source + i) = s.backing g τ (source + i) := ht.frame_old h0
  have hram : t.ram (s.backing g τ (source + i)) = s.ram (s.backing g τ (source + i)) := (ht.grows.inUse _ (h.source i hi)).2
  rw [loadByte, loadByte, h.translate_copied ht hu (by decide) (by decide) hi, h.translate_source hi, Option.map_some,
    Option.map_some, hb, hback, hram]

theorem kept_eq (hf : InUse s f) {o : ℕ}
    (ho : ∀ i < size, u.translate permPresent (dest + i) = some f → (dest + i) % pageSize ≠ o % pageSize) :
    byteAt (u.ram f) o = byteAt (s.ram f) o := by
  obtain ⟨hord, hram⟩ := ht.grows.inUse f hf
  rw [← hram]
  refine hu.kept f hord o fun i hi he => ho i hi ?_
  rw [h.translate_copied ht hu (by decide) (by decide) hi, he]

theorem user_iff (hk : pageNumber dest + k ≤ pageNumber (dest + size - 1)) :
    u.translate (permPresent ||| permUser) (pageSize * (pageNumber dest + k)) ≠ none ↔
      HasPerm (t.entries g' (τ, pageNumber dest + k)) permUser := by
  have hle := h.dest_le
  have hpos := h.pos
  have hpn : pageNumber (pageSize * (pageNumber dest + k)) = pageNumber dest + k := Nat.mul_div_cancel_left _ (by decide)
  have hva : pageSize * (pageNumber dest + k) < userTop := by
    simp only [pageNumber, pageSize] at *
    omega
  obtain ⟨j, hj, hpage⟩ : ∃ j < size, pageNumber (dest + j) = pageNumber dest + k := by
    refine ⟨pageSize * (pageNumber dest + k) - dest, ?_, ?_⟩ <;> simp only [pageNumber, pageSize] at * <;> omega
  have hp : HasPerm (t.entries g' (τ, pageNumber dest + k)) permPresent := hpage ▸ (hasPerm_or.mp (hu.written j hj)).1
  have hmark := hu.marks.entry (pageNumber dest + k)
  rw [(((h.canRead ht).reaches hva).marked hu.marks).translate_ne_none (by decide) (by decide), hpn, hasPerm_or,
    hmark.present, hmark.user]
  exact and_iff_right hp

theorem pastedChunk_iff : PastedChunk s source dest size u ↔ Covered s g τ source dest size := by
  have hsle := h.source_le
  have hpos := h.pos
  have hsuser (i : ℕ) (hi : i < size) : s.translate (permPresent ||| permUser) (source + i) ≠ none ↔
      HasPerm (s.entries g (τ, pageNumber (source + i))) permUser := by
    rw [(h.reaches (show source + i < userTop by omega)).translate_ne_none (by decide) (by decide), hasPerm_or]
    exact and_iff_right (h.mapped i hi)
  have hlast : pageNumber (dest + size - 1) ≤ pageNumber dest + steppedPages dest size := by
    simp only [pageNumber, pageSize, steppedPages, pagesBetween]
    omega
  constructor
  · intro hp
    by_cases hlt : pageNumber (dest + size - 1) < pageNumber dest + steppedPages dest size
    · exact .inl hlt
    · have heq : pageNumber (dest + size - 1) = pageNumber dest + steppedPages dest size := by omega
      have hw := hu.written (size - 1) (by omega)
      rw [← Nat.add_sub_assoc hpos, ht.entry_last heq] at hw
      refine .inr ⟨hw, fun hus => ?_⟩
      have hmin : min (pageSize * steppedPages dest size) (size - 1) = size - 1 := by
        simp only [pageNumber, pageSize, steppedPages, pagesBetween] at *
        omega
      have huser := hp.user (steppedPages dest size) heq.ge
      rw [hmin, hsuser _ (by omega), h.user_iff ht hu heq.ge, ← heq, ht.entry_last heq, ← Nat.add_sub_assoc hpos] at huser
      exact huser hus
  · intro hc
    refine ⟨fun i hi => ⟨_, h.translate_copied ht hu (by decide) (by decide) hi⟩, fun k hk hus => ?_,
      fun hd i hi => h.copied_eq ht hu hd hi, fun f hf o ho => h.kept_eq ht hu hf ho⟩
    rw [h.user_iff ht hu hk]
    by_cases hkn : k < steppedPages dest size
    · have hlt := h.source_add hkn
      rw [Nat.min_eq_left (by omega), hsuser _ hlt, pageNumber_add] at hus
      obtain ⟨set, f, hset, he, -⟩ := ht.pasted k hkn
      rw [he, pastedEntry, hset.le hus]
      split
      · exact hasPerm_newEntry (by decide)
      · rw [setPerm]
        exact HasPerm.or_left (by decide)
    · obtain rfl : k = steppedPages dest size := by omega
      have heq : pageNumber (dest + size - 1) = pageNumber dest + steppedPages dest size := by omega
      have hmin : min (pageSize * steppedPages dest size) (size - 1) = size - 1 := by
        simp only [pageNumber, pageSize, steppedPages, pagesBetween] at *
        omega
      rw [hmin, hsuser _ (by omega), ← Nat.add_sub_assoc hpos] at hus
      rw [← heq, ht.entry_last heq]
      rcases hc with hlt | ⟨-, hc⟩
      · omega
      · exact hc hus

end Result

theorem meets_contract (hc : MeetsReadOnly s g τ dest size ∨ DestPresent s g τ dest size ∧ Covered s g τ source dest size) :
    Sat (Short s (copyFrames s g τ dest size) (copyTables g τ dest size))
      (copyPasteChunk (g (.root τ)) source dest size) s (CopyPasteContract s g τ source dest size) := by
  by_cases hro : MeetsReadOnly s g τ dest size
  · refine .of_ok (h.refuse_run hro) (.inl ⟨?_, rfl, rfl⟩)
    obtain ⟨k, hk, hw⟩ := hro
    exact ⟨pageSize * k, h.source_add hk, by rwa [pageNumber_add]⟩
  · have hcov := hc.resolve_left hro
    refine ((h.copyPasteChunk_sat hro).weaken fun e he => he.resolve_right fun hn => hn hcov).mono ?_
    rintro r u ⟨rfl, t, g', ht, hu⟩
    refine .inr ⟨fun i hi hw => ?_, rfl, (h.pastedChunk_iff ht hu).mpr hcov.2⟩
    rcases page_of_byte dest hi with ⟨k, hk, hpage⟩ | ⟨hpage, hlast⟩
    · exact hro ⟨k, hk, hpage ▸ hw⟩
    · rcases hcov.2 with hlt | ⟨hp, -⟩
      · omega
      · rw [hpage] at hw
        exact hw.2 (hasPerm_or.mp hp).2

theorem destPresent (ht : PastedPages E s g τ source dest (steppedPages dest size) t g')
    (hu : CopiedBytes E t g' τ source dest size size u) : DestPresent s g τ dest size := fun k hk h0 => by
  have hw := hu.written _ (h.source_add hk)
  rw [pageNumber_add] at hw
  exact ht.present_old h0 (hasPerm_or.mp hw).1

theorem breaks_contract
    (hc : ¬(MeetsReadOnly s g τ dest size ∨ DestPresent s g τ dest size ∧ Covered s g τ source dest size))
    (hframes : copyFrames s g τ dest size ≤ s.freeFrameList.length) (hroom : Room s (copyTables g τ dest size)) :
    ¬Sat (Short s (copyFrames s g τ dest size) (copyTables g τ dest size))
      (copyPasteChunk (g (.root τ)) source dest size) s (CopyPasteContract s g τ source dest size) := by
  intro hsat
  push Not at hc
  have hrun := h.copyPasteChunk_sat hc.1
  rcases hx : (copyPasteChunk (g (.root τ)) source dest size).run s with e | ⟨r, u⟩
  · rcases hsat.error hx with ⟨-, hlt⟩ | ⟨-, hr⟩
    · omega
    · exact hr hroom
  · obtain ⟨rfl, t, g', ht, hu⟩ := hrun.ok hx
    rcases hsat.ok hx with ⟨-, hr, -⟩ | ⟨-, -, hp⟩
    · exact absurd hr (by decide)
    · exact hc.2 (h.destPresent ht hu) ((h.pastedChunk_iff ht hu).mp hp)

end CanCopy

/-- `copy_paste_chunk` does what it should if the page loops meet a read-only page, or the pages they
find mapped are present and the last page of the range is one of them or in order; and, with memory
enough, only then. -/
theorem copyPasteChunk_contract_iff (h : CanCopy E s g τ source dest size) :
    (MeetsReadOnly s g τ dest size ∨ DestPresent s g τ dest size ∧ Covered s g τ source dest size →
      Sat (Short s (copyFrames s g τ dest size) (copyTables g τ dest size))
        (copyPasteChunk (g (.root τ)) source dest size) s (CopyPasteContract s g τ source dest size)) ∧
    (¬(MeetsReadOnly s g τ dest size ∨ DestPresent s g τ dest size ∧ Covered s g τ source dest size) →
      copyFrames s g τ dest size ≤ s.freeFrameList.length → Room s (copyTables g τ dest size) →
        ¬Sat (Short s (copyFrames s g τ dest size) (copyTables g τ dest size))
          (copyPasteChunk (g (.root τ)) source dest size) s (CopyPasteContract s g τ source dest size)) :=
  ⟨h.meets_contract, h.breaks_contract⟩

private theorem exists_canCopy : ∃ s g, (∀ dest, pageSize ≤ dest → dest + 2 ≤ userTop → CanCopy {0, 1} s g (.user 0) 0 dest 2) ∧
    (∀ n, n ≠ 0 → s.entries g (.user 0, n) = 0) ∧ 90 ≤ s.freeFrameList.length ∧ Room s 90 := by
  obtain ⟨s, g, f, hs, ho, hentries, hf, hrefs, hlen, hroom, -⟩ := exists_onePage
  have hload := hs.load (e := 0) (by simp) ho
  have hsame : { s with cr3 := (s.envs 0).envCr3 }.entries g = s.entries g := rfl
  have hentry (n : ℕ) : s.entries g (.user 0, n) = if n = 0 then newEntry f (permUser ||| permWriteable) else 0 := by
    rw [hentries, Function.update_apply]
    simp
  have hsource (i : ℕ) (hi : i < 2) : pageNumber (0 + i) = 0 := by
    simp only [pageNumber, pageSize]
    omega
  refine ⟨_, g, fun dest hpage hle => ⟨hload, by simp, ho, hs.frameNumber_envCr3 ho, by decide, by decide, hle,
    fun i hi => ?_, fun i hi => ?_, fun i hi h0 => ?_⟩, fun n hn => ?_, hlen, hroom⟩
  · rw [hsame, hentry, if_pos (hsource i hi)]
    exact newEntry_present ..
  · rw [hsame, hentry, if_pos (hsource i hi), frameNumber_newEntry (by decide)]
    exact ⟨⟨hf.managed, hf.not_heap⟩, hf.not_free⟩
  · rw [hsame, hentry, if_neg] at h0
    · exact absurd rfl h0
    · simp only [pageNumber, pageSize] at hpage ⊢
      omega
  · rw [hsame, hentry, if_neg hn]

/-- Two bytes across the end of a page: the page of the second byte is not mapped. -/
theorem copyPasteChunk_skips_lastPage : ∃ s g, CanCopy {0, 1} s g (.user 0) 0 (4 * 2 ^ 20 + 4095) 2 ∧
    copyFrames s g (.user 0) (4 * 2 ^ 20 + 4095) 2 ≤ s.freeFrameList.length ∧
    Room s (copyTables g (.user 0) (4 * 2 ^ 20 + 4095) 2) ∧
    ¬Sat (Short s (copyFrames s g (.user 0) (4 * 2 ^ 20 + 4095) 2) (copyTables g (.user 0) (4 * 2 ^ 20 + 4095) 2))
      (copyPasteChunk (g (.root (.user 0))) 0 (4 * 2 ^ 20 + 4095) 2) s
        (CopyPasteContract s g (.user 0) 0 (4 * 2 ^ 20 + 4095) 2) := by
  obtain ⟨s, g, hcan, h0, hlen, hroom⟩ := exists_canCopy
  have hc := hcan (4 * 2 ^ 20 + 4095) (by decide) (by decide)
  have hstep : steppedPages (4 * 2 ^ 20 + 4095) 2 = 1 := by decide
  have htables : copyTables g (.user 0) (4 * 2 ^ 20 + 4095) 2 ≤ 1 := by
    rw [copyTables, hstep]
    exact (Finset.card_filter_le _ _).trans (Finset.card_image_le.trans (by simp))
  have hnew : newPages (s.entries g) (.user 0) (pageNumber (4 * 2 ^ 20 + 4095)) 1 ≤ 1 :=
    (Finset.card_filter_le _ _).trans (by simp)
  have hframes : copyFrames s g (.user 0) (4 * 2 ^ 20 + 4095) 2 ≤ s.freeFrameList.length := by
    rw [copyTables, hstep] at htables
    rw [copyFrames, hstep]
    omega
  refine ⟨s, g, hc, hframes, hroom.mono (by omega), hc.breaks_contract ?_ hframes (hroom.mono (by omega))⟩
  rintro (⟨k, hk, hw, -⟩ | ⟨-, hlt | ⟨hp, -⟩⟩)
  · exact hw (h0 _ (by simp only [pageNumber, pageSize]; omega))
  · exact absurd hlt (by decide)
  · rw [h0 _ (by decide)] at hp
    exact absurd hp (by decide)

theorem copyPasteChunk_contract_iff_onePage : ∃ s g t, CanCopy {0, 1} s g (.user 0) 0 (4 * 2 ^ 20) 2 ∧
    (copyPasteChunk (g (.root (.user 0))) 0 (4 * 2 ^ 20) 2).run s = .ok (0, t) ∧ PastedChunk s 0 (4 * 2 ^ 20) 2 t := by
  obtain ⟨s, g, hcan, h0, hlen, hroom⟩ := exists_canCopy
  have hc := hcan (4 * 2 ^ 20) (by decide) (by decide)
  have hstep : steppedPages (4 * 2 ^ 20) 2 = 1 := by decide
  have htables : copyTables g (.user 0) (4 * 2 ^ 20) 2 ≤ 1 := by
    rw [copyTables, hstep]
    exact (Finset.card_filter_le _ _).trans (Finset.card_image_le.trans (by simp))
  have hnew : newPages (s.entries g) (.user 0) (pageNumber (4 * 2 ^ 20)) 1 ≤ 1 :=
    (Finset.card_filter_le _ _).trans (by simp)
  have hok : Sat (fun _ => False) _ _ _ :=
    ((copyPasteChunk_contract_iff hc).1 (.inr ⟨fun k _ hne => absurd (h0 _ (by
      simp only [pageNumber, pageSize]
      omega)) hne, .inl (by decide)⟩)).weaken fun e he => by
      rcases he with ⟨-, hlt⟩ | ⟨-, hr⟩
      · rw [copyTables, hstep] at htables
        rw [copyFrames, hstep] at hlt
        omega
      · exact hr (hroom.mono (by omega))
  obtain ⟨r, t, hrun, ⟨⟨i, hi, hw, -⟩, -⟩ | ⟨-, rfl, hp⟩⟩ := hok.exists_ok
  · exact absurd (h0 _ (by simp only [pageNumber, pageSize]; omega)) hw
  · exact ⟨s, g, t, hc, hrun, hp⟩

end FosKernel.Machine
