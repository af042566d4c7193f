import FosKernel.MapFrameContract

/-!
# Cutting and pasting pages

`cut_paste_pages` first looks at all destination pages. If none is mapped it moves the
entries one by one: each frame is mapped a second time before the first entry is cleared.
-/

namespace FosKernel.Machine
open FailingPrograms PageEntries

variable {s t u : Machine} {E : Finset ℕ} {g g' : Obj → ℕ} {τ : Tree} {e : Tree × ℕ → ℕ}
  {f i k m n num source dest w va : ℕ}

/-- An entry that is present, on a frame that is in use and counts at least this entry. -/
structure Backed (s : Machine) (w : ℕ) : Prop where
  present : HasPerm w permPresent
  frame : frameNumber w < s.numberOfFrames
  not_free : frameNumber w ∉ s.freeFrameList
  counted : 0 < (s.framesInfo (frameNumber w)).references
  uint16 : (s.framesInfo (frameNumber w)).references < 2 ^ 16

/-- The entries after `k` pages were moved from page `m` on to page `n` on. -/
def cutPasted (e : Tree × ℕ → ℕ) (τ : Tree) (m n k : ℕ) (x : Tree × ℕ) : ℕ :=
  if x.1 = τ ∧ n ≤ x.2 ∧ x.2 < n + k then e (τ, m + (x.2 - n))
  else if x.1 = τ ∧ m ≤ x.2 ∧ x.2 < m + k then 0
  else e x

theorem cutPasted_zero : cutPasted e τ m n 0 = e := by
  funext x
  rw [cutPasted, if_neg (by omega), if_neg (by omega)]

theorem cutPasted_source (h : ∀ j < k, m + k ≠ n + j) : cutPasted e τ m n k (τ, m + k) = e (τ, m + k) := by
  rw [cutPasted, if_neg, if_neg (by simp)]
  rintro ⟨-, hle, hlt⟩
  simp only at hle hlt
  exact h (m + k - n) (by omega) (by omega)

theorem cutPasted_dest (h : ∀ j < k, m + j ≠ n + k) : cutPasted e τ m n k (τ, n + k) = e (τ, n + k) := by
  rw [cutPasted, if_neg (by simp), if_neg]
  rintro ⟨-, hle, hlt⟩
  simp only at hle hlt
  exact h (n + k - m) (by omega) (by omega)

theorem cutPasted_succ (h : ∀ i ≤ k, ∀ j ≤ k, m + i ≠ n + j) :
    Function.update (Function.update (cutPasted e τ m n k) (τ, n + k) (e (τ, m + k))) (τ, m + k) 0 =
      cutPasted e τ m n (k + 1) := by
  funext ⟨τ', p⟩
  by_cases hτ : τ' = τ
  · subst hτ
    by_cases hm : p = m + k
    · subst hm
      rw [Function.update_self, cutPasted, if_neg, if_pos ⟨rfl, by simp⟩]
      rintro ⟨-, hle, hlt⟩
      simp only at hle hlt
      exact h k le_rfl (m + k - n) (by omega) (by omega)
    · rw [Function.update_of_ne (by simpa using hm)]
      by_cases hn : p = n + k
      · subst hn
        rw [Function.update_self, cutPasted, if_pos ⟨rfl, by simp⟩, Nat.add_sub_cancel_left]
      · rw [Function.update_of_ne (by simpa using hn)]
        simp only [cutPasted, true_and]
        congr 1
        · simp only [eq_iff_iff]
          omega
        · congr 1
          simp only [eq_iff_iff]
          omega
  · rw [Function.update_of_ne (by simp [hτ]), Function.update_of_ne (by simp [hτ]), cutPasted, cutPasted,
      if_neg (by simp [hτ]), if_neg (by simp [hτ]), if_neg (by simp [hτ]), if_neg (by simp [hτ])]

theorem or_eq_of_hasPerm {p : ℕ} (h : HasPerm w p) : w ||| p = w := by
  rw [HasPerm] at h
  apply Nat.eq_of_testBit_eq
  intro i
  have hi := congrArg (Nat.testBit · i) h
  simp only [Nat.testBit_and] at hi
  rw [Nat.testBit_or, ← hi]
  cases w.testBit i <;> simp

theorem newEntry_self (h : HasPerm w permPresent) : newEntry (frameNumber w) (w % 4096) = w := by
  have hperm : HasPerm (w % 4096) permPresent := by
    rw [hasPerm_present] at h ⊢
    rw [show 4096 = 2 ^ 12 from rfl, Nat.testBit_mod_two_pow, h]
    rfl
  rw [newEntry, or_eq_of_hasPerm hperm, toPhysicalAddress, pageSize, constructEntry_eq (Nat.mod_lt _ (by decide)), frameNumber]
  omega

theorem dropReference_addReference (h0 : 0 < (s.framesInfo f).references)
    (hlt : (s.framesInfo f).references < 2 ^ 16) : (s.addReference f).dropReference f = s := by
  have hval : ((s.framesInfo f).addReferences 1).addReferences (2 ^ 16 - 1) = s.framesInfo f := by
    have : (((s.framesInfo f).references + 1) % 2 ^ 16 + (2 ^ 16 - 1)) % 2 ^ 16 = (s.framesInfo f).references := by omega
    rw [FrameInfo.addReferences, addReferences_references, this]
    rfl
  rw [dropReference, addReference, setInfo_self, hval, if_neg h0.ne', setInfo, setInfo]
  simp only [Function.update_idem, Function.update_eq_self]

theorem Stocked.store (h : Stocked E s g) (hva : va < userTop) (hl : g (.leaf τ (pdx va)) ≠ 0) (hw : w < 2 ^ 32) :
    Stocked E (s.setEntry (s.entryFrame g τ va) (ptx va) w) g ∧
      AddsTables τ ∅ 0 s g (s.setEntry (s.entryFrame g τ va) (ptx va) w) g ∧
      (s.setEntry (s.entryFrame g τ va) (ptx va) w).entries g =
        Function.update (s.entries g) (τ, pageNumber va) w := by
  have hcell := h.setEntry_cells h.toReady.userStep_self.places rfl hva hl hw
  obtain ⟨ht, hentries⟩ := h.set h.toReady.userStep_self rfl hva hl hw
  have hst := sameGlobals_setEntry s (s.entryFrame g τ va) (ptx va) w
  refine ⟨ht, .of_step hst (fun x hx => ?_) (fun _ _ => rfl) (fun f hf => ⟨?_, ?_⟩) (Nat.zero_le _) rfl, hentries⟩
  · rw [hcell, Function.update_of_ne]
    rw [cellAt_user hva]
    exact hx _ _ _
  · exact hf.congr hst.places.toSameBoot fun p hp => kernelPte_of_user hva hcell hp
  · exact setFrame_ram_of_ne (h.ordinary_ne hf.toOrdinary hl).symm

theorem Stocked.movePage_run (h : Stocked E s g) (hs : source < userTop) (hd : dest < userTop)
    (hls : g (.leaf τ (pdx source)) ≠ 0) (hld : g (.leaf τ (pdx dest)) ≠ 0)
    (h0 : s.entries g (τ, pageNumber dest) = 0) (hw : s.entries g (τ, pageNumber source) = w) (hb : Backed s w) :
    ∃ t, (do
        let _ ← mapFrame createPageTable (g (.root τ)) (frameNumber w) dest (w % 4096)
        unmapFrame (g (.root τ)) source : Kernel Unit).run s = .ok ((), t) ∧
      Stocked E t g ∧ AddsTables τ ∅ 0 s g t g ∧ t.entries g =
        Function.update (Function.update (s.entries g) (τ, pageNumber dest) w) (τ, pageNumber source) 0 := by
  have hperm : w % 4096 < 4096 := Nat.mod_lt _ (by decide)
  have hwlt : w < 2 ^ 32 := hw ▸ entries_lt ..
  have hne : pageNumber source ≠ pageNumber dest := by
    intro he
    rw [he, h0] at hw
    exact ne_zero_of_hasPerm_present hb.present hw.symm
  have hpres : ¬HasPerm (wordAt (s.ram (s.entryFrame g τ dest)) (ptx dest)) permPresent := by
    rw [h.word_entry hd hld, h0]
    decide
  obtain ⟨hu, hgu, heu⟩ := h.store hd hld hwlt
  set u := s.setEntry (s.entryFrame g τ dest) (ptx dest) w
  have hmap : (mapFrame createPageTable (g (.root τ)) (frameNumber w) dest (w % 4096)).run s =
      .ok (0, u.addReference (frameNumber w)) := by
    rw [(h.hasTable hd hld).mapFrame_unmapped hpres, ← newEntry, newEntry_self hb.present]
    rfl
  -- `unmap_frame` takes the second reference away again
  have hadd : Layout E (u.addReference (frameNumber w)) g :=
    hu.toLayout.congr (sameMemory_setInfo u _ _).toSameGlobals.places rfl fun _ _ _ => addReference_va ..
  have hsource : (u.addReference (frameNumber w)).entries g (τ, pageNumber source) = w := by
    have : (u.addReference (frameNumber w)).entries g = u.entries g := rfl
    rw [this, heu, Function.update_of_ne (by simpa using hne), hw]
  have hunmap := hadd.unmapFrame_run hs
    (nameOf_eq_some.mpr ⟨hsource ▸ ne_zero_of_hasPerm_present hb.present, hsource ▸ rfl⟩) (hb.frame.trans_le le_rfl)
  rw [dropReference_addReference (s := u) hb.counted hb.uint16] at hunmap
  obtain ⟨hv, hgv, hev⟩ := hu.store (w := 0) hs hls (by decide)
  refine ⟨_, by rw [run_bind_ok hmap]; exact hunmap, hv, (hgu.trans hgv).congr rfl rfl, by rw [hev, heu]⟩

theorem Backed.grows {I : Finset ℕ} (hb : Backed s w) (h : AddsTables τ I n s g t g') : Backed t w where
  present := hb.present
  frame := h.places.numberOfFrames ▸ hb.frame
  not_free := h.not_free hb.not_free
  counted := by rw [h.info _ hb.not_free]; exact hb.counted
  uint16 := by rw [h.info _ hb.not_free]; exact hb.uint16

/-- What a call relies on: entries are 0 or present on frames in use, both ranges are user
pages, and the source pages are mapped. -/
structure CanCut (E : Finset ℕ) (s : Machine) (g : Obj → ℕ) (τ : Tree) (source dest num : ℕ) : Prop where
  stocked : Stocked E s g
  tree : τ ∈ mmuTrees E
  root : g (.root τ) ≠ 0
  backed : ∀ n, s.entries g (τ, n) ≠ 0 → Backed s (s.entries g (τ, n))
  source_le : roundDown source pageSize + pageSize * num ≤ userTop
  dest_le : roundDown dest pageSize + pageSize * num ≤ userTop
  mapped : ∀ k < num, s.entries g (τ, pageNumber source + k) ≠ 0

/-- The state after `k` pages were moved. -/
structure MovedPages (E : Finset ℕ) (s : Machine) (g : Obj → ℕ) (τ : Tree) (source dest k : ℕ) (t : Machine)
    (g' : Obj → ℕ) : Prop where
  stocked : Stocked E t g'
  grows : AddsTables τ (tablesOf (roundDown dest pageSize) k) 0 s g t g'
  entries : t.entries g' = cutPasted (s.entries g) τ (pageNumber source) (pageNumber dest) k

/-- The number of destination tables that are missing. -/
def missingTables (g : Obj → ℕ) (τ : Tree) (va n : ℕ) : ℕ := (absent g τ (tablesOf (roundDown va pageSize) n)).card

namespace CanCut

variable (h : CanCut E s g τ source dest num)
  (h0 : ∀ k < num, s.entries g (τ, pageNumber dest + k) = 0)
include h h0

theorem ranges_ne {i j : ℕ} (hi : i < num) (hj : j < num) : pageNumber source + i ≠ pageNumber dest + j := fun he =>
  h.mapped i hi (he ▸ h0 j hj)

theorem cutPastePage_sat (hk : k < num) (ht : MovedPages E s g τ source dest k t g') :
    Sat (Short s (missingTables g τ dest num) (missingTables g τ dest num))
      (cutPastePage (g (.root τ)) (roundDown source pageSize) (roundDown dest pageSize) k) t fun _ u =>
        ∃ g'', MovedPages E s g τ source dest (k + 1) u g'' := by
  obtain ⟨hps, hs⟩ := pageOf_user h.source_le hk
  obtain ⟨hpd, hd⟩ := pageOf_user h.dest_le hk
  have hns := pageNumber_add (roundDown source pageSize) k
  have hnd := pageNumber_add (roundDown dest pageSize) k
  rw [pageNumber_roundDown] at hns hnd
  rw [cutPastePage, hps, hpd, ← ht.grows.rootTable]
  have hcard : (absent g τ (tablesOf (roundDown dest pageSize) k)).card +
      missing g' τ (roundDown dest pageSize + pageSize * k) ≤ missingTables g τ dest num := by
    rw [← card_absent_singleton, ← ht.grows.card_union, ← tablesOf_succ]
    exact Finset.card_le_card (absent_mono (tablesOf_mono _ hk))
  refine (ht.stocked.ensureTable_sat (a := 0) (b := 0) h.tree (ht.grows.rootTable τ ▸ h.root) hd
    (fun _ hpt => if_neg hpt) (if_pos rfl) fun u g'' hu hgu heu => ?_).weaken fun e he => (ht.grows.spent.short he).mono (by omega) (by omega)
  rw [← hgu.rootTable]
  have hgrows : AddsTables τ (tablesOf (roundDown dest pageSize) (k + 1)) 0 s g u g'' :=
    (ht.grows.trans hgu).congr (tablesOf_succ _ _).symm rfl
  -- the entries of the two pages are still those of the start
  have hb := (h.backed _ (h.mapped k hk)).grows hgrows
  have hsource : u.entries g'' (τ, pageNumber (roundDown source pageSize + pageSize * k)) =
      s.entries g (τ, pageNumber source + k) := by
    rw [hns, heu, ht.entries, cutPasted_source fun j hj => h.ranges_ne h0 hk (hj.trans hk)]
  have hdest : u.entries g'' (τ, pageNumber (roundDown dest pageSize + pageSize * k)) = 0 := by
    rw [hnd, heu, ht.entries, cutPasted_dest fun j hj => h.ranges_ne h0 (hj.trans hk) hk, h0 k hk]
  have hls := table_of_entry hs (hsource ▸ h.mapped k hk)
  have hld := hgu.table _ (Finset.mem_singleton_self _)
  have htab := hu.hasTable hs hls
  have hword := hu.word_entry hs hls
  rw [hsource] at hword
  refine .bind_ok htab.get (.bind_ok (readEntry_run htab.read) (.bind_ok (htab.getFrameInfo_some ?_ ?_) ?_))
  · rw [hword]
    exact h.mapped k hk
  · rw [hword]
    exact hb.frame
  · rw [hword]
    obtain ⟨v, hrun, hv, hgv, hev⟩ := hu.movePage_run hs hd hls hld hdest hsource hb
    refine .of_ok hrun ⟨g'', hv, (hgrows.trans hgv).congr (Finset.union_empty _) rfl, ?_⟩
    rw [hev, hns, hnd, heu, ht.entries]
    exact cutPasted_succ fun i hi j hj => h.ranges_ne h0 (by omega) (by omega)

end CanCut

/-- `cut_paste_pages` refuses if a destination page is mapped, with nothing changed; otherwise it
moves all pages. Frames are taken for missing destination tables only. -/
theorem cutPastePages_all_or_nothing (h : CanCut E s g τ source dest num) :
    Sat (Short s (missingTables g τ dest num) (missingTables g τ dest num))
      (cutPastePages (g (.root τ)) source dest num) s fun r t =>
        (∃ k < num, s.entries g (τ, pageNumber dest + k) ≠ 0) ∧ r = -1 ∧ t = s ∨
        (∀ k < num, s.entries g (τ, pageNumber dest + k) = 0) ∧ r = 0 ∧
          ∃ g', MovedPages E s g τ source dest num t g' := by
  have hcheck := h.stocked.anyMapped_run h.root h.dest_le
    fun k _ hne => by
      rw [pageNumber_roundDown] at hne ⊢
      exact (h.backed _ hne).frame
  rw [pageNumber_roundDown] at hcheck
  rw [cutPastePages]
  refine .bind_ok hcheck ?_
  by_cases hmapped : ∃ k < num, s.entries g (τ, pageNumber dest + k) ≠ 0
  · rw [decide_eq_true hmapped]
    exact .pure (.inl ⟨hmapped, rfl, rfl⟩)
  · have h0 (k : ℕ) (hk : k < num) : s.entries g (τ, pageNumber dest + k) = 0 := by
      by_contra hne
      exact hmapped ⟨k, hk, hne⟩
    rw [decide_eq_false hmapped]
    have hloop := Sat.forRange (s := s) (i := 0) (n := num)
      (fun k t => ∃ g', MovedPages E s g τ source dest k t g')
      ⟨g, h.stocked, .refl (by simp [tablesOf_zero]) s, cutPasted_zero.symm⟩
      fun k t _ hk ht => by
        obtain ⟨g', ht⟩ := ht
        exact h.cutPastePage_sat h0 (by omega) ht
    refine hloop.bind fun _ t ht => ?_
    rw [Nat.zero_add] at ht
    exact .pure (.inr ⟨h0, rfl, ht⟩)

theorem cutPastePages_all_or_nothing_onePage : ∃ s g t g', CanCut {0, 1} s g (.user 0) 0 (4 * 2 ^ 20 + 5) 1 ∧
    (cutPastePages (g (.root (.user 0))) 0 (4 * 2 ^ 20 + 5) 1).run s = .ok (0, t) ∧
    MovedPages {0, 1} s g (.user 0) 0 (4 * 2 ^ 20 + 5) 1 t g' := by
  obtain ⟨s, g, f, hs, ho, hentries, hf, hrefs, hlen, hroom, -⟩ := exists_onePage
  have hentry (n : ℕ) : s.entries g (.user 0, n) = if n = 0 then newEntry f (permUser ||| permWriteable) else 0 := by
    rw [hentries, Function.update_apply]
    simp
  have hframe : frameNumber (newEntry f (permUser ||| permWriteable)) = f := frameNumber_newEntry (by decide)
  have hcut : CanCut {0, 1} s g (.user 0) 0 (4 * 2 ^ 20 + 5) 1 := by
    refine ⟨hs, by simp, ho, fun n hn => ?_, by decide, by decide, fun k hk => ?_⟩
    · rw [hentry] at hn ⊢
      split at hn
      · rw [if_pos ‹_›]
        refine ⟨newEntry_present .., ?_, ?_, ?_, ?_⟩ <;> rw [hframe]
        · exact hs.ordinary_lt hf.toOrdinary
        · exact hf.not_free
        · omega
        · omega
      · exact absurd rfl hn
    · obtain rfl : k = 0 := by omega
      rw [hentry, if_pos (by decide)]
      exact newEntry_ne_zero f _
  have hshort : missingTables g (.user 0) (4 * 2 ^ 20 + 5) 1 ≤ 1 :=
    (Finset.card_filter_le _ _).trans (Finset.card_image_le.trans (by simp))
  have hok : Sat (fun _ => False) _ _ _ := (cutPastePages_all_or_nothing hcut).weaken fun e he => by
    rcases he with ⟨-, hlt⟩ | ⟨-, hr⟩
    · omega
    · exact hr (hroom.mono (by omega))
  obtain ⟨r, t, hrun, ⟨⟨k, hk, hne⟩, -⟩ | ⟨-, rfl, g', ht⟩⟩ := hok.exists_ok
  · obtain rfl : k = 0 := by omega
    rw [hentry, if_neg (by decide)] at hne
    exact absurd rfl hne
  · exact ⟨s, g, t, g', hcut, hrun, ht⟩

end FosKernel.Machine
