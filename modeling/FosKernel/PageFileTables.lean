import FosKernel.EntryChanges
import FosKernel.PageFile

/-!
# The tables of the page file

The directory and the tables of a page file are among the kernel's own pages, and
`entries` gives the numbers of disk frames as it gives the entries for user pages.
-/

namespace FosKernel.Machine
open FailingPrograms PageEntries

variable {s t u : Machine} {E : Finset ℕ} {g : Obj → ℕ} {τ : Tree} {e f i j va w : ℕ}

theorem Layout.getDiskPageTable_some (h : Layout E s g) (hva : va < userTop) (hl : g (.leaf (.disk e) (pdx va)) ≠ 0)
    (create : Bool) : (getDiskPageTable (g (.root (.disk e))) va create).run s = .ok (g (.leaf (.disk e) (pdx va)), s) := by
  have ho := (h.leaf _ _ hl).2
  have hkern : checkIfKernelAddress va = false := by simpa [checkIfKernelAddress] using hva
  have hread := readEntry_run (j := pdx va) (h.translate_object ho (by decide))
  have hw := h.pde (.disk e) _ (pdx_lt_userTop hva) ho
  rw [cellWord_word ho (pdx_lt va), if_neg hl] at hw
  have hobj := h.object _ (by simp) hl
  have hframe : frameNumber (extractAddress (constructEntry
      (toPhysicalAddress (s.pageFrame (g (.leaf (.disk e) (pdx va))))) (Tree.disk e).perm)) =
      s.pageFrame (g (.leaf (.disk e) (pdx va))) := by
    rw [frameNumber_extractAddress, toPhysicalAddress, pageSize, frameNumber_constructEntry (Tree.perm_lt _)]
  have h0 : constructEntry (toPhysicalAddress (s.pageFrame (g (.leaf (.disk e) (pdx va))))) (Tree.disk e).perm ≠ 0 :=
    ne_zero_of_hasPerm_present (HasPerm.or_left (Tree.perm_present _))
  have hlt := h.managed_lt hobj.managed
  rw [getDiskPageTable, run_bind_ok hread, hw, hkern]
  simp only [Bool.false_eq_true, ↓reduceIte]
  rw [run_bind_ok (kheapVirtualAddress_run (by rwa [hframe])), if_pos h0, run_pure, hframe, hobj.va]

theorem Layout.getDiskPageTable_none (h : Layout E s g) (ho : g (.root (.disk e)) ≠ 0) (hva : va < userTop)
    (hl : g (.leaf (.disk e) (pdx va)) = 0) (create : Bool) : (getDiskPageTable (g (.root (.disk e))) va create).run s =
      (if create then do
        let pt ← kmalloc createPageTable pageSize
        if pt = 0 then return 0
        writeEntry (g (.root (.disk e))) (pdx va) (constructEntry (← kheapPhysicalAddress pt) permPresent)
        clearPage pt
        return pt
      else return 0 : Kernel ℕ).run s := by
  have hkern : checkIfKernelAddress va = false := by simpa [checkIfKernelAddress] using hva
  have hread := readEntry_run (j := pdx va) (h.translate_object ho (by decide))
  have hw := h.pde (.disk e) _ (pdx_lt_userTop hva) ho
  rw [cellWord_word ho (pdx_lt va), if_pos hl] at hw
  have hlt : frameNumber (extractAddress 0) < s.numberOfFrames := by
    have := h.enough
    exact lt_of_lt_of_le (by decide) this
  rw [getDiskPageTable, run_bind_ok hread, hw, hkern]
  simp only [Bool.false_eq_true, ↓reduceIte]
  rw [run_bind_ok (kheapVirtualAddress_run hlt), if_neg (by simp)]

theorem Layout.getDiskPageTable_run (h : Layout E s g) (ho : g (.root (.disk e)) ≠ 0) (hva : va < userTop) :
    (getDiskPageTable (g (.root (.disk e))) va false).run s = .ok (g (.leaf (.disk e) (pdx va)), s) := by
  by_cases hl : g (.leaf (.disk e) (pdx va)) = 0
  · rw [h.getDiskPageTable_none ho hva hl, hl]
    rfl
  · exact h.getDiskPageTable_some hva hl false

theorem Stocked.setDiskFree (h : Stocked E s g) (ds : List ℕ) :
    Stocked E { s with diskFreeFrameList := ds } g ∧
      ({ s with diskFreeFrameList := ds } : Machine).cellWord g = s.cellWord g := by
  have hst : UserStep s { s with diskFreeFrameList := ds } :=
    ⟨⟨⟨rfl, rfl, rfl, rfl⟩, fun _ => rfl, fun _ => rfl, fun _ => rfl⟩, rfl, rfl, fun _ _ => rfl, h.nodup, h.free⟩
  have hready := h.toReady.same hst rfl
  exact ⟨⟨hready, h.heap.keep hready rfl rfl (fun _ _ => rfl) fun _ _ => rfl⟩,
    Layout.cellWord_congr hst.places.toSameBoot rfl g⟩

/-- The page with this number is not in the page file any more. -/
structure ClearedDiskPage (E : Finset ℕ) (s : Machine) (g : Obj → ℕ) (e p : ℕ) (t : Machine) : Prop where
  stocked : Stocked E t g
  entries : t.entries g = Function.update (s.entries g) (.disk e, p) 0
  other : ∀ x, (∀ τ i j, x ≠ .word (.leaf τ i) j) → t.cellWord g x = s.cellWord g x
  info : t.framesInfo = s.framesInfo
  free : t.freeFrameList = s.freeFrameList
  ordinary : ∀ f, Ordinary s f → Ordinary t f ∧ t.ram f = s.ram f
  disk : t.diskFreeFrameList = [s.entries g (.disk e, p)].filter (· ≠ 0) ++ s.diskFreeFrameList
  globals : SameGlobals { s with diskFreeFrameList := t.diskFreeFrameList } t

theorem ClearedDiskPage.refl (h : Stocked E s g) (h0 : s.entries g (.disk e, i) = 0) : ClearedDiskPage E s g e i s where
  stocked := h
  entries := by rw [← h0, Function.update_eq_self]
  other _ _ := rfl
  info := rfl
  free := rfl
  ordinary _ hf := ⟨hf, rfl⟩
  disk := by simp [h0]
  globals := .refl s

/-- `pf_remove_env_page` -/
theorem Stocked.pfRemoveEnvPage_run (h : Stocked E s g) (hva : va < userTop) :
    ∃ t, (pfRemoveEnvPage e va).run s = .ok ((), t) ∧ ClearedDiskPage E s g e (pageNumber va) t := by
  have hdir : (s.envs e).diskEnvPgdir = g (.root (.disk e)) := (h.roots e).2
  rw [pfRemoveEnvPage, run_bind_ok run_get]
  simp only [hdir]
  by_cases ho : g (.root (.disk e)) = 0
  · have hl : g (.leaf (.disk e) (pdx va)) = 0 := by
      by_contra hl
      exact (h.leaf _ _ hl).2 ho
    exact ⟨s, by rw [if_pos ho]; rfl, .refl h (entries_absent hva hl)⟩
  · rw [if_neg ho, run_bind_ok (h.getDiskPageTable_run ho hva)]
    by_cases hl : g (.leaf (.disk e) (pdx va)) = 0
    · exact ⟨s, by rw [if_pos hl]; rfl, .refl h (entries_absent hva hl)⟩
    · have htab := h.hasTable hva hl
      obtain ⟨ht, hent⟩ := h.set (w := 0) h.toReady.userStep_self rfl hva hl (by decide)
      have hcell := h.setEntry_cells (w := 0) h.toReady.userStep_self.places rfl hva hl (by decide)
      have hst := sameGlobals_setEntry s (s.entryFrame g (.disk e) va) (ptx va) 0
      rw [if_neg hl, run_bind_ok (readEntry_run htab.read), run_bind_ok (writeEntry_run htab.write), h.word_entry hva hl]
      set t := s.setEntry (s.entryFrame g (.disk e) va) (ptx va) 0
      have hother (x : Cell) (hx : ∀ τ i j, x ≠ .word (.leaf τ i) j) : t.cellWord g x = s.cellWord g x := by
        rw [hcell, cellAt_user hva, Function.update_of_ne (hx _ _ _)]
      have hord (f : ℕ) (hf : Ordinary s f) : Ordinary t f ∧ t.ram f = s.ram f :=
        ⟨hf.congr hst.places.toSameBoot fun q hq => kernelPte_of_user hva hcell hq,
          setFrame_ram_of_ne (h.ordinary_ne hf hl).symm⟩
      by_cases hz : s.entries g (.disk e, pageNumber va) = 0
      · refine ⟨t, by rw [freeDiskFrame, if_neg (not_not.mpr hz)]; rfl, ht, hent, hother, rfl, rfl, hord, ?_, hst⟩
        rw [hz]
        rfl
      · obtain ⟨hu, hucell⟩ := ht.setDiskFree (s.entries g (.disk e, pageNumber va) :: s.diskFreeFrameList)
        refine ⟨_, by rw [freeDiskFrame, if_pos hz]; rfl, hu, (entries_congr fun τ' i j => congrFun hucell _).trans hent,
          fun x hx => (congrFun hucell x).trans (hother x hx), rfl, rfl, fun f hf => ?_, ?_, ?_⟩
        · obtain ⟨hf', hram⟩ := hord f hf
          exact ⟨hf'.congr ⟨rfl, rfl, rfl, rfl⟩ fun _ _ => rfl, hram⟩
        · simp [hz]
        · constructor <;> rfl

end FosKernel.Machine
