import FosKernel.PageFileTables
import FosKernel.UserAccesses

/-!
# Writing pages to the page file

`pf_add_env_page` gives a page a disk frame if it has none, and writes the page from where
it is mapped. `pf_update_env_page` writes the frame of the page from `USER_LIMIT`.
-/

namespace FosKernel.Machine
open FailingPrograms PageEntries

variable {s t u : Machine} {E : Finset ℕ} {g g' : Obj → ℕ} {τ : Tree} {v : Env} {P Q : Set (Tree × ℕ)} {F G : Set ℕ}
  {d e f i j k m p va w : ℕ} {ds : List ℕ}

theorem setWord_wordAt (p : Page) (j : ℕ) : setWord p j (wordAt p j) = p := by
  funext o
  simp only [setWord]
  split
  · rename_i hdiv
    have h (i : ℕ) : (byteAt p (4 * j + i)).toNat < 256 := (byteAt p (4 * j + i)).toNat_lt
    have h₀ := h 0
    have h₁ := h 1
    have h₂ := h 2
    have h₃ := h 3
    rw [Nat.add_zero] at h₀
    have hbyte (i : ℕ) (hi : o.val = 4 * j + i) : p o = byteAt p (4 * j + i) := by
      rw [byteAt]
      congr 1
      apply Fin.ext
      rw [Fin.val_ofNat, hi, Nat.mod_eq_of_lt (hi ▸ o.isLt)]
    apply UInt8.toNat_inj.mp
    rw [UInt8.toNat_ofNat', wordAt]
    have hcases : o.val % 4 = 0 ∨ o.val % 4 = 1 ∨ o.val % 4 = 2 ∨ o.val % 4 = 3 := by omega
    rcases hcases with hi | hi | hi | hi
    · have hfirst := hbyte 0 (by omega)
      rw [Nat.add_zero] at hfirst
      rw [hfirst, hi]
      omega
    · rw [hbyte 1 (by omega), hi]
      omega
    · rw [hbyte 2 (by omega), hi]
      omega
    · rw [hbyte 3 (by omega), hi]
      omega
  · rfl

/-- Writing the word that is there already. -/
theorem setEntry_wordAt (hw : wordAt (s.ram f) j = w) : s.setEntry f j w = s := by
  rw [← hw, setEntry, setWord_wordAt, setFrame, Function.update_eq_self]

theorem translate_page {va' need : ℕ} (hva : va < kernelBase) (hva' : va' < kernelBase) (hp : va' / pageSize = va / pageSize) :
    s.translate need va' = s.translate need va := by
  have hpdx : pdx va' = pdx va := by
    simp only [pdx, pageSize] at *
    omega
  have hptx : ptx va' = ptx va := by
    simp only [ptx, pageSize] at *
    omega
  have hstatic {a : ℕ} (ha : a < kernelBase) : ¬(kernelBase ≤ a ∧ a < s.ptrFreeMem) := fun h => by omega
  have hpde : s.pde va' = s.pde va := by rw [pde, pde, hpdx]
  have hpte : s.pte va' = s.pte va := by rw [pte, pte, hpde, hptx]
  rw [translate, if_neg (hstatic hva'), translate, if_neg (hstatic hva), hpde, hpte]

theorem readPage_eq (s : Machine) (f : ℕ) (hd : pageSize ∣ va) : (fun o : Fin 4096 =>
    if va % pageSize + o.val < pageSize then byteAt (s.ram f) (va + o.val) else byteAt (s.ram f) (va + o.val)) = s.ram f := by
  funext o
  obtain ⟨n, rfl⟩ := hd
  rw [ite_self, byteAt]
  congr 1
  apply Fin.ext
  rw [Fin.val_ofNat, pageSize, Nat.mul_add_mod, Nat.mod_eq_of_lt o.isLt]

theorem readPage_unmarked (hlo : userTop ≤ va) (hlt : va + pageSize ≤ 2 ^ 32) (hd : pageSize ∣ va)
    (htr : s.translate permPresent va = some f) (htr' : s.translate permPresent (va + (pageSize - 1)) = some f) :
    (readPage va).run s = .ok (s.ram f, s) := by
  have hlast : u32 (va + (pageSize - 1)) = va + (pageSize - 1) := u32_of_lt (by simp only [pageSize] at *; omega)
  have htouch {a : ℕ} (ha : userTop ≤ a) (m : ℕ) : s.touch a m = s := if_neg (not_lt.mpr ha)
  rw [readPage, run_bind_ok (frameAt_run htr), run_bind_ok (run_modify _), htouch hlo, hlast, run_bind_ok (frameAt_run htr'),
    run_bind_ok (run_modify _), htouch (hlo.trans (Nat.le_add_right _ _)), run_bind_ok run_get, run_pure, readPage_eq s f hd]

theorem readPage_kernel (hlo : userTop ≤ va) (hhi : va + pageSize ≤ kernelBase) (hd : pageSize ∣ va)
    (htr : s.translate permPresent va = some f) : (readPage va).run s = .ok (s.ram f, s) := by
  have hbase : kernelBase < 2 ^ 32 := by decide
  refine readPage_unmarked hlo (hhi.trans hbase.le) hd htr ?_
  have hva : va < kernelBase := by simp only [pageSize] at hhi; omega
  have hva' : va + (pageSize - 1) < kernelBase := by simp only [pageSize] at hhi ⊢; omega
  rw [translate_page hva hva', htr]
  simp only [pageSize] at *
  omega

theorem readPage_static (hlo : kernelBase ≤ va) (hhi : va + pageSize ≤ s.ptrFreeMem) (hfree : s.ptrFreeMem ≤ 2 ^ 32)
    (hd : pageSize ∣ va) : (readPage va).run s = .ok (s.ram (frameNumber (va - kernelBase)), s) := by
  have hpresent : HasPerm (permPresent ||| permWriteable) permPresent := by decide
  have hlow : userTop ≤ kernelBase := by decide
  have hlast : kernelBase ≤ va + (pageSize - 1) ∧ va + (pageSize - 1) < s.ptrFreeMem := by
    simp only [pageSize] at *
    omega
  have hframe : frameNumber (va + (pageSize - 1) - kernelBase) = frameNumber (va - kernelBase) := by
    simp only [frameNumber, pageSize, kernelBase] at *
    omega
  refine readPage_unmarked (hlow.trans hlo) (hhi.trans hfree) hd (translate_static ⟨hlo, ?_⟩ hpresent) ?_
  · omega
  · rw [translate_static hlast hpresent, hframe]

def setDisk (s : Machine) (d : ℕ) (pg : Page) : Machine := { s with disk := Function.update s.disk d pg }

/-- What `pf_update_env_page` does with the machine when the frame is not freed. -/
def paged (s : Machine) (e d : ℕ) (pg : Page) : Machine :=
  (s.setDisk d pg).setEnv e { s.envs e with nPageOut := u32 ((s.envs e).nPageOut + 1) }

theorem usable_userLimit (h : Layout E s g) : Usable g userLimit := by
  refine .inr ⟨.inl (by decide), fun o hk he => ?_⟩
  have hround : roundDown userLimit pageSize = userLimit := by decide
  rw [hround] at he
  have hpos : userLimit ≠ 0 := by decide
  have hstart := (h.object o hk (he ▸ hpos)).heap.start
  rw [he] at hstart
  exact absurd hstart (by decide)

/-- The frame mapped at `USER_LIMIT`. -/
def windowed (s : Machine) (f : ℕ) : Machine :=
  (s.addReference f).setEntry (s.kernelTable (pdx userLimit)) (ptx userLimit) (newEntry f 0)

section Window

variable (h : Layout E s g) (hτ : τ ∈ mmuTrees E) (ho : g (.root τ) ≠ 0)
include h hτ ho

theorem Layout.windowTable : HasTable s (g (.root τ)) userLimit (kernelBase + pageSize * s.kernelTable (pdx userLimit))
    (s.kernelTable (pdx userLimit)) :=
  (h.located_shared hτ ho (by decide) (usable_userLimit h)).toHasTable

theorem Layout.mapFrame_window (hlim : s.kernelPte userLimit = 0) :
    (mapFrame createPageTable (g (.root τ)) f userLimit 0).run s = .ok (0, s.windowed f) := by
  have hword : wordAt (s.ram (s.kernelTable (pdx userLimit))) (ptx userLimit) = 0 := hlim
  exact (h.windowTable hτ ho).mapFrame_unmapped (by rw [hword]; decide)

theorem Layout.window (hf : f < s.numberOfFrames) : Layout E (s.windowed f) g ∧
    (s.windowed f).kernelPte userLimit = newEntry f 0 ∧ (s.windowed f).kernelTable (pdx userLimit) =
      s.kernelTable (pdx userLimit) := by
  have hloc := h.located_shared hτ ho (by decide) (usable_userLimit h)
  have hlt : newEntry f 0 < 2 ^ 32 := h.newEntry_lt hf (by decide)
  have hplaces : SamePlaces s (s.windowed f) :=
    ((sameMemory_setInfo s f _).toSameGlobals.trans (sameGlobals_setEntry ..)).places
  have hcell : (s.windowed f).cellWord g = Function.update (s.cellWord g) (cellAt τ userLimit) (newEntry f 0) :=
    hloc.set hplaces hlt rfl
  have hpage : cellAt τ userLimit = .page userLimit := cellAt_page (.inl rfl)
  have hlay : Layout E (s.windowed f) g := by
    refine h.of_update hplaces hcell (fun o hk _ => (usable_userLimit h).ne_page hk) (fun _ _ => cellAt_ne_root) fun o _ _ => ?_
    exact addReference_va s f _
  refine ⟨hlay, ?_, ?_⟩
  · rw [← cellWord_page (.inl rfl) g, hcell, hpage, Function.update_self]
  · have hk : (s.windowed f).cellWord g (.word (.root .kernel) (pdx userLimit)) =
        s.cellWord g (.word (.root .kernel) (pdx userLimit)) := by
      rw [hcell, Function.update_of_ne cellAt_ne_root.symm]
    have hi : pdx userLimit ∈ kernelTables := Set.mem_insert ..
    rw [hlay.cellWord_root kernel_mem_mmuTrees hlay.kernelRoot_ne hi, h.cellWord_root kernel_mem_mmuTrees h.kernelRoot_ne hi] at hk
    rw [kernelTable, hk, kernelTable]

theorem Layout.unmapFrame_window {v : FrameInfo} (hpte : s.kernelPte userLimit = newEntry f 0) (hf : f < s.numberOfFrames)
    (hv : v.va = (s.framesInfo f).va) (d : ℕ) (pg : Page) : (unmapFrame (g (.root τ)) userLimit).run ((s.setDisk d pg).setInfo f v) =
      .ok ((), (((s.setDisk d pg).setInfo f v).dropReference f).setEntry (s.kernelTable (pdx userLimit)) (ptx userLimit) 0) := by
  have hst : SamePlaces s ((s.setDisk d pg).setInfo f v) := ⟨⟨rfl, rfl, rfl, rfl⟩, fun _ => rfl, fun _ => rfl, fun _ => rfl⟩
  have hlay : Layout E ((s.setDisk d pg).setInfo f v) g := by
    refine h.congr hst (Layout.cellWord_congr hst.toSameBoot rfl g) fun o _ _ => ?_
    by_cases hof : s.pageFrame (g o) = f
    · rw [hof, setInfo_self, hv]
    · rw [setInfo_of_ne hof]
      rfl
  have hword : wordAt (((s.setDisk d pg).setInfo f v).ram (((s.setDisk d pg).setInfo f v).kernelTable (pdx userLimit)))
    (ptx userLimit) = newEntry f 0 := hpte
  have hrun := (hlay.windowTable hτ ho).unmapFrame_run (hword.symm ▸ newEntry_ne_zero f 0)
    (by rw [hword, frameNumber_newEntry (by decide)]; exact hf)
  rwa [hword, frameNumber_newEntry (by decide)] at hrun

end Window

theorem addReferences_addReferences (v : FrameInfo) (m n : ℕ) : (v.addReferences m).addReferences n = v.addReferences (m + n) := by
  simp only [FrameInfo.addReferences, Nat.mod_add_mod, Nat.add_assoc]

theorem addReferences_wrap {v : FrameInfo} (h : v.references < 2 ^ 16) (k : ℕ) : v.addReferences (2 ^ 16 * k) = v := by
  simp only [FrameInfo.addReferences, Nat.add_mul_mod_self_left, Nat.mod_eq_of_lt h]

theorem setInfo_setInfo (s : Machine) (f : ℕ) (v v' : FrameInfo) : (s.setInfo f v).setInfo f v' = s.setInfo f v' := by
  simp only [setInfo, Function.update_idem]

/-- Clearing the entry at `USER_LIMIT` leaves the tables as they were. -/
theorem windowed_cleared (hlim : s.kernelPte userLimit = 0) (f d : ℕ) (pg : Page) (v : FrameInfo) :
    (((s.windowed f).setDisk d pg).setInfo f v).setEntry (s.kernelTable (pdx userLimit)) (ptx userLimit) 0 =
      (s.setDisk d pg).setInfo f v := by
  have hcomm : ((s.windowed f).setDisk d pg).setInfo f v = (((s.addReference f).setDisk d pg).setInfo f v).setEntry
    (s.kernelTable (pdx userLimit)) (ptx userLimit) (newEntry f 0) := by rfl
  have hinfo : ((s.addReference f).setDisk d pg).setInfo f v = (s.setDisk d pg).setInfo f v := setInfo_setInfo (s.setDisk d pg) ..
  rw [hcomm, setEntry_setEntry, hinfo]
  exact setEntry_wordAt (s := (s.setDisk d pg).setInfo f v) hlim

/-- What `pf_update_env_page` leaves when it frees the frame that it writes. -/
def freedWhilePaged (s : Machine) (e d f : ℕ) (pg : Page) : Machine :=
  ((s.paged e d pg).setInfo f (FrameInfo.initial.addReferences (2 ^ 16 - 1))).setFree (f :: s.freeFrameList)

/-- The frame is written from `USER_LIMIT`. The count of its record is 1 too high while it is mapped there, so that the
largest count wraps to 0. -/
theorem Layout.pfWriteFrame_run (h : Layout E s g) (he : e ∈ E) (ho : g (.root (.user e)) ≠ 0) (hdisk : g (.root (.disk e)) ≠ 0)
    (hva : va < userTop) (hd : s.entries g (.disk e, pageNumber va) = d) (hd0 : d ≠ 0) (hlim : s.kernelPte userLimit = 0)
    (hf : s.Managed f) (hr : (s.framesInfo f).references < 2 ^ 16) : (pfWriteFrame e va f).run s =
      .ok (0, if (s.framesInfo f).references = 2 ^ 16 - 1 then s.freedWhilePaged e d f (s.ram f) else s.paged e d (s.ram f)) := by
  have hτ : Tree.user e ∈ mmuTrees E := user_mem_mmuTrees.mpr he
  have hl := table_of_entry hva (hd ▸ hd0)
  have hi : pdx userLimit ∈ kernelTables := Set.mem_insert ..
  have hlt := h.managed_lt hf
  have htab := h.hasTable hva hl
  have hread : (readEntry (g (.leaf (.disk e) (pdx va))) (ptx va)).run s = .ok (d, s) := by
    rw [readEntry_run htab.read, h.word_entry hva hl, hd]
  obtain ⟨hlay, hpte, hkt⟩ := h.window hτ ho hlt
  set F := s.kernelTable (pdx userLimit) with hF
  have hne : f ≠ F := by
    rintro rfl
    exact h.reserved.2 _ hi hf
  have hram : (s.windowed f).ram f = s.ram f := setFrame_ram_of_ne hne
  -- the page is read from the window
  have htr : (s.windowed f).translate permPresent userLimit = some f := by
    rw [hlay.translate_shared (.inl rfl) (by decide) (hpte.symm ▸ newEntry_present f 0), hpte, frameNumber_newEntry (by decide)]
  have hpage := readPage_kernel (by decide) (by decide) (by decide) htr
  rw [hram] at hpage
  have hwrite : (writeDiskPage d userLimit).run (s.windowed f) = .ok ((), (s.windowed f).setDisk d (s.ram f)) := by
    rw [writeDiskPage, run_bind_ok hpage, run_modify, setDisk]
  -- the records
  set v := s.framesInfo f with hv
  have hinfo : (s.windowed f).framesInfo f = v.addReferences 1 := by
    rw [windowed, setEntry_framesInfo, addReference, setInfo_self]
  have hunmap := hlay.unmapFrame_window hτ ho (v := v.addReferences (1 + 1)) hpte hlt (by rw [hinfo]; rfl) d (s.ram f)
  rw [hkt] at hunmap
  rw [pfWriteFrame, run_bind_ok run_get, (h.roots e).2, run_bind_ok (h.getDiskPageTable_run hdisk hva), run_bind_ok hread,
    run_bind_ok run_get, (h.roots e).1, run_bind_ok (h.mapFrame_window hτ ho hlim), run_bind_ok hwrite, run_bind_ok (run_modify _),
    show ((s.windowed f).setDisk d (s.ram f)).framesInfo f = _ from hinfo, addReferences_addReferences, run_bind_ok hunmap]
  have hx : (((s.windowed f).setDisk d (s.ram f)).setInfo f (v.addReferences (1 + 1))).framesInfo f = v.addReferences (1 + 1) :=
    setInfo_self ..
  have hsub : (v.addReferences (1 + 1 + (2 ^ 16 - 1))).references = (v.references + 1) % 2 ^ 16 := by
    rw [addReferences_references]
    omega
  by_cases hmax : v.references = 2 ^ 16 - 1
  · have hdrop : (((s.windowed f).setDisk d (s.ram f)).setInfo f (v.addReferences (1 + 1))).dropReference f =
        (((s.windowed f).setDisk d (s.ram f)).setInfo f .initial).setFree (f :: s.freeFrameList) := by
      rw [dropReference, hx, addReferences_addReferences, if_pos (by rw [hsub, hmax]; omega), setInfo_setInfo]
      rfl
    have hcomm : ((((s.windowed f).setDisk d (s.ram f)).setInfo f .initial).setFree (f :: s.freeFrameList)).setEntry F
        (ptx userLimit) 0 = ((((s.windowed f).setDisk d (s.ram f)).setInfo f .initial).setEntry F (ptx userLimit) 0).setFree
          (f :: s.freeFrameList) := by rfl
    rw [hdrop, hcomm, windowed_cleared hlim, run_bind_ok (run_modify _), if_pos hmax, setFree_framesInfo, setInfo_self]
    have hset : (((s.setDisk d (s.ram f)).setInfo f .initial).setFree (f :: s.freeFrameList)).setInfo f
        (FrameInfo.initial.addReferences (2 ^ 16 - 1)) = ((s.setDisk d (s.ram f)).setInfo f
          (FrameInfo.initial.addReferences (2 ^ 16 - 1))).setFree (f :: s.freeFrameList) :=
      congrArg (Machine.setFree · (f :: s.freeFrameList)) (setInfo_setInfo (s.setDisk d (s.ram f)) f .initial _)
    rw [hset]
    rfl
  · have hdrop : (((s.windowed f).setDisk d (s.ram f)).setInfo f (v.addReferences (1 + 1))).dropReference f =
        ((s.windowed f).setDisk d (s.ram f)).setInfo f (v.addReferences (1 + 1 + (2 ^ 16 - 1))) := by
      rw [dropReference, hx, addReferences_addReferences, if_neg (by rw [hsub]; omega), setInfo_setInfo]
    rw [hdrop, windowed_cleared hlim, run_bind_ok (run_modify _), setInfo_self, addReferences_addReferences, setInfo_setInfo,
      show 1 + 1 + (2 ^ 16 - 1) + (2 ^ 16 - 1) = 2 ^ 16 * 2 from rfl, addReferences_wrap hr, if_neg hmax]
    have hself : (s.setDisk d (s.ram f)).setInfo f v = s.setDisk d (s.ram f) := by
      rw [setInfo, show (s.setDisk d (s.ram f)).framesInfo = s.framesInfo from rfl, hv, Function.update_eq_self]
      rfl
    rw [hself]
    rfl

/-- Of the entries only those of `P` may have changed, and of the frames that the kernel does not use only `F`. -/
structure Changes (E : Finset ℕ) (s : Machine) (g : Obj → ℕ) (P : Set (Tree × ℕ)) (F : Set ℕ) (t : Machine) : Prop where
  stocked : Stocked E t g
  places : SamePlaces s t
  heap : t.heap = s.heap
  strategy : t.kHeapPlacementStrategy = s.kHeapPlacementStrategy
  entries : ∀ x ∉ P, t.entries g x = s.entries g x
  other : ∀ x, (∀ τ i j, x ≠ .word (.leaf τ i) j) → t.cellWord g x = s.cellWord g x
  info : ∀ f ∉ F, t.framesInfo f = s.framesInfo f
  ram : ∀ f ∉ F, Ordinary s f → t.ram f = s.ram f

namespace Changes

theorem refl (h : Stocked E s g) : Changes E s g P F s :=
  ⟨h, (SameGlobals.refl s).places, rfl, rfl, fun _ _ => rfl, fun _ _ => rfl, fun _ _ => rfl, fun _ _ _ => rfl⟩

theorem kernelPte (h : Changes E s g P F t) {q : ℕ} (hq : SharedPage q) : t.kernelPte q = s.kernelPte q := by
  rw [← cellWord_page hq g, h.other _ (by simp), cellWord_page hq]

theorem ordinary (h : Changes E s g P F t) (hf : Ordinary s f) : Ordinary t f :=
  hf.congr h.places.toSameBoot fun _ hq => h.kernelPte hq.shared

theorem loaded (h : Changes E s g P F t) (hs : Layout E s g) (ho : g (.root τ) ≠ 0)
    (hcr : frameNumber s.cr3 = s.pageFrame (g (.root τ))) : frameNumber t.cr3 = t.pageFrame (g (.root τ)) := by
  rw [hs.pageFrame_eq h.stocked.toLayout h.places.toSameBoot ho rfl (h.other _ (by simp)), h.places.cr3, hcr]

theorem reaches (h : Changes E s g P F t) (hr : Reaches E s g τ va) : Reaches E t g τ va :=
  ⟨h.stocked.toLayout, hr.tree, hr.root, h.loaded hr.layout hr.root hr.loaded, hr.user⟩

theorem mono {P' : Set (Tree × ℕ)} {F' : Set ℕ} (h : Changes E s g P F t) (hP : P ⊆ P') (hF : F ⊆ F') : Changes E s g P' F' t where
  stocked := h.stocked
  places := h.places
  heap := h.heap
  strategy := h.strategy
  entries x hx := h.entries x fun hm => hx (hP hm)
  other := h.other
  info f hf := h.info f fun hm => hf (hF hm)
  ram f hf := h.ram f fun hm => hf (hF hm)

theorem trans (h : Changes E s g P F t) (h' : Changes E t g Q G u) : Changes E s g (P ∪ Q) (F ∪ G) u where
  stocked := h'.stocked
  places := h.places.trans h'.places
  heap := h'.heap.trans h.heap
  strategy := h'.strategy.trans h.strategy
  entries x hx := (h'.entries x fun hm => hx (.inr hm)).trans (h.entries x fun hm => hx (.inl hm))
  other x hx := (h'.other x hx).trans (h.other x hx)
  info f hf := (h'.info f fun hm => hf (.inr hm)).trans (h.info f fun hm => hf (.inl hm))
  ram f hf ho := (h'.ram f (fun hm => hf (.inr hm)) (h.ordinary ho)).trans (h.ram f (fun hm => hf (.inl hm)) ho)

end Changes

namespace Stocked

variable (h : Stocked E s g)
include h

theorem changeEntry {r : Machine} (hr : UserStep s r) (hram : r.ram = s.ram) (hinfo : ∀ f ∉ F, r.framesInfo f = s.framesInfo f)
    (hva : va < userTop) (hl : g (.leaf τ (pdx va)) ≠ 0) (hw : w < 2 ^ 32) :
    Changes E s g {(τ, pageNumber va)} F (r.setEntry (s.entryFrame g τ va) (ptx va) w) ∧
      (r.setEntry (s.entryFrame g τ va) (ptx va) w).entries g = Function.update (s.entries g) (τ, pageNumber va) w := by
  obtain ⟨hst, hent⟩ := h.set hr hram hva hl hw
  have hcell := h.setEntry_cells hr.places hram hva hl hw
  have hstep := hr.setEntry (s.entryFrame g τ va) (ptx va) w
  refine ⟨⟨hst, hstep.places, hstep.heap, hstep.strategy, fun x hx => ?_, fun x hx => ?_, fun f hf => hinfo f hf, fun f _ ho => ?_⟩, hent⟩
  · rw [hent, Function.update_of_ne (by simpa using hx)]
  · rw [hcell, cellAt_user hva, Function.update_of_ne (hx _ _ _)]
  · exact (setFrame_ram_of_ne (h.ordinary_ne ho hl).symm).trans (congrFun hram f)

theorem changeNone (hs : UserStep s t) (hram : t.ram = s.ram) (hinfo : ∀ f ∉ F, t.framesInfo f = s.framesInfo f) :
    Changes E s g ∅ F t ∧ t.cellWord g = s.cellWord g := by
  have hready := h.toReady.same hs hram
  have hcell := Layout.cellWord_congr hs.places.toSameBoot hram g
  refine ⟨⟨⟨hready, h.heap.keep hready hs.heap hs.places.numberOfFrames (fun q hq => ?_) hs.info⟩, hs.places, hs.heap, hs.strategy,
    fun x _ => congrFun (entries_congr fun _ _ _ => congrFun hcell _) x, fun x _ => congrFun hcell x, hinfo,
    fun f _ _ => congrFun hram f⟩, hcell⟩
  have := congrFun hcell (.page q)
  rwa [cellWord_page hq.shared, cellWord_page hq.shared] at this

theorem changeFrame (hf : Ordinary s f) (pg : Page) : Changes E s g ∅ {f} (s.setFrame f pg) ∧
    (s.setFrame f pg).cellWord g = s.cellWord g := by
  have hst : SameGlobals s (s.setFrame f pg) := by constructor <;> rfl
  have hcell : (s.setFrame f pg).cellWord g = s.cellWord g :=
    h.cellWord_setData hf.managed (fun o _ ho => h.ordinary_ne hf ho) hst.places.toSameBoot rfl
  refine ⟨⟨h.of_layout (h.congr hst.places hcell fun _ _ _ => rfl) hst (fun q hq => ?_) rfl rfl, hst.places, rfl, rfl,
    fun x _ => congrFun (entries_congr fun _ _ _ => congrFun hcell _) x, fun x _ => congrFun hcell x, fun _ _ => rfl,
    fun f' hf' _ => setFrame_ram_of_ne hf'⟩, hcell⟩
  have := congrFun hcell (.page q)
  rwa [cellWord_page hq.shared, cellWord_page hq.shared] at this

theorem changeEnv (hdir : v.envPageDirectory = (s.envs e).envPageDirectory)
    (hdisk : v.diskEnvPgdir = (s.envs e).diskEnvPgdir) (hcr3 : v.envCr3 = (s.envs e).envCr3) :
    Changes E s g ∅ F (s.setEnv e v) ∧ (s.setEnv e v).cellWord g = s.cellWord g := by
  refine h.changeNone ⟨⟨⟨rfl, rfl, rfl, rfl⟩, fun e' => ?_, fun e' => ?_, fun e' => ?_⟩, rfl, rfl, fun _ _ => rfl, h.nodup,
    h.free⟩ rfl fun _ _ => rfl
  all_goals
    simp only [Machine.setEnv, Function.update_apply]
    split
    · subst e'
      assumption
    · rfl

end Stocked

/-- Neither the globals nor the records of frames change. -/
structure SameRecords (s t : Machine) : Prop extends SameGlobals s t where
  info : t.framesInfo = s.framesInfo
  free : t.freeFrameList = s.freeFrameList

theorem SameRecords.refl (s : Machine) : SameRecords s s := ⟨.refl s, rfl, rfl⟩

theorem SameRecords.trans (h : SameRecords s t) (h' : SameRecords t u) : SameRecords s u :=
  ⟨h.toSameGlobals.trans h'.toSameGlobals, h'.info.trans h.info, h'.free.trans h.free⟩

theorem sameRecords_setFrame (s : Machine) (f : ℕ) (pg : Page) : SameRecords s (s.setFrame f pg) :=
  ⟨by constructor <;> rfl, rfl, rfl⟩

theorem sameRecords_setEntry (s : Machine) (f j w : ℕ) : SameRecords s (s.setEntry f j w) := sameRecords_setFrame ..

theorem sameRecords_touch (s : Machine) (va m : ℕ) : SameRecords s (s.touch va m) := by
  rw [touch]
  split
  · exact sameRecords_setFrame ..
  · exact .refl s

namespace Stocked

theorem touch (h : Stocked E s g) (hr : Reaches E s g τ va) (hl : g (.leaf τ (pdx va)) ≠ 0) (hm : m < 4096) :
    Changes E s g {(τ, pageNumber va)} F (s.touch va m) ∧ (s.touch va m).entries g =
      Function.update (s.entries g) (τ, pageNumber va) (setPerm (s.entries g (τ, pageNumber va)) m) := by
  rw [hr.touch_eq hl]
  exact h.changeEntry h.toReady.userStep_self rfl (fun _ _ => rfl) hr.user hl (setPerm_lt (entries_lt ..) hm)

theorem readPage_run (h : Stocked E s g) (hr : Reaches E s g τ va) (hd : pageSize ∣ va)
    (hp : HasPerm (s.entries g (τ, pageNumber va)) permPresent) (hf : Ordinary s (s.backing g τ va)) :
    ∃ t, (readPage va).run s = .ok (s.ram (s.backing g τ va), t) ∧ Changes E s g {(τ, pageNumber va)} ∅ t ∧
      Marked (s.entries g (τ, pageNumber va)) (t.entries g (τ, pageNumber va)) ∧ SameRecords s t := by
  have hva := hr.user
  have hbase : userTop ≤ kernelBase := by decide
  have htop : pageSize ∣ userTop := by decide
  have hend : va + (pageSize - 1) < userTop := by
    simp only [pageSize] at *
    omega
  have hnum : pageNumber (va + (pageSize - 1)) = pageNumber va := by
    simp only [pageNumber, pageSize] at *
    omega
  have hu : u32 (va + (pageSize - 1)) = va + (pageSize - 1) := u32_of_lt (hend.trans userTop_lt)
  have hl := hr.table hp
  obtain ⟨h₁, he₁⟩ := h.touch (F := ∅) hr hl (m := permUsed) (by decide)
  set s₁ := s.touch va permUsed
  have hm₁ : Marked (s.entries g (τ, pageNumber va)) (s₁.entries g (τ, pageNumber va)) := by
    rw [he₁, Function.update_self]
    exact (Marked.refl _).setPerm (by decide) (by decide)
  have hp₁ := hm₁.present.mpr hp
  have hr₁ : Reaches E s₁ g τ (va + (pageSize - 1)) := h₁.reaches ⟨hr.layout, hr.tree, hr.root, hr.loaded, hend⟩
  have hl₁ := hr₁.table (hnum.symm ▸ hp₁)
  obtain ⟨h₂, he₂⟩ := h₁.stocked.touch (F := ∅) hr₁ hl₁ (m := permUsed) (by decide)
  rw [hnum] at h₂ he₂
  set s₂ := s₁.touch (va + (pageSize - 1)) permUsed
  have hm₂ : Marked (s.entries g (τ, pageNumber va)) (s₂.entries g (τ, pageNumber va)) := by
    rw [he₂, Function.update_self]
    exact hm₁.setPerm (by decide) (by decide)
  have hback : s₁.backing g τ (va + (pageSize - 1)) = s.backing g τ va := by
    rw [backing, hnum, hm₁.frameNumber_eq, backing]
  have htr : s.translate permPresent va = some (s.backing g τ va) := by
    rw [hr.translate (by decide) (by decide), if_pos hp]
  have htr₁ : s₁.translate permPresent (va + (pageSize - 1)) = some (s.backing g τ va) := by
    rw [hr₁.translate (by decide) (by decide), hnum, if_pos hp₁, hback]
  refine ⟨s₂, ?_, (h₁.trans h₂).mono (by simp) (by simp), hm₂, (sameRecords_touch ..).trans (sameRecords_touch ..)⟩
  rw [readPage, run_bind_ok (frameAt_run htr), run_bind_ok (run_modify _), hu, run_bind_ok (frameAt_run htr₁),
    run_bind_ok (run_modify _), run_bind_ok run_get, run_pure, readPage_eq s₂ _ hd,
    h₂.ram _ (Set.notMem_empty _) (h₁.ordinary hf), h₁.ram _ (Set.notMem_empty _) hf]

theorem writePage_run (h : Stocked E s g) (hr : Reaches E s g τ va)
    (hp : HasPerm (s.entries g (τ, pageNumber va)) (permPresent ||| permWriteable)) (hf : Ordinary s (s.backing g τ va)) (pg : Page) :
    ∃ t, (writePage va pg).run s = .ok ((), t) ∧ Changes E s g {(τ, pageNumber va)} {s.backing g τ va} t ∧
      Marked (s.entries g (τ, pageNumber va)) (t.entries g (τ, pageNumber va)) ∧ SameRecords s t ∧
      t.ram (s.backing g τ va) = pg := by
  obtain ⟨h₁, hcell⟩ := h.changeFrame hf pg
  have hent : (s.setFrame (s.backing g τ va) pg).entries g = s.entries g := entries_congr fun _ _ _ => congrFun hcell _
  have hr₁ := h₁.reaches hr
  obtain ⟨h₂, he₂⟩ := h₁.stocked.touch (F := ∅) hr₁ (hr.table (hasPerm_or.mp hp).1) (m := permUsed ||| permModified) (by decide)
  have htr : s.translate (permPresent ||| permWriteable) va = some (s.backing g τ va) := by
    rw [hr.translate (by decide) (by decide), if_pos hp]
  refine ⟨_, ?_, (h₁.trans h₂).mono (by simp) (by simp), ?_, (sameRecords_setFrame ..).trans (sameRecords_touch ..), ?_⟩
  · rw [writePage, run_bind_ok (frameAt_run htr), run_modify]
  · rw [he₂, Function.update_self, hent]
    exact (Marked.refl _).setPerm (by decide) (by decide)
  · rw [h₂.ram _ (Set.notMem_empty _) (h₁.ordinary hf), setFrame_ram_self]

end Stocked

/-- The machine with the disk and the records of environments of another one. -/
def withDevices (s t : Machine) : Machine :=
  { s with disk := t.disk, diskFreeFrameList := t.diskFreeFrameList, envs := t.envs }

theorem AddsTables.withDevices {I : Finset ℕ} {n : ℕ} (h : AddsTables τ I n s g t g') (u : Machine) :
    AddsTables τ I n (s.withDevices u) g (t.withDevices u) g' where
  globals := by
    obtain ⟨d, hd⟩ := h.globals
    exact ⟨d, hd.cr3, hd.numberOfFrames, hd.ptrFreeMem, hd.ptrPageDirectory, hd.heap, hd.strategy, rfl, rfl, rfl⟩
  table := h.table
  objects := h.objects
  other := h.other
  page := h.page
  root := h.root
  blocks := h.blocks
  info := h.info
  inUse f hf := by
    obtain ⟨ho, hram⟩ := h.inUse f ⟨hf.toOrdinary.congr ⟨rfl, rfl, rfl, rfl⟩ fun _ _ => rfl, hf.not_free⟩
    exact ⟨ho.congr ⟨rfl, rfl, rfl, rfl⟩ fun _ _ => rfl, hram⟩
  frames := h.frames
  free := h.free
  room := h.room

theorem withDevices_congr (h : SameGlobals t u) : s.withDevices u = s.withDevices t := by
  rw [withDevices, h.disk, h.diskFreeFrameList, h.envs, withDevices]

theorem Changes.adds (h : Changes E s g P ∅ t) (hr : SameRecords s t) : AddsTables τ ∅ 0 s g t g :=
  .of_step hr.toSameGlobals h.other (fun f _ => congrFun hr.info f)
    (fun _ hf => ⟨h.ordinary hf.toOrdinary, h.ram _ (Set.notMem_empty _) hf.toOrdinary⟩) (Nat.zero_le _) hr.free

theorem Layout.getDiskPageDirectory_run (h : Layout E s g) (ho : g (.root (.disk e)) ≠ 0) :
    (getDiskPageDirectory e).run s = .ok ((), s) := by
  rw [getDiskPageDirectory, run_bind_ok run_get, if_neg (by rw [(h.roots e).2]; exact ho)]
  rfl

/-- The environment has a directory for its page file, which has no tables. -/
structure NewDiskDirectory (E : Finset ℕ) (s : Machine) (g : Obj → ℕ) (e p : ℕ) (t : Machine) : Prop where
  ne : p ≠ 0
  stocked : Stocked E t (Function.update g (.root (.disk e)) p)
  entries : t.entries (Function.update g (.root (.disk e)) p) = s.entries g
  info : ∀ f, f ∉ s.freeFrameList → t.framesInfo f = s.framesInfo f
  inUse : ∀ f, InUse s f → InUse t f
  spent : Spent s t 1 1

theorem TakesPage.diskDirectory {p f : ℕ} (hnew : TakesPage E s g p f t) (h : Stocked E s g) (h0 : g (.root (.disk e)) = 0) :
    p ≠ 0 ∧ ∃ u, (do
      let pa ← kheapPhysicalAddress p
      modifyEnv e fun v => { v with diskEnvPgdirPA := pa }
      clearPage p : Kernel Unit).run (t.setEnv e { t.envs e with diskEnvPgdir := p }) = .ok ((), u) ∧
      NewDiskDirectory E s g e p u := by
  obtain ⟨hobj, hframe⟩ := hnew.object h.toReady
  have hsys := hnew.stocked
  have hpte : frameNumber (t.kernelPte p) = f := by
    rw [← hsys.pageFrame_heap hnew.page, hframe]
  have hlt : f < 2 ^ 20 := hframe ▸ (hsys.managed_lt hobj.managed).trans_le hsys.tables.frames
  set t₁ := t.setEnv e { t.envs e with diskEnvPgdir := p } with ht₁
  have hpa : (kheapPhysicalAddress p).run t₁ = .ok (toPhysicalAddress f, t₁) := by
    have hrun := ((hsys.tables.mono heapTables_subset).congr (t := t₁) rfl rfl rfl rfl).kheapPhysicalAddress_run hnew.page (hpte ▸ hlt)
    rwa [show frameNumber (t₁.kernelPte p) = f from hpte] at hrun
  set v : Env := { t₁.envs e with diskEnvPgdirPA := toPhysicalAddress f } with hv
  have hperm : HasPerm (t.kernelPte p) (permPresent ||| permWriteable) := by
    rw [hobj.entry]
    exact HasPerm.or_left (by decide)
  have hwrite : t.translate (permPresent ||| permWriteable) p = some f := by
    rw [hsys.translate_shared hnew.page.shared (by decide) hperm, ← hsys.pageFrame_heap hnew.page, hframe]
  have hclear : (clearPage p).run (t₁.setEnv e v) = .ok ((), (t₁.setEnv e v).setFrame f zeroPage) := clearPage_run hwrite
  set u := (t₁.setEnv e v).setFrame f zeroPage with hu
  have henv (e' : ℕ) : (u.envs e').envPageDirectory = (t.envs e').envPageDirectory ∧ (u.envs e').envCr3 = (t.envs e').envCr3 ∧
      (u.envs e').diskEnvPgdir = if e' = e then p else (t.envs e').diskEnvPgdir := by
    simp only [hu, setFrame, hv, ht₁, setEnv, Function.update_apply]
    split
    · simp [*]
    · simp
  have hst : SameBoot t u := ⟨rfl, rfl, rfl, rfl⟩
  obtain ⟨hlay, hword, hother⟩ := hsys.toLayout.attach_root hobj (h.ne_object_of_unmapped hnew.page hnew.empty) h0
    (fun _ _ => wordAt_zeroPage _) (fun e' he => by simp at he) hst (fun _ => rfl)
    (fun e' => by
      rw [Function.update_of_ne (by simp), (henv e').1, (henv e').2.2, Function.update_apply]
      simp only [Obj.root.injEq, Tree.disk.injEq]
      exact ⟨(hsys.roots e').1, by rw [(hsys.roots e').2]⟩)
    (fun e' he => by
      rw [Function.update_of_ne (by simp)] at he ⊢
      rw [(henv e').2.1]
      exact hsys.envCr3 e' he) (by rw [hframe]; rfl)
  set g' := Function.update g (.root (.disk e)) p
  have hcell : u.cellWord g' = t.cellWord g := by
    funext x
    by_cases hx : ∀ j < 1024, x ≠ .word (.root (.disk e)) j
    · exact hother x hx
    · push Not at hx
      obtain ⟨j, hj, rfl⟩ := hx
      rw [hword j hj, wordAt_zeroPage, cellWord_absent h0]
  have hkpte (q : ℕ) (hq : HeapPage q) : u.kernelPte q = t.kernelPte q := by
    have := congrFun hcell (.page q)
    rwa [cellWord_page hq.shared, cellWord_page hq.shared] at this
  have hready : Ready E u g' := ⟨hlay, hsys.nodup, fun f' hf' =>
    (hsys.free f' hf').imp_left fun hf' => hf'.congr hst hkpte⟩
  have hfree : f ∈ s.freeFrameList := by simp [hnew.free]
  have hne {f' : ℕ} (hf' : f' ∉ s.freeFrameList) : f' ≠ f := fun he => hf' (he ▸ hfree)
  obtain ⟨d, hsd⟩ := hnew.globals
  have hboot : SameBoot s t := ⟨hsd.cr3, hsd.numberOfFrames, hsd.ptrFreeMem, hsd.ptrPageDirectory⟩
  refine ⟨hobj.ne_zero, u, ?_, hobj.ne_zero, ⟨hready, hsys.heap.keep hready rfl rfl hkpte fun _ _ => rfl⟩, ?_, fun f' hf' => ?_,
    fun f' hf' => ?_, ⟨hnew.spent.frames, hnew.spent.room⟩⟩
  · rw [run_bind_ok hpa, run_bind_ok (show (modifyEnv e _).run t₁ = .ok ((), t₁.setEnv e v) from rfl), hclear]
  · exact entries_congr fun τ k j => by rw [hcell, hnew.cell, Function.update_of_ne (by simp)]
  · show t.framesInfo f' = _
    rw [hnew.info, Function.update_of_ne (hne hf')]
  · have hord : Ordinary t f' := ⟨by rw [hboot.managed]; exact hf'.managed, fun hh =>
      ((heapFrame_placed hnew.page hnew.empty fun q => congrFun hnew.cell (.page q)).mp hh).elim hf'.not_heap (hne hf'.not_free)⟩
    exact ⟨hord.congr hst hkpte, fun hm => hf'.not_free (hnew.free ▸ List.mem_cons_of_mem _ hm)⟩

/-- `get_disk_page_directory` makes a directory where there is none. -/
theorem Stocked.getDiskPageDirectory_sat (h : Stocked E s g) (h0 : g (.root (.disk e)) = 0) :
    Sat (fun x => x = .noFreeFrame ∧ s.freeFrameList = []) (getDiskPageDirectory e) s fun _ t =>
      Room s 1 → ∃ p, NewDiskDirectory E s g e p t := by
  unfold getDiskPageDirectory
  refine .bind_ok run_get ?_
  rw [if_pos ((h.roots e).2.trans h0)]
  refine ((h.kmalloc_page _).weaken fun x hx => ⟨hx.1, List.length_eq_zero_iff.mp (Nat.lt_one_iff.mp hx.2)⟩).bind ?_
  rintro p t (⟨f, hnew⟩ | ⟨hroom, rfl, rfl⟩)
  · obtain ⟨hne, u, hrun, hu⟩ := hnew.diskDirectory h h0
    refine .bind_ok (run_modify _) ?_
    rw [if_pos hne]
    exact .of_ok hrun fun _ => ⟨p, hu⟩
  · refine .bind_ok (run_modify _) ?_
    rw [if_neg (not_not.mpr rfl)]
    exact .pure fun hr => absurd hr hroom

/-- A frame that is none of those that are allocated, and holds no entries of the kernel. -/
structure Aside (s : Machine) (f : ℕ) : Prop where
  not_managed : ¬s.Managed f
  not_dir : f ≠ s.kernelDir
  not_table : ∀ i ∈ heapTables, f ≠ s.kernelTable i

/-- The page has got the disk frame `d`. -/
structure GetsDiskFrame (E : Finset ℕ) (s : Machine) (g : Obj → ℕ) (e va d : ℕ) (t : Machine) (g' : Obj → ℕ) : Prop where
  stocked : Stocked E t g'
  tables : AddsTables (.disk e) {pdx va} 0 (s.withDevices t) g t g'
  entries : t.entries g' = Function.update (s.entries g) (.disk e, pageNumber va) d
  free : s.diskFreeFrameList = d :: t.diskFreeFrameList
  disk : t.disk = s.disk
  envs : t.envs = s.envs
  untouched : ∀ f, Aside s f → t.ram f = s.ram f

/-- `readEntry` of an entry that is 0, and a disk frame for it. -/
def addDiskFrame (pt va : ℕ) : Kernel (Option ℕ) := do
  let dfn ← readEntry pt (ptx va)
  if dfn ≠ 0 then return some dfn
  match ← allocateDiskFrame with
  | none => return none
  | some dfn =>
    writeEntry pt (ptx va) dfn
    return some dfn

theorem diskFrameOf_eq (e va : ℕ) : diskFrameOf e va = (do
    if kernelBase ≤ va then throw .assertion
    getDiskPageDirectory e
    let pt ← getDiskPageTable ((← get).envs e).diskEnvPgdir va true
    addDiskFrame pt va : Kernel (Option ℕ)) := rfl

theorem allocateDiskFrame_run (hd : s.diskFreeFrameList = d :: ds) :
    allocateDiskFrame.run s = .ok (some d, { s with diskFreeFrameList := ds }) := by
  rw [allocateDiskFrame, run_bind_ok run_get, hd]
  rfl

theorem allocateDiskFrame_nil (hd : s.diskFreeFrameList = []) : allocateDiskFrame.run s = .ok (none, s) := by
  rw [allocateDiskFrame, run_bind_ok run_get, hd]
  rfl

namespace Stocked

theorem addDiskFrame_sat (ht : Stocked E t g') (hadds : AddsTables (.disk e) {pdx va} 0 s g t g')
    (hent : t.entries g' = s.entries g) (hdevices : t.diskFreeFrameList = s.diskFreeFrameList ∧ t.disk = s.disk ∧ t.envs = s.envs)
    (huntouched : ∀ f, Aside s f → t.ram f = s.ram f) (hva : va < userTop) (h0 : s.entries g (.disk e, pageNumber va) = 0) (hds : ∀ d ∈ s.diskFreeFrameList, d < 2 ^ 32) :
    Sat (fun _ => False) (addDiskFrame (g' (.leaf (.disk e) (pdx va))) va) t fun r u => r = none ∧ s.diskFreeFrameList = [] ∨
      ∃ d, r = some d ∧ GetsDiskFrame E s g e va d u g' := by
  have hl : g' (.leaf (.disk e) (pdx va)) ≠ 0 := hadds.table _ (Finset.mem_singleton_self _)
  have htab := ht.hasTable hva hl
  have hread : (readEntry (g' (.leaf (.disk e) (pdx va))) (ptx va)).run t = .ok (0, t) := by
    rw [readEntry_run htab.read, ht.word_entry hva hl, hent, h0]
  rw [addDiskFrame]
  refine .bind_ok hread ?_
  rw [if_neg (by simp)]
  rcases hfree : s.diskFreeFrameList with _ | ⟨d, ds⟩
  · exact .bind_ok (allocateDiskFrame_nil (hdevices.1.trans hfree)) (.pure (.inl ⟨rfl, rfl⟩))
  · refine .bind_ok (allocateDiskFrame_run (hdevices.1.trans hfree)) ?_
    obtain ⟨hr, hrcell⟩ := ht.setDiskFree ds
    have hrent := entries_congr fun τ i j => congrFun hrcell (.word (.leaf τ i) j)
    have hradds : AddsTables (.disk e) {pdx va} 0 (s.withDevices { t with diskFreeFrameList := ds }) g
      { t with diskFreeFrameList := ds } g' := hadds.withDevices { t with diskFreeFrameList := ds }
    set r : Machine := { t with diskFreeFrameList := ds } with hrdef
    have hrtab := hr.hasTable hva hl
    obtain ⟨hu, huent⟩ := hr.changeEntry (F := ∅) hr.toReady.userStep_self rfl (fun _ _ => rfl) hva hl
      (hds d (by simp [hfree]))
    have hsame := sameRecords_setEntry r (r.entryFrame g' (.disk e) va) (ptx va) d
    refine .bind_ok (writeEntry_run hrtab.write) (.pure (.inr ⟨d, rfl, hu.stocked, ?_, ?_, ?_, hdevices.2.1, hdevices.2.2,
      fun f hf => ?_⟩))
    · exact (hradds.trans (hu.adds hsame)).congr (Finset.union_empty _) rfl
    · rw [huent, hrent, hent]
    · exact hfree
    · have hne : f ≠ r.entryFrame g' (.disk e) va := by
        rintro rfl
        exact hf.not_managed (hadds.places.managed ▸ (hr.object _ (by simp) hl).managed)
      rw [setEntry, setFrame_ram_of_ne hne]
      exact huntouched f hf

theorem diskFrameOf_old (h : Stocked E s g) (ho : g (.root (.disk e)) ≠ 0) (hva : va < userTop)
    (hne : s.entries g (.disk e, pageNumber va) ≠ 0) :
    (diskFrameOf e va).run s = .ok (some (s.entries g (.disk e, pageNumber va)), s) := by
  have hl : g (.leaf (.disk e) (pdx va)) ≠ 0 := fun hl => hne (entries_absent hva hl)
  have hkern : ¬kernelBase ≤ va := not_le.mpr (hva.trans (by decide))
  rw [diskFrameOf_eq, if_neg hkern, run_bind_ok (h.getDiskPageDirectory_run ho), run_bind_ok run_get, (h.roots e).2,
    run_bind_ok (h.getDiskPageTable_some hva hl true), addDiskFrame,
    run_bind_ok (readEntry_run (h.hasTable hva hl).read), h.word_entry hva hl, if_pos hne, run_pure]

/-- A page gets a disk frame, unless there is none. -/
theorem diskFrameOf_sat (h : Stocked E s g) (ho : g (.root (.disk e)) ≠ 0) (hva : va < userTop)
    (h0 : s.entries g (.disk e, pageNumber va) = 0) (hds : ∀ d ∈ s.diskFreeFrameList, d < 2 ^ 32)
    (hroom : g (.leaf (.disk e) (pdx va)) = 0 → Room s 1) :
    Sat (fun x => x = .noFreeFrame ∧ g (.leaf (.disk e) (pdx va)) = 0 ∧ s.freeFrameList = []) (diskFrameOf e va) s fun r u =>
      r = none ∧ s.diskFreeFrameList = [] ∨ ∃ d g', r = some d ∧ GetsDiskFrame E s g e va d u g' := by
  have hkern : ¬kernelBase ≤ va := not_le.mpr (hva.trans (by decide))
  rw [diskFrameOf_eq, if_neg hkern]
  refine .bind_ok (h.getDiskPageDirectory_run ho) (.bind_ok run_get ?_)
  rw [(h.roots e).2]
  have hend {t : Machine} {g' : Obj → ℕ} (ht : Stocked E t g') (hadds : AddsTables (.disk e) {pdx va} 0 s g t g')
      (hent : t.entries g' = s.entries g)
      (hdevices : t.diskFreeFrameList = s.diskFreeFrameList ∧ t.disk = s.disk ∧ t.envs = s.envs)
      (huntouched : ∀ f, Aside s f → t.ram f = s.ram f) :
      Sat (fun x => x = .noFreeFrame ∧ g (.leaf (.disk e) (pdx va)) = 0 ∧ s.freeFrameList = [])
        (addDiskFrame (g' (.leaf (.disk e) (pdx va))) va) t fun r u =>
        r = none ∧ s.diskFreeFrameList = [] ∨ ∃ d g', r = some d ∧ GetsDiskFrame E s g e va d u g' :=
    ((ht.addDiskFrame_sat hadds hent hdevices huntouched hva h0 hds).weaken fun _ => False.elim).mono fun r u hu =>
      hu.imp_right fun ⟨d, hr, hd⟩ => ⟨d, g', hr, hd⟩
  by_cases hl : g (.leaf (.disk e) (pdx va)) = 0
  · have hcreate := h.getDiskPageTable_none ho hva hl true
    have htable : Sat (fun x => x = .noFreeFrame ∧ g (.leaf (.disk e) (pdx va)) = 0 ∧ s.freeFrameList = [])
        (getDiskPageTable (g (.root (.disk e))) va true) s fun pt t => ∃ f, NewTable E s g (.disk e) (pdx va) pt f t := by
      rw [Sat, hcreate, if_pos rfl]
      refine ((h.kmalloc_page _).weaken fun x hx => ⟨hx.1, hl, List.length_eq_zero_iff.mp (by omega)⟩).bind ?_
      rintro p t (⟨f, hnew⟩ | ⟨hno, -⟩)
      · obtain ⟨hne, hpa, r, u, hwrite, hclear, htab⟩ := hnew.link h ho hva hl
        rw [if_neg hne]
        exact .bind_ok hpa (.bind_ok hwrite (.bind_ok hclear (.pure ⟨f, htab⟩)))
      · exact absurd (hroom hl) hno
    refine htable.bind ?_
    rintro pt t ⟨f, ht⟩
    obtain ⟨b, hst⟩ := ht.globals
    have huntouched (f' : ℕ) (hf' : Aside s f') : t.ram f' = s.ram f' := by
      refine ht.ram f' hf'.not_table (fun o ho hof => ?_) fun hff => ?_
      · by_cases hko : o = .root .kernel
        · subst hko
          exact hf'.not_dir (hof ▸ h.pageFrame_kernelRoot)
        · exact hf'.not_managed (hof ▸ (h.object o hko ho).managed)
      · exact hf'.not_managed (hff ▸ (h.free f (by simp [ht.free])).1.managed)
    have := hend ht.stocked (ht.grows h.toReady hl) ht.entries_eq ⟨hst.diskFreeFrameList, hst.disk, hst.envs⟩ huntouched
    rwa [Function.update_self] at this
  · refine .bind_ok (h.getDiskPageTable_some hva hl true) (hend h (.refl ?_ s) rfl ⟨rfl, rfl, rfl⟩ fun _ _ => rfl)
    rintro i hi
    rwa [Finset.mem_singleton.mp hi]

end Stocked

/-- The records of environments but for the counters of `e`. -/
def SameButCounters (e : ℕ) (s t : Machine) : Prop :=
  ∃ out added, t.envs = Function.update s.envs e { s.envs e with nPageOut := out, nNewPageAdded := added }

namespace SameButCounters

theorem of_envs (h : t.envs = s.envs) (e : ℕ) : SameButCounters e s t :=
  ⟨(s.envs e).nPageOut, (s.envs e).nNewPageAdded, by rw [h, Function.update_eq_self]⟩

theorem trans (h : SameButCounters e s t) (h' : SameButCounters e t u) : SameButCounters e s u := by
  obtain ⟨_, _, ht⟩ := h
  obtain ⟨out, added, hu⟩ := h'
  refine ⟨out, added, ?_⟩
  rw [ht, Function.update_idem, Function.update_self] at hu
  exact hu

theorem userStep (h : SameButCounters e s u) (hs : Stocked E s g) : UserStep s (s.withDevices u) := by
  obtain ⟨out, added, hu⟩ := h
  have hsame (e' : ℕ) : (u.envs e').envPageDirectory = (s.envs e').envPageDirectory ∧
      (u.envs e').diskEnvPgdir = (s.envs e').diskEnvPgdir ∧ (u.envs e').envCr3 = (s.envs e').envCr3 := by
    rw [hu, Function.update_apply]
    split
    · rename_i he
      exact he ▸ ⟨rfl, rfl, rfl⟩
    · exact ⟨rfl, rfl, rfl⟩
  exact ⟨⟨⟨rfl, rfl, rfl, rfl⟩, fun e' => (hsame e').1, fun e' => (hsame e').2.1, fun e' => (hsame e').2.2⟩, rfl,
    rfl, fun _ _ => rfl, hs.nodup, hs.free⟩

end SameButCounters

/-- The page `p` of `e` may have been written to the page file, which may have got the tables `I` for it. -/
structure Undisturbed (E : Finset ℕ) (s : Machine) (g : Obj → ℕ) (e : ℕ) (I : Finset ℕ) (p : ℕ) (t : Machine) (g' : Obj → ℕ) :
    Prop where
  stocked : Stocked E t g'
  tables : AddsTables (.disk e) I 0 (s.withDevices t) g t g'
  entries : ∀ x, x ≠ (.disk e, p) → x ≠ (.user e, p) → t.entries g' x = s.entries g x
  entry : Marked (s.entries g (.user e, p)) (t.entries g' (.user e, p))
  envs : SameButCounters e s t

/-- The page `p` of `e` has the contents `pg` in the page file. -/
structure SavedPage (s : Machine) (g : Obj → ℕ) (e p : ℕ) (pg : Page) (t : Machine) (g' : Obj → ℕ) : Prop where
  present : t.entries g' (.disk e, p) ≠ 0
  same : s.entries g (.disk e, p) ≠ 0 → t.entries g' (.disk e, p) = s.entries g (.disk e, p)
  disk : t.disk = Function.update s.disk (t.entries g' (.disk e, p)) pg

/-- The page has the disk frame that it had, or the next free one. -/
structure SavesPage (s : Machine) (g : Obj → ℕ) (e p : ℕ) (pg : Page) (t : Machine) (g' : Obj → ℕ) : Prop
    extends SavedPage s g e p pg t g' where
  kept : s.entries g (.disk e, p) ≠ 0 → t.diskFreeFrameList = s.diskFreeFrameList
  taken : s.entries g (.disk e, p) = 0 → s.diskFreeFrameList = t.entries g' (.disk e, p) :: t.diskFreeFrameList

/-- Why a page cannot be written to the page file: it is not in the page file, and it does not belong there, or
there is no disk frame for it, or no frame for its table. -/
def RefusesPage (s : Machine) (g : Obj → ℕ) (e va : ℕ) (x : Panic) : Prop :=
  s.entries g (.disk e, pageNumber va) = 0 ∧ x = .invalidAccess ∧ ¬InHeapOrStack va ∨
    s.entries g (.disk e, pageNumber va) = 0 ∧ InHeapOrStack va ∧ x = .pageFileSpace ∧ s.diskFreeFrameList = [] ∨
    s.entries g (.disk e, pageNumber va) = 0 ∧ InHeapOrStack va ∧ x = .noFreeFrame ∧ g (.leaf (.disk e) (pdx va)) = 0 ∧
      s.freeFrameList = []

namespace Undisturbed

variable {I : Finset ℕ}

theorem refl (h : Stocked E s g) (hI : ∀ i ∈ I, g (.leaf (.disk e) i) ≠ 0) : Undisturbed E s g e I p s g where
  stocked := h
  tables := .refl hI s
  entries _ _ _ := rfl
  entry := .refl _
  envs := .of_envs rfl e

theorem devices (h : Undisturbed E s g e I p t g') (henv : SameButCounters e t u) :
    Undisturbed E s g e I p (t.withDevices u) g' ∧ (t.withDevices u).entries g' = t.entries g' := by
  obtain ⟨hch, hcell⟩ := h.stocked.changeNone (F := ∅) (henv.userStep h.stocked) rfl fun _ _ => rfl
  have hent : (t.withDevices u).entries g' = t.entries g' := entries_congr fun _ _ _ => congrFun hcell _
  refine ⟨⟨hch.stocked, h.tables.withDevices u, fun x hx hx' => ?_, hent ▸ h.entry, h.envs.trans henv⟩, hent⟩
  rw [hent, h.entries x hx hx']

theorem reaches (h : Undisturbed E s g e I p t g') (hs : Stocked E s g) (hr : Reaches E s g (.user e) va) :
    Reaches E t g' (.user e) va := by
  have hstart := (hs.changeNone (F := ∅) (h.envs.userStep hs) rfl fun _ _ => rfl).1.stocked
  refine ⟨h.stocked.toLayout, hr.tree, h.tables.rootTable _ ▸ hr.root, ?_, hr.user⟩
  rw [h.tables.pageFrame hstart.toLayout h.stocked.toLayout hr.root, h.tables.places.cr3]
  exact hr.loaded

theorem inUse (h : Undisturbed E s g e I p t g') (hf : InUse s f) : InUse t f ∧ t.ram f = s.ram f := by
  have hf' : InUse (s.withDevices t) f := ⟨hf.toOrdinary.congr ⟨rfl, rfl, rfl, rfl⟩ fun _ _ => rfl, hf.not_free⟩
  exact ⟨h.tables.stays hf', (h.tables.inUse f hf').2⟩

theorem marked (h : Undisturbed E s g e I p t g') (hch : Changes E t g' {(.user e, p)} ∅ u) (hrec : SameRecords t u)
    (hm : Marked (t.entries g' (.user e, p)) (u.entries g' (.user e, p))) : Undisturbed E s g e I p u g' where
  stocked := hch.stocked
  tables := by
    have := h.tables.trans (hch.adds hrec)
    rw [← withDevices_congr (u := u) hrec.toSameGlobals] at this
    exact this.congr (Finset.union_empty I) rfl
  entries x hx hx' := (hch.entries x hx').trans (h.entries x hx hx')
  entry := by
    obtain ⟨m, hm, h0, he⟩ := hm
    rw [he]
    exact h.entry.setPerm hm h0
  envs := h.envs.trans (.of_envs hrec.envs e)

end Undisturbed

theorem GetsDiskFrame.undisturbed (h : GetsDiskFrame E s g e va d t g') :
    Undisturbed E s g e {pdx va} (pageNumber va) t g' where
  stocked := h.stocked
  tables := h.tables
  entries x hx _ := by rw [h.entries, Function.update_of_ne hx]
  entry := by
    rw [h.entries, Function.update_of_ne (by simp)]
    exact .refl _
  envs := .of_envs h.envs e

namespace Stocked

/-- A page that is mapped is added to the page file from where it is, unless the page file is full. -/
theorem pfAddEnvPage_sat (h : Stocked E s g) (hr : Reaches E s g (.user e) va) (hd : pageSize ∣ va)
    (ho : g (.root (.disk e)) ≠ 0) (hp : HasPerm (s.entries g (.user e, pageNumber va)) permPresent)
    (hf : InUse s (s.backing g (.user e) va)) (h0 : s.entries g (.disk e, pageNumber va) = 0)
    (hds : ∀ d ∈ s.diskFreeFrameList, d ≠ 0 ∧ d < 2 ^ 32) (hroom : g (.leaf (.disk e) (pdx va)) = 0 → Room s 1) :
    Sat (fun x => x = .noFreeFrame ∧ g (.leaf (.disk e) (pdx va)) = 0 ∧ s.freeFrameList = []) (pfAddEnvPage e va va) s fun r u =>
      r = eNoPageFileSpace ∧ s.diskFreeFrameList = [] ∨ r = 0 ∧ s.diskFreeFrameList ≠ [] ∧ ∃ g',
        Undisturbed E s g e {pdx va} (pageNumber va) u g' ∧ SavesPage s g e (pageNumber va) (s.ram (s.backing g (.user e) va)) u g' := by
  rw [pfAddEnvPage]
  refine (h.diskFrameOf_sat ho hr.user h0 (fun d hd => (hds d hd).2) hroom).bind ?_
  rintro _ t (⟨rfl, hnil⟩ | ⟨d, g', rfl, ht⟩)
  · exact .pure (.inl ⟨rfl, hnil⟩)
  · have hmem : d ∈ s.diskFreeFrameList := by simp [ht.free]
    have hx : (Tree.user e, pageNumber va) ≠ (.disk e, pageNumber va) := by simp
    have hent : t.entries g' (.user e, pageNumber va) = s.entries g (.user e, pageNumber va) := by
      rw [ht.entries, Function.update_of_ne hx]
    have hback : t.backing g' (.user e) va = s.backing g (.user e) va := by rw [backing, hent, backing]
    obtain ⟨hord, hram⟩ := ht.undisturbed.inUse hf
    obtain ⟨u, hrun, hch, hm, hrec⟩ := ht.stocked.readPage_run (ht.undisturbed.reaches h hr) hd (hent.symm ▸ hp)
      (hback.symm ▸ hord.toOrdinary)
    rw [hback, hram] at hrun
    have hu := ht.undisturbed.marked hch hrec hm
    have hdisk : u.entries g' (.disk e, pageNumber va) = d := by
      rw [hch.entries _ (by simp), ht.entries, Function.update_self]
    obtain ⟨hv, hvent⟩ := hu.devices (u := u.setDisk d (s.ram (s.backing g (.user e) va))) (.of_envs rfl e)
    have hvd : (u.setDisk d (s.ram (s.backing g (.user e) va))).entries g' (.disk e, pageNumber va) = d :=
      (congrFun hvent _).trans hdisk
    have hwrite : (writeDiskPage d va).run t = .ok ((), u.setDisk d (s.ram (s.backing g (.user e) va))) := by
      rw [writeDiskPage, run_bind_ok hrun, run_modify, setDisk]
    refine .bind_ok hwrite (.pure (.inr ⟨rfl, List.ne_nil_of_mem hmem, g', hv, ⟨?_, fun hne => absurd h0 hne, ?_⟩,
      fun hne => absurd h0 hne, fun _ => ?_⟩))
    · rw [hvd]
      exact (hds d hmem).1
    · rw [hvd]
      exact congrArg (fun q => Function.update q d _) (hrec.disk.trans ht.disk)
    · rw [hvd, ht.free]
      exact congrArg (List.cons d) hrec.diskFreeFrameList.symm

/-- `pf_update_env_page` for a page that is mapped to the frame it is given. A page that is not in the page file is
added if it belongs to the heap or to the stack. -/
theorem pfUpdateEnvPage_saves (h : Stocked E s g) (he : e ∈ E) (hr : Reaches E s g (.user e) va) (hd : pageSize ∣ va)
    (ho : g (.root (.disk e)) ≠ 0) (hp : HasPerm (s.entries g (.user e, pageNumber va)) permPresent)
    (hf : InUse s (s.backing g (.user e) va)) (hrefs : (s.framesInfo (s.backing g (.user e) va)).references < 2 ^ 16)
    (hds : ∀ d ∈ s.diskFreeFrameList, d ≠ 0 ∧ d < 2 ^ 32) (hlim : s.kernelPte userLimit = 0)
    (hmax : s.entries g (.disk e, pageNumber va) ≠ 0 → (s.framesInfo (s.backing g (.user e) va)).references ≠ 2 ^ 16 - 1)
    (hroom : g (.leaf (.disk e) (pdx va)) = 0 → Room s 1) :
    Sat (RefusesPage s g e va) (pfUpdateEnvPage e va (s.backing g (.user e) va)) s fun _ u =>
      (s.entries g (.disk e, pageNumber va) = 0 → InHeapOrStack va ∧ s.diskFreeFrameList ≠ []) ∧ ∃ g',
        Undisturbed E s g e {pdx va} (pageNumber va) u g' ∧ SavesPage s g e (pageNumber va) (s.ram (s.backing g (.user e) va)) u g' := by
  have hva := hr.user
  have hkern : ¬kernelBase ≤ va := not_le.mpr (hva.trans (by decide))
  rw [pfUpdateEnvPage, if_neg hkern]
  refine .bind_ok (h.getDiskPageDirectory_run ho) (.bind_ok run_get ?_)
  rw [(h.roots e).2]
  refine .bind_ok (h.getDiskPageTable_run ho hva) ?_
  extract_lets added written update
  -- a table that is missing counts as one without the page
  suffices hupdate : ∀ dfn, dfn = s.entries g (.disk e, pageNumber va) → Sat (RefusesPage s g e va) (update dfn) s fun _ u =>
      (s.entries g (.disk e, pageNumber va) = 0 → InHeapOrStack va ∧ s.diskFreeFrameList ≠ []) ∧ ∃ g',
        Undisturbed E s g e {pdx va} (pageNumber va) u g' ∧ SavesPage s g e (pageNumber va) (s.ram (s.backing g (.user e) va)) u g' by
    split
    · rename_i hl
      exact .bind_ok (run_pure 0) (hupdate 0 (entries_absent hva hl).symm)
    · rename_i hl
      exact .bind_ok (readEntry_run (h.hasTable hva hl).read) (hupdate _ (h.word_entry hva hl))
  rintro _ rfl
  simp only [update, added, written]
  by_cases h0 : s.entries g (.disk e, pageNumber va) = 0
  · rw [if_pos h0]
    refine .ite (fun hheap => ?_) fun hheap => .throw (.inl ⟨h0, rfl, hheap⟩)
    have hl := hr.table hp
    have hword := h.word_entry hva hl
    have hframe := (h.hasTable hva hl).getFrameInfo_some (by rw [hword]; exact ne_zero_of_hasPerm_present hp)
      (by rw [hword]; exact h.ordinary_lt hf.toOrdinary)
    rw [hword] at hframe
    refine .bind_ok run_get ?_
    rw [(h.roots e).1]
    refine .bind_ok hframe ?_
    rw [if_pos (by rfl)]
    refine ((h.pfAddEnvPage_sat hr hd ho hp hf h0 hds hroom).weaken fun x hx => .inr (.inr ⟨h0, hheap, hx⟩)).bind ?_
    rintro _ u (⟨rfl, hnil⟩ | ⟨rfl, hdisk, g', hu, hsaved⟩)
    · rw [if_pos rfl]
      exact .of_error (run_bind_error rfl) (.inr (.inl ⟨h0, hheap, rfl, hnil⟩))
    · rw [if_neg (by decide)]
      obtain ⟨hv, hvent⟩ := hu.devices (u := u.setEnv e { u.envs e with nNewPageAdded := u32 ((u.envs e).nNewPageAdded + 1) })
        ⟨_, _, rfl⟩
      refine .bind_ok (run_modify _) (.pure ⟨fun _ => ⟨hheap, hdisk⟩, g', hv, ⟨?_, fun hne => absurd h0 hne, ?_⟩,
        fun hne => absurd h0 hne, fun h0 => ?_⟩)
      · exact (congrFun hvent _).symm ▸ hsaved.present
      · exact (congrFun hvent _).symm ▸ hsaved.disk
      · exact (congrFun hvent _).symm ▸ hsaved.taken h0
  · rw [if_neg h0]
    have hl := table_of_entry hva h0
    have hrun := h.pfWriteFrame_run he hr.root ho hva rfl h0 hlim hf.managed hrefs
    rw [if_neg (hmax h0)] at hrun
    have hI : ∀ i ∈ ({pdx va} : Finset ℕ), g (.leaf (.disk e) i) ≠ 0 := fun i hi => Finset.mem_singleton.mp hi ▸ hl
    obtain ⟨hv, hvent⟩ := (Undisturbed.refl (e := e) (p := pageNumber va) h hI).devices
      (u := s.paged e (s.entries g (.disk e, pageNumber va)) (s.ram (s.backing g (.user e) va))) ⟨_, _, rfl⟩
    have hent := congrFun hvent (.disk e, pageNumber va)
    exact .of_ok hrun ⟨fun hc => absurd hc h0, g, hv, ⟨hent.symm ▸ h0, fun _ => hent, hent.symm ▸ rfl⟩, fun _ => rfl,
      fun hc => absurd hc h0⟩

end Stocked

end FosKernel.Machine
