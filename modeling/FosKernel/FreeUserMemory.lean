import FosKernel.FaultHandling
import FosKernel.MapFrameContract
import FosKernel.PageFileTables

/-!
# Freeing user memory

`free_user_mem` runs over two index spaces. The loop over the working set unmaps the
resident pages of the range; the loop over the pages clears the page file and gives the
tables back that have no entries left.
-/

namespace FosKernel.Machine
open FailingPrograms PageEntries DynamicAllocator IntervalLists ReferenceCounts

variable {s t u : Machine} {E : Finset ℕ} {g g' : Obj → ℕ} {τ : Tree} {o : Obj} {v : Env}
  {e f i j k m n p q size va w : ℕ} {fs : List ℕ} {P : Finset ℕ}

/-- `kfree` of a block of one page. -/
theorem HeapInv.kfree_page (hi : HeapInv s) (hb : ⟨p, pageSize⟩ ∈ s.heap.blocks .alloc) :
    ∃ f d A B, HeapPage p ∧ MapsPage s p f ∧
      (kfree p).run s = .ok ((), (((s.setInfo f .initial).setFree (f :: s.freeFrameList)).setEntry
        (s.kernelTable (pdx p)) (ptx p) 0).setHeap d) ∧
      HeapInv ((((s.setInfo f .initial).setFree (f :: s.freeFrameList)).setEntry
        (s.kernelTable (pdx p)) (ptx p) 0).setHeap d) ∧
      s.heap.blocks .alloc = A ++ ⟨p, pageSize⟩ :: B ∧ d.blocks .alloc = A ++ B := by
  obtain ⟨q, inv⟩ := hi.lists
  obtain ⟨hp, -, hmax, -⟩ := heapPage_of_block inv hb
  simp only at hp hmax
  have hround : roundDown p pageSize = p := roundDown_of_dvd hp.dvd
  obtain ⟨f, hf⟩ := hi.pages.mapped p hp (.inr ⟨_, hb, by simp [pageSize]⟩)
  rcases inv.findBlock_spec p with ⟨b, m, A, B, d, hfind, hsize, hins, -, hold, hnew⟩ | ⟨hne, -⟩
  · obtain ⟨A', B', hb'⟩ := List.append_of_mem hb
    obtain ⟨rfl, hm, rfl⟩ := inv.ordered_blocks.append_cons_inj hold hb' rfl
    obtain rfl := (Interval.mk.inj hm).2
    have hlt : p + pageSize < 2 ^ 32 := by
      have : kernelHeapMax < 2 ^ 32 := by decide
      simp only [pageSize, Nat.reduceDiv, Nat.mul_one] at hmax ⊢
      omega
    have hpages : numOfPages p (u32 (p + pageSize)) = 1 := by
      rw [u32_of_lt hlt, numOfPages, Nat.add_sub_cancel_left]
      decide
    set r := s.setHeap (s.heap.remove .alloc b)
    have hsize' : r.heap.size b = pageSize := hsize
    have hpage : pageOf p 0 = p := by
      rw [pageOf, Nat.mul_zero, Nat.add_zero, u32_of_lt (by omega)]
    have hunmap : (kfreePage p 0).run r = .ok ((), ((r.setInfo f .initial).setFree (f :: r.freeFrameList)).setEntry
        (r.kernelTable (pdx p)) (ptx p) 0) := by
      rw [kfreePage, run_bind_ok run_get, hpage]
      exact MapsPage.unmapFrame_run (s := r) ⟨hf.entry, hf.info, hf.lt, hf.not_free⟩
        (hi.pages.with_heap _).tables hp
    have hrun : (kfree p).run s = .ok ((), (((s.setInfo f .initial).setFree (f :: s.freeFrameList)).setEntry
        (s.kernelTable (pdx p)) (ptx p) 0).setHeap d) := by
      have hloop : (forRange (kfreePage p) 0 1).run r = _ := run_bind_ok hunmap
      rw [kfree, run_bind_ok run_get, hround, hfind]
      simp only
      rw [run_bind_ok (run_modify _), run_bind_ok run_get, hsize', hpages, run_bind_ok hloop, run_bind_ok run_get]
      have hheap : (((r.setInfo f .initial).setFree (f :: r.freeFrameList)).setEntry
          (r.kernelTable (pdx p)) (ptx p) 0).heap = s.heap.remove .alloc b := rfl
      rw [hheap, hins]
      rfl
    refine ⟨f, d, A, B, hp, hf, hrun, ?_, hold, hnew⟩
    rcases hi.kfree_run p with ⟨hne, -⟩ | ⟨-, t, -, -, -, hrun', hinv, -⟩
    · exact absurd hround.symm (hne _ hb)
    · rw [hrun] at hrun'
      obtain rfl : _ = t := congrArg Prod.snd (Except.ok.inj hrun')
      exact hinv
  · exact absurd rfl (hne _ hb)

theorem Layout.detach_leaf (h : Layout E s g) (hl : g (.leaf τ i) ≠ 0)
    (hempty : ∀ j < 1024, s.cellWord g (.word (.leaf τ i) j) = 0) (hst : SamePlaces s t)
    (hva : ∀ f, (t.framesInfo f).va = (s.framesInfo f).va)
    (hram : t.ram = (s.setEntry (s.pageFrame (g (.root τ))) i 0).ram) :
    Layout E t (Function.update g (.leaf τ i) 0) ∧ t.cellWord (Function.update g (.leaf τ i) 0) =
      Function.update (s.cellWord g) (.word (.root τ) i) 0 := by
  obtain ⟨hi, ho⟩ := h.leaf τ i hl
  set g' := Function.update g (.leaf τ i) 0 with hg'
  have hik : i ∉ kernelTables := fun hk => absurd (kernelTables_ge hk) (not_le.mpr hi)
  have htg : t.cellWord g = Function.update (s.cellWord g) (.word (.root τ) i) 0 :=
    h.cellWord_setWord ho (hi.trans (pdx_lt _)) (by decide) (fun _ => hik) hst.toSameBoot hram
  have hcell : t.cellWord g' = Function.update (s.cellWord g) (.word (.root τ) i) 0 := by
    rw [← htg]
    funext x
    match x with
    | .page q => rfl
    | .word o j =>
      by_cases hol : o = .leaf τ i
      · subst hol
        rw [cellWord_absent (Function.update_self ..), htg, Function.update_of_ne (by simp)]
        by_cases hj : j < 1024
        · exact (hempty j hj).symm
        · rw [cellWord, if_pos (.inr (by omega))]
      · simp only [cellWord, hg', Function.update_of_ne hol]
  have hkept {o : Obj} (ho' : g' o ≠ 0) : o ≠ .leaf τ i ∧ g' o = g o := by
    have hol : o ≠ .leaf τ i := by
      rintro rfl
      exact ho' (Function.update_self ..)
    exact ⟨hol, Function.update_of_ne hol ..⟩
  have hroot (τ' : Tree) : g' (.root τ') = g (.root τ') := Function.update_of_ne (by simp) ..
  obtain ⟨hpde, hframe, hobject⟩ := h.extend_objects hst.toSameBoot (fun o (_ : g o ≠ 0) => Eq.refl (g o))
    (fun k hk => by
      rw [htg, Function.update_of_ne]
      intro he
      obtain ⟨-, rfl⟩ := Cell.word.inj he
      exact hik hk) (fun q => by rw [htg, Function.update_of_ne (by simp)]) (fun _ h0 ho' => absurd h0 ho') hva
  refine ⟨⟨h.tables.congr_pde hst.ptrPageDirectory hst.ptrFreeMem hst.numberOfFrames hpde,
    h.reserved_congr hst.toSameBoot hpde, hst.numberOfFrames ▸ h.enough, ?_, fun o hk ho' => ?_,
    fun o o' ho' he => ?_, fun τ' k hk => ?_, fun e he => ?_, fun e => ?_, fun e he => ?_,
    fun τ' k hk ho' => ?_, fun e he k hk => ?_, ?_⟩, hcell⟩
  · rw [hroot, hst.ptrPageDirectory]
    exact h.kernelRoot
  · obtain ⟨-, heq⟩ := hkept ho'
    exact heq ▸ hobject o hk (heq ▸ ho')
  · obtain ⟨-, heq⟩ := hkept ho'
    obtain ⟨-, heq'⟩ := hkept (he ▸ ho')
    exact h.inj o o' (heq ▸ ho') (by rw [← heq, ← heq', he])
  · obtain ⟨-, heq⟩ := hkept hk
    rw [hroot]
    exact h.leaf τ' k (heq ▸ hk)
  · rw [hroot]
    exact h.absent e he
  · rw [hroot, hroot, hst.envPageDirectory, hst.diskEnvPgdir]
    exact h.roots e
  · rw [hroot] at he ⊢
    rw [hst.envCr3, hframe _ he]
    exact h.envCr3 e he
  · rw [hroot] at ho'
    rw [hcell]
    by_cases hkl : Obj.leaf τ' k = .leaf τ i
    · obtain ⟨rfl, rfl⟩ := Obj.leaf.inj hkl
      rw [Function.update_self, if_pos (Function.update_self ..)]
    · have hne : Cell.word (.root τ') k ≠ .word (.root τ) i := fun he => hkl (by
        obtain ⟨hτ, rfl⟩ := Cell.word.inj he
        rw [Obj.root.inj hτ])
      have hleaf : g' (.leaf τ' k) = g (.leaf τ' k) := Function.update_of_ne hkl ..
      rw [Function.update_of_ne hne, h.pde τ' k hk ho', hleaf]
      split
      · rfl
      · rename_i h0
        rw [hframe _ h0]
  · rw [hroot] at he
    rw [hcell, Function.update_of_ne, h.kpde e he k hk, hpde k hk]
    intro hek
    obtain ⟨-, rfl⟩ := Cell.word.inj hek
    exact hik hk
  · obtain ⟨τ', hτ, ho', hcr⟩ := h.loaded
    exact ⟨τ', hτ, hroot τ' ▸ ho', by rw [hroot, hst.cr3, hframe _ ho', hcr]⟩

/-- An address of the kernel heap means the same as long as its entry is the same. -/
theorem Layout.translate_heap_congr (h : Layout E s g) (hst : SameBoot s t) (hp : HeapPage p)
    (hcr : t.ram (frameNumber s.cr3) = s.ram (frameNumber s.cr3)) (hdir : t.ram s.kernelDir = s.ram s.kernelDir)
    (hpte : t.kernelPte p = s.kernelPte p) (need : ℕ) : t.translate need p = s.translate need p := by
  have hpde : t.pde p = s.pde p := by
    rw [Machine.pde, hst.cr3, hcr, Machine.pde]
  have htab : frameNumber (s.pde p) = s.kernelTable (pdx p) := by
    rw [Machine.pde, h.pde_loaded hp.shared.index, kernelTable]
  have hpte' : t.pte p = s.pte p := by
    rw [Machine.pte, hpde, Machine.pte, htab]
    rw [kernelPte, kernelTable_congr hst.ptrPageDirectory hdir, kernelPte] at hpte
    exact hpte
  simp only [translate, hst.ptrFreeMem, hpde, hpte']

/-- What the removal of an empty table leaves. -/
structure RemovedTable (E : Finset ℕ) (s : Machine) (g : Obj → ℕ) (τ : Tree) (i : ℕ) (t : Machine) : Prop where
  stocked : Stocked E t (Function.update g (.leaf τ i) 0)
  cell : t.cellWord (Function.update g (.leaf τ i) 0) = Function.update
    (Function.update (s.cellWord g) (.word (.root τ) i) 0) (.page (g (.leaf τ i))) 0
  free : t.freeFrameList = s.pageFrame (g (.leaf τ i)) :: s.freeFrameList
  info : t.framesInfo = Function.update s.framesInfo (s.pageFrame (g (.leaf τ i))) .initial
  ordinary : ∀ f, Ordinary s f → Ordinary t f ∧ t.ram f = s.ram f
  globals : ∃ d, SameGlobals (s.setHeap d) t
  blocks : ∃ A B, s.heap.blocks .alloc = A ++ ⟨g (.leaf τ i), pageSize⟩ :: B ∧ t.heap.blocks .alloc = A ++ B

theorem Stocked.removeTable_run (h : Stocked E s g) (hτ : τ ≠ .kernel) (hl : g (.leaf τ i) ≠ 0)
    (hb : ⟨g (.leaf τ i), pageSize⟩ ∈ s.heap.blocks .alloc)
    (hempty : ∀ j < 1024, s.cellWord g (.word (.leaf τ i) j) = 0) :
    ∃ t, (do
        kfree (g (.leaf τ i))
        writeEntry (g (.root τ)) i 0 : Kernel Unit).run s = .ok ((), t) ∧ RemovedTable E s g τ i t := by
  obtain ⟨hi, ho⟩ := h.leaf τ i hl
  obtain ⟨f, d, A, B, hp, hf, hrun, hheap, hold, hnew⟩ := h.heap.kfree_page hb
  set pt := g (.leaf τ i) with hpt
  set u := (((s.setInfo f .initial).setFree (f :: s.freeFrameList)).setEntry
    (s.kernelTable (pdx pt)) (ptx pt) 0).setHeap d with hu
  have hk : Obj.root τ ≠ .root .kernel := fun he => hτ (Obj.root.inj he)
  have hobj := h.object _ hk ho
  have hframe : s.pageFrame pt = f := by
    rw [h.pageFrame_heap hp, hf.frame_eq]
  have hne : g (.root τ) ≠ pt := fun he => nomatch h.inj _ _ ho he
  have huram : u.ram = (s.setEntry (s.kernelTable (pdx pt)) (ptx pt) 0).ram := rfl
  have hupte (q : ℕ) (hq : HeapPage q) : u.kernelPte q = if q = pt then 0 else s.kernelPte q :=
    (h.tables.mono heapTables_subset).heapPte_of_setEntry hp hq (by decide) rfl rfl
  -- the directory is written as before the page was freed
  have hwrite : u.translate (permPresent ||| permWriteable) (g (.root τ)) = some (s.pageFrame (g (.root τ))) := by
    have hst : SameBoot s u := ⟨rfl, rfl, rfl, rfl⟩
    have hold : s.translate (permPresent ||| permWriteable) (g (.root τ)) = _ := h.translate_object ho (by decide)
    rw [← hold]
    refine h.translate_heap_congr hst hobj.heap ?_ ?_ ?_ _
    · obtain ⟨τ', -, ho', hcr⟩ := h.loaded
      rw [huram, hcr]
      exact setFrame_ram_of_ne (h.pageFrame_ne_table ho' (heapTables_subset hp.index))
    · rw [huram]
      exact setFrame_ram_of_ne (h.tables.ne_dir _ (heapTables_subset hp.index)).symm
    · rw [hupte _ hobj.heap, if_neg hne]
  set t := u.setEntry (s.pageFrame (g (.root τ))) i 0 with ht
  -- the entry may as well be cleared first
  have hvst : SamePlaces s (s.setEntry (s.pageFrame (g (.root τ))) i 0) := (sameGlobals_setEntry ..).places
  obtain ⟨hv, hvcell⟩ := h.detach_leaf hl hempty hvst (fun _ => rfl) rfl
  set w := s.setEntry (s.pageFrame (g (.root τ))) i 0 with hw
  set g' := Function.update g (.leaf τ i) 0 with hg'
  have hnot (o : Obj) : g' o ≠ pt := by
    by_cases hol : o = .leaf τ i
    · rw [hg', hol, Function.update_self]
      exact hl.symm
    · rw [hg', Function.update_of_ne hol]
      exact fun he => hol (h.inj _ _ (he ▸ hl) he)
  have hRK : s.pageFrame (g (.root τ)) ≠ s.kernelTable (pdx pt) :=
    h.pageFrame_ne_table ho (heapTables_subset hp.index)
  have hwtab : w.kernelTable = s.kernelTable := by
    refine kernelTable_congr rfl (setFrame_ram_of_ne ?_)
    rw [← h.pageFrame_kernelRoot]
    exact fun he => hk (h.pageFrame_inj ho h.kernelRoot_ne he.symm)
  have hram : t.ram = (w.setEntry (w.kernelTable (pdx pt)) (ptx pt) 0).ram := by
    rw [hwtab, ht, hw, hu]
    simp only [setEntry, setFrame, setHeap, setInfo_ram, setFree_ram, Function.update_of_ne hRK,
      Function.update_of_ne hRK.symm]
    exact Function.update_comm hRK.symm _ _ _
  have hwt : SamePlaces w t := by
    refine ⟨⟨rfl, rfl, rfl, rfl⟩, fun _ => rfl, fun _ => rfl, fun _ => rfl⟩
  have hcell : t.cellWord g' = Function.update (w.cellWord g') (.page pt) 0 :=
    hv.cellWord_setShared hp.shared (by decide) (fun o _ => hnot o) hwt.toSameBoot hram
  have hinfo : t.framesInfo = Function.update s.framesInfo f .initial := rfl
  have hlay : Layout E t g' := hv.of_update hwt hcell (fun o _ _ he => hnot o (Cell.page.inj he).symm)
    (fun _ _ => by simp) fun o hk' ho' => by
      rw [hinfo, Function.update_of_ne]
      · rfl
      · intro he
        have hva := (hv.object o hk' ho').va
        rw [he, show w.framesInfo = s.framesInfo from rfl, hf.info] at hva
        exact hnot o hva.symm
  have htpte (q : ℕ) (hq : HeapPage q) : t.kernelPte q = if q = pt then 0 else s.kernelPte q := by
    rw [← cellWord_page hq.shared g', hcell]
    by_cases hqp : q = pt
    · rw [hqp, Function.update_self, if_pos rfl]
    · rw [Function.update_of_ne (by simpa using hqp), hvcell, Function.update_of_ne (by simp), if_neg hqp,
        cellWord_page hq.shared]
  have hheapFrame (f' : ℕ) (hf' : t.HeapFrame f') : s.HeapFrame f' ∧ f' ≠ f := by
    obtain ⟨q, hq, hn⟩ := hf'
    rw [htpte q hq] at hn
    split at hn
    · cases hn
    · rename_i hqp
      refine ⟨⟨q, hq, hn⟩, ?_⟩
      rintro rfl
      by_cases hlive : s.Live q
      · obtain ⟨f₂, hf₂⟩ := h.heap.pages.mapped q hq hlive
        rw [hf₂.entry, nameOf_construct (by decide)] at hn
        have := Option.some.inj hn ▸ hf₂.info
        rw [hf.info] at this
        exact hqp (FrameInfo.mk.inj this).2.1.symm
      · rw [h.heap.pages.unmapped q hq hlive] at hn
        cases hn
  have hready : Ready E t g' := by
    refine ⟨hlay, List.nodup_cons.mpr ⟨hf.not_free, h.nodup⟩, fun f' hf' => ?_⟩
    rcases List.mem_cons.mp hf' with rfl | hmem
    · refine ⟨⟨?_, fun hh => (hheapFrame _ hh).2 rfl⟩, by rw [hinfo, Function.update_self]; rfl⟩
      rw [hwt.managed, hvst.managed, ← hframe]
      exact (h.object _ (by simp) hl).managed
    · obtain ⟨hord, hbuf⟩ := h.free f' hmem
      refine ⟨⟨?_, fun hh => hord.not_heap (hheapFrame _ hh).1⟩, ?_⟩
      · rw [hwt.managed, hvst.managed]
        exact hord.managed
      · rw [hinfo, Function.update_of_ne fun he : f' = f => hf.not_free (he ▸ hmem)]
        exact hbuf
  refine ⟨t, by rw [run_bind_ok hrun, writeEntry_run hwrite], ⟨hready, ?_⟩, by rw [hcell, hvcell], by rw [hframe]; rfl,
    by rw [hframe, hinfo], fun f' hf' => ⟨⟨?_, fun hh => hf'.not_heap (hheapFrame _ hh).1⟩, ?_⟩, ⟨d, ?_⟩, A, B, hold,
    hnew⟩
  · exact hheap.keep hready rfl rfl (fun q hq => by rw [htpte q hq, hupte q hq]) fun _ _ => rfl
  · rw [hwt.managed, hvst.managed]
    exact hf'.managed
  · rw [ht, setEntry, setFrame_ram_of_ne (h.ordinary_ne hf' ho).symm]
    refine setFrame_ram_of_ne fun he => h.reserved.2 _ (heapTables_subset hp.index) ?_
    rw [← he]
    exact hf'.managed
  · constructor <;> rfl

/-- The record of a frame after `n` references were given up. -/
def FrameInfo.drop (r : FrameInfo) (n : ℕ) : FrameInfo :=
  if n = 0 then r else if r.references = n then .initial else { r with references := r.references - n }

theorem dropReference_drop {r : FrameInfo} (hr : s.framesInfo f = r.drop n) (hn : n < r.references)
    (hlt : r.references < 2 ^ 16) :
    (s.dropReference f).framesInfo = Function.update s.framesInfo f (r.drop (n + 1)) ∧
      (s.dropReference f).freeFrameList =
        if r.references = n + 1 then f :: s.freeFrameList else s.freeFrameList := by
  have hval : s.framesInfo f = { r with references := r.references - n } := by
    rw [hr, FrameInfo.drop]
    split
    · subst n
      rfl
    · rw [if_neg (by omega)]
  have hdec : (s.framesInfo f).addReferences (2 ^ 16 - 1) = { r with references := r.references - (n + 1) } := by
    have : (r.references - n + (2 ^ 16 - 1)) % 2 ^ 16 = r.references - (n + 1) := by omega
    rw [hval, FrameInfo.addReferences]
    simp only [this]
  rw [dropReference, hdec, FrameInfo.drop, if_neg (Nat.succ_ne_zero n)]
  by_cases hlast : r.references = n + 1
  · rw [if_pos (by simp only; omega), if_pos hlast, if_pos hlast]
    exact ⟨rfl, rfl⟩
  · rw [if_neg (by simp only; omega), if_neg hlast, if_neg hlast]
    exact ⟨rfl, rfl⟩

/-- How many of the pages `P` an entry maps to the frame. -/
noncomputable def namedBy (s : Machine) (g : Obj → ℕ) (τ : Tree) (P : Finset ℕ) (f : ℕ) : ℕ :=
  (P.filter fun p => nameOf (s.entries g (τ, p)) = some f).card

theorem namedBy_insert (hp : p ∉ P) : namedBy s g τ (insert p P) f =
    namedBy s g τ P f + if nameOf (s.entries g (τ, p)) = some f then 1 else 0 := by
  rw [namedBy, Finset.filter_insert]
  split
  · rw [Finset.card_insert_of_notMem fun hmem => hp (Finset.mem_filter.mp hmem).1, namedBy]
  · rfl

/-- The pages `P` of `τ` were unmapped: each frame lost the references of those that it backed. -/
structure Unmapped (E : Finset ℕ) (s : Machine) (g : Obj → ℕ) (τ : Tree) (P : Finset ℕ) (t : Machine) : Prop where
  stocked : Stocked E t g
  entries : ∀ x, t.entries g x = if x.1 = τ ∧ x.2 ∈ P then 0 else s.entries g x
  other : ∀ x, (∀ τ i j, x ≠ .word (.leaf τ i) j) → t.cellWord g x = s.cellWord g x
  info : ∀ f, t.framesInfo f = (s.framesInfo f).drop (namedBy s g τ P f)
  free : ∀ f, f ∈ t.freeFrameList ↔
    f ∈ s.freeFrameList ∨ 0 < namedBy s g τ P f ∧ (s.framesInfo f).references = namedBy s g τ P f
  ordinary : ∀ f, Ordinary s f → Ordinary t f ∧ t.ram f = s.ram f
  globals : SameGlobals { s with envs := t.envs } t

namespace Unmapped

theorem refl (h : Stocked E s g) : Unmapped E s g τ ∅ s where
  stocked := h
  entries := by simp
  other _ _ := rfl
  info f := by simp [namedBy, FrameInfo.drop]
  free f := by simp [namedBy]
  ordinary f hf := ⟨hf, rfl⟩
  globals := .refl s

theorem unmapFrame_run (h : Unmapped E s g τ P t) (hva : va < userTop) (hp : pageNumber va ∉ P)
    (hn : nameOf (s.entries g (τ, pageNumber va)) = some f) (hf : InUse s f)
    (hle : namedBy s g τ P f < (s.framesInfo f).references) (hlt : (s.framesInfo f).references < 2 ^ 16) :
    ∃ u, (unmapFrame (g (.root τ)) va).run t = .ok ((), u) ∧ Unmapped E s g τ (insert (pageNumber va) P) u ∧
      u.envs = t.envs := by
  obtain ⟨hord, -⟩ := h.ordinary f hf.toOrdinary
  have hentry : t.entries g (τ, pageNumber va) = s.entries g (τ, pageNumber va) := by
    rw [h.entries]
    exact if_neg fun hc => hp hc.2
  rw [← hentry] at hn
  have huse : InUse t f := by
    refine ⟨hord, fun hmem => ?_⟩
    rcases (h.free f).mp hmem with hfree | ⟨-, he⟩
    · exact hf.not_free hfree
    · omega
  have hl := table_of_entry hva (nameOf_eq_some.mp hn).1
  have hrun := h.stocked.unmapFrame_run hva hn (h.stocked.ordinary_lt hord)
  obtain ⟨hinfo, hfree⟩ := dropReference_drop (h.info f) hle hlt
  have hmem := sameMemory_dropReference t f
  have hstep := h.stocked.toReady.dropReference huse
  obtain ⟨hst, hent⟩ := h.stocked.set (w := 0) hstep hmem.ram hva hl (by decide)
  have hcell := h.stocked.setEntry_cells (w := 0) hstep.places hmem.ram hva hl (by decide)
  set u := (t.dropReference f).setEntry (t.entryFrame g τ va) (ptx va) 0
  have hplaces := (hstep.setEntry (t.entryFrame g τ va) (ptx va) 0).places
  have hnamed (f' : ℕ) : namedBy s g τ (insert (pageNumber va) P) f' =
      namedBy s g τ P f' + if f = f' then 1 else 0 := by
    rw [namedBy_insert hp, ← hentry, hn]
    simp only [Option.some.injEq]
  have hglob : SameGlobals t u := hmem.toSameGlobals.trans (sameGlobals_setEntry ..)
  refine ⟨u, hrun, ⟨hst, ?_, fun x hx => ?_, fun f' => ?_, fun f' => ?_, fun f' hf' => ?_, ?_⟩, hglob.envs⟩
  · intro ⟨τ', q⟩
    rw [hent]
    by_cases hx : (τ', q) = (τ, pageNumber va)
    · obtain ⟨rfl, rfl⟩ := Prod.mk.inj hx
      rw [Function.update_self, if_pos ⟨rfl, Finset.mem_insert_self ..⟩]
    · rw [Function.update_of_ne hx, h.entries]
      have hiff : (τ' = τ ∧ q ∈ insert (pageNumber va) P) ↔ τ' = τ ∧ q ∈ P := by
        refine and_congr_right fun he => ?_
        rw [Finset.mem_insert, or_iff_right]
        exact fun hq => hx (by rw [he, hq])
      simp only [hiff]
  · rw [hcell, cellAt_user hva, Function.update_of_ne (hx _ _ _), h.other x hx]
  · rw [setEntry_framesInfo, hinfo, hnamed]
    by_cases hff : f' = f
    · rw [hff, Function.update_self, if_pos rfl]
    · rw [Function.update_of_ne hff, if_neg (Ne.symm hff), Nat.add_zero, h.info]
  · rw [setEntry_freeFrameList, hfree, hnamed]
    by_cases hff : f' = f
    · subst hff
      rw [if_pos rfl]
      by_cases hlast : (s.framesInfo f').references = namedBy s g τ P f' + 1
      · rw [if_pos hlast]
        exact ⟨fun _ => .inr ⟨Nat.succ_pos _, hlast⟩, fun _ => List.mem_cons_self⟩
      · rw [if_neg hlast]
        exact ⟨fun hmem => absurd hmem huse.not_free, fun hmem => absurd (hmem.resolve_left hf.not_free).2 hlast⟩
    · simp only [if_neg (Ne.symm hff), Nat.add_zero]
      rw [← h.free]
      split
      · simp [hff]
      · rfl
  · obtain ⟨hord', hram⟩ := h.ordinary f' hf'
    refine ⟨hord'.congr hplaces.toSameBoot fun q hq => kernelPte_of_user hva hcell hq, ?_⟩
    rw [← hram, ← hmem.ram]
    exact setFrame_ram_of_ne (h.stocked.ordinary_ne hord' hl).symm
  · have henvs : u.envs = t.envs := hglob.envs
    rw [henvs]
    exact h.globals.trans hglob

theorem setEnv (h : Unmapped E s g τ P t) (hdir : v.envPageDirectory = (t.envs e).envPageDirectory)
    (hdisk : v.diskEnvPgdir = (t.envs e).diskEnvPgdir) (hcr3 : v.envCr3 = (t.envs e).envCr3) :
    Unmapped E s g τ P (t.setEnv e v) := by
  have hst : UserStep t (t.setEnv e v) := by
    refine ⟨⟨⟨rfl, rfl, rfl, rfl⟩, fun e' => ?_, fun e' => ?_, fun e' => ?_⟩, rfl, rfl, fun _ _ => rfl,
      h.stocked.nodup, h.stocked.free⟩
    all_goals
      simp only [Machine.setEnv, Function.update_apply]
      split
      · subst e'
        assumption
      · rfl
  have hready := h.stocked.toReady.same hst rfl
  have hcell : (t.setEnv e v).cellWord g = t.cellWord g := Layout.cellWord_congr hst.places.toSameBoot rfl g
  have hpte (q : ℕ) : (t.setEnv e v).kernelPte q = t.kernelPte q := rfl
  exact ⟨⟨hready, h.stocked.heap.keep hready rfl rfl (fun q _ => hpte q) fun _ _ => rfl⟩,
    fun x => (congrFun (entries_congr fun τ' i j => congrFun hcell (.word (.leaf τ' i) j)) x).trans (h.entries x),
    fun x hx => (congrFun hcell x).trans (h.other x hx), h.info, h.free,
    fun f hf => (h.ordinary f hf).imp_left fun hf => hf.congr hst.places.toSameBoot fun q _ => hpte q,
    ⟨h.globals.cr3, h.globals.numberOfFrames, h.globals.ptrFreeMem, h.globals.ptrPageDirectory, h.globals.heap,
      h.globals.strategy, h.globals.disk, h.globals.diskFreeFrameList, rfl⟩⟩

end Unmapped

/-- The slot holds one of the `n` pages from page `m` on. -/
def HoldsPage (v : Env) (m n j : ℕ) : Prop :=
  (v.ptrPageWorkingSet j).empty = false ∧ m ≤ pageNumber (v.ptrPageWorkingSet j).virtualAddress ∧
    pageNumber (v.ptrPageWorkingSet j).virtualAddress < m + n

instance : Decidable (HoldsPage v m n j) := inferInstanceAs (Decidable (_ ∧ _ ∧ _))

/-- Those of the pages that are held by the first `k` slots. -/
def slotPages (v : Env) (m n k : ℕ) : Finset ℕ :=
  ((Finset.range k).filter fun j => HoldsPage v m n j).image fun j => pageNumber (v.ptrPageWorkingSet j).virtualAddress

/-- Those of the first `k` slots that held one of the pages are empty. -/
def clearedSlots (v : Env) (m n k hand : ℕ) : Env :=
  { v with
    ptrPageWorkingSet := fun j => if j < k ∧ HoldsPage v m n j then ⟨0, true, 0⟩ else v.ptrPageWorkingSet j
    pageLastWSIndex := hand }

theorem slotPages_succ (v : Env) (m n k : ℕ) : slotPages v m n (k + 1) =
    if HoldsPage v m n k then insert (pageNumber (v.ptrPageWorkingSet k).virtualAddress) (slotPages v m n k)
    else slotPages v m n k := by
  rw [slotPages, Finset.range_add_one, Finset.filter_insert]
  split
  · rw [Finset.image_insert, slotPages]
  · rfl

theorem mem_slotPages {v : Env} : p ∈ slotPages v m n k ↔
    m ≤ p ∧ p < m + n ∧ ∃ j < k, (v.ptrPageWorkingSet j).empty = false ∧
      pageNumber (v.ptrPageWorkingSet j).virtualAddress = p := by
  simp only [slotPages, Finset.mem_image, Finset.mem_filter, Finset.mem_range]
  constructor
  · rintro ⟨j, ⟨hj, hocc, hlo, hhi⟩, rfl⟩
    exact ⟨hlo, hhi, j, hj, hocc, rfl⟩
  · rintro ⟨hlo, hhi, j, hj, hocc, rfl⟩
    exact ⟨j, ⟨hj, hocc, hlo, hhi⟩, rfl⟩

theorem clearedSlots_hold {v : Env} (h : HoldsPage v m n k) (hand : ℕ) :
    { { clearedSlots v m n k hand with pageLastWSIndex := k } with
      ptrPageWorkingSet := Function.update (clearedSlots v m n k hand).ptrPageWorkingSet k ⟨0, true, 0⟩ } =
    clearedSlots v m n (k + 1) k := by
  have hslots : Function.update (clearedSlots v m n k hand).ptrPageWorkingSet k ⟨0, true, 0⟩ =
      (clearedSlots v m n (k + 1) k).ptrPageWorkingSet := by
    funext j
    simp only [clearedSlots, Function.update_apply]
    by_cases hjk : j = k
    · rw [if_pos hjk, hjk, if_pos ⟨Nat.lt_succ_self k, h⟩]
    · have hiff : j < k + 1 ↔ j < k := by omega
      simp only [if_neg hjk, hiff]
  rw [hslots]
  rfl

theorem clearedSlots_skip {v : Env} (h : ¬HoldsPage v m n k) (hand : ℕ) :
    clearedSlots v m n (k + 1) hand = clearedSlots v m n k hand := by
  have hiff (j : ℕ) : (j < k + 1 ∧ HoldsPage v m n j) ↔ j < k ∧ HoldsPage v m n j := by
    refine and_congr_left fun hj => ?_
    have hjk : j ≠ k := fun he => h (he ▸ hj)
    omega
  simp only [clearedSlots, hiff]

def sizePages (size : ℕ) : ℕ := (size + (pageSize - 1)) / pageSize

/-- The resident ones among `n` pages of an environment from page `m` on. -/
noncomputable def residentPages (s : Machine) (g : Obj → ℕ) (e m n : ℕ) : Finset ℕ :=
  (Finset.Ico m (m + n)).filter fun p => HasPerm (s.entries g (.user e, p)) permPresent

/-- What `free_user_mem` relies on: the range is one of user pages, its resident pages are those in
the working set, on frames that are in use and count them, and tables are pages of the kernel heap. -/
structure CanFree (E : Finset ℕ) (s : Machine) (g : Obj → ℕ) (e va size : ℕ) : Prop where
  stocked : Stocked E s g
  root : g (.root (.user e)) ≠ 0
  dvd : pageSize ∣ va
  le : va + pageSize * sizePages size ≤ userTop
  resident : residentPages s g e (pageNumber va) (sizePages size) =
    slotPages (s.envs e) (pageNumber va) (sizePages size) (s.envs e).pageWSMaxSize
  inUse : ∀ p ∈ residentPages s g e (pageNumber va) (sizePages size), InUse s (frameNumber (s.entries g (.user e, p)))
  counted : ∀ f, namedBy s g (.user e) (residentPages s g e (pageNumber va) (sizePages size)) f ≤ (s.framesInfo f).references
  uint16 : ∀ p ∈ residentPages s g e (pageNumber va) (sizePages size),
    (s.framesInfo (frameNumber (s.entries g (.user e, p)))).references < 2 ^ 16
  tables : ∀ i ∈ tablesOf va (sizePages size), g (.leaf (.user e) i) ≠ 0 →
    ⟨g (.leaf (.user e) i), pageSize⟩ ∈ s.heap.blocks .alloc

/-- After the first `k` rounds of the loop over the working set. -/
structure ClearedSlots (E : Finset ℕ) (s : Machine) (g : Obj → ℕ) (e m n k : ℕ) (t : Machine) : Prop where
  unmapped : Unmapped E s g (.user e) (slotPages (s.envs e) m n k) t
  envs : ∃ hand, t.envs = Function.update s.envs e (clearedSlots (s.envs e) m n k hand)

theorem namedBy_mono {P' : Finset ℕ} (h : P ⊆ P') : namedBy s g τ P f ≤ namedBy s g τ P' f :=
  Finset.card_le_card (Finset.filter_subset_filter _ h)

theorem slotPages_mono (v : Env) (m n : ℕ) {k k' : ℕ} (h : k ≤ k') : slotPages v m n k ⊆ slotPages v m n k' :=
  Finset.image_subset_image (Finset.filter_subset_filter _ (Finset.range_mono h))

namespace CanFree

variable (h : CanFree E s g e va size)
include h

theorem roundUp_size : roundUp size pageSize = pageSize * sizePages size := by
  have hle := h.le
  have htop := userTop_lt
  have hsize : size ≤ pageSize * sizePages size := by
    simp only [sizePages, pageSize]
    omega
  rw [roundUp, u32_of_lt, roundDown]
  · simp only [sizePages, pageSize]
    omega
  · simp only [sizePages, pageSize, userTop] at *
    omega

theorem stop_lt : va + pageSize * sizePages size < 2 ^ 32 := h.le.trans_lt userTop_lt

theorem inRange_iff {a : ℕ} : (va ≤ roundDown a pageSize ∧ roundDown a pageSize < u32 (va + pageSize * sizePages size)) ↔
    pageNumber va ≤ pageNumber a ∧ pageNumber a < pageNumber va + sizePages size := by
  rw [u32_of_lt h.stop_lt]
  obtain ⟨c, hc⟩ := h.dvd
  simp only [roundDown, pageNumber, pageSize] at *
  omega

theorem unmapSlot_run (hk : k < (s.envs e).pageWSMaxSize) (hold : HoldsPage (s.envs e) (pageNumber va) (sizePages size) k)
    (ht : Unmapped E s g (.user e) (slotPages (s.envs e) (pageNumber va) (sizePages size) k) t) :
    ∃ u, (unmapFrame (g (.root (.user e))) (roundDown ((s.envs e).ptrPageWorkingSet k).virtualAddress pageSize)).run t =
        .ok ((), u) ∧
      Unmapped E s g (.user e) (slotPages (s.envs e) (pageNumber va) (sizePages size) (k + 1)) u ∧ u.envs = t.envs := by
  rw [slotPages_succ, if_pos hold]
  set a := ((s.envs e).ptrPageWorkingSet k).virtualAddress with ha
  set m := pageNumber va
  set n := sizePages size
  have hpage : pageNumber (roundDown a pageSize) = pageNumber a := pageNumber_roundDown a
  have hlt : roundDown a pageSize < userTop := by
    have hrange := h.inRange_iff.mpr hold.2
    rw [u32_of_lt h.stop_lt] at hrange
    exact hrange.2.trans_le h.le
  have hsub : insert (pageNumber a) (slotPages (s.envs e) m n k) ⊆ residentPages s g e m n := by
    have hmono := slotPages_mono (s.envs e) m n (show k + 1 ≤ (s.envs e).pageWSMaxSize from hk)
    rwa [slotPages_succ, if_pos hold, ← h.resident] at hmono
  have hres := hsub (Finset.mem_insert_self ..)
  obtain ⟨-, hpres⟩ := Finset.mem_filter.mp hres
  by_cases hmem : pageNumber a ∈ slotPages (s.envs e) m n k
  · rw [Finset.insert_eq_of_mem hmem]
    refine ⟨t, ht.stocked.unmapFrame_zero h.root hlt ?_, ht, rfl⟩
    rw [hpage, ht.entries]
    exact if_pos ⟨rfl, hmem⟩
  · have hn : nameOf (s.entries g (.user e, pageNumber a)) = some (frameNumber (s.entries g (.user e, pageNumber a))) :=
      nameOf_eq_some.mpr ⟨ne_zero_of_hasPerm_present hpres, rfl⟩
    have hcount : namedBy s g (.user e) (slotPages (s.envs e) m n k) (frameNumber (s.entries g (.user e, pageNumber a))) <
        (s.framesInfo (frameNumber (s.entries g (.user e, pageNumber a)))).references := by
      refine lt_of_lt_of_le ?_ ((namedBy_mono hsub).trans (h.counted _))
      rw [namedBy_insert hmem, if_pos hn]
      exact Nat.lt_succ_self _
    rw [← hpage] at hn hmem hcount ⊢
    exact ht.unmapFrame_run hlt hmem hn (hpage ▸ h.inUse _ hres) hcount (hpage ▸ h.uint16 _ hres)

theorem freeWorkingSetEntry_run (hk : k < (s.envs e).pageWSMaxSize)
    (ht : ClearedSlots E s g e (pageNumber va) (sizePages size) k t) :
    ∃ u, (freeWorkingSetEntry e va (pageSize * sizePages size) k).run t = .ok ((), u) ∧
      ClearedSlots E s g e (pageNumber va) (sizePages size) (k + 1) u := by
  obtain ⟨hand, henvs⟩ := ht.envs
  have henv : t.envs e = clearedSlots (s.envs e) (pageNumber va) (sizePages size) k hand := by
    rw [henvs, Function.update_self]
  have hslot : (t.envs e).ptrPageWorkingSet k = (s.envs e).ptrPageWorkingSet k := by
    rw [henv]
    exact if_neg fun hc => absurd hc.1 (lt_irrefl k)
  have hmax : (t.envs e).pageWSMaxSize = (s.envs e).pageWSMaxSize := by rw [henv]; rfl
  have hget : (envPageWsGetVirtualAddress e k).run t =
      .ok (roundDown ((s.envs e).ptrPageWorkingSet k).virtualAddress pageSize, t) := by
    rw [envPageWsGetVirtualAddress, run_bind_ok run_get]
    simp only
    rw [if_neg (by rw [hmax]; omega), hslot]
    rfl
  have hdir : (t.envs e).envPageDirectory = g (.root (.user e)) := (ht.unmapped.stocked.roots e).1
  rw [freeWorkingSetEntry, run_bind_ok hget, run_bind_ok run_get]
  simp only [hslot, h.inRange_iff, hdir]
  by_cases hold : HoldsPage (s.envs e) (pageNumber va) (sizePages size) k
  · rw [if_pos (by rw [hold.1]; decide), if_pos hold.2]
    -- the hand points to the slot first
    have ht' := ht.unmapped.setEnv (e := e) (v := { t.envs e with pageLastWSIndex := k }) rfl rfl rfl
    obtain ⟨u, hrun, hu, huenvs⟩ := h.unmapSlot_run hk hold ht'
    have hmodify : (modifyEnv e fun v => { v with pageLastWSIndex := k }).run t =
        .ok ((), t.setEnv e { t.envs e with pageLastWSIndex := k }) := rfl
    have henv' : u.envs e = { t.envs e with pageLastWSIndex := k } := by
      rw [huenvs]
      exact Function.update_self ..
    have hclear : (envPageWsClearEntry e k).run u = .ok ((), u.setEnv e { u.envs e with
        ptrPageWorkingSet := Function.update (u.envs e).ptrPageWorkingSet k ⟨0, true, 0⟩ }) := by
      rw [envPageWsClearEntry, run_bind_ok run_get, if_neg (by rw [henv']; simp only [hmax]; omega)]
      rfl
    rw [run_bind_ok hmodify, run_bind_ok hrun, hclear]
    refine ⟨_, rfl, hu.setEnv rfl rfl rfl, k, ?_⟩
    rw [← clearedSlots_hold hold hand, ← henv, henv']
    simp only [Machine.setEnv, huenvs, henvs, Function.update_idem]
  · have hskip : ¬(¬((s.envs e).ptrPageWorkingSet k).empty = true ∧ pageNumber va ≤ pageNumber ((s.envs e).ptrPageWorkingSet k).virtualAddress ∧
        pageNumber ((s.envs e).ptrPageWorkingSet k).virtualAddress < pageNumber va + sizePages size) := by
      rw [Bool.not_eq_true]
      exact hold
    have hsame : ClearedSlots E s g e (pageNumber va) (sizePages size) (k + 1) t := by
      refine ⟨?_, hand, ?_⟩
      · rw [slotPages_succ, if_neg hold]
        exact ht.unmapped
      · rw [clearedSlots_skip hold, henvs]
    by_cases hocc : ((s.envs e).ptrPageWorkingSet k).empty = true
    · rw [if_neg (not_not.mpr hocc)]
      exact ⟨t, rfl, hsame⟩
    · rw [if_pos hocc, if_neg fun hc => hskip ⟨hocc, hc⟩]
      exact ⟨t, rfl, hsame⟩

theorem freeWorkingSet_run : ∃ t,
    (forRange (freeWorkingSetEntry e va (pageSize * sizePages size)) 0 (s.envs e).pageWSMaxSize).run s = .ok ((), t) ∧
      ClearedSlots E s g e (pageNumber va) (sizePages size) (s.envs e).pageWSMaxSize t := by
  have hinit : ClearedSlots E s g e (pageNumber va) (sizePages size) 0 s := by
    refine ⟨.refl h.stocked, (s.envs e).pageLastWSIndex, ?_⟩
    have : clearedSlots (s.envs e) (pageNumber va) (sizePages size) 0 (s.envs e).pageLastWSIndex = s.envs e := by
      simp [clearedSlots]
    rw [this, Function.update_eq_self]
  have hloop : Sat (fun _ => False) _ s _ := Sat.forRange (s := s) (i := 0) (n := (s.envs e).pageWSMaxSize)
    (ClearedSlots E s g e (pageNumber va) (sizePages size)) hinit fun k t _ hk ht => by
      obtain ⟨u, hrun, hu⟩ := h.freeWorkingSetEntry_run (by omega) ht
      exact .of_ok hrun hu
  obtain ⟨_, t, hrun, ht⟩ := hloop.exists_ok
  rw [Nat.zero_add] at ht
  exact ⟨t, hrun, ht⟩

end CanFree

def NoEntries (s : Machine) (g : Obj → ℕ) (τ : Tree) (i : ℕ) : Prop :=
  ∀ j < 1024, s.cellWord g (.word (.leaf τ i) j) = 0

open Classical in
/-- Those of the tables `I` that are there and have no entry left. -/
noncomputable def emptyTables (s : Machine) (g : Obj → ℕ) (τ : Tree) (I : Finset ℕ) : Finset ℕ :=
  I.filter fun i => g (.leaf τ i) ≠ 0 ∧ NoEntries s g τ i

open Classical in
/-- The placement without the tables `D` of `τ`. -/
noncomputable def withoutTables (g : Obj → ℕ) (τ : Tree) (D : Finset ℕ) (o : Obj) : ℕ :=
  if ∃ i ∈ D, o = .leaf τ i then 0 else g o

/-- The tables `D` of `τ` were removed, and `k` pages from page `m` on from the page file. -/
structure Swept (E : Finset ℕ) (s : Machine) (g : Obj → ℕ) (e m k : ℕ) (D : Finset ℕ) (t : Machine) : Prop where
  stocked : Stocked E t (withoutTables g (.user e) D)
  removed : ∀ i ∈ D, g (.leaf (.user e) i) ≠ 0
  entries : ∀ x, t.entries (withoutTables g (.user e) D) x =
    if x.1 = .disk e ∧ m ≤ x.2 ∧ x.2 < m + k then 0 else s.entries g x
  root : ∀ τ i, t.cellWord (withoutTables g (.user e) D) (.word (.root τ) i) =
    if τ = .user e ∧ i ∈ D then 0 else s.cellWord g (.word (.root τ) i)
  page : ∀ p, (∀ i ∈ D, p ≠ g (.leaf (.user e) i)) →
    t.cellWord (withoutTables g (.user e) D) (.page p) = s.cellWord g (.page p)
  freed : ∀ i ∈ D, t.cellWord (withoutTables g (.user e) D) (.page (g (.leaf (.user e) i))) = 0
  free : ∀ f, f ∈ t.freeFrameList ↔ f ∈ s.freeFrameList ∨ ∃ i ∈ D, f = s.pageFrame (g (.leaf (.user e) i))
  info : ∀ f, (∀ i ∈ D, f ≠ s.pageFrame (g (.leaf (.user e) i))) → t.framesInfo f = s.framesInfo f
  blocks : ∀ b, b ∈ t.heap.blocks .alloc ↔
    b ∈ s.heap.blocks .alloc ∧ ∀ i ∈ D, b.start ≠ g (.leaf (.user e) i)
  ordinary : ∀ f, Ordinary s f → Ordinary t f ∧ t.ram f = s.ram f
  disk : t.diskFreeFrameList =
    (((List.range k).map fun j => s.entries g (.disk e, m + j)).reverse.filter (· ≠ 0)) ++ s.diskFreeFrameList
  globals : SameGlobals { s with heap := t.heap, diskFreeFrameList := t.diskFreeFrameList } t

theorem withoutTables_empty (g : Obj → ℕ) (τ : Tree) : withoutTables g τ ∅ = g := by
  funext o
  exact if_neg fun ⟨i, hi, _⟩ => absurd hi (Finset.notMem_empty i)

theorem withoutTables_insert (g : Obj → ℕ) (τ : Tree) (D : Finset ℕ) (i : ℕ) :
    withoutTables g τ (insert i D) = Function.update (withoutTables g τ D) (.leaf τ i) 0 := by
  funext o
  by_cases ho : o = .leaf τ i
  · rw [ho, Function.update_self, withoutTables, if_pos ⟨i, Finset.mem_insert_self .., rfl⟩]
  · rw [Function.update_of_ne ho, withoutTables, withoutTables]
    congr 1
    simp only [Finset.mem_insert, eq_iff_iff]
    constructor
    · rintro ⟨j, rfl | hj, hoj⟩
      · exact absurd hoj ho
      · exact ⟨j, hj, hoj⟩
    · rintro ⟨j, hj, hoj⟩
      exact ⟨j, .inr hj, hoj⟩

theorem withoutTables_leaf {D : Finset ℕ} (g : Obj → ℕ) (τ : Tree) (i : ℕ) :
    withoutTables g τ D (.leaf τ i) = if i ∈ D then 0 else g (.leaf τ i) := by
  rw [withoutTables]
  congr 1
  simp

theorem withoutTables_other {D : Finset ℕ} (h : ∀ i, o ≠ .leaf τ i) : withoutTables g τ D o = g o :=
  if_neg fun ⟨i, _, ho⟩ => h i ho

namespace Swept

variable {D : Finset ℕ}

theorem refl (h : Stocked E s g) : Swept E s g e m 0 ∅ s where
  stocked := by rwa [withoutTables_empty]
  removed i hi := absurd hi (Finset.notMem_empty i)
  entries := by
    intro x
    rw [withoutTables_empty, if_neg (by omega)]
  root τ i := by simp [withoutTables_empty]
  page p _ := by rw [withoutTables_empty]
  freed i hi := absurd hi (Finset.notMem_empty i)
  free f := by simp
  info _ _ := rfl
  blocks b := by simp
  ordinary f hf := ⟨hf, rfl⟩
  disk := by simp
  globals := .refl s

theorem clearDiskPage (h : Swept E s g e m k D t) (hu : ClearedDiskPage E t (withoutTables g (.user e) D) e (m + k) u) :
    Swept E s g e m (k + 1) D u where
  stocked := hu.stocked
  removed := h.removed
  entries := by
    intro ⟨τ, p⟩
    rw [hu.entries]
    by_cases hx : (τ, p) = (.disk e, m + k)
    · obtain ⟨rfl, rfl⟩ := Prod.mk.inj hx
      rw [Function.update_self, if_pos ⟨rfl, by simp, by simp⟩]
    · rw [Function.update_of_ne hx, h.entries]
      have hiff : (τ = .disk e ∧ m ≤ p ∧ p < m + (k + 1)) ↔ τ = .disk e ∧ m ≤ p ∧ p < m + k := by
        refine and_congr_right fun he => ?_
        have hp : p ≠ m + k := fun hp => hx (by rw [he, hp])
        omega
      simp only [hiff]
  root τ i := by rw [hu.other _ (by simp), h.root]
  page p hp := by rw [hu.other _ (by simp), h.page p hp]
  freed i hi := by rw [hu.other _ (by simp), h.freed i hi]
  free f := by rw [hu.free, h.free]
  info f hf := by rw [hu.info, h.info f hf]
  blocks b := by
    rw [hu.globals.heap]
    exact h.blocks b
  ordinary f hf := by
    obtain ⟨hf', hram⟩ := h.ordinary f hf
    exact (hu.ordinary f hf').imp_right fun hr => hr.trans hram
  disk := by
    have hentry : t.entries (withoutTables g (.user e) D) (.disk e, m + k) = s.entries g (.disk e, m + k) := by
      rw [h.entries]
      exact if_neg (by simp)
    rw [hu.disk, h.disk, hentry, List.range_succ, List.map_append, List.reverse_append, List.filter_append,
      List.append_assoc]
    rfl
  globals := by
    have hst := h.globals
    have htu := hu.globals
    exact ⟨htu.cr3.trans hst.cr3, htu.numberOfFrames.trans hst.numberOfFrames, htu.ptrFreeMem.trans hst.ptrFreeMem,
      htu.ptrPageDirectory.trans hst.ptrPageDirectory, rfl, htu.strategy.trans hst.strategy, htu.disk.trans hst.disk,
      rfl, htu.envs.trans hst.envs⟩

theorem removeTable (h : Swept E s g e m k D t) (hs : Stocked E s g) (hi : i ∉ D) (hl : g (.leaf (.user e) i) ≠ 0)
    (hu : RemovedTable E t (withoutTables g (.user e) D) (.user e) i u) : Swept E s g e m k (insert i D) u := by
  have hleaf : withoutTables g (.user e) D (.leaf (.user e) i) = g (.leaf (.user e) i) := by
    rw [withoutTables_leaf, if_neg hi]
  obtain ⟨hst, hcell, hfree, hinfo, hord, ⟨d, hglob⟩, A, B, hold, hnew⟩ := hu
  rw [← withoutTables_insert] at hst hcell
  rw [hleaf] at hcell hfree hinfo hold
  have hp := (hs.object _ (by simp) hl).heap
  have hframe : t.pageFrame (g (.leaf (.user e) i)) = s.pageFrame (g (.leaf (.user e) i)) := by
    rw [h.stocked.pageFrame_heap hp, hs.pageFrame_heap hp,
      ← cellWord_page hp.shared (withoutTables g (.user e) D), h.page, cellWord_page hp.shared]
    intro j hj he
    exact hi ((Obj.leaf.inj (hs.inj _ _ hl he)).2 ▸ hj)
  rw [hframe] at hfree hinfo
  have hne {j : ℕ} (hj : j ∈ D) : g (.leaf (.user e) i) ≠ g (.leaf (.user e) j) := fun he =>
    hi ((Obj.leaf.inj (hs.inj _ _ hl he)).2 ▸ hj)
  refine ⟨hst, fun j hj => ?_, ?_, fun τ j => ?_, fun p hp => ?_, fun j hj => ?_, fun f => ?_, fun f hf => ?_,
    fun b => ?_, fun f hf => ?_, ?_, ?_⟩
  · rcases Finset.mem_insert.mp hj with rfl | hj
    · exact hl
    · exact h.removed j hj
  · intro x
    rw [← h.entries, Machine.entries, hcell, Function.update_of_ne (by simp), Function.update_of_ne (by simp), Machine.entries]
  · rw [hcell, Function.update_of_ne (by simp)]
    by_cases hx : Cell.word (.root τ) j = .word (.root (.user e)) i
    · obtain ⟨ho, rfl⟩ := Cell.word.inj hx
      obtain rfl := Obj.root.inj ho
      rw [Function.update_self, if_pos ⟨rfl, Finset.mem_insert_self ..⟩]
    · rw [Function.update_of_ne hx, h.root]
      congr 1
      rw [eq_iff_iff, Finset.mem_insert]
      refine and_congr_right fun he => ?_
      rw [or_iff_right]
      exact fun hj => hx (by rw [he, hj])
  · rw [hcell, Function.update_of_ne, Function.update_of_ne (by simp),
      h.page p fun j hj => hp j (Finset.mem_insert_of_mem hj)]
    simpa using hp i (Finset.mem_insert_self ..)
  · rw [hcell]
    rcases Finset.mem_insert.mp hj with rfl | hj
    · rw [Function.update_self]
    · rw [Function.update_of_ne (by simpa using (hne hj).symm), Function.update_of_ne (by simp), h.freed j hj]
  · rw [hfree, List.mem_cons, h.free]
    simp only [Finset.mem_insert, exists_eq_or_imp]
    tauto
  · rw [hinfo, Function.update_of_ne (hf i (Finset.mem_insert_self ..)),
      h.info f fun j hj => hf j (Finset.mem_insert_of_mem hj)]
  · have hblock := h.blocks b
    obtain ⟨q, inv⟩ := h.stocked.heap.lists
    have hmem : b ∈ u.heap.blocks .alloc ↔ b ∈ t.heap.blocks .alloc ∧ b.start ≠ g (.leaf (.user e) i) := by
      rw [hold, hnew]
      constructor
      · intro hb
        refine ⟨by simp only [List.mem_append, List.mem_cons] at hb ⊢; tauto, fun he => ?_⟩
        have hord := hold ▸ inv.ordered_blocks
        refine hord.not_covered (b := ⟨g (.leaf (.user e) i), pageSize⟩) (a := b.start)
          ⟨by rw [he], by rw [he]; simp [pageSize]⟩ ⟨b, hb, le_rfl, ?_⟩
        obtain ⟨-, -, -, hpos⟩ := inv.of_mem_blocks (b := b) (by
          rw [hold]
          simp only [List.mem_append, List.mem_cons] at hb ⊢
          tauto)
        exact Nat.lt_add_of_pos_right hpos
      · rintro ⟨hb, hne⟩
        simp only [List.mem_append, List.mem_cons] at hb ⊢
        rcases hb with hb | rfl | hb
        · exact .inl hb
        · exact absurd rfl hne
        · exact .inr hb
    rw [hmem, hblock]
    simp only [Finset.mem_insert, forall_eq_or_imp]
    tauto
  · obtain ⟨hf', hram⟩ := h.ordinary f hf
    exact (hord f hf').imp_right fun hr => hr.trans hram
  · rw [hglob.diskFreeFrameList]
    exact h.disk
  · have hst := h.globals
    exact ⟨hglob.cr3.trans hst.cr3, hglob.numberOfFrames.trans hst.numberOfFrames, hglob.ptrFreeMem.trans hst.ptrFreeMem,
      hglob.ptrPageDirectory.trans hst.ptrPageDirectory, rfl, hglob.strategy.trans hst.strategy,
      hglob.disk.trans hst.disk, rfl, hglob.envs.trans hst.envs⟩

theorem leaf_word (h : Swept E s g e m k D t) (hj : j < 1024) :
    t.cellWord (withoutTables g (.user e) D) (.word (.leaf (.user e) i) j) =
      s.cellWord g (.word (.leaf (.user e) i) j) := by
  rw [entries_word _ _ _ _ hj, entries_word _ _ _ _ hj, h.entries]
  exact if_neg fun hc => nomatch hc.1

end Swept

theorem emptyTables_insert (s : Machine) (g : Obj → ℕ) (τ : Tree) (I : Finset ℕ) (i : ℕ) :
    (g (.leaf τ i) ≠ 0 → NoEntries s g τ i → emptyTables s g τ (I ∪ {i}) = insert i (emptyTables s g τ I)) ∧
    (¬(g (.leaf τ i) ≠ 0 ∧ NoEntries s g τ i) → emptyTables s g τ (I ∪ {i}) = emptyTables s g τ I) := by
  have hunion : I ∪ {i} = insert i I := by rw [Finset.union_comm, Finset.insert_eq]
  rw [hunion, emptyTables, Finset.filter_insert]
  constructor
  · intro hl hempty
    rw [if_pos ⟨hl, hempty⟩, emptyTables]
  · intro hnot
    rw [if_neg hnot, emptyTables]

theorem mem_emptyTables {I : Finset ℕ} :
    i ∈ emptyTables s g τ I ↔ i ∈ I ∧ g (.leaf τ i) ≠ 0 ∧ NoEntries s g τ i := by
  simp only [emptyTables, Finset.mem_filter]

theorem Layout.tableUsed_run (h : Layout E s g) (hl : g (.leaf τ i) ≠ 0) {b : Bool}
    (hb : b = true ↔ ¬NoEntries s g τ i) :
    (anyRange (fun j => do return decide ((← readEntry (g (.leaf τ i)) j) ≠ 0)) 0 1024).run s = .ok (b, s) := by
  have hrun (j : ℕ) (_ : 0 ≤ j) (hj : j < 0 + 1024) :
      (do return decide ((← readEntry (g (.leaf τ i)) j) ≠ 0) : Kernel Bool).run s =
        .ok (decide (s.cellWord g (.word (.leaf τ i) j) ≠ 0), s) := by
    rw [run_bind_ok (readEntry_run (h.translate_object hl (by decide))), cellWord_word hl (by omega)]
    rfl
  rw [anyRange_run _ hrun]
  congr 2
  rw [Bool.eq_iff_iff, hb, List.any_eq_true, NoEntries]
  push Not
  constructor
  · rintro ⟨j, hj, hne⟩
    exact ⟨j, by have := (List.mem_range'_1.mp hj).2; omega, by simpa using hne⟩
  · rintro ⟨j, hj, hne⟩
    exact ⟨j, List.mem_range'_1.mpr ⟨Nat.zero_le j, by omega⟩, by simpa using hne⟩

theorem Swept.freeUserPage_run (h : Swept E s g e (pageNumber va) k (emptyTables s g (.user e) (tablesOf va k)) t)
    (hs : Stocked E s g) (ho : g (.root (.user e)) ≠ 0) (hlt : va + pageSize * k < userTop)
    (hb : g (.leaf (.user e) (pdx (va + pageSize * k))) ≠ 0 →
      ⟨g (.leaf (.user e) (pdx (va + pageSize * k))), pageSize⟩ ∈ s.heap.blocks .alloc) (c : ℕ) :
    ∃ u, (freeUserPage e (va + pageSize * k) c).run t = .ok ((), u) ∧
      Swept E s g e (pageNumber va) (k + 1) (emptyTables s g (.user e) (tablesOf va (k + 1))) u := by
  obtain ⟨r, hrun, hr⟩ := h.stocked.pfRemoveEnvPage_run (e := e) hlt
  rw [pageNumber_add] at hr
  have hsw := h.clearDiskPage hr
  set D := emptyTables s g (.user e) (tablesOf va k) with hD
  set i := pdx (va + pageSize * k) with hi
  obtain ⟨hadd, hkeep⟩ := emptyTables_insert s g (.user e) (tablesOf va k) i
  rw [← hD] at hadd hkeep
  have hroot : withoutTables g (.user e) D (.root (.user e)) = g (.root (.user e)) := withoutTables_other fun _ => by simp
  have hdir : (r.envs e).envPageDirectory = g (.root (.user e)) := (hsw.stocked.roots e).1.trans hroot
  rw [tablesOf_succ, freeUserPage, run_bind_ok hrun, run_bind_ok run_get]
  simp only [hdir]
  have hleaf := withoutTables_leaf (D := D) g (.user e) i
  by_cases hl : withoutTables g (.user e) D (.leaf (.user e) i) = 0
  · have hnone := hsw.stocked.getPageTable_none (by rwa [hroot]) hlt hl
    rw [hroot] at hnone
    rw [run_bind_ok hnone]
    refine ⟨r, rfl, ?_⟩
    by_cases hmem : i ∈ D
    · obtain ⟨-, hl', hempty⟩ := mem_emptyTables.mp hmem
      rwa [hadd hl' hempty, Finset.insert_eq_of_mem hmem]
    · rw [hleaf, if_neg hmem] at hl
      rwa [hkeep fun hc => hc.1 hl]
  · have hmem : i ∉ D := fun hmem => hl (by rw [hleaf, if_pos hmem])
    rw [if_neg hmem] at hleaf
    have hl' : g (.leaf (.user e) i) ≠ 0 := hleaf ▸ hl
    have hget := (hsw.stocked.hasTable hlt hl).get
    rw [hroot, ← hi, hleaf] at hget
    rw [run_bind_ok hget]
    simp only
    have hwords : NoEntries r (withoutTables g (.user e) D) (.user e) i ↔ NoEntries s g (.user e) i :=
      forall₂_congr fun j hj => by rw [hsw.leaf_word hj]
    by_cases hempty : NoEntries s g (.user e) i
    · have hused := hsw.stocked.tableUsed_run hl (b := false) (by simp [hwords, hempty])
      rw [hleaf] at hused
      have hblock : ⟨withoutTables g (.user e) D (.leaf (.user e) i), pageSize⟩ ∈ r.heap.blocks .alloc := by
        rw [hleaf, hsw.blocks]
        refine ⟨hb hl', fun j hj he => hmem ?_⟩
        exact (Obj.leaf.inj (hs.inj _ _ hl' he)).2 ▸ hj
      obtain ⟨u, hrun', hu⟩ := hsw.stocked.removeTable_run (by simp) hl hblock (hwords.mpr hempty)
      rw [hleaf, hroot] at hrun'
      rw [run_bind_ok hused, hadd hl' hempty]
      exact ⟨u, hrun', hsw.removeTable hs hmem hl' hu⟩
    · have hused := hsw.stocked.tableUsed_run hl (b := true) (by simp [hwords, hempty])
      rw [hleaf] at hused
      rw [run_bind_ok hused, hkeep fun hc => hempty hc.2]
      exact ⟨r, rfl, hsw⟩

/-- The `n` pages from `va` on were freed, and the tables `D` removed. Nothing else changed. -/
structure FreedRange (E : Finset ℕ) (s : Machine) (g : Obj → ℕ) (e va n : ℕ) (D : Finset ℕ) (t : Machine) : Prop where
  stocked : Stocked E t (withoutTables g (.user e) D)
  not_present : ∀ p, pageNumber va ≤ p → p < pageNumber va + n →
    ¬HasPerm (t.entries (withoutTables g (.user e) D) (.user e, p)) permPresent
  not_held : ∀ j < (t.envs e).pageWSMaxSize, ¬HoldsPage (t.envs e) (pageNumber va) n j
  not_on_disk : ∀ p, pageNumber va ≤ p → p < pageNumber va + n →
    t.entries (withoutTables g (.user e) D) (.disk e, p) = 0
  entries : ∀ x, (x.1 = .user e → x.2 ∉ residentPages s g e (pageNumber va) n) →
    (x.1 = .disk e → x.2 < pageNumber va ∨ pageNumber va + n ≤ x.2) →
    t.entries (withoutTables g (.user e) D) x = s.entries g x
  slots : ∃ hand, t.envs = Function.update s.envs e
    (clearedSlots (s.envs e) (pageNumber va) n (s.envs e).pageWSMaxSize hand)
  removed : ∀ i, i ∈ D ↔ i ∈ tablesOf va n ∧ g (.leaf (.user e) i) ≠ 0 ∧
    ∀ j < 1024, t.entries (withoutTables g (.user e) D) (.user e, 1024 * i + j) = 0
  unlinked : ∀ i ∈ D, t.cellWord (withoutTables g (.user e) D) (.word (.root (.user e)) i) = 0 ∧
    t.cellWord (withoutTables g (.user e) D) (.page (g (.leaf (.user e) i))) = 0
  blocks : ∀ b, b ∈ t.heap.blocks .alloc ↔ b ∈ s.heap.blocks .alloc ∧ ∀ i ∈ D, b.start ≠ g (.leaf (.user e) i)
  rest : ∀ x, (∀ τ i j, x ≠ .word (.leaf τ i) j) →
    (∀ i ∈ D, x ≠ .word (.root (.user e)) i ∧ x ≠ .page (g (.leaf (.user e) i))) →
    t.cellWord (withoutTables g (.user e) D) x = s.cellWord g x
  info : ∀ f, (∀ i ∈ D, f ≠ s.pageFrame (g (.leaf (.user e) i))) → t.framesInfo f =
    (s.framesInfo f).drop (namedBy s g (.user e) (residentPages s g e (pageNumber va) n) f)
  free : ∀ f, f ∈ t.freeFrameList ↔ f ∈ s.freeFrameList ∨
    0 < namedBy s g (.user e) (residentPages s g e (pageNumber va) n) f ∧
      (s.framesInfo f).references = namedBy s g (.user e) (residentPages s g e (pageNumber va) n) f ∨
    ∃ i ∈ D, f = s.pageFrame (g (.leaf (.user e) i))
  contents : ∀ f, Ordinary s f → t.ram f = s.ram f
  disk : t.diskFreeFrameList =
    ((List.range n).map fun j => s.entries g (.disk e, pageNumber va + j)).reverse.filter (· ≠ 0) ++ s.diskFreeFrameList
  globals : SameGlobals { s with heap := t.heap, diskFreeFrameList := t.diskFreeFrameList, envs := t.envs } t

namespace CanFree

variable (h : CanFree E s g e va size)
include h

theorem freed {D : Finset ℕ} (hc : ClearedSlots E s g e (pageNumber va) (sizePages size) (s.envs e).pageWSMaxSize u)
    (hD : D = emptyTables u g (.user e) (tablesOf va (sizePages size)))
    (ht : Swept E u g e (pageNumber va) (sizePages size) D t) : FreedRange E s g e va (sizePages size) D t := by
  obtain ⟨hu, hand, henvs⟩ := hc
  rw [← h.resident] at hu
  set m := pageNumber va
  set n := sizePages size
  have henv : t.envs = u.envs := ht.globals.envs
  have hframe (i : ℕ) (hi : i ∈ D) : u.pageFrame (g (.leaf (.user e) i)) = s.pageFrame (g (.leaf (.user e) i)) := by
    have hp := (h.stocked.object _ (by simp) (ht.removed i hi)).heap
    rw [hu.stocked.pageFrame_heap hp, h.stocked.pageFrame_heap hp, ← cellWord_page hp.shared g, hu.other _ (by simp),
      cellWord_page hp.shared]
  have huser (p : ℕ) : t.entries (withoutTables g (.user e) D) (.user e, p) =
      if p ∈ residentPages s g e m n then 0 else s.entries g (.user e, p) := by
    rw [ht.entries, hu.entries, if_neg (by simp)]
    simp
  refine ⟨ht.stocked, fun p hlo hhi hpres => ?_, fun j hj hold => ?_, fun p hlo hhi => ?_, fun x hx hx' => ?_,
    ⟨hand, henv.trans henvs⟩, fun i => ?_, fun i hi => ⟨?_, ht.freed i hi⟩, fun b => ?_, fun x hx hx' => ?_,
    fun f hf => ?_, fun f => ?_, fun f hf => ?_, ?_, ?_⟩
  · rw [huser] at hpres
    split at hpres
    · exact absurd hpres (by decide)
    · rename_i hnot
      exact hnot (Finset.mem_filter.mpr ⟨Finset.mem_Ico.mpr ⟨hlo, hhi⟩, hpres⟩)
  · rw [henv, henvs, Function.update_self] at hj hold
    obtain ⟨hocc, hrange⟩ := hold
    simp only [clearedSlots] at hj hocc hrange
    by_cases hheld : HoldsPage (s.envs e) m n j
    · rw [if_pos ⟨hj, hheld⟩] at hocc
      cases hocc
    · rw [if_neg fun hc => hheld hc.2] at hocc hrange
      exact hheld ⟨hocc, hrange⟩
  · rw [ht.entries]
    exact if_pos ⟨rfl, hlo, hhi⟩
  · rw [ht.entries, if_neg, hu.entries]
    · exact if_neg fun hc => hx hc.1 hc.2
    · rintro ⟨hd, hlo, hhi⟩
      have := hx' hd
      omega
  · rw [hD, mem_emptyTables, ← hD]
    refine and_congr_right fun _ => and_congr_right fun _ => forall₂_congr fun j hj => ?_
    rw [entries_word _ _ _ _ hj, ht.entries, if_neg (by simp)]
  · rw [ht.root, if_pos ⟨rfl, hi⟩]
  · have hheap : u.heap = s.heap := hu.globals.heap
    rw [ht.blocks, hheap]
  · rw [← hu.other x hx]
    match x with
    | .page p => exact ht.page p fun i hi he => (hx' i hi).2 (by rw [he])
    | .word (.root τ) i =>
      rw [ht.root, if_neg]
      rintro ⟨rfl, hi⟩
      exact (hx' i hi).1 rfl
    | .word (.leaf τ i) j => exact absurd rfl (hx τ i j)
  · rw [ht.info f fun i hi => by rw [hframe i hi]; exact hf i hi, hu.info]
  · rw [ht.free, hu.free, or_assoc]
    refine or_congr_right (or_congr_right (exists_congr fun i => and_congr_right fun hi => ?_))
    rw [hframe i hi]
  · obtain ⟨hf', hram⟩ := hu.ordinary f hf
    rw [(ht.ordinary f hf').2, hram]
  · have hdisk (j : ℕ) : u.entries g (.disk e, m + j) = s.entries g (.disk e, m + j) := by
      rw [hu.entries, if_neg (by simp)]
    have hfree : u.diskFreeFrameList = s.diskFreeFrameList := hu.globals.diskFreeFrameList
    simp only [ht.disk, hdisk, hfree]
    rfl
  · have hsu := hu.globals
    have hut := ht.globals
    exact ⟨hut.cr3.trans hsu.cr3, hut.numberOfFrames.trans hsu.numberOfFrames, hut.ptrFreeMem.trans hsu.ptrFreeMem,
      hut.ptrPageDirectory.trans hsu.ptrPageDirectory, rfl, hut.strategy.trans hsu.strategy, hut.disk.trans hsu.disk,
      rfl, rfl⟩

end CanFree

/-- `free_user_mem` frees exactly its range. -/
theorem freeUserMem_frees (h : CanFree E s g e va size) :
    ∃ D t, (freeUserMem e va size).run s = .ok ((), t) ∧ FreedRange E s g e va (sizePages size) D t := by
  obtain ⟨u, hrun, hu⟩ := h.freeWorkingSet_run
  set n := sizePages size with hn
  have hheap : u.heap = s.heap := hu.unmapped.globals.heap
  have hstop : pagesBetween va (va + pageSize * n) = n := by
    simp only [pagesBetween, pageSize]
    omega
  have hloop : Sat (fun _ => False) (forPages (freeUserPage e) (va + pageSize * n) (2 ^ 20) va 0) u _ :=
    forUserPages_sat (fun k t => Swept E u g e (pageNumber va) k (emptyTables u g (.user e) (tablesOf va k)) t)
      h.le (by
        have : emptyTables u g (.user e) (tablesOf va 0) = ∅ := by rw [tablesOf_zero]; rfl
        rw [this]
        exact .refl hu.unmapped.stocked) fun k t hk ht => by
      rw [hstop] at hk
      obtain ⟨r, hrun, hr⟩ := ht.freeUserPage_run hu.unmapped.stocked h.root (pageOf_user h.le hk).2 (fun hl => by
        rw [hheap]
        exact h.tables _ (Finset.mem_image_of_mem _ (Finset.mem_range.mpr hk)) hl) k
      exact .of_ok hrun hr
  obtain ⟨_, t, hrun', ht⟩ := hloop.exists_ok
  rw [hstop] at ht
  refine ⟨_, t, ?_, h.freed hu rfl ht⟩
  rw [freeUserMem, roundDown_of_dvd h.dvd, h.roundUp_size, u32_of_lt h.stop_lt, run_bind_ok run_get, run_bind_ok hrun,
    hrun']

/-- The only page of the user heap is freed. -/
theorem freeUserMem_frees_onePage : ∃ s g D t, CanFree {0, 1} s g 0 userHeapStart 1 ∧
    pageNumber userHeapStart ∈ residentPages s g 0 (pageNumber userHeapStart) 1 ∧
    (freeUserMem 0 userHeapStart 1).run s = .ok ((), t) ∧ FreedRange {0, 1} s g 0 userHeapStart 1 D t := by
  obtain ⟨s₀, g, f, hs₀, ho, hentries₀, hf₀, hrefs, -, -, hblock⟩ := exists_pageAt (show userHeapStart < userTop by decide)
  have hone : sizePages 1 = 1 := by decide
  -- the page is in the only slot of the working set
  set v : Env := { s₀.envs 0 with pageWSMaxSize := 1, ptrPageWorkingSet := fun _ => ⟨userHeapStart, false, 0⟩ } with hv
  have hset := (Unmapped.refl (τ := .user 0) hs₀).setEnv (e := 0) (v := v) rfl rfl rfl
  set s := s₀.setEnv 0 v
  have henv : s.envs 0 = v := by simp only [s, setEnv, Function.update_self]
  have hentries (n : ℕ) : s.entries g (.user 0, n) =
      if n = pageNumber userHeapStart then newEntry f (permUser ||| permWriteable) else 0 := by
    rw [hset.entries, if_neg (by simp), hentries₀, Function.update_apply]
    simp
  have hframe : frameNumber (newEntry f (permUser ||| permWriteable)) = f := frameNumber_newEntry (by decide)
  have hres : residentPages s g 0 (pageNumber userHeapStart) 1 = {pageNumber userHeapStart} := by
    ext p
    rw [residentPages, Finset.mem_filter, Finset.mem_Ico, Finset.mem_singleton, hentries]
    constructor
    · rintro ⟨⟨hle, hlt⟩, -⟩
      omega
    · rintro rfl
      rw [if_pos rfl]
      exact ⟨⟨le_rfl, Nat.lt_succ_self _⟩, newEntry_present ..⟩
  have hf : InUse s f := ⟨(hset.ordinary f hf₀.toOrdinary).1, hf₀.not_free⟩
  have hfree : CanFree {0, 1} s g 0 userHeapStart 1 := by
    refine ⟨hset.stocked, ho, by decide, by decide, ?_, fun p hp => ?_, fun f' => ?_, fun p hp => ?_, fun i hi _ => ?_⟩
    all_goals rw [hone] at *
    · rw [hres, henv]
      ext p
      rw [Finset.mem_singleton, mem_slotPages]
      constructor
      · rintro rfl
        exact ⟨le_rfl, Nat.lt_succ_self _, 0, Nat.one_pos, rfl, by simp [hv]⟩
      · rintro ⟨hle, hlt, -⟩
        omega
    · rw [hres, Finset.mem_singleton] at hp
      rw [hp, hentries, if_pos rfl, hframe]
      exact hf
    · rw [hres, namedBy, Finset.filter_singleton, hentries, if_pos rfl, nameOf_newEntry (by decide)]
      split
      · rename_i he
        rw [← Option.some.inj he, Finset.card_singleton]
        exact hrefs.ge
      · exact Nat.zero_le _
    · rw [hres, Finset.mem_singleton] at hp
      rw [hp, hentries, if_pos rfl, hframe]
      exact hrefs.trans_lt (by decide)
    · obtain ⟨k, hk, rfl⟩ := Finset.mem_image.mp hi
      have hk0 : k = 0 := Nat.lt_one_iff.mp (Finset.mem_range.mp hk)
      rw [hk0]
      exact hblock
  obtain ⟨D, t, hrun, ht⟩ := freeUserMem_frees hfree
  have hmem : pageNumber userHeapStart ∈ residentPages s g 0 (pageNumber userHeapStart) 1 := by
    rw [hres]
    exact Finset.mem_singleton_self _
  rw [hone] at ht
  exact ⟨s, g, D, t, hfree, hmem, hrun, ht⟩

end FosKernel.Machine
