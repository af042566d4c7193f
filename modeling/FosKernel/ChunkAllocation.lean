import FosKernel.MapFrameContract

/-!
# Allocating a chunk

`allocate_chunk` first looks at all pages of its range. If none is mapped it takes a frame for
each of them. A user range may need new tables, each of which takes a page of the kernel
heap, and so a nested call.
-/

namespace FosKernel.Machine
open FailingPrograms PageEntries

variable {s t u : Machine} {E : Finset ℕ} {g g' : Obj → ℕ} {τ : Tree} {x : Tree × ℕ} {F : ℕ → ℕ}
  {f i k m n size va p perms pt frame : ℕ} {fs : List ℕ} {cpt : ℕ → ℕ → Kernel ℕ}

theorem newEntry_lt (hf : f < 2 ^ 20) (hp : perms < 2 ^ 32) : newEntry f perms < 2 ^ 32 := by
  refine Nat.or_lt_two_pow ?_ (Nat.or_lt_two_pow hp (by decide))
  rw [toPhysicalAddress, pageSize]
  omega

theorem newEntry_mod (h : perms < 4096) : newEntry f perms % 4096 = perms ||| permPresent := by
  have hlt : perms ||| permPresent < 4096 := Nat.or_lt_two_pow (n := 12) h (by decide)
  rw [newEntry, toPhysicalAddress, pageSize, constructEntry_eq hlt, Nat.mul_add_mod, Nat.mod_eq_of_lt hlt]

theorem frameNumber_newEntry_full (hf : f < 2 ^ 20) : frameNumber (newEntry f 0xFFFFF000) = 2 ^ 20 - 1 := by
  have hlt : frameNumber (newEntry f 0xFFFFF000) < 2 ^ 20 := by
    have := newEntry_lt hf (show 0xFFFFF000 < 2 ^ 32 by decide)
    rw [frameNumber]
    omega
  have hle : 0xFFFFF000 ≤ newEntry f 0xFFFFF000 := Nat.left_le_or.trans Nat.right_le_or
  rw [frameNumber] at hlt ⊢
  omega

/-- The record of a frame that was taken for a page. -/
def pageInfo (va : ℕ) : FrameInfo := ⟨1, va, none, false⟩

/-- A frame was taken for a page: the entry names it, and its record the page. -/
structure PlacedPage (s : Machine) (g : Obj → ℕ) (τ : Tree) (va f perms : ℕ) (t : Machine) : Prop where
  globals : SameGlobals s t
  cells : t.cellWord g = Function.update (s.cellWord g) (cellAt τ va) (newEntry f perms)
  info : t.framesInfo = Function.update s.framesInfo f (pageInfo va)
  free : s.freeFrameList = f :: t.freeFrameList

/-- The layout, and a free list of frames that hold no directory or table. -/
structure Supplied (E : Finset ℕ) (s : Machine) (g : Obj → ℕ) : Prop extends Layout E s g where
  nodup : s.freeFrameList.Nodup
  free : ∀ f ∈ s.freeFrameList, f < 2 ^ 20 ∧ (s.framesInfo f).isBuffered = false ∧
    ∀ o, g o ≠ 0 → s.pageFrame (g o) ≠ f

/-- The page has a table, and holds none itself. -/
def HasEntry (g : Obj → ℕ) (τ : Tree) (va : ℕ) : Prop :=
  va < userTop ∧ g (.leaf τ (pdx va)) ≠ 0 ∨ HeapPage va ∧ ∀ o, g o ≠ va

theorem Ready.supplied (h : Ready E s g) : Supplied E s g where
  toLayout := h.toLayout
  nodup := h.nodup
  free f hf := ⟨(h.ordinary_lt (h.free f hf).1).trans_le h.tables.frames, (h.free f hf).2,
    fun _ ho => h.ordinary_ne (h.free f hf).1 ho⟩

theorem Supplied.taken (h : Supplied E s g) (hfree : s.freeFrameList = f :: fs) : Layout E (s.taken f fs) g :=
  h.toLayout.congr (SameGlobals.places (by constructor <;> rfl)) (Layout.cellWord_congr ⟨rfl, rfl, rfl, rfl⟩ rfl g)
    fun o _ ho => by rw [taken_info_of_ne ((h.free f (by simp [hfree])).2.2 o ho)]

theorem HasEntry.located (hva : HasEntry g τ va) (h : Layout E s g) (hτ : τ ∈ mmuTrees E) (ho : g (.root τ) ≠ 0) :
    ∃ pt frame, Located s g τ va pt frame ∧ ∀ f, Ordinary s f → f ≠ frame := by
  rcases hva with ⟨hva, hl⟩ | ⟨hp, hno⟩
  · exact ⟨_, _, h.located_leaf hva hl, fun f hf => (h.ordinary_ne hf hl).symm⟩
  · have hround := roundDown_of_dvd hp.dvd
    refine ⟨_, _, h.located_shared hτ ho hp.userTop_le (.inr ⟨hround.symm ▸ hp.shared, fun o _ => hround.symm ▸ hno o⟩),
      fun f hf he => h.reserved.2 _ (heapTables_subset hp.index) (he ▸ hf.managed)⟩

variable (cpt) in
theorem Located.placePage_run (h : Located (s.taken f fs) g τ va pt frame) (hfree : s.freeFrameList = f :: fs)
    (hb : (s.framesInfo f).isBuffered = false) (h0 : s.cellWord g (cellAt τ va) = 0)
    (hw : newEntry f perms < 2 ^ 32) :
    ∃ t, (do
        let f ← allocateFrame
        let _ ← mapFrame cpt (g (.root τ)) f va perms
        modify fun s => s.setInfo f { s.framesInfo f with va := va } : Kernel Unit).run s = .ok ((), t) ∧
      PlacedPage s g τ va f perms t ∧ ∀ f', f' ≠ frame → t.ram f' = s.ram f' := by
  have hcell : (s.taken f fs).cellWord g = s.cellWord g := Layout.cellWord_congr ⟨rfl, rfl, rfl, rfl⟩ rfl g
  have hpres : ¬HasPerm (wordAt ((s.taken f fs).ram frame) (ptx va)) permPresent := by
    rw [h.word, hcell, h0]
    decide
  have hmap : (mapFrame cpt (g (.root τ)) f va perms).run (s.taken f fs) = _ := h.mapFrame_unmapped hpres
  refine ⟨_, by rw [run_bind_ok (allocateFrame_run hfree hb), ← taken, run_bind_ok hmap, run_modify], ⟨?_, ?_, ?_, ?_⟩,
    fun f' hf' => ?_⟩
  · constructor <;> rfl
  · rw [← hcell]
    exact h.set (SameGlobals.places (by constructor <;> rfl)) hw rfl
  · funext f'
    simp only [setInfo, setEntry, setFrame, addReference, taken, Function.update_idem, Function.update_self]
    rfl
  · exact hfree
  · exact setFrame_ram_of_ne hf'

variable (cpt) in
theorem Supplied.placePage_sat (h : Supplied E s g) (hτ : τ ∈ mmuTrees E) (ho : g (.root τ) ≠ 0)
    (hva : HasEntry g τ va) (h0 : s.cellWord g (cellAt τ va) = 0) (hp : perms < 2 ^ 32) :
    Sat (fun e => e = .noFreeFrame ∧ s.freeFrameList = []) (do
        let f ← allocateFrame
        let _ ← mapFrame cpt (g (.root τ)) f va perms
        modify fun s => s.setInfo f { s.framesInfo f with va := va } : Kernel Unit) s
      fun _ t => ∃ f, PlacedPage s g τ va f perms t ∧ ∀ f', Ordinary s f' → t.ram f' = s.ram f' := by
  rcases hl : s.freeFrameList with - | ⟨f, fs⟩
  · exact .of_error (run_bind_error (allocateFrame_nil hl)) ⟨rfl, rfl⟩
  · obtain ⟨hlt, hb, -⟩ := h.free f (by simp [hl])
    obtain ⟨pt, frame, hloc, hframe⟩ := hva.located (h.taken hl) hτ ho
    obtain ⟨t, hrun, ht, hram⟩ := hloc.placePage_run cpt hl hb h0 (newEntry_lt hlt hp)
    exact .of_ok hrun ⟨f, ht, fun f' hf' => hram f' (hframe f' (hf'.congr ⟨rfl, rfl, rfl, rfl⟩ fun _ _ => rfl))⟩

namespace PlacedPage

variable (h : PlacedPage s g τ va f perms t)
include h

theorem mem_free : f ∈ s.freeFrameList := by simp [h.free]

theorem info_of_ne {f' : ℕ} (hf : f' ≠ f) : t.framesInfo f' = s.framesInfo f' := by
  rw [h.info, Function.update_of_ne hf]

theorem userStep (hs : Ready E s g) : UserStep s t where
  places := h.globals.places
  heap := h.globals.heap
  strategy := h.globals.strategy
  info f' hf' := h.info_of_ne fun he => (hs.free f h.mem_free).1.not_heap (he ▸ hf')
  nodup := (List.nodup_cons.mp (h.free ▸ hs.nodup)).2
  free f' hf' := by
    have hne : f' ≠ f := fun he => (List.nodup_cons.mp (h.free ▸ hs.nodup)).1 (he ▸ hf')
    have hf := hs.free f' (by rw [h.free]; exact List.mem_cons_of_mem _ hf')
    exact hf.imp_right fun hb => by rw [h.info_of_ne hne, hb]

theorem stocked (hs : Stocked E s g) (hva : va < userTop) : Stocked E t g :=
  hs.step (h.userStep hs.toReady) hva h.cells

theorem grows (hva : va < userTop) (hram : ∀ f', Ordinary s f' → t.ram f' = s.ram f') :
    AddsTables τ ∅ 1 s g t g := by
  refine .of_step h.globals (fun x hx => ?_) (fun f' hf' => ?_) (fun f' hf' => ⟨?_, hram f' hf'.toOrdinary⟩) ?_ ?_
  · rw [h.cells, Function.update_of_ne]
    rw [cellAt_user hva]
    exact hx _ _ _
  · exact h.info_of_ne fun he => hf' (he ▸ h.mem_free)
  · exact hf'.toOrdinary.congr h.globals.places.toSameBoot fun p hp => kernelPte_of_user hva h.cells hp
  · rw [h.free]
    exact Nat.le_add_left ..
  · rw [h.free]
    rfl

end PlacedPage

/-- The entries after frames were taken for `k` pages from page `n` on. -/
def withPages (e : Tree × ℕ → ℕ) (τ : Tree) (n : ℕ) (F : ℕ → ℕ) (perms k : ℕ) (x : Tree × ℕ) : ℕ :=
  if x.1 = τ ∧ n ≤ x.2 ∧ x.2 < n + k then newEntry (F (x.2 - n)) perms else e x

theorem withPages_zero (e : Tree × ℕ → ℕ) : withPages e τ n F perms 0 = e := by
  funext x
  rw [withPages, if_neg]
  rintro ⟨-, hle, hlt⟩
  omega

theorem withPages_succ (e : Tree × ℕ → ℕ) :
    Function.update (withPages e τ n F perms k) (τ, n + k) (newEntry f perms) =
      withPages e τ n (Function.update F k f) perms (k + 1) := by
  funext ⟨τ', p⟩
  by_cases hx : (τ', p) = (τ, n + k)
  · obtain ⟨rfl, rfl⟩ := Prod.mk.inj hx
    rw [Function.update_self, withPages, if_pos (by simp), Nat.add_sub_cancel_left, Function.update_self]
  · rw [Function.update_of_ne hx, withPages, withPages]
    simp only at *
    by_cases hin : τ' = τ ∧ n ≤ p ∧ p < n + k
    · obtain ⟨rfl, hle, hlt⟩ := hin
      have hne : p - n ≠ k := by omega
      have hlt' : p < n + (k + 1) := by omega
      rw [if_pos ⟨rfl, hle, hlt⟩, if_pos ⟨rfl, hle, hlt'⟩, Function.update_of_ne hne]
    · rw [if_neg hin, if_neg]
      rintro ⟨rfl, hle, hlt⟩
      have hge : ¬p < n + k := fun hlt' => hin ⟨rfl, hle, hlt'⟩
      exact hx (by rw [show p = n + k by omega])

/-- The first `k` frames of `F` were taken, one for each page. -/
def TookFrames (s : Machine) (va k : ℕ) (F : ℕ → ℕ) (t : Machine) : Prop :=
  ∀ i < k, F i ∈ s.freeFrameList ∧ F i ∉ t.freeFrameList ∧ t.framesInfo (F i) = pageInfo (va + pageSize * i)

theorem TookFrames.grows {I : Finset ℕ} (h : TookFrames s va k F t) (hg : AddsTables τ I n t g u g') :
    TookFrames s va k F u := fun i hi => by
  obtain ⟨hs, ht, hinfo⟩ := h i hi
  exact ⟨hs, hg.not_free ht, (hg.info _ ht).trans hinfo⟩

theorem TookFrames.succ (h : TookFrames s va k F t) (hnd : t.freeFrameList.Nodup)
    (hsub : t.freeFrameList <:+ s.freeFrameList) (hp : PlacedPage t g τ (va + pageSize * k) f perms u) :
    TookFrames s va (k + 1) (Function.update F k f) u := fun i hi => by
  have hf := hp.mem_free
  by_cases hik : i = k
  · subst hik
    rw [Function.update_self, hp.info, Function.update_self]
    exact ⟨hsub.subset hf, (List.nodup_cons.mp (hp.free ▸ hnd)).1, rfl⟩
  · obtain ⟨hs, ht, hinfo⟩ := h i (by omega)
    have hne : F i ≠ f := fun he => ht (he ▸ hf)
    rw [Function.update_of_ne hik, hp.info_of_ne hne]
    exact ⟨hs, fun hu => ht (by rw [hp.free]; exact List.mem_cons_of_mem _ hu), hinfo⟩

/-- The state after `k` pages of a user range. -/
structure UserChunk (E : Finset ℕ) (s : Machine) (g : Obj → ℕ) (τ : Tree) (va perms k : ℕ) (F : ℕ → ℕ) (t : Machine)
    (g' : Obj → ℕ) : Prop where
  stocked : Stocked E t g'
  grows : AddsTables τ (tablesOf va k) k s g t g'
  entries : t.entries g' = withPages (s.entries g) τ (pageNumber va) F perms k
  frames : TookFrames s va k F t

structure CanPlace (E : Finset ℕ) (s : Machine) (g : Obj → ℕ) (τ : Tree) (perms : ℕ) : Prop where
  tree : τ ∈ mmuTrees E
  root : g (.root τ) ≠ 0
  perms : perms < 2 ^ 32

namespace CanPlace

variable (h : CanPlace E s g τ perms)
include h

theorem userPage_sat (hle : va + pageSize * n ≤ userTop)
    (h0 : ∀ i < n, s.entries g (τ, pageNumber va + i) = 0) (hk : k < n) (ht : UserChunk E s g τ va perms k F t g') :
    Sat (Short s ((absent g τ (tablesOf va n)).card + n) (absent g τ (tablesOf va n)).card)
      (allocateChunkPage createPageTable (g (.root τ)) va perms k) t fun _ u =>
        ∃ g'' f, UserChunk E s g τ va perms (k + 1) (Function.update F k f) u g'' := by
  obtain ⟨hpage, hlt⟩ := pageOf_user hle hk
  have hn := pageNumber_add va k
  have hcard : (absent g τ (tablesOf va k)).card + missing g' τ (va + pageSize * k) ≤ (absent g τ (tablesOf va n)).card := by
    rw [← card_absent_singleton, ← ht.grows.card_union, ← tablesOf_succ]
    exact Finset.card_le_card (absent_mono (tablesOf_mono _ hk))
  rw [allocateChunkPage, hpage, ← ht.grows.rootTable]
  refine (ht.stocked.ensureTable_sat (a := 1) (b := 0) h.tree (ht.grows.rootTable τ ▸ h.root) hlt
    (fun _ _ => rfl) rfl fun u g'' hu hgu heu => ?_).weaken fun e he => (ht.grows.spent.short he).mono (by omega) (by omega)
  rw [← hgu.rootTable]
  have hentry : u.cellWord g'' (cellAt τ (va + pageSize * k)) = 0 := by
    rw [← entries_cellAt hlt, heu, ht.entries, hn, withPages, if_neg (by simp), h0 k hk]
  refine ((hu.supplied.placePage_sat createPageTable h.tree (hgu.rootTable τ ▸ ht.grows.rootTable τ ▸ h.root)
    (.inl ⟨hlt, hgu.table _ (Finset.mem_singleton_self _)⟩) hentry h.perms).weaken fun e he =>
      .inl ⟨he.1, by simp [he.2]⟩).mono ?_
  rintro - v ⟨f, hv, hram⟩
  have hgrows := (ht.grows.trans hgu).trans (hv.grows hlt hram)
  refine ⟨g'', f, hv.stocked hu hlt, hgrows.congr ?_ rfl, ?_, (ht.frames.grows hgu).succ hu.nodup ?_ hv⟩
  · rw [tablesOf_succ, Finset.union_empty]
  · rw [entries_update hlt hv.cells, heu, ht.entries, hn]
    exact withPages_succ _
  · exact hgu.suffix.trans ht.grows.suffix

theorem userPages_sat (hs : Stocked E s g) (hle : va + pageSize * n ≤ userTop)
    (h0 : ∀ i < n, s.entries g (τ, pageNumber va + i) = 0) :
    Sat (Short s ((absent g τ (tablesOf va n)).card + n) (absent g τ (tablesOf va n)).card)
      (forRange (allocateChunkPage createPageTable (g (.root τ)) va perms) 0 n) s fun _ t =>
        ∃ g' F, UserChunk E s g τ va perms n F t g' := by
  have hloop := Sat.forRange (s := s) (i := 0) (n := n) (fun k t => ∃ g' F, UserChunk E s g τ va perms k F t g')
    ⟨g, fun _ => 0, hs, .refl (by simp [tablesOf_zero]) s, (withPages_zero _).symm, fun i hi => absurd hi (Nat.not_lt_zero i)⟩
    fun k t _ hk ht => by
      obtain ⟨g', F, ht⟩ := ht
      exact (h.userPage_sat hle h0 (by omega) ht).mono fun _ u ⟨g'', f, hu⟩ => ⟨g'', _, hu⟩
  rwa [Nat.zero_add] at hloop

end CanPlace

/-- The state after `k` pages of the kernel heap. -/
structure HeapChunk (E : Finset ℕ) (s : Machine) (g : Obj → ℕ) (va perms k : ℕ) (F : ℕ → ℕ) (t : Machine) : Prop where
  supplied : Supplied E t g
  globals : SameGlobals s t
  frames : TookFrames s va k F t
  entry : ∀ i < k, t.cellWord g (.page (va + pageSize * i)) = newEntry (F i) perms
  rest : ∀ x, (∀ i < k, x ≠ .page (va + pageSize * i)) → t.cellWord g x = s.cellWord g x
  info : ∀ f, f ∉ s.freeFrameList → t.framesInfo f = s.framesInfo f
  enough : k ≤ s.freeFrameList.length
  free : t.freeFrameList = s.freeFrameList.drop k

theorem Layout.pageFrame_eq (hs : Layout E s g) (ht : Layout E t g') (hst : SameBoot s t) {o : Obj} (ho : g o ≠ 0)
    (hg : g' o = g o) (hpage : t.cellWord g' (.page (g o)) = s.cellWord g (.page (g o))) :
    t.pageFrame (g' o) = s.pageFrame (g o) := by
  have ho' : g' o ≠ 0 := hg ▸ ho
  by_cases hk : o = .root .kernel
  · subst hk
    rw [hs.pageFrame_kernelRoot, ht.pageFrame_kernelRoot, kernelDir_congr hst.ptrPageDirectory]
  · rw [hs.pageFrame_cell hk ho, ← hpage, ht.pageFrame_cell hk ho', hg]

theorem AddsTables.pageFrame {I : Finset ℕ} {o : Obj} (h : AddsTables τ I n s g t g') (hs : Layout E s g) (ht : Layout E t g')
    (ho : g o ≠ 0) : t.pageFrame (g' o) = s.pageFrame (g o) := by
  have hg := h.objects o ho
  refine hs.pageFrame_eq ht h.places.toSameBoot ho hg (h.page _ fun i hi he => ?_)
  have hobj := ht.inj _ _ (h.table i (mem_absent.mp hi).1) (he.trans hg.symm)
  exact ho (hobj ▸ (mem_absent.mp hi).2)

theorem PlacedPage.supplied (h : PlacedPage s g τ p f perms t) (hs : Supplied E s g) (hp : HeapPage p)
    (hno : ∀ o, g o ≠ p) : Supplied E t g := by
  have hcells := h.cells
  rw [cellAt_page hp.shared] at hcells
  have hlay : Layout E t g := hs.toLayout.of_update h.globals.places hcells
    (fun o _ _ he => hno o (Cell.page.inj he).symm) (fun _ _ => by simp)
    fun o _ ho => by rw [h.info_of_ne ((hs.free f h.mem_free).2.2 o ho)]
  have hnd := List.nodup_cons.mp (h.free ▸ hs.nodup)
  refine ⟨hlay, hnd.2, fun f' hf' => ?_⟩
  have hne : f' ≠ f := fun he => hnd.1 (he ▸ hf')
  obtain ⟨hlt, hb, hobj⟩ := hs.free f' (by rw [h.free]; exact List.mem_cons_of_mem _ hf')
  refine ⟨hlt, by rw [h.info_of_ne hne, hb], fun o ho => ?_⟩
  rw [hs.toLayout.pageFrame_eq hlay h.globals.places.toSameBoot ho rfl]
  · exact hobj o ho
  · rw [hcells, Function.update_of_ne fun he => hno o (Cell.page.inj he)]

theorem HeapChunk.succ (ht : HeapChunk E s g va perms k F t)
    (hp : PlacedPage t g τ (va + pageSize * k) f perms u) (hpage : HeapPage (va + pageSize * k))
    (hno : ∀ o, g o ≠ va + pageSize * k) : HeapChunk E s g va perms (k + 1) (Function.update F k f) u := by
  have hcells := hp.cells
  rw [cellAt_page hpage.shared] at hcells
  have hsub : t.freeFrameList <:+ s.freeFrameList := ht.free ▸ List.drop_suffix ..
  have hdrop := ht.free
  rw [hp.free] at hdrop
  refine ⟨hp.supplied ht.supplied hpage hno, ht.globals.trans hp.globals, ht.frames.succ ht.supplied.nodup hsub hp,
    fun i hi => ?_, fun x hx => ?_, fun f' hf' => ?_, ?_, ?_⟩
  · rw [hcells]
    by_cases hik : i = k
    · rw [hik, Function.update_self, Function.update_self]
    · have hne : va + pageSize * i ≠ va + pageSize * k := fun he =>
        hik (Nat.eq_of_mul_eq_mul_left (by decide) (Nat.add_left_cancel he))
      rw [Function.update_of_ne fun he => hne (Cell.page.inj he), Function.update_of_ne hik, ht.entry i (by omega)]
  · rw [hcells, Function.update_of_ne (hx k (by omega)), ht.rest x fun i hi => hx i (by omega)]
  · have hne : f' ≠ f := fun he => hf' (hsub.subset (he ▸ hp.mem_free))
    rw [hp.info_of_ne hne, ht.info f' hf']
  · have := congrArg List.length hdrop
    rw [List.length_cons, List.length_drop] at this
    omega
  · rw [← List.drop_drop, ← hdrop]
    rfl

namespace CanPlace

variable (h : CanPlace E s g τ perms)
include h

theorem heapPage_sat (hp : HeapPage (va + pageSize * k)) (hno : ∀ o, g o ≠ va + pageSize * k) (h0 : s.cellWord g (.page (va + pageSize * k)) = 0)
    (ht : HeapChunk E s g va perms k F t) :
    Sat (Short s (k + 1) 0) (allocateChunkPage createPageTable (g (.root τ)) va perms k) t fun _ u =>
      ∃ f, HeapChunk E s g va perms (k + 1) (Function.update F k f) u := by
  obtain ⟨pt, frame, hloc, -⟩ := HasEntry.located (.inr ⟨hp, hno⟩) ht.supplied.toLayout h.tree h.root
  rw [allocateChunkPage, pageOf_eq hp.lt]
  refine .bind_ok hloc.get ?_
  have hentry : t.cellWord g (cellAt τ (va + pageSize * k)) = 0 := by
    rw [cellAt_page hp.shared, ht.rest, h0]
    intro i hi he
    have := Nat.eq_of_mul_eq_mul_left (by decide) (Nat.add_left_cancel (Cell.page.inj he))
    omega
  have hshort (he : t.freeFrameList = []) : s.freeFrameList.length < k + 1 := by
    have hlen := congrArg List.length ht.free
    rw [he, List.length_nil, List.length_drop] at hlen
    omega
  refine ((ht.supplied.placePage_sat createPageTable h.tree h.root (.inr ⟨hp, hno⟩) hentry h.perms).weaken
    fun e he => .inl ⟨he.1, hshort he.2⟩).mono ?_
  rintro - v ⟨f, hv, -⟩
  exact ⟨f, ht.succ hv hp hno⟩

theorem heapPages_sat (hs : Supplied E s g) (hp : ∀ i < n, HeapPage (va + pageSize * i))
    (h0 : ∀ i < n, s.cellWord g (.page (va + pageSize * i)) = 0) :
    Sat (Short s n 0) (forRange (allocateChunkPage createPageTable (g (.root τ)) va perms) 0 n) s fun _ t =>
      ∃ F, HeapChunk E s g va perms n F t := by
  have hinit : HeapChunk E s g va perms 0 (fun _ => 0) s :=
    ⟨hs, .refl s, fun i hi => absurd hi (Nat.not_lt_zero i), fun i hi => absurd hi (Nat.not_lt_zero i), fun _ _ => rfl,
      fun _ _ => rfl, Nat.zero_le _, rfl⟩
  have hloop : Sat (Short s n 0) _ _ _ := Sat.forRange (s := s) (i := 0) (n := n)
    (fun k t => ∃ F, HeapChunk E s g va perms k F t) ⟨_, hinit⟩ fun k t _ hk ht => by
      obtain ⟨F, ht⟩ := ht
      have hk' : k < n := by omega
      have hpte : s.kernelPte (va + pageSize * k) = 0 := (cellWord_page (hp k hk').shared g).symm.trans (h0 k hk')
      exact ((h.heapPage_sat (hp k hk') (hs.ne_object_of_unmapped (hp k hk') hpte) (h0 k hk') ht).weaken
        fun e he => he.mono hk' le_rfl).mono fun _ u ⟨f, hu⟩ => ⟨_, hu⟩
  rwa [Nat.zero_add] at hloop

end CanPlace

/-- The tables that a range of pages needs in the directory itself. -/
def chunkTables (va n : ℕ) : Finset ℕ := if va < userTop then tablesOf va n else ∅

/-- Each of `n` pages from `va` on got a free frame of its own, the missing tables were created,
and nothing else changed. -/
structure Allocated (E : Finset ℕ) (s : Machine) (g : Obj → ℕ) (τ : Tree) (va n perms : ℕ) (F : ℕ → ℕ) (t : Machine)
    (g' : Obj → ℕ) : Prop where
  layout : Layout E t g'
  frames : TookFrames s va n F t
  entry : ∀ i < n, t.cellWord g' (cellAt τ (va + pageSize * i)) = newEntry (F i) perms
  table : ∀ i ∈ chunkTables va n, g' (.leaf τ i) ≠ 0
  objects : ∀ o, g o ≠ 0 → g' o = g o
  other : ∀ o, (∀ i ∈ chunkTables va n, o ≠ .leaf τ i) → g' o = g o
  rest : ∀ x, (∀ i < n, x ≠ cellAt τ (va + pageSize * i)) →
    (∀ i ∈ absent g τ (chunkTables va n), x ≠ .word (.root τ) i ∧ x ≠ .page (g' (.leaf τ i))) →
    t.cellWord g' x = s.cellWord g x
  blocks : ∀ b, b ∈ t.heap.blocks .alloc ↔
    b ∈ s.heap.blocks .alloc ∨ ∃ i ∈ absent g τ (chunkTables va n), b = ⟨g' (.leaf τ i), pageSize⟩
  info : ∀ f, f ∉ s.freeFrameList → t.framesInfo f = s.framesInfo f
  enough : (absent g τ (chunkTables va n)).card + n ≤ s.freeFrameList.length
  free : t.freeFrameList = s.freeFrameList.drop ((absent g τ (chunkTables va n)).card + n)

theorem TookFrames.injOn (h : TookFrames s va n F t) : Set.InjOn F {i | i < n} := fun i hi j hj he => by
  have hva := congrArg FrameInfo.va ((h i hi).2.2.symm.trans (he ▸ (h j hj).2.2))
  exact Nat.eq_of_mul_eq_mul_left (by decide) (Nat.add_left_cancel hva)

theorem UserChunk.allocated (h : UserChunk E s g τ va perms n F t g') (hva : va < userTop)
    (hle : va + pageSize * n ≤ userTop) : Allocated E s g τ va n perms F t g' := by
  have htab : chunkTables va n = tablesOf va n := if_pos hva
  have hg := h.grows
  rw [← htab] at hg
  refine ⟨h.stocked.toLayout, h.frames, fun i hi => ?_, hg.table, hg.objects, hg.other, fun x hx hx' => ?_, hg.blocks,
    hg.info, hg.frames, hg.free⟩
  · rw [← entries_cellAt (pageOf_user hle hi).2, h.entries, pageNumber_add, withPages, if_pos (by simp [hi]),
      Nat.add_sub_cancel_left]
  · match x with
    | .page p => exact hg.page p fun i hi he => (hx' i hi).2 (he ▸ rfl)
    | .word (.root τ') j => exact hg.root τ' j fun hτ hj => (hx' j hj).1 (hτ ▸ rfl)
    | .word (.leaf τ' i) j =>
      by_cases hj : j < 1024
      · rw [entries_word _ _ _ _ hj, entries_word _ _ _ _ hj, h.entries, withPages, if_neg]
        rintro ⟨rfl, hlo, hhi⟩
        simp only at hlo hhi
        have hk : 1024 * i + j - pageNumber va < n := by omega
        have hlt := (pageOf_user hle hk).2
        refine hx _ hk ?_
        rw [cellAt_user hlt, pdx_eq (hlt.trans userTop_lt), ptx_eq, pageNumber_add]
        rw [show pageNumber va + (1024 * i + j - pageNumber va) = 1024 * i + j by omega,
          show (1024 * i + j) / 1024 = i by omega, show (1024 * i + j) % 1024 = j by omega]
      · rw [cellWord, cellWord, if_pos (.inr (by omega)), if_pos (.inr (by omega))]

theorem HeapChunk.allocated (h : HeapChunk E s g va perms n F t) (hp : ∀ i < n, HeapPage (va + pageSize * i))
    (hva : userTop ≤ va) : Allocated E s g τ va n perms F t g := by
  have htab : chunkTables va n = ∅ := if_neg (not_lt.mpr hva)
  have habs : absent g τ (chunkTables va n) = ∅ := by rw [htab]; rfl
  refine ⟨h.supplied.toLayout, h.frames, fun i hi => ?_, by simp [htab], fun _ _ => rfl, fun _ _ => rfl, fun x hx _ => ?_,
    fun b => ?_, h.info, ?_, ?_⟩
  · rw [cellAt_page (hp i hi).shared, h.entry i hi]
  · exact h.rest x fun i hi => cellAt_page (τ := τ) (hp i hi).shared ▸ hx i hi
  · rw [h.globals.heap]
    simp [habs]
  · rw [habs, Finset.card_empty, Nat.zero_add]
    exact h.enough
  · rw [habs, Finset.card_empty, Nat.zero_add, h.free]

/-- The pages from an address rounded down up to the end of the range rounded up. -/
def chunkPages (va size : ℕ) : ℕ := numOfPages (roundDown va pageSize) (roundUp (u32 (va + size)) pageSize)

theorem chunkPages_le {bound : ℕ} (hdvd : pageSize ∣ bound) (hmax : bound + pageSize ≤ 2 ^ 32)
    (hle : va + size ≤ bound) : roundDown va pageSize + pageSize * chunkPages va size ≤ bound := by
  simp only [pageSize] at hdvd hmax
  rw [chunkPages, numOfPages, u32_of_lt (by omega), roundUp, u32_of_lt (by simp only [pageSize]; omega)]
  simp only [roundDown, pageSize]
  omega

/-- What a call relies on. The range is one of user pages, with a kernel heap in order, or one of
pages of the kernel heap. -/
structure CanAllocate (E : Finset ℕ) (s : Machine) (g : Obj → ℕ) (τ : Tree) (va size perms : ℕ) : Prop
    extends CanPlace E s g τ perms where
  ready : Ready E s g
  frame_lt : ∀ k < chunkPages va size, s.cellWord g (cellAt τ (roundDown va pageSize + pageSize * k)) ≠ 0 →
    frameNumber (s.cellWord g (cellAt τ (roundDown va pageSize + pageSize * k))) < s.numberOfFrames
  range : va + size ≤ userTop ∧ HeapInv s ∨ kernelHeapStart ≤ va ∧ va + size ≤ kernelHeapMax

theorem Layout.isMapped_shared (h : Layout E s g) (hτ : τ ∈ mmuTrees E) (ho : g (.root τ) ≠ 0) (hp : SharedPage p)
    (hlt : s.kernelPte p ≠ 0 → frameNumber (s.kernelPte p) < s.numberOfFrames) :
    (isMapped (g (.root τ)) p).run s = .ok (decide (s.kernelPte p ≠ 0), s) := by
  have htab : HasTable s (g (.root τ)) p (kernelBase + pageSize * s.kernelTable (pdx p)) (s.kernelTable (pdx p)) := by
    refine h.tables.hasTable_of_entry hp.index hp.userTop_le (h.translate_object ho (by decide)) ?_
    rw [← cellWord_word ho (pdx_lt p), h.cellWord_root hτ ho hp.index]
  exact htab.isMapped_run hlt

theorem heapPage_chunk (hrange : kernelHeapStart ≤ va ∧ va + size ≤ kernelHeapMax) (hk : k < chunkPages va size) :
    HeapPage (roundDown va pageSize + pageSize * k) := by
  have hle := chunkPages_le (by decide) (by decide) hrange.2
  refine ⟨(le_roundDown (by decide) hrange.1).trans (Nat.le_add_right _ _), ?_,
    Nat.dvd_add (roundDown_dvd va pageSize) (Nat.dvd_mul_right ..)⟩
  have : pageSize * k < pageSize * chunkPages va size := Nat.mul_lt_mul_of_pos_left hk (by decide)
  omega

theorem CanAllocate.check_run (h : CanAllocate E s g τ va size perms) : (anyRange (fun i => isMapped (g (.root τ)) (pageOf (roundDown va pageSize) i)) 0
      (chunkPages va size)).run s =
    .ok (decide (∃ k < chunkPages va size, s.cellWord g (cellAt τ (roundDown va pageSize + pageSize * k)) ≠ 0), s) := by
  refine anyRange_decide fun k hk => ?_
  have hlt := h.frame_lt k hk
  rcases h.range with ⟨hle, -⟩ | hheap
  · obtain ⟨hpage, hva⟩ := pageOf_user (chunkPages_le (by decide) (by decide) hle) hk
    rw [← entries_cellAt hva] at hlt
    rw [hpage, h.ready.isMapped_run h.root hva hlt]
    simp only [entries_cellAt hva]
  · have hp := heapPage_chunk hheap hk
    rw [cellAt_page hp.shared, cellWord_page hp.shared] at hlt
    rw [pageOf_eq hp.lt, h.ready.isMapped_shared h.tree h.root hp.shared hlt]
    simp only [cellAt_page hp.shared, cellWord_page hp.shared]

/-- `allocate_chunk` refuses if a page of the range is mapped, with nothing changed; otherwise it
takes a frame for each page. -/
theorem allocateChunk_sat (h : CanAllocate E s g τ va size perms) :
    Sat (Short s ((absent g τ (chunkTables (roundDown va pageSize) (chunkPages va size))).card + chunkPages va size)
        (absent g τ (chunkTables (roundDown va pageSize) (chunkPages va size))).card)
      (allocateChunk createPageTable (g (.root τ)) va size perms) s fun r t =>
        (∃ k < chunkPages va size, s.cellWord g (cellAt τ (roundDown va pageSize + pageSize * k)) ≠ 0) ∧
          r = -1 ∧ t = s ∨
        (∀ k < chunkPages va size, s.cellWord g (cellAt τ (roundDown va pageSize + pageSize * k)) = 0) ∧ r = 0 ∧
          ∃ F g', Allocated E s g τ (roundDown va pageSize) (chunkPages va size) perms F t g' := by
  rw [allocateChunk]
  refine .bind_ok h.check_run ?_
  by_cases hmapped : ∃ k < chunkPages va size, s.cellWord g (cellAt τ (roundDown va pageSize + pageSize * k)) ≠ 0
  · rw [decide_eq_true hmapped]
    exact .pure (.inl ⟨hmapped, rfl, rfl⟩)
  · have h0 (k : ℕ) (hk : k < chunkPages va size) :
        s.cellWord g (cellAt τ (roundDown va pageSize + pageSize * k)) = 0 := by
      by_contra hne
      exact hmapped ⟨k, hk, hne⟩
    rw [decide_eq_false hmapped]
    refine .bind (R := fun _ t => ∃ F g', Allocated E s g τ (roundDown va pageSize) (chunkPages va size) perms F t g') ?_
      fun _ t ht => .pure (.inr ⟨h0, rfl, ht⟩)
    by_cases huser : roundDown va pageSize < userTop
    · obtain ⟨hle, hheap⟩ := h.range.resolve_right fun hheap => by
        have := le_roundDown (b := kernelHeapStart) (n := pageSize) (by decide) hheap.1
        have : userTop ≤ kernelHeapStart := by decide
        omega
      have hend := chunkPages_le (by decide) (by decide) hle
      have htab : chunkTables (roundDown va pageSize) (chunkPages va size) = _ := if_pos huser
      rw [htab]
      refine (h.userPages_sat ⟨h.ready, hheap⟩ hend fun k hk => ?_).mono ?_
      · rw [← pageNumber_add, entries_cellAt (pageOf_user hend hk).2, h0 k hk]
      · rintro - t ⟨g', F, ht⟩
        exact ⟨F, g', ht.allocated huser hend⟩
    · have hp (k : ℕ) (hk : k < chunkPages va size) : HeapPage (roundDown va pageSize + pageSize * k) := by
        rcases h.range with ⟨hle, -⟩ | hheap
        · have hend := pageOf_user (chunkPages_le (by decide) (by decide) hle) hk
          omega
        · exact heapPage_chunk hheap hk
      have htab : chunkTables (roundDown va pageSize) (chunkPages va size) = ∅ := if_neg huser
      rw [htab]
      refine ((h.heapPages_sat h.ready.supplied hp fun k hk => ?_).weaken fun e he => he.mono ?_ (Nat.zero_le _)).mono ?_
      · rw [← cellAt_page (τ := τ) (hp k hk).shared, h0 k hk]
      · exact Nat.le_add_left ..
      · rintro - t ⟨F, ht⟩
        exact ⟨F, g, ht.allocated hp (not_lt.mp huser)⟩

/-- If the permissions leave the frame number alone, each page is mapped to its own frame. -/
theorem allocateChunk_all_or_nothing (h : CanAllocate E s g τ va size perms) (hperms : perms < 4096) :
    Sat (Short s ((absent g τ (chunkTables (roundDown va pageSize) (chunkPages va size))).card + chunkPages va size)
        (absent g τ (chunkTables (roundDown va pageSize) (chunkPages va size))).card)
      (allocateChunk createPageTable (g (.root τ)) va size perms) s fun r t =>
        (∃ k < chunkPages va size, s.cellWord g (cellAt τ (roundDown va pageSize + pageSize * k)) ≠ 0) ∧
          r = -1 ∧ t = s ∨
        (∀ k < chunkPages va size, s.cellWord g (cellAt τ (roundDown va pageSize + pageSize * k)) = 0) ∧ r = 0 ∧
          ∃ F g', Allocated E s g τ (roundDown va pageSize) (chunkPages va size) perms F t g' ∧
            Set.InjOn F {k | k < chunkPages va size} ∧ ∀ k < chunkPages va size,
              frameNumber (t.cellWord g' (cellAt τ (roundDown va pageSize + pageSize * k))) = F k ∧
              t.cellWord g' (cellAt τ (roundDown va pageSize + pageSize * k)) % 4096 = perms ||| permPresent ∧
              (t.framesInfo (F k)).references = 1 ∧
              (t.framesInfo (F k)).va = roundDown va pageSize + pageSize * k := by
  refine (allocateChunk_sat h).mono fun r t hr => hr.imp id ?_
  rintro ⟨h0, hr, F, g', ht⟩
  refine ⟨h0, hr, F, g', ht, ht.frames.injOn, fun k hk => ?_⟩
  rw [ht.entry k hk, (ht.frames k hk).2.2]
  exact ⟨frameNumber_newEntry hperms, newEntry_mod hperms, rfl, rfl⟩

theorem allocateChunk_all_or_nothing_onePage : ∃ s g t F g',
    CanAllocate {0, 1} s g (.user 0) (4 * 2 ^ 20 + 5) 1 permWriteable ∧
    (allocateChunk createPageTable (g (.root (.user 0))) (4 * 2 ^ 20 + 5) 1 permWriteable).run s = .ok (0, t) ∧
    Allocated {0, 1} s g (.user 0) (4 * 2 ^ 20) 1 permWriteable F t g' ∧
    frameNumber (t.cellWord g' (cellAt (.user 0) (4 * 2 ^ 20))) = F 0 := by
  obtain ⟨s, g, f, hs, ho, hentries, -, -, hlen, hroom, -⟩ := exists_onePage
  have hpages : chunkPages (4 * 2 ^ 20 + 5) 1 = 1 := by decide
  have hround : roundDown (4 * 2 ^ 20 + 5) pageSize = 4 * 2 ^ 20 := by decide
  have hzero (k : ℕ) (hk : k < 1) : s.cellWord g (cellAt (.user 0) (4 * 2 ^ 20 + pageSize * k)) = 0 := by
    obtain rfl : k = 0 := by omega
    rw [← entries_cellAt (by decide), hentries, Function.update_of_ne (by decide)]
  have hcan : CanAllocate {0, 1} s g (.user 0) (4 * 2 ^ 20 + 5) 1 permWriteable := by
    refine ⟨⟨by simp, ho, by decide⟩, hs.toReady, fun k hk hne => ?_, .inl ⟨by decide, hs.heap⟩⟩
    rw [hpages] at hk
    rw [hround] at hne
    exact absurd (hzero k hk) hne
  have hcard : (absent g (.user 0) (chunkTables (4 * 2 ^ 20) 1)).card ≤ 1 := by
    rw [chunkTables, if_pos (by decide)]
    exact (Finset.card_filter_le _ _).trans (Finset.card_image_le.trans (by simp))
  have hsat := allocateChunk_all_or_nothing hcan (by decide)
  rw [hpages, hround] at hsat
  have hok : Sat (fun _ => False) _ _ _ := hsat.weaken fun e he => by
    rcases he with ⟨-, hlt⟩ | ⟨-, hr⟩
    · omega
    · exact hr (hroom.mono (by omega))
  obtain ⟨r, t, hrun, ⟨⟨k, hk, hne⟩, -⟩ | ⟨-, rfl, F, g', ht, -, hmaps⟩⟩ := hok.exists_ok
  · exact absurd (hzero k hk) hne
  · exact ⟨s, g, t, F, g', hcan, hrun, ht, (hmaps 0 (by decide)).1⟩

/-- With a mask that reaches into the frame number two pages are mapped to one frame. -/
theorem allocateChunk_maps_one_frame : ∃ s g t F g',
    CanAllocate {0, 1} s g (.user 0) (4 * 2 ^ 20) (2 * pageSize) 0xFFFFF000 ∧
    (allocateChunk createPageTable (g (.root (.user 0))) (4 * 2 ^ 20) (2 * pageSize) 0xFFFFF000).run s = .ok (0, t) ∧
    Allocated {0, 1} s g (.user 0) (4 * 2 ^ 20) 2 0xFFFFF000 F t g' ∧ F 0 ≠ F 1 ∧
    frameNumber (t.cellWord g' (cellAt (.user 0) (4 * 2 ^ 20))) =
      frameNumber (t.cellWord g' (cellAt (.user 0) (4 * 2 ^ 20 + pageSize))) := by
  obtain ⟨s, g, f, hs, ho, hentries, -, -, hlen, hroom, -⟩ := exists_onePage
  have hpages : chunkPages (4 * 2 ^ 20) (2 * pageSize) = 2 := by decide
  have hround : roundDown (4 * 2 ^ 20) pageSize = 4 * 2 ^ 20 := by decide
  have hzero (k : ℕ) (hk : k < 2) : s.cellWord g (cellAt (.user 0) (4 * 2 ^ 20 + pageSize * k)) = 0 := by
    rcases (by omega : k = 0 ∨ k = 1) with rfl | rfl <;>
      rw [← entries_cellAt (by decide), hentries, Function.update_of_ne (by decide)]
  have hcan : CanAllocate {0, 1} s g (.user 0) (4 * 2 ^ 20) (2 * pageSize) 0xFFFFF000 := by
    refine ⟨⟨by simp, ho, by decide⟩, hs.toReady, fun k hk hne => ?_, .inl ⟨by decide, hs.heap⟩⟩
    rw [hpages] at hk
    rw [hround] at hne
    exact absurd (hzero k hk) hne
  have hcard : (absent g (.user 0) (chunkTables (4 * 2 ^ 20) 2)).card ≤ 2 := by
    rw [chunkTables, if_pos (by decide)]
    exact (Finset.card_filter_le _ _).trans (Finset.card_image_le.trans (by simp))
  have hsat := allocateChunk_sat hcan
  rw [hpages, hround] at hsat
  have hok : Sat (fun _ => False) _ _ _ := hsat.weaken fun e he => by
    rcases he with ⟨-, hlt⟩ | ⟨-, hr⟩
    · omega
    · exact hr (hroom.mono (by omega))
  obtain ⟨r, t, hrun, ⟨⟨k, hk, hne⟩, -⟩ | ⟨-, rfl, F, g', ht⟩⟩ := hok.exists_ok
  · exact absurd (hzero k hk) hne
  have hfull (k : ℕ) (hk : k < 2) :
      frameNumber (t.cellWord g' (cellAt (.user 0) (4 * 2 ^ 20 + pageSize * k))) = 2 ^ 20 - 1 := by
    rw [ht.entry k hk]
    exact frameNumber_newEntry_full ((hs.supplied.free _ (ht.frames k hk).1).1)
  refine ⟨s, g, t, F, g', hcan, hrun, ht, fun he => ?_, (hfull 0 (by decide)).trans (hfull 1 (by decide)).symm⟩
  exact absurd (ht.frames.injOn (show (0 : ℕ) < 2 by decide) (show (1 : ℕ) < 2 by decide) he) (by decide)

end FosKernel.Machine
