import FosKernel.ChunkAllocation
import FosKernel.SharedObjects

/-!
# Counting the mappings of shared pages

Environments create, get, share and unmap pages in any order. `Machine.uses` counts the
entries that name a frame; its record counts modulo `2 ^ 16`.
-/

namespace FosKernel.Machine
open FailingPrograms PageEntries ReferenceCounts

variable {s t : Machine} {E : Finset ℕ} {g g' : Obj → ℕ} {L L' : Set ℕ} {τ : Tree} {x : Cell} {e f i k n p va w perm : ℕ}

theorem Layout.cellWord_eq (h : Layout E s g) (h' : Layout E s g') (hx : x ∈ slots E) :
    s.cellWord g' x = s.cellWord g x := by
  rcases entry_of_mem_slots hx with ⟨p, rfl⟩ | ⟨τ, n, hτ, hn, rfl⟩
  · rfl
  have hroot : g' (.root τ) = g (.root τ) := by
    rcases Finset.mem_insert.mp hτ with rfl | hτ
    · rw [h.kernelRoot, h'.kernelRoot]
    · obtain ⟨e, -, rfl⟩ := Finset.mem_image.mp hτ
      rw [← (h.roots e).1, ← (h'.roots e).1]
  have hi : n / 1024 < pdx userTop := (leaf_mem_slots.mp hx).2.1
  have hleaf : g' (.leaf τ (n / 1024)) = g (.leaf τ (n / 1024)) := by
    by_cases ho : g (.root τ) = 0
    · have hz {g₀ : Obj → ℕ} (h₀ : Layout E s g₀) (ho₀ : g₀ (.root τ) = 0) : g₀ (.leaf τ (n / 1024)) = 0 := by
        by_contra hne
        exact (h₀.leaf _ _ hne).2 ho₀
      rw [hz h ho, hz h' (hroot.trans ho)]
    · have hpde := h.pde τ _ hi ho
      have hpde' := h'.pde τ _ hi (hroot ▸ ho)
      have hj : n / 1024 < 1024 := hi.trans (by decide)
      rw [cellWord_word ho hj] at hpde
      rw [cellWord_word (hroot ▸ ho) hj, hroot, hpde] at hpde'
      have hne (F : ℕ) : constructEntry (toPhysicalAddress F) τ.perm ≠ 0 :=
        ne_zero_of_hasPerm_present (HasPerm.or_left τ.perm_present)
      split at hpde' <;> split at hpde'
      · rename_i h₁ h₂
        rw [h₁, h₂]
      · exact absurd hpde'.symm (hne _)
      · exact absurd hpde' (hne _)
      · rename_i h₁ h₂
        have hframe := congrArg frameNumber hpde'
        rw [toPhysicalAddress, toPhysicalAddress, pageSize, frameNumber_constructEntry τ.perm_lt,
          frameNumber_constructEntry τ.perm_lt] at hframe
        rw [← (h.object _ (by simp) h₁).va, hframe, (h'.object _ (by simp) h₂).va]
  simp only [cellWord, hleaf]

theorem Layout.uses_eq (h : Layout E s g) (h' : Layout E s g') (f : ℕ) : uses E s g' f = uses E s g f :=
  congrFun (count_congr fun _ hx => congrArg nameOf (h.cellWord_eq h' hx)) f

/-- What is set up at `USER_LIMIT` does not change when tables are created. -/
theorem Keeps.kernelPte_userLimit (h : Keeps s g t g') (hs : System E s g L) : t.kernelPte userLimit = s.kernelPte userLimit := by
  have hi : pdx userLimit ∈ kernelTables := Set.mem_insert ..
  have hnot : pdx userLimit ∉ heapTables := by
    rintro ⟨hle, -⟩
    exact absurd hle (by decide)
  have htab : t.kernelTable (pdx userLimit) = s.kernelTable (pdx userLimit) := by
    rw [kernelTable, h.kernelPde _ hi, kernelTable]
  have hram : t.ram (s.kernelTable (pdx userLimit)) = s.ram (s.kernelTable (pdx userLimit)) := by
    refine h.ram _ (fun j hj he => ?_) (fun o ho => hs.pageFrame_ne_table ho hi) fun hf =>
      hs.reserved.2 _ hi (hs.free_managed hf).1
    exact hnot (hs.tables.inj hi (heapTables_subset hj) he ▸ hj)
  rw [kernelPte, kernelPte, htab, hram]

theorem System.uses_le (hs : System E s g L) (ht : System E t g' L') (hk : Keeps s g t g') {F : ℕ → ℕ}
    {c : ℕ → Tree × ℕ} (hother : ∀ τ ∈ mmuTrees E, ∀ p, (∀ j < n, (τ, p) ≠ c j) → t.entries g' (τ, p) = s.entries g (τ, p))
    (hF : ∀ j < n, nameOf (t.entries g' (c j)) = some (F j)) (f : ℕ) :
    uses E t g' f ≤ 1 ∨ uses E t g' f ≤ uses E s g f + ((Finset.range n).filter fun j => F j = f).card := by
  classical
  by_cases hheap : ∃ p, HeapPage p ∧ nameOf (t.cellWord g' (.page p)) = some f
  · obtain ⟨p, hp, hn⟩ := hheap
    left
    refine (Finset.card_le_card (t := {Cell.page p}) fun x hx => ?_).trans_eq (Finset.card_singleton _)
    obtain ⟨hx, hn'⟩ := Finset.mem_filter.mp hx
    exact Finset.mem_singleton.mpr (ht.apart p hp x hx f hn hn')
  · right
    refine (Finset.card_le_card (t := ((slots E).filter fun x => (s.pool g).name x = some f) ∪
      ((Finset.range n).filter fun j => F j = f).image fun j => Cell.word (.leaf (c j).1 ((c j).2 / 1024)) ((c j).2 % 1024))
      fun x hx => ?_).trans ((Finset.card_union_le _ _).trans (Nat.add_le_add_left Finset.card_image_le _))
    obtain ⟨hx, hn⟩ := Finset.mem_filter.mp hx
    rw [Finset.mem_union, Finset.mem_filter, Finset.mem_image]
    rcases entry_of_mem_slots hx with ⟨p, rfl⟩ | ⟨τ, m, hτ, -, rfl⟩
    · rcases page_mem_slots.mp hx with rfl | hp
      · refine .inl ⟨hx, ?_⟩
        simp only [pool] at hn ⊢
        have hul : SharedPage userLimit := .inl rfl
        rwa [cellWord_page hul, hk.kernelPte_userLimit hs, ← cellWord_page hul g] at hn
      · exact absurd ⟨p, hp, hn⟩ hheap
    · by_cases hc : ∃ j < n, (τ, m) = c j
      · obtain ⟨j, hj, he⟩ := hc
        have hcell : nameOf (t.entries g' (c j)) = some f := he ▸ hn
        exact .inr ⟨j, Finset.mem_filter.mpr ⟨Finset.mem_range.mpr hj, Option.some.inj ((hF j hj).symm.trans hcell)⟩, by rw [← he]⟩
      · push Not at hc
        have hentry : t.entries g' (τ, m) = s.entries g (τ, m) := hother τ hτ m hc
        exact .inl ⟨hx, (congrArg nameOf hentry).symm.trans hn⟩

theorem System.clear (h : System E s g L) (hτ : τ ∈ mmuTrees E) (hua : UserAddress va)
    (hn : nameOf (s.entries g (τ, pageNumber va)) = some f) (hle : uses E s g f ≤ 2 ^ 16) :
    System E ((s.dropReference f).setEntry (s.entryFrame g τ va) (ptx va) 0) g L := by
  have hva := hua.1
  have hl := table_of_entry hva (nameOf_eq_some.mp hn).1
  have husable : Usable g va := .inl hua
  rw [entries_cellAt hva] at hn
  have hst := (sameMemory_dropReference s f).toSameGlobals.trans
    (sameGlobals_setEntry (s.dropReference f) (s.entryFrame g τ va) (ptx va) 0)
  have hcell := h.setEntry_cells (r := s.dropReference f) (sameMemory_dropReference s f).toSameGlobals.places
    (sameMemory_dropReference s f).ram hva hl (w := 0) (by decide)
  have hcore := h.toCore.clear hst.places (husable.mem_slots hτ) husable.noObject hn hle hcell
    (setEntry_framesInfo ..) (setEntry_freeFrameList ..)
  have hslot := husable.mem_slots hτ (E := E)
  have hpage (q : ℕ) : ((s.dropReference f).setEntry (s.entryFrame g τ va) (ptx va) 0).cellWord g (.page q) =
      s.cellWord g (.page q) := by
    rw [hcell, cellAt_user hva, Function.update_of_ne (by simp)]
  refine h.of_core hcore (fun q hq x hx f' hn₁ hn₂ => ?_) hst.heap (fun q _ => hpage q)
    hst.numberOfFrames fun q f' hq hf' => ?_
  · rw [hpage] at hn₁
    rw [hcell] at hn₂
    by_cases hxa : x = cellAt τ va
    · rw [hxa, Function.update_self] at hn₂
      cases hn₂
    · rw [Function.update_of_ne hxa] at hn₂
      exact h.apart q hq x hx f' hn₁ hn₂
  · rw [setEntry_framesInfo, dropReference_info_of_ne]
    rintro rfl
    have := h.apart q hq _ hslot f' (hf'.nameOf hq g) hn
    rw [cellAt_user hva] at this
    simp at this

theorem System.entry_lt_frames (h : System E s g L) (hτ : τ ∈ mmuTrees E) (hua : UserAddress (pageSize * n))
    (h0 : s.entries g (τ, n) ≠ 0) : frameNumber (s.entries g (τ, n)) < s.numberOfFrames :=
  h.frame_lt (entry_mem_slots hτ hua) h0

end FosKernel.Machine

namespace FosKernel.SharedMemory
open FailingPrograms PageEntries Machine ReferenceCounts

variable {E : Finset ℕ} {m m' u : Machine} {g g' : Obj → ℕ} {F : ℕ → ℕ} {e f i k n size source dest va perms : ℕ}

private theorem sharePage_sat (h : System E m g ∅) (he : e ∈ E) (ho : g (.root (.user e)) ≠ 0) (hsrc : source < userTop)
    (hdest : UserAddress dest)
    (hn : nameOf (m.entries g (.user e, pageNumber source)) = some f)
    (hslot : UserAddress (pageSize * pageNumber source))
    (h0 : m.entries g (.user e, pageNumber dest) = 0) (hperms : perms < 4096) :
    Sat (fun _ => True) (do
      let pt := (← getPageTable (g (.root (.user e))) source).getD 0
      let _ ← readEntry pt (ptx source)
      match ← getFrameInfo (g (.root (.user e))) source with
      | (some f, _) => let _ ← mapFrame createPageTable (g (.root (.user e))) f dest perms
      | (none, _) => throw (.pageFault 0) : Kernel Unit) m fun _ t =>
        ∃ g', System E t g' ∅ ∧ Stores m g (.user e) dest (pageEntry perms f) t g' := by
  obtain ⟨h0s, hf⟩ := nameOf_eq_some.mp hn
  have hτ : Tree.user e ∈ mmuTrees E := user_mem_mmuTrees.mpr he
  have hmem := entry_mem_slots hτ hslot
  have hlt : f < m.numberOfFrames := h.managed_lt (h.frame_managed hmem hn).1
  have hls := table_of_entry hsrc h0s
  have htab := h.hasTable hsrc hls
  have hword := h.word_entry hsrc hls
  have hinfo := htab.getFrameInfo_some (hword.symm ▸ h0s) (by rw [hword, hf]; exact hlt)
  rw [hword, hf] at hinfo
  refine .bind_ok htab.get (.bind_ok (readEntry_run htab.read) (.bind_ok hinfo ?_))
  refine ((h.mapFrame_sat hτ ho hdest h0 (.inr ⟨_, _, _, hmem, hn⟩) hperms).weaken fun _ _ => trivial).bind ?_
  rintro - t ⟨-, g', hsys, hst⟩
  rw [Set.empty_sdiff] at hsys
  exact .pure ⟨g', hsys, hst⟩

theorem shareChunkPage_sat (source dest k : ℕ) (h : System E m g ∅) (he : e ∈ E) (ho : g (.root (.user e)) ≠ 0)
    (hsrc : UserAddress (pageSize * pageNumber (pageOf source k))) (hlt : pageOf source k < userTop)
    (hdest : UserAddress (pageOf dest k)) (hn : nameOf (m.entries g (.user e, pageNumber (pageOf source k))) = some f)
    (h0 : m.entries g (.user e, pageNumber (pageOf dest k)) = 0) (hperms : perms < 4096) :
    Sat (fun _ => True) (shareChunkPage (g (.root (.user e))) source dest perms k) m fun _ t =>
      ∃ g', System E t g' ∅ ∧ Stores m g (.user e) (pageOf dest k) (pageEntry perms f) t g' := by
  rw [shareChunkPage]
  by_cases hl : g (.leaf (.user e) (pdx (pageOf dest k))) = 0
  · refine .bind_ok (h.getPageTable_none ho hdest.1 hl) ?_
    rw [Option.getD_none, if_pos rfl]
    refine ((h.createPageTable ho rfl hdest.1 hl).weaken fun _ _ => trivial).bind fun pt t hc => ?_
    have hroot : Function.update g (.leaf (.user e) (pdx (pageOf dest k))) pt (.root (.user e)) = g (.root (.user e)) :=
      Function.update_of_ne (by simp) ..
    have hself : Function.update g (.leaf (.user e) (pdx (pageOf dest k))) pt (.leaf (.user e) (pdx (pageOf dest k))) = pt :=
      Function.update_self ..
    have hent : t.entries (Function.update g (.leaf (.user e) (pdx (pageOf dest k))) pt) = m.entries g := entries_congr hc.leaf
    have hrest := sharePage_sat (f := f) hc.system he (hroot.symm ▸ ho) hlt hdest (hent ▸ hn) hsrc
      (hent ▸ h0) hperms
    rw [hroot] at hrest
    refine hrest.mono fun _ u hu => ?_
    obtain ⟨g', hsys, hst⟩ := hu
    refine ⟨g', hsys, hc.keeps.trans hst.keeps, fun τ' => ?_, by rw [hst.entries, hent], hst.table, ?_⟩
    · rw [hst.roots, Function.update_of_ne (by simp)]
    · have hspent := hst.spent
      rw [missing, if_neg (hself.symm ▸ hc.ne)] at hspent
      rw [missing, if_pos hl]
      exact hc.spent.trans hspent
  · have htab := h.hasTable hdest.1 hl
    refine .bind_ok htab.get ?_
    rw [Option.getD_some, if_neg hl]
    exact sharePage_sat h he ho hlt hdest hn hsrc h0 hperms

/-- The loop of `share_chunk` maps the frames of the source, as a getter's loop does. -/
theorem shareChunk_sat (h : System E m g ∅) (he : e ∈ E) (ho : g (.root (.user e)) ≠ 0) (hle : dest + size ≤ userTop)
    (hsrc : ∀ k < chunkPages dest size, UserAddress (roundDown source pageSize + pageSize * k))
    (hdest : ∀ k < chunkPages dest size, UserAddress (roundDown dest pageSize + pageSize * k))
    (hF : ∀ k < chunkPages dest size, nameOf (m.entries g (.user e, pageNumber source + k)) = some (F k))
    (hperms : perms < 4096) :
    Sat (fun _ => True) (shareChunk (g (.root (.user e))) source dest size perms) m fun _ t =>
      t = m ∨ (∀ k < chunkPages dest size, m.entries g (.user e, pageNumber dest + k) = 0) ∧
        ∃ g', GetsPages E m g e (pageNumber dest) F perms (chunkPages dest size) t g' := by
  have htop := userTop_lt
  have hτ : Tree.user e ∈ mmuTrees E := user_mem_mmuTrees.mpr he
  have hdvd := roundDown_dvd dest pageSize
  have hpages : roundDown dest pageSize + pageSize * chunkPages dest size ≤ userTop := chunkPages_le (by decide) (by decide) hle
  have hpage {va : ℕ} (k : ℕ) (hua : UserAddress (roundDown va pageSize + pageSize * k)) :
      pageOf (roundDown va pageSize) k = roundDown va pageSize + pageSize * k := by
    rw [pageOf, u32_of_lt (hua.1.trans htop)]
  have hnumber (va k : ℕ) : pageNumber (roundDown va pageSize + pageSize * k) = pageNumber va + k := by
    rw [pageNumber_add, pageNumber_roundDown]
  have hmul (va k : ℕ) : pageSize * (pageNumber va + k) = roundDown va pageSize + pageSize * k := by
    simp only [pageNumber, roundDown, pageSize]
    omega
  have hcheck := h.anyMapped_run ho hpages fun k hk h0 => by
    rw [pageNumber_roundDown] at h0 ⊢
    exact h.entry_lt_frames hτ (hmul dest k ▸ hdest k hk) h0
  rw [pageNumber_roundDown] at hcheck
  have hnum : u32 (roundUp (u32 (dest + size)) pageSize + 2 ^ 32 - roundDown dest pageSize) / pageSize =
      chunkPages dest size := by
    rw [chunkPages, numOfPages, u32_of_lt (n := dest + size) (by omega), roundUp,
      u32_of_lt (n := dest + size + pageSize - 1) (by simp only [userTop, pageSize] at *; omega), u32]
    simp only [roundDown, pageSize, userTop] at *
    omega
  simp only [shareChunk, hnum]
  refine .bind_ok hcheck ?_
  by_cases hmapped : ∃ k < chunkPages dest size, m.entries g (.user e, pageNumber dest + k) ≠ 0
  · rw [decide_eq_true hmapped]
    exact .pure (.inl rfl)
  · rw [decide_eq_false hmapped]
    push Not at hmapped
    have hloop : Sat (fun _ => True) _ m _ := Sat.forRange (i := 0) (n := chunkPages dest size)
      (fun k t => ∃ g', GetsPages E m g e (pageNumber dest) F perms k t g') ⟨g, .zero h⟩ fun k t _ hk ht => by
        obtain ⟨g', ht⟩ := ht
        have hk : k < chunkPages dest size := by omega
        have hne (j : ℕ) (hj : j < k) : pageNumber source + k ≠ pageNumber dest + j := fun he => by
          have := hF k hk
          rw [he, hmapped j (hj.trans hk)] at this
          cases this
        have hround := shareChunkPage_sat (roundDown source pageSize) (roundDown dest pageSize) k (f := F k) ht.system he (ht.roots _ ▸ ho)
          (by rw [hpage k (hsrc k hk), hnumber, hmul]; exact hsrc k hk) (by rw [hpage k (hsrc k hk)]; exact (hsrc k hk).1)
          (by rw [hpage k (hdest k hk)]; exact hdest k hk)
          (by rw [hpage k (hsrc k hk), hnumber, ht.others _ fun j hj => by simpa using hne j hj]; exact hF k hk)
          (by rw [hpage k (hdest k hk), hnumber, ht.others _ fun j hj => by simp [hj.ne']]; exact hmapped k hk) hperms
        rw [ht.roots] at hround
        refine hround.mono fun _ u hu => ?_
        obtain ⟨g'', hsys, hst⟩ := hu
        rw [hpage k (hdest k hk)] at hst
        exact ⟨g'', ht.succ (pageNumber_roundDown dest) (hdest k hk).1 hsys hst⟩
    refine hloop.bind fun _ t ht => ?_
    rw [Nat.zero_add] at ht
    exact .pure (.inr ⟨hmapped, ht⟩)

/-- A page-aligned range of user addresses in which the running environment has no page. -/
structure Range (s : State) (va size : ℕ) : Prop where
  aligned : pageSize ∣ va
  max : va + size ≤ userTop
  user : ∀ k < pagesOf size, UserAddress (va + pageSize * k)
  unmapped : ∀ k < pagesOf size, s.lookup s.curenv permPresent (va + pageSize * k) = none

inductive Call
  | create (ownerID : ℤ) (name : String) (size isWritable va : ℕ)
  | get (ownerID : ℤ) (name : String) (va : ℕ)
  | share (e source dest size perms : ℕ)
  | unmap (e va : ℕ)

/-- `share_chunk` in the directory of an environment. -/
def shareRange (e source dest size perms : ℕ) : Sharing ℤ := do
  let s ← get
  onMachine (shareChunk (s.machine.envs e).envPageDirectory source dest size perms)

/-- `unmap_frame` in the directory of an environment. -/
def unmapPage (e va : ℕ) : Sharing ℤ := do
  let s ← get
  onMachine (unmapFrame (s.machine.envs e).envPageDirectory va)
  return 0

def Call.run : Call → Sharing ℤ
  | .create ownerID name size isWritable va => createSharedObject ownerID name size isWritable va
  | .get ownerID name va => getSharedObject ownerID name va
  | .share e source dest size perms => shareRange e source dest size perms
  | .unmap e va => unmapPage e va

/-- The page of a range that starts at any address. -/
def chunkPage (va k : ℕ) : ℕ := roundDown va pageSize + pageSize * k

/-- The source pages of `share_chunk` are mapped, and both ranges are user addresses. -/
structure ShareArgs (E : Finset ℕ) (s : State) (e source dest size perms : ℕ) : Prop where
  env : e ∈ E
  perms : perms < 4096
  max : dest + size ≤ userTop
  sources : ∀ k < chunkPages dest size, UserAddress (chunkPage source k)
  dests : ∀ k < chunkPages dest size, UserAddress (chunkPage dest k)
  mapped : ∀ k < chunkPages dest size, s.lookup e permPresent (chunkPage source k) ≠ none

def Call.Legal (E : Finset ℕ) (s : State) : Call → Prop
  | .create _ name size _ va => name.utf8ByteSize < 64 ∧ Range s va size
  | .get ownerID name va => name.utf8ByteSize < 64 ∧
    ∀ i : ℕ, getShareObjectID s ownerID name = i → Range s va (unsigned (s.shares i).size)
  | .share e source dest size perms => ShareArgs E s e source dest size perms
  | .unmap e va => e ∈ E ∧ UserAddress va

/-- One more entry for each of the frames, and none is named by `2 ^ 16` entries. -/
def Below (E : Finset ℕ) (m : Machine) (n : ℕ) (F : ℕ → ℕ) : Prop :=
  ∀ g, Layout E m g → ∀ f, uses E m g f + ((Finset.range n).filter fun k => F k = f).card < 2 ^ 16

/-- An environment has the frame at a user address. -/
def Shown (E : Finset ℕ) (s : State) (f : ℕ) : Prop :=
  ∃ e ∈ E, ∃ va, UserAddress va ∧ s.lookup e permPresent va = some f

/-- The calls after which the counts are right: no counter wraps, and the frames of an object that
is got are still mapped. -/
def Call.Counts (E : Finset ℕ) (s : State) : Call → Prop
  | .create .. => True
  | .get ownerID name _ => ∀ i : ℕ, getShareObjectID s ownerID name = i → ∃ F : ℕ → ℕ,
    (∀ k < pagesOf (unsigned (s.shares i).size), Shown E s (F k) ∧
      (getFrameFromStorage (s.shares i).framesStorage k).run s.machine = .ok (some (F k), s.machine)) ∧
    Below E s.machine (pagesOf (unsigned (s.shares i).size)) F
  | .share e source dest size _ => ∀ F : ℕ → ℕ,
    (∀ k < chunkPages dest size, s.lookup e permPresent (chunkPage source k) = some (F k)) →
      Below E s.machine (chunkPages dest size) F
  | .unmap .. => True

/-- The counters are the numbers of mappings, and the free list holds the frames without any. -/
structure CountsMappings (E : Finset ℕ) (m : Machine) : Prop where
  layout : ∃ g, Layout E m g
  references : ∀ g, Layout E m g → ∀ f, m.Managed f → (m.framesInfo f).references = uses E m g f
  free : ∀ g, Layout E m g → ∀ f, f ∈ m.freeFrameList ↔ m.Managed f ∧ uses E m g f = 0

/-- Runs of legal calls that meet a condition. -/
inductive SharingRun (E : Finset ℕ) (C : State → Call → Prop) : State → Prop
  | start {s : State} : Started E s → CountsMappings E s.machine → SharingRun E C s
  | switch {s : State} (e : ℕ) : SharingRun E C s → e ∈ E → SharingRun E C (s.switch e)
  | call {s t : State} {r : ℤ} (c : Call) : SharingRun E C s → c.Legal E s → C s c →
    c.run.run s = .ok (r, t) → SharingRun E C t

variable {s t : State} {ownerID : ℤ} {name : String} {isWritable : ℕ} {r : ℤ}

/-- The frames of a used share lie in its storage. -/
structure Stored (s : State) (g : Obj → ℕ) (i : ℕ) : Prop where
  storage : (s.shares i).framesStorage = g (.root (.storage i))
  root : g (.root (.storage i)) ≠ 0
  entry : ∀ k < pagesOf (unsigned (s.shares i).size), ∃ f, s.machine.Managed f ∧
    s.machine.entries g (.storage i, k) = storageEntry f

/-- The accounting, with no counter wrapped. -/
structure Counted (E : Finset ℕ) (s : State) (g : Obj → ℕ) : Prop where
  system : System E s.machine g ∅
  curenv : s.curenv ∈ E
  dirs : ∀ e ∈ E, g (.root (.user e)) ≠ 0
  bounded : ∀ f, uses E s.machine g f < 2 ^ 16
  vacant : ∀ i : ℕ, (i < s.maxShares → (s.shares i).empty = true) → g (.root (.storage i)) = 0
  stored : ∀ i < s.maxShares, (s.shares i).empty = false → Stored s g i

theorem Stored.keep (h : Stored s g i) (hstorage : (t.shares i).framesStorage = (s.shares i).framesStorage)
    (hsize : (t.shares i).size = (s.shares i).size) (hboot : SameBoot s.machine t.machine) (hobj : ∀ o, g o ≠ 0 → g' o = g o)
    (hent : ∀ k, t.machine.entries g' (.storage i, k) = s.machine.entries g (.storage i, k)) : Stored t g' i where
  storage := by rw [hstorage, h.storage, hobj _ h.root]
  root := by
    rw [hobj _ h.root]
    exact h.root
  entry k hlt := by
    rw [hsize] at hlt
    obtain ⟨f, hm, he⟩ := h.entry k hlt
    exact ⟨f, by rwa [hboot.managed], (hent k).trans he⟩

theorem unsigned_bmod (h : n < 2 ^ 32) : unsigned ((n : ℤ).bmod (2 ^ 32)) = n := by
  have he : (n : ℤ).bmod (2 ^ 32) % ((2 ^ 32 : ℕ) : ℤ) = (n : ℤ) % ((2 ^ 32 : ℕ) : ℤ) := Int.bmod_emod
  rw [Nat.cast_pow, Nat.cast_ofNat] at he
  rw [unsigned, he]
  exact unsigned_natCast h

theorem countsMappings_of_lt (h : System E m g ∅) (hlt : ∀ f, uses E m g f < 2 ^ 16) : CountsMappings E m where
  layout := ⟨g, h.toLayout⟩
  references g' hg' f hf := by
    rw [h.toLayout.uses_eq hg']
    exact (h.pool.refs f hf).trans (Nat.mod_eq_of_lt (hlt f))
  free g' hg' f := by
    rw [h.toLayout.uses_eq hg']
    exact (h.pool.free f).trans ⟨fun ⟨hm, hc, _⟩ => ⟨hm, hc⟩, fun ⟨hm, hc⟩ => ⟨hm, hc, id⟩⟩

namespace Counted

theorem start (h : Started E s) (hc : CountsMappings E s.machine) : ∃ g, Counted E s g := by
  obtain ⟨⟨g, hsys, hdirs, hstorage⟩, hcur, hshares⟩ := h
  refine ⟨g, hsys, hcur, hdirs, fun f => ?_, fun i _ => hstorage i, fun i hi he => by simp [hshares i hi] at he⟩
  by_cases hf : s.machine.Managed f
  · rw [← hc.references g hsys.toLayout f hf, show (s.machine.framesInfo f).references = _ from hsys.pool.refs f hf]
    exact Nat.mod_lt _ (by decide)
  · have hzero : uses E s.machine g f = 0 := count_eq_zero.mpr fun x hx hn => hf (hsys.pool.named x hx f hn).1
    rw [hzero]
    decide

theorem switch (h : Counted E s g) (he : e ∈ E) : Counted E (s.switch e) g where
  system := h.system.load he (h.dirs e he)
  curenv := he
  dirs := h.dirs
  bounded := h.bounded
  vacant := h.vacant
  stored i hi hu :=
    have hs := h.stored i hi hu
    ⟨hs.storage, hs.root, hs.entry⟩

theorem entries_range (h : Counted E s g) (hv : Range s va size) :
    ∀ k < pagesOf size, s.machine.entries g (.user s.curenv, pageNumber va + k) = 0 := fun k hk => by
  by_contra hne
  have hua := hv.user k hk
  have hmul : pageSize * (pageNumber va + k) = va + pageSize * k := by
    rw [Nat.mul_add, pageNumber, Nat.mul_div_cancel' hv.aligned]
  have hslot := entry_mem_slots (user_mem_mmuTrees.mpr h.curenv) (hmul.symm ▸ hua)
  have hperm : HasPerm (s.machine.entries g (.user s.curenv, pageNumber va + k)) permPresent := h.system.present _ hslot hne
  have hnone := hv.unmapped k hk
  rw [lookup_eq h.system h.curenv (h.dirs _ h.curenv) hua.1 (by decide) (by decide), pageNumber_add,
    if_pos hperm] at hnone
  exact Option.some_ne_none _ hnone

theorem range_stop (hv : Range s va size) : va + pageSize * pagesOf size ≤ userTop := by
  have hmax := hv.max
  have hd := hv.aligned
  simp only [pagesOf, userTop, pageSize] at *
  omega

private theorem bounded_create (h : Counted E s g) {p : ℕ} {m m' : Machine} (hc : Created E s.machine g ∅ (.root (.storage i)) p m)
    (hp : SharesPages E m (Function.update g (.root (.storage i)) p) s.curenv n i F k m' g')
    (hname : ∀ j < k, nameOf (m'.entries g' (.user s.curenv, n + j)) = some (F j)) (f : ℕ) : uses E m' g' f < 2 ^ 16 := by
  have hent : m.entries (Function.update g (.root (.storage i)) p) = s.machine.entries g := entries_congr hc.leaf
  have hm : uses E m (Function.update g (.root (.storage i)) p) f < 2 ^ 16 := by
    rcases h.system.uses_le hc.system hc.keeps (n := 0) (F := fun _ => 0) (c := fun _ => (.kernel, 0))
      (fun τ _ p _ => congrFun hent (τ, p)) (fun j hj => absurd hj (Nat.not_lt_zero j)) f with hle | hle
    · omega
    · rw [Finset.range_zero, Finset.filter_empty, Finset.card_empty] at hle
      exact hle.trans_lt (h.bounded f)
  rcases hc.system.uses_le hp.system hp.keeps (c := fun j => (.user s.curenv, n + j)) (fun τ hτ q hq =>
    hp.others _ fun j hj => ⟨hq j hj, fun he => by simp [(Prod.mk.inj he).1] at hτ⟩) hname f with hle | hle
  · omega
  by_cases hex : ∃ j < k, F j = f
  · obtain ⟨j, hj, rfl⟩ := hex
    have hzero : uses E m (Function.update g (.root (.storage i)) p) (F j) = 0 := count_eq_zero.mpr (hp.unused j hj)
    have hone : ((Finset.range k).filter fun j' => F j' = F j).card ≤ 1 :=
      Finset.card_le_one.mpr fun a ha b hb => by
        simp only [Finset.mem_filter, Finset.mem_range] at ha hb
        exact hp.inj a ha.1 b hb.1 (ha.2.trans hb.2.symm)
    omega
  · push Not at hex
    rw [Finset.filter_false_of_mem fun j hj => hex j (Finset.mem_range.mp hj), Finset.card_empty] at hle
    exact hle.trans_lt hm

theorem create_sat (h : Counted E s g) (hv : Range s va size) :
    Sat (fun _ => True) (createSharedObject ownerID name size isWritable va) s fun _ t => ∃ g', Counted E t g' := by
  by_cases huse : InUse s ownerID name
  · exact .of_ok (createSharedObject_inUse huse ..) ⟨g, h⟩
  by_cases hfull : Full s
  · exact .of_ok (createSharedObject_full huse hfull ..) ⟨g, h⟩
  obtain ⟨i, hi⟩ := exists_empty hfull
  have hlt := List.mem_range.mp (List.mem_of_find?_eq_some hi)
  have hempty := List.find?_some hi
  have hr : g (.root (.storage i)) = 0 := h.vacant i fun _ => hempty
  rw [createSharedObject]
  refine .bind_ok run_get (.bind_ok run_get ?_)
  rw [if_neg fun hne => huse (getShareObjectID_inUse.mp hne)]
  refine .bind ((allocateShareObject_sat h.system hr hi).weaken fun _ _ => trivial) ?_
  rintro r t ⟨rfl, p, m, hc, rfl⟩
  have hroot : Function.update g (.root (.storage i)) p (.root (.user s.curenv)) = g (.root (.user s.curenv)) :=
    Function.update_of_ne (by simp) ..
  have hself : Function.update g (.root (.storage i)) p (.root (.storage i)) = p := Function.update_self ..
  have hent : m.entries (Function.update g (.root (.storage i)) p) = s.machine.entries g := entries_congr hc.leaf
  have h0 := h.entries_range hv
  have hstop : va + size ≤ userTop := hv.max
  have hsize : size < 2 ^ 32 := (Nat.le_add_left size va).trans_lt (hstop.trans_lt userTop_lt)
  have hloop := createSharedPages_sat hc.system h.curenv (hroot.symm ▸ h.dirs _ h.curenv) (hself.symm ▸ hc.ne) hv.aligned hstop
    (by rw [pagesBetween_size]; exact hv.user) (by rw [pagesBetween_size, hent]; exact h0)
  rw [pagesBetween_size, hself, ← (hc.system.roots s.curenv).1] at hloop
  rw [if_pos (natCast_ne_noShare i)]
  refine .bind_ok run_get ?_
  rw [u32_of_lt (hstop.trans_lt userTop_lt), show (State.setShare _ i _).shares i = _ from Function.update_self ..]
  refine .bind (onMachine_sat (by rfl) (hloop.weaken fun _ _ => trivial)) ?_
  rintro _ _ ⟨m', ⟨⟨F, g', hp⟩, -⟩, rfl⟩
  refine .bind_ok (run_modify _) (.pure ⟨g', ?_⟩)
  simp only [State.setShare, Function.update_self, Function.update_idem]
  have hk : Keeps s.machine g m' g' := hc.keeps.trans hp.keeps
  have hshare {j : ℕ} (hj : j ≠ i) (v : Share) : Function.update s.shares i v j = s.shares j :=
    Function.update_of_ne (by exact_mod_cast hj) ..
  have hslot (k : ℕ) (hk : k < pagesOf size) : Cell.word (.leaf (.user s.curenv) ((pageNumber va + k) / 1024))
      ((pageNumber va + k) % 1024) ∈ slots E := by
    refine entry_mem_slots (user_mem_mmuTrees.mpr h.curenv) ?_
    rw [Nat.mul_add, pageNumber, Nat.mul_div_cancel' hv.aligned]
    exact hv.user k hk
  have hname (k : ℕ) (hk : k < pagesOf size) : nameOf (m'.entries g' (.user s.curenv, pageNumber va + k)) = some (F k) := by
    rw [hp.user k hk]
    exact nameOf_pageEntry createPerm_lt
  refine ⟨hp.system, h.curenv, fun e he => ?_, h.bounded_create hc hp hname, fun j hj => ?_, fun j hj hu => ?_⟩
  · rw [hk.objects _ (h.dirs e he)]
    exact h.dirs e he
  · by_cases hji : j = i
    · subst hji
      have := hj hlt
      simp at this
    · change j < s.maxShares → (Function.update s.shares (i : ℤ) _ (j : ℤ)).empty = true at hj
      rw [hshare hji] at hj
      rw [hp.roots, Function.update_of_ne (by simpa using hji)]
      exact h.vacant j hj
  · by_cases hji : j = i
    · subst hji
      refine ⟨?_, ?_, fun k hk => ?_⟩
      · change (Function.update s.shares (j : ℤ) _ (j : ℤ)).framesStorage = _
        rw [hp.roots, hself, Function.update_self]
      · rw [hp.roots, hself]
        exact hc.ne
      · change k < pagesOf (unsigned (Function.update s.shares (j : ℤ) _ (j : ℤ)).size) at hk
        simp only [Function.update_self, unsigned_bmod hsize] at hk
        exact ⟨F k, (hp.system.frame_managed (hslot k hk) (hname k hk)).1, hp.storage k hk⟩
    · have hkeep {v : Share} : Function.update s.shares (i : ℤ) v j = s.shares j := hshare hji v
      refine (h.stored j hj (hkeep ▸ hu)).keep (congrArg _ hkeep) (congrArg _ hkeep) hk.boot hk.objects fun k => ?_
      rw [← hent]
      exact hp.others _ fun a _ => ⟨by simp, by simp [hji]⟩

private theorem bounded_map (h : Counted E s g) (hsys : System E m g' ∅) (hk : Keeps s.machine g m g')
    (hother : ∀ x, (∀ j < k, x ≠ (.user e, n + j)) → m.entries g' x = s.machine.entries g x)
    (hname : ∀ j < k, nameOf (m.entries g' (.user e, n + j)) = some (F j)) (hb : Below E s.machine k F) (f : ℕ) :
    uses E m g' f < 2 ^ 16 := by
  rcases h.system.uses_le hsys hk (c := fun j => (.user e, n + j)) (fun τ _ q hq => hother _ hq) hname f with hle | hle
  · omega
  · exact hle.trans_lt (hb g h.system.toLayout f)

private theorem pages (h : Counted E s g) (hmax : t.maxShares = s.maxShares) (hcur : t.curenv = s.curenv)
    (hshare : ∀ j : ℕ, (t.shares j).empty = (s.shares j).empty ∧ (t.shares j).framesStorage = (s.shares j).framesStorage ∧
      (t.shares j).size = (s.shares j).size) (hsys : System E t.machine g' ∅) (hboot : SameBoot s.machine t.machine)
    (hobj : ∀ o, g o ≠ 0 → g' o = g o) (hroots : ∀ τ, g' (.root τ) = g (.root τ))
    (hother : ∀ i k, t.machine.entries g' (.storage i, k) = s.machine.entries g (.storage i, k))
    (hbound : ∀ f, uses E t.machine g' f < 2 ^ 16) : Counted E t g' where
  system := hsys
  curenv := hcur ▸ h.curenv
  dirs e he := by
    rw [hroots]
    exact h.dirs e he
  bounded := hbound
  vacant i hi := by
    rw [hmax, (hshare i).1] at hi
    rw [hroots]
    exact h.vacant i hi
  stored i hi hu := by
    rw [hmax] at hi
    rw [(hshare i).1] at hu
    exact (h.stored i hi hu).keep (hshare i).2.1 (hshare i).2.2 hboot hobj (hother i)

theorem slot_of_lookup (h : Counted E s g) (he : e ∈ E) (hua : UserAddress va) (hl : s.lookup e permPresent va = some f) :
    nameOf (s.machine.entries g (.user e, pageNumber va)) = some f := by
  rw [lookup_eq h.system he (h.dirs e he) hua.1 (by decide) (by decide)] at hl
  split at hl
  · rename_i hperm
    exact nameOf_eq_some.mpr ⟨ne_zero_of_hasPerm_present hperm, Option.some.inj hl⟩
  · cases hl

theorem get_sat (h : Counted E s g) (hl : (Call.get ownerID name va).Legal E s) (hc : (Call.get ownerID name va).Counts E s) :
    Sat (fun _ => True) (getSharedObject ownerID name va) s fun _ t => ∃ g', Counted E t g' := by
  rcases getShareObjectID_cases s ownerID name with ⟨i, hi, hit, hID⟩ | ⟨-, hID⟩
  case inr =>
    rw [getSharedObject]
    refine .bind_ok run_get ?_
    rw [if_neg (not_not.mpr hID)]
    exact .pure ⟨g, h⟩
  have hv := hl.2 i hID
  obtain ⟨F, hF, hbelow⟩ := hc i hID
  have hst := h.stored i hi (hit_iff.mp hit).1
  set size := unsigned (s.shares i).size with hsize
  have hstop := range_stop hv
  have hle : size ≤ userTop := (Nat.le_add_left size va).trans hv.max
  have hbetween : pagesBetween va (va + pageSize * pagesOf size) = pagesOf size := by
    rw [pagesBetween_size, pagesOf_mul]
  have hend : u32 (roundUp size pageSize + va) = va + pageSize * pagesOf size := by
    rw [roundUp_size hle, Nat.add_comm, u32_of_lt (hstop.trans_lt userTop_lt)]
  have hpage {k : ℕ} (hk : k < pagesOf size) : pageSize * k < userTop :=
    (Nat.le_add_left _ _).trans_lt ((Nat.add_lt_add_left (Nat.mul_lt_mul_of_pos_left hk (by decide)) va).trans_le hstop)
  -- the storage has the frames that the condition names
  have hstored (k : ℕ) (hk : k < pagesOf size) : s.machine.entries g (.storage i, k) = storageEntry (F k) := by
    obtain ⟨f, hm, he⟩ := hst.entry k hk
    have hrun := getFrameFromStorage_run h.system (hpage hk) (h.system.managed_lt hm) he
    rw [← hst.storage, (hF k hk).2] at hrun
    cases hrun
    exact he
  have hnamed (k : ℕ) (hk : k < pagesOf size) : ∃ τ i j, Cell.word (.leaf τ i) j ∈ slots E ∧
      nameOf (s.machine.cellWord g (.word (.leaf τ i) j)) = some (F k) := by
    obtain ⟨e', he', va', hua', hl'⟩ := (hF k hk).1
    have hcell : cellAt (.user e') va' ∈ slots E := Usable.mem_slots (g := g) (.inl hua') (user_mem_mmuTrees.mpr he')
    have hn := h.slot_of_lookup he' hua' hl'
    rw [cellAt_user hua'.1] at hcell
    rw [entries_apply hua'.1] at hn
    exact ⟨_, _, _, hcell, hn⟩
  have hloop := getSharedPages_sat h.system h.curenv (h.dirs _ h.curenv) hstop
    (hbetween.symm ▸ hv.user) (getPerm_lt (s.shares i).isWritable) (hbetween.symm ▸ h.entries_range hv)
    (hbetween.symm ▸ hstored) (hbetween.symm ▸ hnamed)
  rw [hbetween, ← (h.system.roots s.curenv).1, ← hst.storage] at hloop
  rw [getSharedObject]
  refine .bind_ok run_get ?_
  rw [hID, if_pos (natCast_ne_notExists i), ← hsize, hend]
  refine .bind (onMachine_sat rfl (hloop.weaken fun _ _ => trivial)) ?_
  rintro _ _ ⟨m', ⟨⟨g', hp⟩, -⟩, rfl⟩
  refine .bind_ok (run_modify _) (.pure ⟨g', h.pages rfl rfl (fun j => ?_) hp.system hp.keeps.boot hp.keeps.objects hp.roots
    (fun _ _ => hp.others _ fun _ _ => by simp) (h.bounded_map hp.system hp.keeps hp.others (fun j hj => ?_) hbelow)⟩)
  · change (Function.update s.shares (i : ℤ) _ (j : ℤ)).empty = _ ∧ (Function.update s.shares (i : ℤ) _ (j : ℤ)).framesStorage = _ ∧
      (Function.update s.shares (i : ℤ) _ (j : ℤ)).size = _
    by_cases hji : (j : ℤ) = i
    · rw [hji, Function.update_self]
      exact ⟨rfl, rfl, rfl⟩
    · rw [Function.update_of_ne hji]
      exact ⟨rfl, rfl, rfl⟩
  · exact (congrArg nameOf (hp.user j hj)).trans (nameOf_pageEntry (getPerm_lt _))

theorem share_sat {source dest perms : ℕ} (h : Counted E s g) (hl : ShareArgs E s e source dest size perms)
    (hc : (Call.share e source dest size perms).Counts E s) :
    Sat (fun _ => True) (shareRange e source dest size perms) s fun _ t => ∃ g', Counted E t g' := by
  have hsource (k : ℕ) : pageNumber (chunkPage source k) = pageNumber source + k := by
    rw [chunkPage, pageNumber_add, pageNumber_roundDown]
  choose! F hF using fun k hk => Option.ne_none_iff_exists'.mp (hl.mapped k hk)
  have hname (k : ℕ) (hk : k < chunkPages dest size) :
      nameOf (s.machine.entries g (.user e, pageNumber source + k)) = some (F k) :=
    hsource k ▸ h.slot_of_lookup hl.env (hl.sources k hk) (hF k hk)
  have hloop := shareChunk_sat h.system hl.env (h.dirs e hl.env) hl.max hl.sources hl.dests hname hl.perms
  rw [← (h.system.roots e).1] at hloop
  rw [shareRange]
  refine .bind_ok run_get ((onMachine_sat rfl hloop).mono ?_)
  rintro _ _ ⟨m', rfl | ⟨-, g', hp⟩, rfl⟩
  · exact ⟨g, h⟩
  · refine ⟨g', h.pages rfl rfl (fun _ => ⟨rfl, rfl, rfl⟩) hp.system hp.keeps.boot hp.keeps.objects hp.roots
      (fun _ _ => hp.others _ fun _ _ => by simp) (h.bounded_map hp.system hp.keeps hp.others (fun j hj => ?_) (hc F hF))⟩
    rw [hp.user j hj]
    exact nameOf_pageEntry hl.perms

theorem unmap_sat (h : Counted E s g) (he : e ∈ E) (hua : UserAddress va) :
    Sat (fun _ => True) (unmapPage e va) s fun _ t => ∃ g', Counted E t g' := by
  have hτ : Tree.user e ∈ mmuTrees E := user_mem_mmuTrees.mpr he
  have hlay := h.system.toLayout
  rw [unmapPage]
  refine .bind_ok run_get ?_
  rw [(h.system.roots e).1]
  by_cases h0 : s.machine.entries g (.user e, pageNumber va) = 0
  · exact .bind_ok (onMachine_run (hlay.unmapFrame_zero (h.dirs e he) hua.1 h0)) (.pure ⟨g, h⟩)
  set f := frameNumber (s.machine.entries g (.user e, pageNumber va)) with hf
  have hn : nameOf (s.machine.entries g (.user e, pageNumber va)) = some f := nameOf_eq_some.mpr ⟨h0, rfl⟩
  have hslot : cellAt (.user e) va ∈ slots E := Usable.mem_slots (g := g) (.inl hua) hτ
  have hlt : f < s.machine.numberOfFrames := by
    rw [hf, entries_cellAt hua.1]
    exact h.system.frame_lt hslot (entries_cellAt (s := s.machine) (g := g) (τ := .user e) hua.1 ▸ h0)
  refine .bind_ok (onMachine_run (hlay.unmapFrame_run hua.1 hn hlt)) (.pure ⟨g, ?_⟩)
  have hsys := h.system.clear hτ hua hn (h.bounded f).le
  have hl := table_of_entry hua.1 h0
  have hcell := h.system.setEntry_cells (r := s.machine.dropReference f) (sameMemory_dropReference ..).toSameGlobals.places
    (sameMemory_dropReference ..).ram hua.1 hl (w := 0) (by decide)
  have hst := (sameMemory_dropReference s.machine f).toSameGlobals.trans
    (sameGlobals_setEntry (s.machine.dropReference f) (s.machine.entryFrame g (.user e) va) (ptx va) 0)
  refine h.pages rfl rfl (fun _ => ⟨rfl, rfl, rfl⟩) hsys hst.places.toSameBoot (fun _ _ => rfl) (fun _ => rfl)
    (fun i k => ?_) fun f' => ?_
  · exact congrFun (entries_update hua.1 hcell) _ |>.trans (Function.update_of_ne (by simp) ..)
  · refine (Finset.card_le_card fun x hx => ?_).trans_lt (h.bounded f')
    obtain ⟨hx, hnx⟩ := Finset.mem_filter.mp hx
    refine Finset.mem_filter.mpr ⟨hx, ?_⟩
    simp only [pool] at hnx ⊢
    rw [hcell] at hnx
    by_cases hxa : x = cellAt (.user e) va
    · rw [hxa, Function.update_self] at hnx
      cases hnx
    · rwa [Function.update_of_ne hxa] at hnx

theorem call_sat (h : Counted E s g) {c : Call} (hl : c.Legal E s) (hc : c.Counts E s) :
    Sat (fun _ => True) c.run s fun _ t => ∃ g', Counted E t g' := by
  cases c with
  | create ownerID name size isWritable va => exact h.create_sat hl.2
  | get ownerID name va => exact h.get_sat hl hc
  | share e source dest size perms => exact h.share_sat hl hc
  | unmap e va => exact h.unmap_sat hl.1 hl.2

end Counted

theorem SharingRun.counted (h : SharingRun E (Call.Counts E) s) : ∃ g, Counted E s g := by
  induction h with
  | start h hc => exact Counted.start h hc
  | switch e _ he ih =>
    obtain ⟨g, hg⟩ := ih
    exact ⟨g, hg.switch he⟩
  | call c _ hl hc hrun ih =>
    obtain ⟨g, hg⟩ := ih
    exact (hg.call_sat hl hc).ok hrun

/-- `k` pages of environment `e`, from number `n` on, got the object of one page that share `i` holds. -/
structure Repeated (E : Finset ℕ) (s : State) (g : Obj → ℕ) (ownerID : ℤ) (name : String) (e n i f k : ℕ) (t : State)
    (g' : Obj → ℕ) : Prop where
  run : SharingRun E (fun _ _ => True) t
  pages : GetsPages E s.machine g e n (fun _ => f) (getPerm (s.shares i).isWritable) k t.machine g'
  spent : Spent s.machine t.machine (regions n k) (regions n k)
  curenv : t.curenv = e
  share : getShareObjectID t ownerID name = i
  size : (t.shares i).size = (pageSize : ℕ)
  storage : (t.shares i).framesStorage = g (.root (.storage i))
  isWritable : (t.shares i).isWritable = (s.shares i).isWritable

/-- The object of one page in share `i` has the frame `f`, and environment `e` has no pages from number `n` on. -/
structure Repeatable (E : Finset ℕ) (s : State) (g : Obj → ℕ) (e n i f : ℕ) : Prop where
  env : e ∈ E
  root : g (.root (.user e)) ≠ 0
  unmapped : ∀ k, s.machine.entries g (.user e, n + k) = 0
  entry : s.machine.entries g (.storage i, 0) = storageEntry f
  named : ∃ τ i j, Cell.word (.leaf τ i) j ∈ slots E ∧ nameOf (s.machine.cellWord g (.word (.leaf τ i) j)) = some f

theorem getShareObjectID_references (s : State) (ownerID : ℤ) (name : String) (i : ℤ) (r : ℕ) :
    getShareObjectID (s.setShare i { s.shares i with references := r }) ownerID name = getShareObjectID s ownerID name := by
  have hhit : (s.setShare i { s.shares i with references := r }).hit ownerID name = s.hit ownerID name := by
    funext j
    simp only [State.hit, State.setShare]
    by_cases hj : (j : ℤ) = i
    · rw [hj, Function.update_self]
    · rw [Function.update_of_ne hj]
  rw [getShareObjectID, getShareObjectID, hhit]
  rfl

namespace Repeated

theorem succ (h : Repeated E s g ownerID name e n i f k t g') (hr : Repeatable E s g e n i f) (hname : name.utf8ByteSize < 64)
    (hmax : pageSize * (n + k + 1) ≤ userHeapMax) (hframes : regions n (k + 1) ≤ s.machine.freeFrameList.length)
    (hroom : Room s.machine (regions n (k + 1))) : ∃ u g'', Repeated E s g ownerID name e n i f (k + 1) u g'' := by
  obtain ⟨hrun, hp, hspent, rfl, hID, hsize, hstorage, hperm⟩ := h
  have hmul : pageSize * (n + k) = pageSize * n + pageSize * k := Nat.mul_add ..
  have hmul' : pageSize * (n + k + 1) = pageSize * n + pageSize * k + pageSize := by rw [Nat.mul_add, hmul, Nat.mul_one]
  have hlt : pageSize * n + pageSize * k < userHeapMax := by
    have : 0 < pageSize := by decide
    omega
  have hua : UserAddress (pageSize * n + pageSize * k) := .heap hlt
  have hnumber : pageNumber (pageSize * n + pageSize * k) = n + k := by rw [← hmul, pageNumber_mul]
  have hstop : pageSize * n + pageSize * k + pageSize ≤ userTop := (hmul' ▸ hmax).trans userHeapMax_lt.le
  have hbetween : pagesBetween (pageSize * n + pageSize * k) (pageSize * n + pageSize * k + pageSize) = 1 := by
    rw [pagesBetween_size]
    decide
  have hroot : g' (.root (.user t.curenv)) ≠ 0 := hp.roots _ ▸ hr.root
  have h0 : t.machine.entries g' (.user t.curenv, n + k) = 0 := by
    rw [hp.others _ fun j hj => by simp [hj.ne']]
    exact hr.unmapped k
  have hone : u32 (roundUp (unsigned ((pageSize : ℕ) : ℤ)) pageSize + (pageSize * n + pageSize * k)) =
      pageSize * n + pageSize * k + pageSize := by
    rw [unsigned_natCast (by decide), show roundUp pageSize pageSize = pageSize by decide, Nat.add_comm,
      u32_of_lt (hstop.trans_lt userTop_lt)]
  -- the call is legal
  have hlegal : (Call.get ownerID name (pageSize * n + pageSize * k)).Legal E t := by
    refine ⟨hname, fun i' hi' => ?_⟩
    obtain rfl : i = i' := by exact_mod_cast hID.symm.trans hi'
    rw [hsize, unsigned_natCast (by decide)]
    have hpages : pagesOf pageSize = 1 := by decide
    refine ⟨⟨n + k, hmul.symm⟩, hstop, fun j hj => ?_, fun j hj => ?_⟩
    all_goals
      obtain rfl : j = 0 := by omega
      rw [Nat.mul_zero, Nat.add_zero]
    · exact hua
    · rw [lookup_eq hp.system hr.env hroot hua.1 (by decide) (by decide), hnumber, h0]
      decide
  -- the loop has one round
  obtain ⟨τ, a, b, hslot, hnamed⟩ := hr.named
  have hnamed' : nameOf (t.machine.cellWord g' (.word (.leaf τ a) b)) = some f := by
    rw [hp.slot (fun j _ => hr.unmapped j) hslot (nameOf_eq_some.mp hnamed).1, hnamed]
  have hmiss : missing g' (.user t.curenv) (pageSize * n + pageSize * k) ≤ _ :=
    missing_le_region (hua.1.trans userTop_lt) (by rw [pageNumber_mul]; exact hp.userTable)
  rw [pageNumber_mul] at hmiss
  have hregion := regions_succ n k
  have hround := getSharedPage_sat (i := i) hp.system hr.env hroot hua (n := 0) (by decide) (hnumber.symm ▸ h0)
    (by rw [hp.others _ fun j _ => by simp]; exact hr.entry) ⟨τ, a, b, hslot, hnamed'⟩ (getPerm_lt (s.shares i).isWritable)
  have hok : Sat (fun _ => False) _ t.machine _ := hround.weaken fun e he => by
    rcases he with ⟨-, hle⟩ | ⟨-, hle⟩
    · have := hspent.frames
      omega
    · exact hle (hspent.room _ (hroom.mono (by omega)))
  rw [hp.roots, hp.roots] at hok
  have hloop : Sat (fun _ => False) (forPages (getSharedPage (g (.root (.user t.curenv))) (g (.root (.storage i)))
      (getPerm (s.shares i).isWritable)) (pageSize * n + pageSize * k + pageSize) (2 ^ 20) (pageSize * n + pageSize * k) 0)
      t.machine _ :=
    forUserPages_sat (fun j m => (j = 0 → m = t.machine) ∧ (j = 1 → ∃ g'', System E m g'' ∅ ∧
      Stores t.machine g' (.user t.curenv) (pageSize * n + pageSize * k) (pageEntry (getPerm (s.shares i).isWritable) f) m g''))
      hstop ⟨fun _ => rfl, nofun⟩ fun j m hj hm => by
        rw [hbetween] at hj
        obtain rfl : j = 0 := by omega
        rw [hm.1 rfl, Nat.mul_zero, Nat.add_zero]
        exact hok.mono fun _ u hu => ⟨nofun, fun _ => hu⟩
  obtain ⟨_, m, hm, -, hround⟩ := hloop.exists_ok
  obtain ⟨g'', hsys, hst⟩ := hround hbetween
  rw [← hp.roots (.user t.curenv), ← (hp.system.roots t.curenv).1, ← hstorage, ← hperm] at hm
  have hget : (getSharedObject ownerID name (pageSize * n + pageSize * k)).run t = .ok ((i : ℤ),
      State.setShare { t with machine := m } i { t.shares i with references := u32 ((t.shares i).references + 1) }) := by
    rw [getSharedObject, run_bind_ok run_get, hID, if_pos (natCast_ne_notExists i), hsize, hone]
    exact (run_bind_ok (onMachine_run hm)).trans (run_bind_ok (run_modify _))
  have hdata : Function.update t.shares (i : ℤ) { t.shares i with references := u32 ((t.shares i).references + 1) } (i : ℤ) = _ :=
    Function.update_self ..
  refine ⟨_, g'', .call _ hrun hlegal trivial hget, hp.succ (pageNumber_mul n) hua.1 hsys hst,
    (hspent.trans hst.spent).mono (by omega) (by omega), rfl, ?_, ?_, ?_, ?_⟩
  · exact (getShareObjectID_references { t with machine := m } ownerID name i _).trans hID
  · exact (congrArg Share.size hdata).trans hsize
  · exact (congrArg Share.framesStorage hdata).trans hstorage
  · exact (congrArg Share.isWritable hdata).trans hperm

theorem exists_run (h : SharingRun E (fun _ _ => True) s) (hsys : System E s.machine g ∅) (hcur : s.curenv = e)
    (hID : getShareObjectID s ownerID name = i) (hsize : (s.shares i).size = (pageSize : ℕ))
    (hstorage : (s.shares i).framesStorage = g (.root (.storage i))) (hr : Repeatable E s g e n i f)
    (hname : name.utf8ByteSize < 64) (hmax : pageSize * (n + k) ≤ userHeapMax)
    (hframes : regions n k ≤ s.machine.freeFrameList.length) (hroom : Room s.machine (regions n k)) :
    ∃ t g', Repeated E s g ownerID name e n i f k t g' := by
  induction k with
  | zero => exact ⟨s, g, h, .zero hsys, .refl s.machine, hcur, hID, hsize, hstorage, rfl⟩
  | succ k ih =>
    have hle : regions n k ≤ regions n (k + 1) := regions_mono (Nat.le_succ k)
    have hmax' : pageSize * (n + k) ≤ pageSize * (n + (k + 1)) := Nat.mul_le_mul_left _ (by omega)
    obtain ⟨t, g', ht⟩ := ih (hmax'.trans hmax) (hle.trans hframes) (hroom.mono hle)
    exact ht.succ hr hname hmax hframes hroom

/-- A frame with `2 ^ 16` mappings has a wrong counter. -/
theorem not_countsMappings (h : Repeated E s g ownerID name e n i f k t g') (he : e ∈ E) (hmax : pageSize * (n + k) ≤ userHeapMax)
    (hk : 2 ^ 16 ≤ k) : ¬CountsMappings E t.machine := fun hc => by
  have hname (j : ℕ) (hj : j < k) : nameOf (t.machine.entries g' (.user e, n + j)) = some f := by
    rw [h.pages.user j hj]
    exact nameOf_pageEntry (getPerm_lt _)
  have hslot (j : ℕ) (hj : j < k) : Cell.word (.leaf (.user e) ((n + j) / 1024)) ((n + j) % 1024) ∈ slots E := by
    refine entry_mem_slots (user_mem_mmuTrees.mpr he) (.heap (lt_of_lt_of_le ?_ hmax))
    exact Nat.mul_lt_mul_of_pos_left (by omega) (by decide)
  have huses : k ≤ uses E t.machine g' f := by
    rw [← Finset.card_range k]
    refine Finset.card_le_card_of_injOn (fun j => Cell.word (.leaf (.user e) ((n + j) / 1024)) ((n + j) % 1024))
      (fun j hj => ?_) fun j hj j' hj' heq => ?_
    · have hj := List.mem_range.mp hj
      exact Finset.mem_coe.mpr (Finset.mem_filter.mpr ⟨hslot j hj, hname j hj⟩)
    · simp only [Cell.word.injEq, Obj.leaf.injEq, true_and] at heq
      omega
  have hmanaged : t.machine.Managed f := (h.pages.system.frame_managed (hslot 0 (by omega)) (hname 0 (by omega))).1
  have hrefs := hc.references g' h.pages.system.toLayout f hmanaged
  rw [show (t.machine.framesInfo f).references = _ from h.pages.system.pool.refs f hmanaged] at hrefs
  have := Nat.mod_lt (count (slots E) (t.machine.pool g').name f) (show 0 < 2 ^ 16 by decide)
  omega

end Repeated

theorem countsMappings_of_empty (h : System E m g ∅) (h0 : ∀ x, m.entries g x = 0) : CountsMappings E m := by
  have hle (f : ℕ) : uses E m g f ≤ 1 := by
    refine Finset.card_le_one.mpr fun x hx y hy => ?_
    obtain ⟨hx, hnx⟩ := Finset.mem_filter.mp hx
    obtain ⟨hy, hny⟩ := Finset.mem_filter.mp hy
    have hpage {z : Cell} (hz : z ∈ slots E) (hn : nameOf (m.cellWord g z) = some f) : ∃ p, z = .page p ∧ SharedPage p := by
      rcases entry_of_mem_slots hz with ⟨p, rfl⟩ | ⟨τ, n, -, -, rfl⟩
      · exact ⟨p, rfl, page_mem_slots.mp hz⟩
      · exact absurd (h0 (τ, n)) (nameOf_eq_some.mp hn).1
    obtain ⟨p, rfl, hp⟩ := hpage hx hnx
    obtain ⟨q, rfl, hq⟩ := hpage hy hny
    rcases hp with rfl | hp
    · rcases hq with rfl | hq
      · rfl
      · exact h.apart q hq _ hx f hny hnx
    · exact (h.apart p hp _ hy f hnx hny).symm
  exact countsMappings_of_lt h fun f => (hle f).trans_lt (by decide)

/-- An object of one page, and an environment without pages. -/
theorem exists_repeatable (C : State → Call → Prop) (hC : ∀ s ownerID name size isWritable va,
    C s (.create ownerID name size isWritable va)) : ∃ s g f, SharingRun {0, 1} C s ∧ System {0, 1} s.machine g ∅ ∧
    s.curenv = 1 ∧ getShareObjectID s 7 "x" = ((0 : ℕ) : ℤ) ∧ (s.shares (0 : ℕ)).size = (pageSize : ℕ) ∧
    (s.shares (0 : ℕ)).framesStorage = g (.root (.storage 0)) ∧ Repeatable {0, 1} s g 1 (pageNumber userHeapStart) 0 f ∧
    90 ≤ s.machine.freeFrameList.length ∧ Room s.machine 90 := by
  obtain ⟨s, t, g, g', F, hstart, hsys, hzero, hargs, hrun, hobj, hempty, hframes, hroom⟩ :=
    exists_created pageSize (by decide) (by decide)
  set o : SharedObject := ⟨7, "x", pageSize, 1, (0, userHeapStart), []⟩
  have hR : Function.update (fun _ => none) 0 (some o) 0 = some o := Function.update_self ..
  have hholds := hobj.holds 0 o hR
  have hlegal : (Call.create 7 "x" pageSize 1 userHeapStart).Legal {0, 1} s :=
    ⟨hargs.short, hargs.aligned, hargs.max.trans userHeapMax_lt.le,
      fun k hk => .heap (hargs.toTarget.page_lt hk), hargs.unmapped⟩
  have hcall := SharingRun.call _ (.start hstart (countsMappings_of_empty hsys hzero)) hlegal (hC ..) hrun
  refine ⟨t.switch 1, g', F 0 0, .switch 1 hcall (by simp), hobj.system, rfl, hobj.getShareObjectID_eq hR, ?_, ?_,
    ⟨by simp, hobj.dirs 1 (by simp), fun k => hempty _, hholds.storage 0 (by decide), hobj.frame_named hR (by decide)⟩,
    hframes, hroom⟩
  · rw [hholds.share]
  · rw [hholds.share]

theorem references_eq_mappings (h : SharingRun E (Call.Counts E) s) : CountsMappings E s.machine := by
  obtain ⟨g, hg⟩ := h.counted
  exact countsMappings_of_lt hg.system hg.bounded

/-- An object was created. -/
theorem references_eq_mappings_created : ∃ s, getShareObjectID s 7 "x" = ((0 : ℕ) : ℤ) ∧ CountsMappings {0, 1} s.machine := by
  obtain ⟨s, -, -, hrun, -, -, hID, -⟩ := exists_repeatable (Call.Counts {0, 1}) fun _ _ _ _ _ _ => trivial
  exact ⟨s, hID, references_eq_mappings hrun⟩

/-- Environment 1 gets an object of one page at `2 ^ 16` addresses. -/
theorem references_wrap : ¬∀ s, SharingRun {0, 1} (fun _ _ => True) s → CountsMappings {0, 1} s.machine := fun hall => by
  obtain ⟨s, g, f, hrun, hsys, hcur, hID, hsize, hstorage, hr, hframes, hroom⟩ :=
    exists_repeatable (fun _ _ => True) fun _ _ _ _ _ _ => trivial
  have hregions : regions (pageNumber userHeapStart) (2 ^ 16) ≤ 90 := by decide
  have hmax : pageSize * (pageNumber userHeapStart + 2 ^ 16) ≤ userHeapMax := by decide
  obtain ⟨t, g', ht⟩ := Repeated.exists_run hrun hsys hcur hID hsize hstorage hr (by decide) hmax
    (hregions.trans hframes) (hroom.mono hregions)
  exact ht.not_countsMappings hr.env hmax le_rfl (hall t ht.run)

end FosKernel.SharedMemory
