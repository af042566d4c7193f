import FosKernel.ChunkAllocation
import FosKernel.CutPaste

/-!
# Sharing a chunk

`share_chunk` first looks at all destination pages. If none is mapped it maps each of them to the
frame of the corresponding source page. One frame may be mapped by several source pages, so its
counter rises with the rounds.
-/

namespace FosKernel.Machine
open FailingPrograms PageEntries

variable {s t u : Machine} {E : Finset ℕ} {g g' g'' : Obj → ℕ} {τ : Tree} {e : Tree × ℕ → ℕ} {I J : Finset ℕ}
  {f i k m n size source dest w va perms : ℕ}

/-- The entries after `k` pages from page `m` on were shared from page `n` on. -/
def sharedEntries (e : Tree × ℕ → ℕ) (τ : Tree) (m n perms k : ℕ) (x : Tree × ℕ) : ℕ :=
  if x.1 = τ ∧ n ≤ x.2 ∧ x.2 < n + k then newEntry (frameNumber (e (τ, m + (x.2 - n)))) perms else e x

theorem sharedEntries_zero : sharedEntries e τ m n perms 0 = e := by
  funext x
  rw [sharedEntries, if_neg (by omega)]

theorem sharedEntries_of_ne (h : ∀ j < k, i ≠ n + j) : sharedEntries e τ m n perms k (τ, i) = e (τ, i) := by
  rw [sharedEntries, if_neg]
  rintro ⟨-, hle, hlt⟩
  simp only at hle hlt
  exact h (i - n) (by omega) (by omega)

theorem sharedEntries_succ : Function.update (sharedEntries e τ m n perms k) (τ, n + k)
      (newEntry (frameNumber (e (τ, m + k))) perms) = sharedEntries e τ m n perms (k + 1) := by
  funext ⟨τ', p⟩
  by_cases hp : (τ', p) = (τ, n + k)
  · obtain ⟨rfl, rfl⟩ := Prod.mk.inj hp
    rw [hp, Function.update_self, sharedEntries, if_pos (by simp), Nat.add_sub_cancel_left]
  · rw [Function.update_of_ne hp, sharedEntries, sharedEntries]
    congr 1
    simp only [Prod.mk.injEq, not_and, eq_iff_iff] at hp ⊢
    constructor
    · rintro ⟨rfl, hle, hlt⟩
      exact ⟨rfl, hle, by omega⟩
    · rintro ⟨rfl, hle, hlt⟩
      have := hp rfl
      exact ⟨rfl, hle, by omega⟩

/-- How many of the first `k` pages from page `m` on are mapped to the frame. -/
def shares (e : Tree × ℕ → ℕ) (τ : Tree) (m k f : ℕ) : ℕ :=
  ((Finset.range k).filter fun j => frameNumber (e (τ, m + j)) = f).card

theorem shares_succ (e : Tree × ℕ → ℕ) (τ : Tree) (m k f : ℕ) :
    shares e τ m (k + 1) f = shares e τ m k f + if frameNumber (e (τ, m + k)) = f then 1 else 0 := by
  rw [shares, Finset.range_add_one, Finset.filter_insert]
  split
  · rw [Finset.card_insert_of_notMem (by simp), shares]
  · rw [shares, Nat.add_zero]

theorem shares_mono (h : k ≤ n) : shares e τ m k f ≤ shares e τ m n f :=
  Finset.card_le_card (Finset.filter_subset_filter _ (Finset.range_mono h))

def withInfo (s : Machine) (i : ℕ → FrameInfo) : Machine := { s with framesInfo := i }

/-- The records of `t`, but as they were in `s` for frames that were not free. -/
def keepInfo (s t : Machine) (f : ℕ) : FrameInfo := if f ∈ s.freeFrameList then t.framesInfo f else s.framesInfo f

theorem AddsTables.withInfo (h : AddsTables τ I n s g t g') {i j : ℕ → FrameInfo}
    (hinfo : ∀ f, f ∉ s.freeFrameList → j f = i f) : AddsTables τ I n (s.withInfo i) g (t.withInfo j) g' where
  globals := by
    obtain ⟨d, hst⟩ := h.globals
    exact ⟨d, hst.cr3, hst.numberOfFrames, hst.ptrFreeMem, hst.ptrPageDirectory, hst.heap, hst.strategy, hst.disk,
      hst.diskFreeFrameList, hst.envs⟩
  table := h.table
  objects := h.objects
  other := h.other
  page := h.page
  root := h.root
  blocks := h.blocks
  info := hinfo
  inUse f hf :=
    have hf' := h.inUse f ⟨⟨hf.managed, hf.not_heap⟩, hf.not_free⟩
    ⟨⟨hf'.1.managed, hf'.1.not_heap⟩, hf'.2⟩
  frames := h.frames
  free := h.free
  room := h.room

theorem keepInfo_self (s : Machine) : keepInfo s s = s.framesInfo :=
  funext fun _ => ite_self _

theorem AddsTables.keep (ht : AddsTables τ J m s g (t.withInfo (keepInfo s t)) g') (hu : AddsTables τ I n t g' u g'') :
    AddsTables τ (J ∪ I) (m + n) s g (u.withInfo (keepInfo s u)) g'' := by
  refine ht.trans (hu.withInfo fun f hf => ?_)
  rw [keepInfo, keepInfo]
  split
  · exact hu.info f hf
  · rfl

/-- What a call relies on: both ranges are user pages with the same page offset, the source pages are
mapped to frames in use, and no counter passes its bound. -/
structure CanShare (E : Finset ℕ) (s : Machine) (g : Obj → ℕ) (τ : Tree) (source dest size perms : ℕ) : Prop where
  stocked : Stocked E s g
  tree : τ ∈ mmuTrees E
  root : g (.root τ) ≠ 0
  perms : perms < 2 ^ 32
  offset : source % pageSize = dest % pageSize
  source_le : source + size ≤ userTop
  dest_le : dest + size ≤ userTop
  frame_lt : ∀ k < chunkPages dest size, s.entries g (τ, pageNumber dest + k) ≠ 0 →
    frameNumber (s.entries g (τ, pageNumber dest + k)) < s.numberOfFrames
  mapped : ∀ k < chunkPages dest size, s.entries g (τ, pageNumber source + k) ≠ 0
  inUse : ∀ k < chunkPages dest size, InUse s (frameNumber (s.entries g (τ, pageNumber source + k)))
  counted : ∀ k < chunkPages dest size, (s.framesInfo (frameNumber (s.entries g (τ, pageNumber source + k)))).references +
    shares (s.entries g) τ (pageNumber source) (chunkPages dest size)
      (frameNumber (s.entries g (τ, pageNumber source + k))) < 2 ^ 16

/-- The state after `k` pages were shared. Apart from the counters of their frames, missing tables of
the destination were created and no other frames taken. -/
structure SharedPages (E : Finset ℕ) (s : Machine) (g : Obj → ℕ) (τ : Tree) (source dest perms k : ℕ) (t : Machine)
    (g' : Obj → ℕ) : Prop where
  stocked : Stocked E t g'
  grows : AddsTables τ (tablesOf (roundDown dest pageSize) k) 0 s g (t.withInfo (keepInfo s t)) g'
  entries : t.entries g' = sharedEntries (s.entries g) τ (pageNumber source) (pageNumber dest) perms k
  info : ∀ f ∉ s.freeFrameList, t.framesInfo f = { s.framesInfo f with
    references := (s.framesInfo f).references + shares (s.entries g) τ (pageNumber source) k f }

theorem chunkPages_congr (h : source % pageSize = dest % pageSize) (hs : source + size + pageSize ≤ 2 ^ 32)
    (hd : dest + size + pageSize ≤ 2 ^ 32) : chunkPages source size = chunkPages dest size := by
  simp only [chunkPages, numOfPages, roundUp, roundDown, u32, pageSize] at *
  omega

namespace CanShare

variable (h : CanShare E s g τ source dest size perms)
include h

theorem sourcePages_le : roundDown source pageSize + pageSize * chunkPages dest size ≤ userTop := by
  have hs := h.source_le
  have hd := h.dest_le
  simp only [userTop] at hs hd
  rw [← chunkPages_congr h.offset (by simp only [pageSize]; omega) (by simp only [pageSize]; omega)]
  exact chunkPages_le (by decide) (by decide) h.source_le

theorem destPages_le : roundDown dest pageSize + pageSize * chunkPages dest size ≤ userTop :=
  chunkPages_le (by decide) (by decide) h.dest_le

theorem share (hk : k < chunkPages dest size) (ht : SharedPages E s g τ source dest perms k t g') (hu : Stocked E u g'')
    (hgu : AddsTables τ I 0 t g' u g'') (heu : u.entries g'' = t.entries g')
    (hgrows : AddsTables τ (tablesOf (roundDown dest pageSize) (k + 1)) 0 s g (u.withInfo (keepInfo s u)) g'')
    (hf : frameNumber (s.entries g (τ, pageNumber source + k)) = f) (hheap : ¬u.HeapFrame f)
    (hva : va < userTop) (hpage : pageNumber va = pageNumber dest + k) (hl : g'' (.leaf τ (pdx va)) ≠ 0)
    (hw : newEntry f perms < 2 ^ 32) : SharedPages E s g τ source dest perms (k + 1)
      ((u.addReference f).setEntry (u.entryFrame g'' τ va) (ptx va) (newEntry f perms)) g'' := by
  obtain ⟨hv, hev⟩ := hu.set (hu.userStep_self.addReference hheap) rfl hva hl hw
  obtain ⟨-, hstore, -⟩ := hu.store hva hl hw
  set v := (u.addReference f).setEntry (u.entryFrame g'' τ va) (ptx va) (newEntry f perms)
  have hused := hf ▸ h.inUse k hk
  have hinfo (f' : ℕ) : v.framesInfo f' = if f' = f then (u.framesInfo f).addReferences 1 else u.framesInfo f' :=
    Function.update_apply ..
  refine ⟨hv, (hgrows.trans (hstore.withInfo (j := keepInfo s v) fun f' _ => ?_)).congr (Finset.union_empty _) rfl, ?_,
    fun f' hf' => ?_⟩
  · rw [keepInfo, keepInfo]
    by_cases hfree : f' ∈ s.freeFrameList
    · rw [if_pos hfree, if_pos hfree, hinfo, if_neg fun he : f' = f => hused.not_free (he ▸ hfree)]
    · rw [if_neg hfree, if_neg hfree]
  · rw [hev, hpage, heu, ht.entries, ← hf]
    exact sharedEntries_succ
  · have hold : u.framesInfo f' = _ := (hgu.info f' (ht.grows.not_free hf')).trans (ht.info f' hf')
    rw [hinfo, shares_succ, hf]
    by_cases hff : f' = f
    · subst hff
      have hcount := h.counted k hk
      have hle := shares_mono (e := s.entries g) (τ := τ) (m := pageNumber source) (f := f') hk
      rw [hf] at hcount
      rw [shares_succ, hf, if_pos rfl] at hle
      rw [if_pos rfl, if_pos rfl, hold]
      simp only [FrameInfo.addReferences, FrameInfo.mk.injEq, and_true]
      omega
    · rw [if_neg hff, if_neg (Ne.symm hff), hold, Nat.add_zero]

variable (h0 : ∀ k < chunkPages dest size, s.entries g (τ, pageNumber dest + k) = 0)
include h0

theorem shareChunkPage_sat (hk : k < chunkPages dest size) (ht : SharedPages E s g τ source dest perms k t g') :
    Sat (Short s (missingTables g τ dest (chunkPages dest size)) (missingTables g τ dest (chunkPages dest size)))
      (shareChunkPage (g (.root τ)) (roundDown source pageSize) (roundDown dest pageSize) perms k) t fun _ u =>
        ∃ g'', SharedPages E s g τ source dest perms (k + 1) u g'' := by
  obtain ⟨hps, hs⟩ := pageOf_user h.sourcePages_le hk
  obtain ⟨hpd, hd⟩ := pageOf_user h.destPages_le hk
  have hns := pageNumber_add (roundDown source pageSize) k
  have hnd := pageNumber_add (roundDown dest pageSize) k
  rw [pageNumber_roundDown] at hns hnd
  have hcard : (absent g τ (tablesOf (roundDown dest pageSize) k)).card +
      missing g' τ (roundDown dest pageSize + pageSize * k) ≤ missingTables g τ dest (chunkPages dest size) := by
    rw [← card_absent_singleton, ← ht.grows.card_union, ← tablesOf_succ]
    exact Finset.card_le_card (absent_mono (tablesOf_mono _ hk))
  rw [shareChunkPage, hps, hpd, ← ht.grows.rootTable]
  refine (ht.stocked.ensureTable_sat (a := 0) (b := 0) h.tree (ht.grows.rootTable τ ▸ h.root) hd
    (fun _ hpt => if_neg hpt) (if_pos rfl) fun u g'' hu hgu heu => ?_).weaken fun e he =>
      (ht.grows.spent.short (t := t.withInfo (keepInfo s t)) he).mono (by omega) (by omega)
  rw [← hgu.rootTable]
  have hgrows : AddsTables τ (tablesOf (roundDown dest pageSize) (k + 1)) 0 s g (u.withInfo (keepInfo s u)) g'' :=
    (ht.grows.keep hgu).congr (tablesOf_succ _ _).symm rfl
  set f := frameNumber (s.entries g (τ, pageNumber source + k)) with hfdef
  have hf : InUse u f := by
    have hstays := hgrows.stays (h.inUse k hk)
    exact ⟨⟨hstays.managed, hstays.not_heap⟩, hstays.not_free⟩
  -- the entries of the two pages are still those of the start
  have hsource : u.entries g'' (τ, pageNumber (roundDown source pageSize + pageSize * k)) =
      s.entries g (τ, pageNumber source + k) := by
    rw [hns, heu, ht.entries, sharedEntries_of_ne]
    intro j hj he
    refine h.mapped k hk ?_
    rw [he, h0 j (hj.trans hk)]
  have hdest : u.entries g'' (τ, pageNumber (roundDown dest pageSize + pageSize * k)) = 0 := by
    rw [hnd, heu, ht.entries, sharedEntries_of_ne (by omega), h0 k hk]
  have hls := table_of_entry hs (hsource ▸ h.mapped k hk)
  have hld := hgu.table _ (Finset.mem_singleton_self _)
  have htab := hu.hasTable hs hls
  have hword := (hu.word_entry hs hls).trans hsource
  have hpres : ¬HasPerm (wordAt (u.ram (u.entryFrame g'' τ (roundDown dest pageSize + pageSize * k)))
      (ptx (roundDown dest pageSize + pageSize * k))) permPresent := by
    rw [hu.word_entry hd hld, hdest]
    decide
  have hlt := hu.ordinary_lt hf.toOrdinary
  have hw : newEntry f perms < 2 ^ 32 := newEntry_lt (hlt.trans_le hu.tables.frames) h.perms
  refine .bind_ok htab.get (.bind_ok (readEntry_run htab.read) (.bind_ok (htab.getFrameInfo_some ?_ ?_) ?_))
  · rw [hword]
    exact h.mapped k hk
  · rw [hword]
    exact hlt
  · rw [hword]
    exact .bind_ok ((hu.hasTable hd hld).mapFrame_unmapped hpres)
      (.pure ⟨g'', h.share hk ht hu hgu heu hgrows rfl hf.not_heap hd hnd hld hw⟩)

end CanShare

theorem SharedPages.entry (h : SharedPages E s g τ source dest perms n t g') (hk : k < n) :
    t.entries g' (τ, pageNumber dest + k) = newEntry (frameNumber (s.entries g (τ, pageNumber source + k))) perms := by
  rw [h.entries, sharedEntries, if_pos ⟨rfl, by simp, by simpa using hk⟩, Nat.add_sub_cancel_left]

theorem SharedPages.maps (h : SharedPages E s g τ source dest perms n t g') (hperms : perms < 4096) (hk : k < n) :
    frameNumber (t.entries g' (τ, pageNumber dest + k)) = frameNumber (s.entries g (τ, pageNumber source + k)) ∧
      t.entries g' (τ, pageNumber dest + k) % 4096 = perms ||| permPresent := by
  rw [h.entry hk]
  exact ⟨frameNumber_newEntry hperms, newEntry_mod hperms⟩

theorem shareChunk_pages (hd : dest + size + pageSize ≤ 2 ^ 32) :
    u32 (roundUp (u32 (dest + size)) pageSize + 2 ^ 32 - roundDown dest pageSize) / pageSize = chunkPages dest size := by
  simp only [chunkPages, numOfPages, roundUp, roundDown, u32, pageSize] at *
  omega

/-- `share_chunk` refuses if a destination page is mapped, with nothing changed; otherwise each
destination page is mapped to the frame of its source page, whose counter rises with each of them.
Frames are taken for missing destination tables only. -/
theorem shareChunk_sat (h : CanShare E s g τ source dest size perms) :
    Sat (Short s (missingTables g τ dest (chunkPages dest size)) (missingTables g τ dest (chunkPages dest size)))
      (shareChunk (g (.root τ)) source dest size perms) s fun r t =>
        (∃ k < chunkPages dest size, s.entries g (τ, pageNumber dest + k) ≠ 0) ∧ r = -1 ∧ t = s ∨
        (∀ k < chunkPages dest size, s.entries g (τ, pageNumber dest + k) = 0) ∧ r = 0 ∧
          ∃ g', SharedPages E s g τ source dest perms (chunkPages dest size) t g' := by
  have hnum := shareChunk_pages (h.dest_le |> fun hd => (Nat.add_le_add_right hd pageSize).trans (by decide))
  have hcheck := h.stocked.anyMapped_run h.root h.destPages_le fun k hk hne => by
    rw [pageNumber_roundDown] at hne ⊢
    exact h.frame_lt k hk hne
  rw [pageNumber_roundDown] at hcheck
  rw [shareChunk]
  refine .bind_ok hcheck ?_
  by_cases hmapped : ∃ k < chunkPages dest size, s.entries g (τ, pageNumber dest + k) ≠ 0
  · rw [decide_eq_true hmapped]
    exact .pure (.inl ⟨hmapped, rfl, rfl⟩)
  · have h0 (k : ℕ) (hk : k < chunkPages dest size) : s.entries g (τ, pageNumber dest + k) = 0 := by
      by_contra hne
      exact hmapped ⟨k, hk, hne⟩
    rw [decide_eq_false hmapped]
    simp only [hnum]
    have hstart : SharedPages E s g τ source dest perms 0 s g := by
      refine ⟨h.stocked, ?_, sharedEntries_zero.symm, fun f _ => rfl⟩
      rw [keepInfo_self]
      exact .refl (by simp [tablesOf_zero]) s
    have hloop := Sat.forRange (s := s) (i := 0) (n := chunkPages dest size)
      (fun k t => ∃ g', SharedPages E s g τ source dest perms k t g') ⟨g, hstart⟩ fun k t _ hk ht => by
        obtain ⟨g', ht⟩ := ht
        exact h.shareChunkPage_sat h0 (by omega) ht
    refine hloop.bind fun _ t ht => ?_
    rw [Nat.zero_add] at ht
    obtain ⟨g', ht⟩ := ht
    exact .pure (.inr ⟨h0, rfl, g', ht⟩)

/-- If the permissions leave the frame number alone, a destination page maps the frame of its source page. -/
theorem shareChunk_all_or_nothing (h : CanShare E s g τ source dest size perms) (hperms : perms < 4096) :
    Sat (Short s (missingTables g τ dest (chunkPages dest size)) (missingTables g τ dest (chunkPages dest size)))
      (shareChunk (g (.root τ)) source dest size perms) s fun r t =>
        (∃ k < chunkPages dest size, s.entries g (τ, pageNumber dest + k) ≠ 0) ∧ r = -1 ∧ t = s ∨
        (∀ k < chunkPages dest size, s.entries g (τ, pageNumber dest + k) = 0) ∧ r = 0 ∧
          ∃ g', SharedPages E s g τ source dest perms (chunkPages dest size) t g' ∧
            ∀ k < chunkPages dest size,
              frameNumber (t.entries g' (τ, pageNumber dest + k)) = frameNumber (s.entries g (τ, pageNumber source + k)) ∧
                t.entries g' (τ, pageNumber dest + k) % 4096 = perms ||| permPresent := by
  refine (shareChunk_sat h).mono fun r t hr => hr.imp id ?_
  rintro ⟨h0, hr, g', ht⟩
  exact ⟨h0, hr, g', ht, fun k hk => ht.maps hperms hk⟩

theorem shareChunk_all_or_nothing_onePage : ∃ s g t g', CanShare {0, 1} s g (.user 0) 5 (4 * 2 ^ 20 + 5) 1 permUser ∧
    (shareChunk (g (.root (.user 0))) 5 (4 * 2 ^ 20 + 5) 1 permUser).run s = .ok (0, t) ∧
    SharedPages {0, 1} s g (.user 0) 5 (4 * 2 ^ 20 + 5) permUser 1 t g' ∧
    frameNumber (t.entries g' (.user 0, pageNumber (4 * 2 ^ 20 + 5))) = frameNumber (s.entries g (.user 0, pageNumber 5)) := by
  obtain ⟨s, g, f, hs, ho, hentries, hf, hrefs, hlen, hroom, -⟩ := exists_onePage
  have hentry (n : ℕ) : s.entries g (.user 0, n) = if n = 0 then newEntry f (permUser ||| permWriteable) else 0 := by
    rw [hentries, Function.update_apply]
    simp
  have hframe : frameNumber (newEntry f (permUser ||| permWriteable)) = f := frameNumber_newEntry (by decide)
  have hpages : chunkPages (4 * 2 ^ 20 + 5) 1 = 1 := by decide
  have hzero (k : ℕ) (hk : k < 1) : s.entries g (.user 0, pageNumber (4 * 2 ^ 20 + 5) + k) = 0 := by
    rw [hentry, if_neg (by simp [pageNumber, pageSize])]
  have hsource (k : ℕ) (hk : k < 1) :
      s.entries g (.user 0, pageNumber 5 + k) = newEntry f (permUser ||| permWriteable) := by
    obtain rfl : k = 0 := by omega
    rw [hentry, if_pos (by decide)]
  have hshare : CanShare {0, 1} s g (.user 0) 5 (4 * 2 ^ 20 + 5) 1 permUser := by
    refine ⟨hs, by simp, ho, by decide, by decide, by decide, by decide, ?_, ?_, ?_, ?_⟩ <;> rw [hpages]
    · exact fun k hk hne => absurd (hzero k hk) hne
    · intro k hk
      rw [hsource k hk]
      exact newEntry_ne_zero f _
    · intro k hk
      rw [hsource k hk, hframe]
      exact hf
    · intro k hk
      have hone : shares (s.entries g) (.user 0) (pageNumber 5) 1 f ≤ 1 := (Finset.card_filter_le _ _).trans (by simp)
      rw [hsource k hk, hframe, hrefs]
      omega
  have hshort : missingTables g (.user 0) (4 * 2 ^ 20 + 5) 1 ≤ 1 :=
    (Finset.card_filter_le _ _).trans (Finset.card_image_le.trans (by simp))
  have hok : Sat (fun _ => False) _ _ _ := (shareChunk_all_or_nothing hshare (by decide)).weaken fun e he => by
    rw [hpages] at he
    rcases he with ⟨-, hlt⟩ | ⟨-, hr⟩
    · omega
    · exact hr (hroom.mono (by omega))
  obtain ⟨r, t, hrun, ⟨⟨k, hk, hne⟩, -⟩ | ⟨-, rfl, g', ht, hmaps⟩⟩ := hok.exists_ok
  · exact absurd (hzero k (hpages ▸ hk)) hne
  · exact ⟨s, g, t, g', hshare, hrun, hpages ▸ ht, (hmaps 0 (hpages ▸ Nat.one_pos)).1⟩

private theorem exists_twoFrames : ∃ s g, ∃ F : ℕ → ℕ, Stocked {0, 1} s g ∧ g (.root (.user 0)) ≠ 0 ∧ F 0 ≠ F 1 ∧
    (∀ k < 2, s.entries g (.user 0, 1 + k) = newEntry (F k) (permUser ||| permWriteable) ∧ InUse s (F k) ∧
      (s.framesInfo (F k)).references = 1) ∧
    (∀ n, 1024 ≤ n → s.entries g (.user 0, n) = 0) ∧ 80 ≤ s.freeFrameList.length ∧ Room s 80 := by
  obtain ⟨s, g, f, hs, ho, hentries, -, -, hlen, hroom, -⟩ := exists_onePage
  have hpage : pageNumber pageSize = 1 := by decide
  have hl : g (.leaf (.user 0) 0) ≠ 0 := table_of_entry (show 0 < userTop by decide) (by
    rw [hentries, show ((.user 0, pageNumber 0) : Tree × ℕ) = (.user 0, 0) from rfl, Function.update_self]
    exact newEntry_ne_zero f _)
  have hzero (n : ℕ) (hn : n ≠ 0) : s.entries g (.user 0, n) = 0 := by
    rw [hentries, Function.update_of_ne (by simpa using hn)]
  have habs : absent g (.user 0) (tablesOf pageSize 2) = ∅ := by
    refine absent_eq_empty fun i hi => ?_
    have htab : tablesOf pageSize 2 = {0} := by decide
    rw [htab, Finset.mem_singleton] at hi
    exact hi ▸ hl
  have hplace : CanPlace {0, 1} s g (.user 0) (permUser ||| permWriteable) := ⟨by simp, ho, by decide⟩
  have hle : pageSize + pageSize * 2 ≤ userTop := by decide
  have hok : Sat (fun _ => False) _ _ _ :=
    (hplace.userPages_sat hs hle fun i _ => hpage ▸ hzero (1 + i) (by omega)).weaken fun e he => by
        rw [habs] at he
        rcases he with ⟨-, hlt⟩ | ⟨-, hr⟩
        · simp only [Finset.card_empty] at hlt
          omega
        · exact hr (hroom.mono (by simp))
  obtain ⟨-, t, -, g', F, ht⟩ := hok.exists_ok
  have hg := ht.grows
  have hentry (x : Tree × ℕ) : t.entries g' x = withPages (s.entries g) (.user 0) 1 F (permUser ||| permWriteable) 2 x := by
    rw [ht.entries, hpage]
  have hinj : F 0 ≠ F 1 := fun he =>
    absurd (ht.frames.injOn (show (0 : ℕ) < 2 by decide) (show (1 : ℕ) < 2 by decide) he) (by decide)
  refine ⟨t, g', F, ht.stocked, hg.rootTable _ ▸ ho, hinj, fun k hk => ⟨?_, ⟨?_, (ht.frames k hk).2.1⟩, ?_⟩,
    fun n hn => ?_, ?_, hg.room 80 (hroom.mono (by rw [habs, Finset.card_empty]; omega))⟩
  · rw [hentry, withPages, if_pos ⟨rfl, by simp, by simp only; omega⟩, Nat.add_sub_cancel_left]
  · -- no table was added, so the heap keeps its frames
    refine (hs.free _ (ht.frames k hk).1).1.congr hg.places.toSameBoot fun p hp => ?_
    rw [← cellWord_page hp.shared, ← cellWord_page hp.shared, hg.page p (by simp [habs])]
  · rw [(ht.frames k hk).2.2]
    rfl
  · rw [hentry, withPages, if_neg (by simp; omega), hzero n (by omega)]
  · rw [hg.free, habs, Finset.card_empty, List.length_drop]
    omega

/-- With a mask that reaches into the frame number a destination page does not map the frame of its source page. -/
theorem shareChunk_maps_other_frame : ∃ s g t g',
    CanShare {0, 1} s g (.user 0) pageSize (4 * 2 ^ 20) (2 * pageSize) 0xFFFFF000 ∧
    (shareChunk (g (.root (.user 0))) pageSize (4 * 2 ^ 20) (2 * pageSize) 0xFFFFF000).run s = .ok (0, t) ∧
    SharedPages {0, 1} s g (.user 0) pageSize (4 * 2 ^ 20) 0xFFFFF000 2 t g' ∧
    ∃ k < 2, frameNumber (t.entries g' (.user 0, pageNumber (4 * 2 ^ 20) + k)) ≠
      frameNumber (s.entries g (.user 0, pageNumber pageSize + k)) := by
  obtain ⟨s, g, F, hs, ho, hne, hF, hzero, hlen, hroom⟩ := exists_twoFrames
  have hpages : chunkPages (4 * 2 ^ 20) (2 * pageSize) = 2 := by decide
  have hsource : pageNumber pageSize = 1 := by decide
  have hdest : pageNumber (4 * 2 ^ 20) = 1024 := by decide
  have hframe (k : ℕ) (hk : k < 2) : frameNumber (s.entries g (.user 0, 1 + k)) = F k := by
    rw [(hF k hk).1, frameNumber_newEntry (by decide)]
  have hfree (k : ℕ) : s.entries g (.user 0, 1024 + k) = 0 := hzero _ (by omega)
  have hshare : CanShare {0, 1} s g (.user 0) pageSize (4 * 2 ^ 20) (2 * pageSize) 0xFFFFF000 := by
    refine ⟨hs, by simp, ho, by decide, by decide, by decide, by decide, ?_, ?_, ?_, ?_⟩ <;> rw [hpages]
    · exact fun k _ hne => absurd (hdest ▸ hfree k) hne
    · intro k hk
      rw [hsource, (hF k hk).1]
      exact newEntry_ne_zero _ _
    · intro k hk
      rw [hsource, hframe k hk]
      exact (hF k hk).2.1
    · intro k hk
      have htwo : shares (s.entries g) (.user 0) 1 2 (F k) ≤ 2 := (Finset.card_filter_le _ _).trans (by simp)
      rw [hsource, hframe k hk, (hF k hk).2.2]
      omega
  have hshort : missingTables g (.user 0) (4 * 2 ^ 20) 2 ≤ 2 :=
    (Finset.card_filter_le _ _).trans (Finset.card_image_le.trans (by simp))
  have hok : Sat (fun _ => False) _ _ _ := (shareChunk_sat hshare).weaken fun e he => by
    rw [hpages] at he
    rcases he with ⟨-, hlt⟩ | ⟨-, hr⟩
    · omega
    · exact hr (hroom.mono (by omega))
  obtain ⟨r, t, hrun, ⟨⟨k, -, hk⟩, -⟩ | ⟨-, rfl, g', ht⟩⟩ := hok.exists_ok
  · exact absurd (hdest ▸ hfree k) hk
  have hfull (k : ℕ) (hk : k < 2) : frameNumber (t.entries g' (.user 0, pageNumber (4 * 2 ^ 20) + k)) = 2 ^ 20 - 1 := by
    rw [ht.entry (hpages.symm ▸ hk), hsource, hframe k hk]
    exact frameNumber_newEntry_full ((hs.ordinary_lt (hF k hk).2.1.toOrdinary).trans_le hs.tables.frames)
  refine ⟨s, g, t, g', hshare, hrun, hpages ▸ ht, ?_⟩
  -- both pages name one frame, the sources do not
  by_contra hsame
  push Not at hsame
  have h0 := hsame 0 (by decide)
  have h1 := hsame 1 (by decide)
  rw [hfull _ (by decide), hsource, hframe _ (by decide)] at h0 h1
  exact hne (h0.symm.trans h1)

end FosKernel.Machine
