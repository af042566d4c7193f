import FosKernel.SharedMemory
import FosKernel.UserMappings

/-!
# The pages of a shared object

A frames storage is a directory whose tables hold the frames of an object, by page
number. Creating an object fills it together with the creator's pages; a getter's
pages are mapped from it.
-/

namespace FosKernel.SharedMemory
open FailingPrograms PageEntries Machine

variable {s t : Machine} {E : Finset ℕ} {g g' : Obj → ℕ} {L : Set ℕ} {e f i k m n va perm stop : ℕ}

def storageEntry (f : ℕ) : ℕ := constructEntry (toPhysicalAddress f) permPresent

/-- The entry of a page with the given permissions. -/
def pageEntry (perm f : ℕ) : ℕ := constructEntry (toPhysicalAddress f) (perm ||| permPresent)

theorem frameNumber_storageEntry : frameNumber (storageEntry f) = f :=
  frameNumber_constructEntry (by decide)

theorem storageEntry_ne_zero : storageEntry f ≠ 0 :=
  ne_zero_of_hasPerm_present (HasPerm.or_left (by decide))

theorem storageEntry_lt (hf : f < 2 ^ 20) : storageEntry f < 2 ^ 32 := constructEntry_lt hf (by decide)

theorem nameOf_pageEntry (hperm : perm < 4096) : nameOf (pageEntry perm f) = some f :=
  nameOf_construct hperm

theorem pageNumber_mul (n : ℕ) : pageNumber (pageSize * n) = n := Nat.mul_div_cancel_left _ (by decide)

theorem u32_page (hn : pageSize * n < userTop) : u32 (n * pageSize) = pageSize * n := by
  rw [Nat.mul_comm, u32_of_lt (hn.trans userTop_lt)]

theorem addFrameToStorage_sat (h : System E s g L) (ho : g (.root (.storage i)) ≠ 0)
    (hn : pageSize * n < userTop) (hf : f < 2 ^ 20) :
    Sat (Short s (missing g (.storage i) (pageSize * n)) (missing g (.storage i) (pageSize * n)))
      (addFrameToStorage (g (.root (.storage i))) f n) s fun _ t => ∃ g', System E t g' L ∧
        Stores s g (.storage i) (pageSize * n) (storageEntry f) t g' := by
  rw [addFrameToStorage, u32_page hn]
  by_cases hl : g (.leaf (.storage i) (pdx (pageSize * n))) = 0
  · rw [missing, if_pos hl]
    refine .bind_ok (h.getPageTable_none ho hn hl) ((h.createPageTable ho rfl hn hl).bind fun pt t hc => ?_)
    have hself : Function.update g (.leaf (.storage i) (pdx (pageSize * n))) pt
      (.leaf (.storage i) (pdx (pageSize * n))) = pt := Function.update_self ..
    have hl' := hself.symm ▸ hc.ne
    obtain ⟨hsys, hkeeps, hentries⟩ := hc.system.store (by simp) hn hl' (storageEntry_lt hf)
    have hrun := writeEntry_run (j := ptx (pageSize * n)) (w := storageEntry f)
      (hc.system.located_leaf hn hl').write
    rw [hself] at hrun hsys hkeeps hentries
    exact .of_ok hrun ⟨_, hsys, hc.stores hl hkeeps hentries ⟨le_rfl, fun _ => id⟩⟩
  · obtain ⟨hsys, hkeeps, hentries⟩ := h.store (by simp) hn hl (storageEntry_lt hf)
    refine .bind_ok (h.located_leaf hn hl).get ?_
    simp only [pure_bind]
    refine .of_ok (writeEntry_run (h.located_leaf hn hl).write) ⟨g, hsys, hkeeps, fun _ => rfl, hentries, hl, ?_⟩
    rw [missing, if_neg hl]
    exact ⟨le_rfl, fun _ => id⟩

theorem getFrameFromStorage_run (h : System E s g L) (hn : pageSize * n < userTop) (hf : f < s.numberOfFrames)
    (he : s.entries g (.storage i, n) = storageEntry f) :
    (getFrameFromStorage (g (.root (.storage i))) n).run s = .ok (some f, s) := by
  have hcell : s.cellWord g (.word (.leaf (.storage i) (pdx (pageSize * n))) (ptx (pageSize * n))) =
      storageEntry f := by
    rw [← entries_apply hn, pageNumber_mul, he]
  have hl : g (.leaf (.storage i) (pdx (pageSize * n))) ≠ 0 := fun hl => by
    rw [cellWord_absent hl] at hcell
    exact storageEntry_ne_zero hcell.symm
  have hloc := h.located_leaf hn hl
  have hword : wordAt (s.ram (s.pageFrame (g (.leaf (.storage i) (pdx (pageSize * n))))))
      (ptx (pageSize * n)) = storageEntry f := by
    rw [hloc.word, cellAt_user hn, hcell]
  have hrun := hloc.getFrameInfo_some (by rw [hword]; exact storageEntry_ne_zero)
    (by rw [hword, frameNumber_storageEntry]; exact hf)
  rw [hword, frameNumber_storageEntry] at hrun
  rw [getFrameFromStorage, u32_page hn, run_bind_ok hrun, run_pure]

/-- The directory of a new frames storage, which `allocate_share_object` clears. -/
theorem createFramesStorage_sat (h : System E s g L) :
    Sat (Short s 1 1) createFramesStorage s fun p t => ∃ f, NewPage E s g L p f t := by
  rw [createFramesStorage]
  refine ((h.kmalloc_page _).weaken fun e he => .inl he).bind ?_
  rintro p t (⟨f, hnew⟩ | ⟨hroom, rfl, rfl⟩)
  · rw [if_neg hnew.object.1.ne_zero]
    exact .pure ⟨f, hnew⟩
  · exact .of_error (if_pos rfl ▸ rfl) (.inr ⟨rfl, hroom⟩)

theorem clearStorage_run (h : NewPage E s g L n f t) (hs : System E s g L) (hr : g (.root (.storage i)) = 0) :
    ∃ u, (clearPage n).run t = .ok ((), u) ∧ Created E s g L (.root (.storage i)) n u := by
  obtain ⟨hobj, hframe⟩ := h.object
  have hsys := h.system
  have hperm : HasPerm (t.kernelPte n) (permPresent ||| permWriteable) := by
    rw [hobj.entry]
    exact HasPerm.or_left (by decide)
  have hwrite : t.translate (permPresent ||| permWriteable) n = some f := by
    rw [hsys.translate_shared h.heap.shared (by decide) hperm, ← hsys.pageFrame_heap h.heap, hframe]
  refine ⟨_, clearPage_run hwrite, ?_⟩
  have hst : SameGlobals t (t.setFrame f zeroPage) := by constructor <;> rfl
  obtain ⟨hlay, hword, hother⟩ := hsys.toLayout.attach_root hobj (h.new hs.toLayout) hr
    (fun _ _ => wordAt_zeroPage _) (fun e he => by simp at he) hst.places.toSameBoot (fun _ => rfl)
    (fun e => by
      rw [Function.update_of_ne (by simp), Function.update_of_ne (by simp)]
      exact hsys.roots e)
    (fun e he => by
      rw [Function.update_of_ne (by simp)] at he ⊢
      exact hsys.envCr3 e he) (by rw [hframe])
  set u := t.setFrame f zeroPage
  set g' := Function.update g (.root (.storage i)) n
  have hcell : u.cellWord g' = t.cellWord g := by
    funext x
    by_cases hx : ∀ j < 1024, x ≠ .word (.root (.storage i)) j
    · exact hother x hx
    · push Not at hx
      obtain ⟨j, hj, rfl⟩ := hx
      rw [hword j hj, wordAt_zeroPage, cellWord_absent hr]
  obtain ⟨hcore, hapart⟩ := hsys.toCore.attach hsys.apart hst.places.toSameBoot hlay
    (fun x _ => by rw [hcell]) rfl rfl
  have hupage : u.pageFrame n = f := by
    have h₁ := hlay.pageFrame_heap h.heap
    have h₂ := hsys.pageFrame_heap h.heap
    rw [← cellWord_page h.heap.shared g', hcell, cellWord_page h.heap.shared] at h₁
    rw [h₁, ← h₂, hframe]
  refine ⟨hsys.of_core hcore hapart rfl (fun q _ => by rw [hcell]) rfl fun _ _ _ _ => rfl, hobj.ne_zero,
    (h.keeps hs.toLayout).attach hsys.toLayout hlay hr hst (fun _ _ _ => by rw [hcell])
      (fun q => by rw [hcell]) ?_ (fun f' hf' _ => ?_) rfl, fun τ k j => ?_, ⟨h.spent.frames, h.spent.room⟩⟩
  · rw [hupage, h.free]
    exact List.mem_cons_self
  · exact setFrame_ram_of_ne fun he => hf' (hupage.trans he.symm)
  · rw [hcell, h.cell, Function.update_of_ne (by simp)]

def createPerm : ℕ := permUser ||| permPresent ||| permWriteable

def getPerm (isWritable : ℕ) : ℕ :=
  if isWritable = 1 then permPresent ||| permUser ||| permWriteable else permPresent ||| permUser

theorem createPerm_lt : createPerm < 4096 := by decide

theorem getPerm_lt (isWritable : ℕ) : getPerm isWritable < 4096 := by
  unfold getPerm
  split <;> decide

theorem missing_anti (h : ∀ o, g o ≠ 0 → g' o = g o) (τ : Tree) (va : ℕ) : missing g' τ va ≤ missing g τ va := by
  unfold missing
  split
  · rename_i h'
    split
    · exact le_rfl
    · rename_i h0
      exact absurd ((h _ h0).symm.trans h') h0
  · exact Nat.zero_le _

/-- A round of the creator's loop: a new frame is mapped and stored. -/
structure SharesPage (E : Finset ℕ) (s : Machine) (g : Obj → ℕ) (e va i n f : ℕ) (t : Machine)
    (g' : Obj → ℕ) : Prop where
  system : System E t g' ∅
  keeps : Keeps s g t g'
  roots : ∀ τ, g' (.root τ) = g (.root τ)
  managed : s.Managed f
  unused : ∀ x ∈ slots E, nameOf (s.cellWord g x) ≠ some f
  entries : t.entries g' = Function.update (Function.update (s.entries g) (.user e, pageNumber va)
    (pageEntry createPerm f)) (.storage i, n) (storageEntry f)
  userTable : g' (.leaf (.user e) (pdx va)) ≠ 0
  storageTable : g' (.leaf (.storage i) (pdx (pageSize * n))) ≠ 0

theorem createSharedPage_sat (h : System E s g ∅) (he : e ∈ E) (ho : g (.root (.user e)) ≠ 0)
    (hs : g (.root (.storage i)) ≠ 0) (hva : UserAddress va) (hn : pageSize * n < userTop)
    (h0 : s.entries g (.user e, pageNumber va) = 0) {a b : ℕ} (ha : missing g (.user e) va ≤ a)
    (hb : missing g (.storage i) (pageSize * n) ≤ b) :
    Sat (Short s (1 + a + b) (a + b))
      (createSharedPage (g (.root (.user e))) (g (.root (.storage i))) va n) s fun _ t =>
        (∃ f g', SharesPage E s g e va i n f t g') ∧ Spent s t (1 + a + b) (a + b) := by
  rw [createSharedPage]
  refine (h.allocateFrame_sat.weaken fun _ hx => hx.mono (by omega) (by omega)).bind ?_
  rintro f t₁ ⟨⟨-, hm, hnot⟩, hsys₁, hkeeps₁, hcell₁, hspent₁⟩
  have hent₁ : t₁.entries g = s.entries g := entries_congr fun _ _ _ => by rw [hcell₁]
  have hmap : Mappable E t₁ g (insert f ∅) f := .inl ⟨by simp, hkeeps₁.boot.managed.symm ▸ hm⟩
  have hmiss := hsys₁.mapFrame_sat (τ := .user e) (by simpa using he) ho hva
    (hent₁ ▸ h0) hmap createPerm_lt
  refine (hmiss.weaken fun _ hx => (hspent₁.short hx).mono (by omega) (by omega)).bind ?_
  rintro _ t₂ ⟨-, g₂, hsys₂, hst₂⟩
  rw [show insert f (∅ : Set ℕ) \ {f} = ∅ by simp] at hsys₂
  have hspent₂ := hspent₁.trans hst₂.spent
  have hroot : g₂ (.root (.storage i)) = g (.root (.storage i)) := hst₂.roots _
  have hlt : f < 2 ^ 20 := (h.managed_lt hm).trans_le h.tables.frames
  have hb' : missing g₂ (.storage i) (pageSize * n) ≤ b := (missing_anti hst₂.keeps.objects _ _).trans hb
  have hstore := addFrameToStorage_sat hsys₂ (hroot ▸ hs) hn hlt
  rw [hroot] at hstore
  refine (hstore.weaken fun _ hx => (hspent₂.short hx).mono (by omega) (by omega)).mono ?_
  rintro _ t₃ ⟨g₃, hsys₃, hst₃⟩
  refine ⟨⟨f, g₃, hsys₃, (hkeeps₁.trans hst₂.keeps).trans hst₃.keeps,
    fun τ => (hst₃.roots τ).trans (hst₂.roots τ), hm, hnot, ?_, ?_, hst₃.table⟩,
    (hspent₂.trans hst₃.spent).mono (by omega) (by omega)⟩
  · rw [hst₃.entries, hst₂.entries, hent₁, pageNumber_mul]
    rfl
  · rw [hst₃.keeps.objects _ hst₂.table]
    exact hst₂.table

theorem getSharedPage_sat (h : System E s g ∅) (he : e ∈ E) (ho : g (.root (.user e)) ≠ 0)
    (hva : UserAddress va) (hn : pageSize * n < userTop) (h0 : s.entries g (.user e, pageNumber va) = 0)
    (hf : s.entries g (.storage i, n) = storageEntry f)
    (hused : ∃ τ i j, Cell.word (.leaf τ i) j ∈ slots E ∧
      nameOf (s.cellWord g (.word (.leaf τ i) j)) = some f) (hperm : perm < 4096) :
    Sat (Short s (missing g (.user e) va) (missing g (.user e) va))
      (getSharedPage (g (.root (.user e))) (g (.root (.storage i))) perm va n) s fun _ t =>
        ∃ g', System E t g' ∅ ∧ Stores s g (.user e) va (pageEntry perm f) t g' := by
  have hmap : Mappable E s g ∅ f := .inr hused
  obtain ⟨τ', i', j', hx, hname⟩ := hused
  have hlt : f < s.numberOfFrames := h.managed_lt (h.frame_managed hx hname).1
  rw [getSharedPage]
  refine .bind_ok (getFrameFromStorage_run h hn hlt hf) ?_
  simp only
  refine (h.mapFrame_sat (by simpa using he) ho hva h0 hmap hperm).bind ?_
  rintro _ t ⟨-, g', hsys, hst⟩
  rw [show (∅ : Set ℕ) \ {f} = ∅ by simp] at hsys
  exact .pure ⟨g', hsys, hst⟩

/-- The creator's loop after `k` rounds: the pages from number `n` on of environment `e`
and the storage of share `i` name the frames `F`. -/
structure SharesPages (E : Finset ℕ) (s : Machine) (g : Obj → ℕ) (e n i : ℕ) (F : ℕ → ℕ) (k : ℕ) (t : Machine)
    (g' : Obj → ℕ) : Prop where
  system : System E t g' ∅
  keeps : Keeps s g t g'
  roots : ∀ τ, g' (.root τ) = g (.root τ)
  user : ∀ j < k, t.entries g' (.user e, n + j) = pageEntry createPerm (F j)
  storage : ∀ j < k, t.entries g' (.storage i, j) = storageEntry (F j)
  others : ∀ x, (∀ j < k, x ≠ (.user e, n + j) ∧ x ≠ (.storage i, j)) → t.entries g' x = s.entries g x
  unused : ∀ j < k, ∀ x ∈ slots E, nameOf (s.cellWord g x) ≠ some (F j)
  inj : ∀ j < k, ∀ j' < k, F j = F j' → j = j'
  userTable : 0 < k → g' (.leaf (.user e) ((n + k - 1) / 1024)) ≠ 0
  storageTable : 0 < k → g' (.leaf (.storage i) ((k - 1) / 1024)) ≠ 0

theorem pdx_page (hlt : pageSize * n < 2 ^ 32) : pdx (pageSize * n) = n / 1024 := by
  rw [pdx_eq hlt, pageNumber_mul]

theorem missing_le_region {τ : Tree} (hlt : va + pageSize * k < 2 ^ 32)
    (htable : 0 < k → g (.leaf τ ((pageNumber va + k - 1) / 1024)) ≠ 0) :
    missing g τ (va + pageSize * k) ≤ if k = 0 ∨ (pageNumber va + k) % 1024 = 0 then 1 else 0 := by
  rw [missing, pdx_eq hlt, pageNumber_add]
  split <;> split
  · exact le_rfl
  · rename_i h0 hk
    rw [not_or] at hk
    have hsame : (pageNumber va + k - 1) / 1024 = (pageNumber va + k) / 1024 := by omega
    exact absurd (hsame ▸ h0) (htable (by omega))
  · exact Nat.zero_le _
  · exact le_rfl

namespace SharesPages

variable {F : ℕ → ℕ}

theorem zero (h : System E s g ∅) : SharesPages E s g e n i F 0 s g where
  system := h
  keeps := .refl s g
  roots _ := rfl
  user _ hj := absurd hj (Nat.not_lt_zero _)
  storage _ hj := absurd hj (Nat.not_lt_zero _)
  others _ _ := rfl
  unused _ hj := absurd hj (Nat.not_lt_zero _)
  inj _ hj := absurd hj (Nat.not_lt_zero _)
  userTable hk := absurd hk (lt_irrefl _)
  storageTable hk := absurd hk (lt_irrefl _)

theorem slot (h : SharesPages E s g e n i F k t g') (h0 : ∀ j < k, s.entries g (.user e, n + j) = 0) {x : Cell}
    (hx : x ∈ slots E) (hne : s.cellWord g x ≠ 0) : t.cellWord g' x = s.cellWord g x := by
  refine h.keeps.slot (fun τ hτ m hm => h.others _ fun j hj => ⟨?_, ?_⟩) hx hne
  · rintro he
    exact hm (he ▸ h0 j hj)
  · rintro he
    obtain ⟨rfl, -⟩ := Prod.mk.inj he
    simp at hτ

theorem succ (h : SharesPages E s g e n i F k t g') {u : Machine} {g'' : Obj → ℕ} (hd : pageSize ∣ va)
    (hn : pageNumber va = n) (hua : ∀ j ≤ k, UserAddress (va + pageSize * j)) (hk : pageSize * k < userTop) (he : e ∈ E)
    (h0 : ∀ j ≤ k, s.entries g (.user e, n + j) = 0)
    (hs : SharesPage E t g' e (va + pageSize * k) i k f u g'') :
    SharesPages E s g e n i (Function.update F k f) (k + 1) u g'' := by
  have hentries := hs.entries
  rw [pageNumber_add, hn] at hentries
  have hF (j : ℕ) (hj : j < k) : Function.update F k f j = F j := Function.update_of_ne hj.ne ..
  have hFk : Function.update F k f k = f := Function.update_self ..
  have hother {x : Tree × ℕ} (hu : x ≠ (.user e, n + k)) (hst : x ≠ (.storage i, k)) :
      u.entries g'' x = t.entries g' x := by
    rw [hentries, Function.update_of_ne hst, Function.update_of_ne hu]
  -- the new frame differs from the earlier ones, which are mapped by now
  have hnew (j : ℕ) (hj : j < k) : F j ≠ f := by
    rintro rfl
    have hslot : Cell.word (.leaf (.user e) ((n + j) / 1024)) ((n + j) % 1024) ∈ slots E := by
      refine entry_mem_slots (by simpa using he) ?_
      rw [← hn, Nat.mul_add, pageNumber, Nat.mul_div_cancel' hd]
      exact hua j hj.le
    refine hs.unused _ hslot ?_
    rw [show t.cellWord g' (.word (.leaf (.user e) ((n + j) / 1024)) ((n + j) % 1024)) =
      pageEntry createPerm (F j) from h.user j hj]
    exact nameOf_pageEntry createPerm_lt
  refine ⟨hs.system, h.keeps.trans hs.keeps, fun τ => (hs.roots τ).trans (h.roots τ), fun j hj => ?_,
    fun j hj => ?_, fun x hx => ?_, fun j hj x hx => ?_, fun j hj j' hj' he => ?_, fun _ => ?_, fun _ => ?_⟩
  · rcases Nat.lt_succ_iff_lt_or_eq.mp hj with hj | rfl
    · rw [hother (by simp [hj.ne]) (by simp), h.user j hj, hF j hj]
    · rw [hentries, Function.update_of_ne (by simp), Function.update_self, hFk]
  · rcases Nat.lt_succ_iff_lt_or_eq.mp hj with hj | rfl
    · rw [hother (by simp) (by simp [hj.ne]), h.storage j hj, hF j hj]
    · rw [hentries, Function.update_self, hFk]
  · rw [hother (hx k (Nat.lt_succ_self k)).1 (hx k (Nat.lt_succ_self k)).2]
    exact h.others x fun j hj => hx j (by omega)
  · rcases Nat.lt_succ_iff_lt_or_eq.mp hj with hj | rfl
    · rw [hF j hj]
      exact h.unused j hj x hx
    · rw [hFk]
      intro hname
      refine hs.unused x hx ?_
      rw [h.slot (fun j hj => h0 j hj.le) hx (nameOf_eq_some.mp hname).1, hname]
  · rcases Nat.lt_succ_iff_lt_or_eq.mp hj with hj | rfl <;> rcases Nat.lt_succ_iff_lt_or_eq.mp hj' with hj' | rfl
    · rw [hF j hj, hF j' hj'] at he
      exact h.inj j hj j' hj' he
    · rw [hF j hj, hFk] at he
      exact absurd he (hnew j hj)
    · rw [hF j' hj', hFk] at he
      exact absurd he.symm (hnew j' hj')
    · rfl
  · have := hs.userTable
    rwa [pdx_eq ((hua k le_rfl).1.trans userTop_lt), pageNumber_add, hn] at this
  · have := hs.storageTable
    rwa [pdx_page (hk.trans userTop_lt)] at this

end SharesPages

theorem pages_lt (hstop : stop ≤ userTop) (hk : k < pagesBetween va stop) : pageSize * k < userTop := by
  simp only [pagesBetween, pageSize] at *
  omega

theorem createSharedPages_sat (h : System E s g ∅) (he : e ∈ E) (ho : g (.root (.user e)) ≠ 0)
    (hs : g (.root (.storage i)) ≠ 0) (hd : pageSize ∣ va) (hstop : stop ≤ userTop)
    (hua : ∀ j < pagesBetween va stop, UserAddress (va + pageSize * j))
    (h0 : ∀ j < pagesBetween va stop, s.entries g (.user e, pageNumber va + j) = 0) :
    let n := pagesBetween va stop
    let a := regions (pageNumber va) n + regions 0 n
    Sat (Short s (n + a) a) (forPages (createSharedPage (g (.root (.user e))) (g (.root (.storage i)))) stop
      (2 ^ 20) va 0) s fun _ t =>
        (∃ F g', SharesPages E s g e (pageNumber va) i F n t g') ∧ Spent s t (n + a) a := by
  intro n a
  refine forUserPages_sat (fun k t => (∃ F g', SharesPages E s g e (pageNumber va) i F k t g') ∧
      Spent s t (k + (regions (pageNumber va) k + regions 0 k)) (regions (pageNumber va) k + regions 0 k))
    hstop ⟨⟨fun _ => 0, g, .zero h⟩, .refl s⟩ ?_
  rintro k t hk ⟨⟨F, g', hF⟩, hspent⟩
  have hpk := pages_lt hstop hk
  have hlt := (hua k hk).1.trans userTop_lt
  have ha := missing_le_region hlt hF.userTable
  have hb : missing g' (.storage i) (0 + pageSize * k) ≤ _ :=
    missing_le_region (by rw [Nat.zero_add]; exact hpk.trans userTop_lt) fun h => by
      simpa [pageNumber] using hF.storageTable h
  simp only [Nat.zero_add, show pageNumber 0 = 0 from rfl] at hb
  have hentry : t.entries g' (.user e, pageNumber (va + pageSize * k)) = 0 := by
    rw [pageNumber_add, hF.others _ fun j hj => ⟨by simp [hj.ne'], by simp⟩]
    exact h0 k hk
  have hround := createSharedPage_sat hF.system he (by rwa [hF.roots]) (by rwa [hF.roots]) (hua k hk) hpk hentry ha hb
  rw [hF.roots, hF.roots] at hround
  have h₁ := regions_succ (pageNumber va) k
  have h₂ := regions_succ 0 k
  rw [Nat.zero_add] at h₂
  have h₃ := regions_mono (n := pageNumber va) (show k + 1 ≤ n from hk)
  have h₄ := regions_mono (n := 0) (show k + 1 ≤ n from hk)
  have hkn : k + 1 ≤ n := hk
  refine (hround.weaken fun _ hx => (hspent.short hx).mono (by omega) (by omega)).mono ?_
  rintro _ u ⟨⟨f, g'', hf⟩, hsp⟩
  exact ⟨⟨_, g'', hF.succ hd rfl (fun j hj => hua j (by omega)) hpk he (fun j hj => h0 j (by omega)) hf⟩,
    (hspent.trans hsp).mono (by omega) (by omega)⟩

/-- The getter's loop after `k` rounds. -/
structure GetsPages (E : Finset ℕ) (s : Machine) (g : Obj → ℕ) (e n : ℕ) (F : ℕ → ℕ) (perm k : ℕ)
    (t : Machine) (g' : Obj → ℕ) : Prop where
  system : System E t g' ∅
  keeps : Keeps s g t g'
  roots : ∀ τ, g' (.root τ) = g (.root τ)
  user : ∀ j < k, t.entries g' (.user e, n + j) = pageEntry perm (F j)
  others : ∀ x, (∀ j < k, x ≠ (.user e, n + j)) → t.entries g' x = s.entries g x
  userTable : 0 < k → g' (.leaf (.user e) ((n + k - 1) / 1024)) ≠ 0

namespace GetsPages

variable {F : ℕ → ℕ}

theorem zero (h : System E s g ∅) : GetsPages E s g e n F perm 0 s g where
  system := h
  keeps := .refl s g
  roots _ := rfl
  user _ hj := absurd hj (Nat.not_lt_zero _)
  others _ _ := rfl
  userTable hk := absurd hk (lt_irrefl _)

theorem slot (h : GetsPages E s g e n F perm k t g') (h0 : ∀ j < k, s.entries g (.user e, n + j) = 0) {x : Cell}
    (hx : x ∈ slots E) (hne : s.cellWord g x ≠ 0) : t.cellWord g' x = s.cellWord g x := by
  refine h.keeps.slot (fun τ hτ m hm => h.others _ fun j hj => ?_) hx hne
  rintro he
  exact hm (he ▸ h0 j hj)

theorem succ (h : GetsPages E s g e n F perm k t g') {u : Machine} {g'' : Obj → ℕ} (hn : pageNumber va = n)
    (hva : va + pageSize * k < userTop) (hsys : System E u g'' ∅)
    (hs : Stores t g' (.user e) (va + pageSize * k) (pageEntry perm (F k)) u g'') :
    GetsPages E s g e n F perm (k + 1) u g'' := by
  have hentries := hs.entries
  rw [pageNumber_add, hn] at hentries
  have hother {x : Tree × ℕ} (hu : x ≠ (.user e, n + k)) : u.entries g'' x = t.entries g' x := by
    rw [hentries, Function.update_of_ne hu]
  refine ⟨hsys, h.keeps.trans hs.keeps, fun τ => (hs.roots τ).trans (h.roots τ), fun j hj => ?_,
    fun x hx => ?_, fun _ => ?_⟩
  · rcases Nat.lt_succ_iff_lt_or_eq.mp hj with hj | rfl
    · rw [hother (by simp [hj.ne]), h.user j hj]
    · rw [hentries, Function.update_self]
  · rw [hother (hx k (Nat.lt_succ_self k))]
    exact h.others x fun j hj => hx j (by omega)
  · have := hs.table
    rwa [pdx_eq (hva.trans userTop_lt), pageNumber_add, hn] at this

end GetsPages

theorem getSharedPages_sat (h : System E s g ∅) (he : e ∈ E) (ho : g (.root (.user e)) ≠ 0)
    (hstop : stop ≤ userTop) (hua : ∀ j < pagesBetween va stop, UserAddress (va + pageSize * j)) (hperm : perm < 4096)
    (h0 : ∀ j < pagesBetween va stop, s.entries g (.user e, pageNumber va + j) = 0) {F : ℕ → ℕ}
    (hF : ∀ j < pagesBetween va stop, s.entries g (.storage i, j) = storageEntry (F j))
    (hused : ∀ j < pagesBetween va stop, ∃ τ i j', Cell.word (.leaf τ i) j' ∈ slots E ∧
      nameOf (s.cellWord g (.word (.leaf τ i) j')) = some (F j)) :
    let n := pagesBetween va stop
    let a := regions (pageNumber va) n
    Sat (Short s a a) (forPages (getSharedPage (g (.root (.user e))) (g (.root (.storage i))) perm) stop
      (2 ^ 20) va 0) s fun _ t => (∃ g', GetsPages E s g e (pageNumber va) F perm n t g') ∧ Spent s t a a := by
  intro n a
  refine forUserPages_sat (fun k t => (∃ g', GetsPages E s g e (pageNumber va) F perm k t g') ∧
      Spent s t (regions (pageNumber va) k) (regions (pageNumber va) k)) hstop
    ⟨⟨g, .zero h⟩, .refl s⟩ ?_
  rintro k t hk ⟨⟨g', hG⟩, hspent⟩
  have hpk := pages_lt hstop hk
  have ha := missing_le_region ((hua k hk).1.trans userTop_lt) hG.userTable
  have hentry : t.entries g' (.user e, pageNumber (va + pageSize * k)) = 0 := by
    rw [pageNumber_add, hG.others _ fun j hj => by simp [hj.ne']]
    exact h0 k hk
  have hstored : t.entries g' (.storage i, k) = storageEntry (F k) := by
    rw [hG.others _ fun j _ => by simp]
    exact hF k hk
  obtain ⟨τ, i', j', hx, hname⟩ := hused k hk
  have hname' : nameOf (t.cellWord g' (.word (.leaf τ i') j')) = some (F k) := by
    rw [hG.slot (fun j hj => h0 j (hj.trans hk)) hx (nameOf_eq_some.mp hname).1, hname]
  have hround := getSharedPage_sat hG.system he (by rwa [hG.roots]) (hua k hk) hpk hentry hstored
    ⟨τ, i', j', hx, hname'⟩ hperm
  rw [hG.roots, hG.roots] at hround
  have h₁ := regions_succ (pageNumber va) k
  have h₃ := regions_mono (n := pageNumber va) (show k + 1 ≤ n from hk)
  refine (hround.weaken fun _ hx => (hspent.short hx).mono (by omega) (by omega)).mono ?_
  rintro _ u ⟨g'', hsys, hst⟩
  exact ⟨⟨g'', hG.succ rfl (hua k hk).1 hsys hst⟩, (hspent.trans hst.spent).mono (by omega) (by omega)⟩

end FosKernel.SharedMemory
