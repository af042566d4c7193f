import FosKernel.FaultHandling
import FosKernel.PageFileWrites

/-!
# Placing a page

`placment` maps the next free frame at the address of a fault, fills it from the page file if
the page is there, and enters the page into the slot at the hand.
-/

namespace FosKernel.Machine
open FailingPrograms PageEntries

variable {s t u : Machine} {E : Finset ℕ} {g : Obj → ℕ} {e f i k va w faultVa : ℕ} {fs : List ℕ}

/-- The permissions that reading a page leaves alone. -/
def ReadWrite (w : ℕ) : Prop := HasPerm w permPresent ∧ HasPerm w permWriteable ∧ HasPerm w permUser

/-- The page was read into its frame, and its entry is not marked as modified. -/
structure ReadsPage (E : Finset ℕ) (s : Machine) (g : Obj → ℕ) (e va : ℕ) (t : Machine) : Prop where
  changes : Changes E s g {(.user e, pageNumber va)} {s.backing g (.user e) va} t
  frame : t.backing g (.user e) va = s.backing g (.user e) va
  perms : ReadWrite (s.entries g (.user e, pageNumber va)) → ReadWrite (t.entries g (.user e, pageNumber va))
  unmodified : ¬HasPerm (t.entries g (.user e, pageNumber va)) permModified
  contents : t.ram (s.backing g (.user e) va) = s.disk (s.entries g (.disk e, pageNumber va))
  info : t.framesInfo = s.framesInfo
  free : t.freeFrameList = s.freeFrameList
  disk : t.disk = s.disk
  diskFree : t.diskFreeFrameList = s.diskFreeFrameList
  envs : t.envs = Function.update s.envs e { s.envs e with nPageIn := u32 ((s.envs e).nPageIn + 1) }

theorem Marked.readWrite {w' : ℕ} (h : Marked w w') (hw : ReadWrite w) : ReadWrite w' :=
  ⟨h.present.mpr hw.1, h.writeable.mpr hw.2.1, h.user.mpr hw.2.2⟩

theorem hasPerm_clearModified (hk : k < 3) (hw : HasPerm w (2 ^ k)) : HasPerm (clearPerm w permModified) (2 ^ k) := by
  have hbit : permModified.testBit k = false := by
    have hsix : permModified = 2 ^ 6 := by decide
    rw [hsix, Nat.testBit_two_pow_of_ne (by omega)]
  rw [hasPerm_two_pow] at hw ⊢
  rw [testBit_clearPerm (by omega), hbit, hw]
  rfl

theorem ReadWrite.clearModified (hw : ReadWrite w) : ReadWrite (clearPerm w permModified) :=
  ⟨hasPerm_clearModified (k := 0) (by decide) hw.1, hasPerm_clearModified (k := 1) (by decide) hw.2.1,
    hasPerm_clearModified (k := 2) (by decide) hw.2.2⟩

theorem not_modified_clearPerm (w : ℕ) : ¬HasPerm (clearPerm w permModified) permModified := by
  rw [hasPerm_modified, testBit_clearPerm (by decide), show permModified.testBit 6 = true by decide]
  simp

namespace Stocked

/-- `pf_read_env_page` for a page that is mapped writable. -/
theorem pfReadEnvPage_run (h : Stocked E s g) (hr : Reaches E s g (.user e) va) (ho : g (.root (.disk e)) ≠ 0)
    (hp : HasPerm (s.entries g (.user e, pageNumber va)) (permPresent ||| permWriteable))
    (hf : Ordinary s (s.backing g (.user e) va)) :
    s.entries g (.disk e, pageNumber va) = 0 ∧ (pfReadEnvPage e va).run s = .ok (ePageNotExistInPf, s) ∨
      s.entries g (.disk e, pageNumber va) ≠ 0 ∧ ∃ t, (pfReadEnvPage e va).run s = .ok (0, t) ∧ ReadsPage E s g e va t := by
  have hnum : pageNumber (roundDown va pageSize) = pageNumber va := pageNumber_roundDown va
  have hva : roundDown va pageSize < userTop := (roundDown_le va pageSize).trans_lt hr.user
  have hr' : Reaches E s g (.user e) (roundDown va pageSize) := ⟨hr.layout, hr.tree, hr.root, hr.loaded, hva⟩
  have hdir : ((s.envs e).diskEnvPgdir) = g (.root (.disk e)) := (h.roots e).2
  rw [pfReadEnvPage, run_bind_ok run_get]
  dsimp only
  rw [hdir, if_neg ho, run_bind_ok (h.getDiskPageTable_run ho hva)]
  by_cases hl : g (.leaf (.disk e) (pdx (roundDown va pageSize))) = 0
  · have h0 := entries_absent (s := s) hva hl
    rw [hnum] at h0
    rw [if_pos hl]
    exact .inl ⟨h0, rfl⟩
  · have hword := h.word_entry hva hl
    rw [hnum] at hword
    rw [if_neg hl, run_bind_ok (readEntry_run (h.hasTable hva hl).read), hword]
    by_cases h0 : s.entries g (.disk e, pageNumber va) = 0
    · rw [if_pos h0]
      exact .inl ⟨h0, rfl⟩
    · rw [if_neg h0]
      refine .inr ⟨h0, ?_⟩
      have hback : s.backing g (.user e) (roundDown va pageSize) = s.backing g (.user e) va := by
        rw [backing, hnum, backing]
      obtain ⟨t₁, hwrite, h₁, hm, hrec, hram⟩ := h.writePage_run hr' (hnum.symm ▸ hp) (hback.symm ▸ hf)
        (s.disk (s.entries g (.disk e, pageNumber va)))
      rw [hnum, hback] at h₁
      rw [hnum] at hm
      rw [hback] at hram
      have hl₁ : g (.leaf (.user e) (pdx (roundDown va pageSize))) ≠ 0 := hr'.table (hnum.symm ▸ (hasPerm_or.mp hp).1)
      have hclear := (h₁.stocked.hasTable hva hl₁).ptSetPagePermissions_clear (show permModified ≠ 0 by decide)
      rw [h₁.stocked.word_entry hva hl₁, hnum] at hclear
      have hlt := clearPerm_lt (p := permModified) (entries_lt t₁ g (.user e, pageNumber va))
      obtain ⟨h₂, hent₂⟩ := h₁.stocked.changeEntry (F := ∅) h₁.stocked.toReady.userStep_self rfl (fun _ _ => rfl) hva hl₁ hlt
      rw [hnum] at h₂ hent₂
      set t₂ := t₁.setEntry (t₁.entryFrame g (.user e) (roundDown va pageSize)) (ptx (roundDown va pageSize))
        (clearPerm (t₁.entries g (.user e, pageNumber va)) permModified) with ht₂
      have hrec₂ : SameRecords s t₂ := hrec.trans (sameRecords_setEntry ..)
      obtain ⟨h₃, hcell₃⟩ := h₂.stocked.changeEnv (F := ∅) (e := e)
        (v := { t₂.envs e with nPageIn := u32 ((t₂.envs e).nPageIn + 1) }) rfl rfl rfl
      set t₃ := t₂.setEnv e { t₂.envs e with nPageIn := u32 ((t₂.envs e).nPageIn + 1) }
      have hent₃ : t₃.entries g = t₂.entries g := entries_congr fun _ _ _ => congrFun hcell₃ _
      have hentry : t₃.entries g (.user e, pageNumber va) = clearPerm (t₁.entries g (.user e, pageNumber va)) permModified := by
        rw [hent₃, hent₂, Function.update_self]
      refine ⟨t₃, ?_, ?_, ?_, fun hw => ?_, ?_, ?_, hrec₂.info, hrec₂.free, hrec₂.disk,
        hrec₂.diskFreeFrameList, ?_⟩
      · have hread : (readDiskPage (s.entries g (.disk e, pageNumber va)) (roundDown va pageSize)).run s = .ok ((), t₁) := by
          rw [readDiskPage, run_bind_ok run_get, hwrite]
        rw [run_bind_ok hread, (h.roots e).1, run_bind_ok hclear]
        rfl
      · exact ((h₁.trans h₂).trans h₃).mono (by simp) (by simp)
      · rw [backing, hentry, frameNumber_clearPerm (entries_lt ..) (by decide), hm.frameNumber_eq, backing]
      · rw [hentry]
        exact (hm.readWrite hw).clearModified
      · rw [hentry]
        exact not_modified_clearPerm _
      · rw [h₃.ram _ (Set.notMem_empty _) (h₂.ordinary (h₁.ordinary hf)), h₂.ram _ (Set.notMem_empty _) (h₁.ordinary hf), hram]
      · have henvs : t₂.envs = s.envs := hrec₂.envs
        show Function.update t₂.envs e _ = _
        rw [henvs]

end Stocked

/-- The working set after a page was entered at the hand, which moves on. -/
def enteredSet (v : Env) (faultVa : ℕ) : Env :=
  { v with
    ptrPageWorkingSet := Function.update v.ptrPageWorkingSet v.pageLastWSIndex ⟨roundDown faultVa pageSize, false, 0x80000000⟩
    pageLastWSIndex := (v.pageLastWSIndex + 1) % v.pageWSMaxSize }

/-- A page that is not mapped faulted, and there is an empty slot. The page is in the page file, or is one of the
heap or of the stack. -/
structure Faulted (E : Finset ℕ) (s : Machine) (g : Obj → ℕ) (e faultVa : ℕ) : Prop where
  stocked : Stocked E s g
  reaches : Reaches E s g (.user e) faultVa
  disk : g (.root (.disk e)) ≠ 0
  table : g (.leaf (.user e) (pdx faultVa)) ≠ 0
  absent : ¬HasPerm (s.entries g (.user e, pageNumber faultVa)) permPresent
  hand : (s.envs e).pageLastWSIndex < (s.envs e).pageWSMaxSize
  size : (s.envs e).pageWSMaxSize < 2 ^ 32
  empty : envPageWsGetSize (s.envs e) < (s.envs e).pageWSMaxSize
  legal : s.entries g (.disk e, pageNumber faultVa) ≠ 0 ∨ InHeapOrStack faultVa

/-- The page is mapped to the frame, which was the next free one, and is in the slot at the hand. -/
structure Placed (E : Finset ℕ) (s : Machine) (g : Obj → ℕ) (e faultVa f : ℕ) (t : Machine) : Prop where
  changes : Changes E s g {(.user e, pageNumber faultVa)} {f} t
  frame : t.backing g (.user e) faultVa = f
  perms : ReadWrite (t.entries g (.user e, pageNumber faultVa))
  contents : s.entries g (.disk e, pageNumber faultVa) ≠ 0 → t.ram f = s.disk (s.entries g (.disk e, pageNumber faultVa))
  references : (t.framesInfo f).references = 1
  free : s.freeFrameList = f :: t.freeFrameList
  disk : t.disk = s.disk
  envs : ∃ pageIns, t.envs = Function.update s.envs e { enteredSet (s.envs e) faultVa with nPageIn := pageIns }

/-- A page that the page file does not have is marked as modified, and no disk frame is taken. -/
structure PlacesPage (E : Finset ℕ) (s : Machine) (g : Obj → ℕ) (e faultVa f : ℕ) (t : Machine) : Prop
    extends Placed E s g e faultVa f t where
  fresh : s.entries g (.disk e, pageNumber faultVa) = 0 → HasPerm (t.entries g (.user e, pageNumber faultVa)) permModified
  diskFree : t.diskFreeFrameList = s.diskFreeFrameList

theorem enterPage_run (hi : i < (s.envs e).pageWSMaxSize) (hva : faultVa < userTop) : (enterPage e i faultVa).run s =
    .ok ((), s.setEnv e { s.envs e with
      ptrPageWorkingSet := Function.update (s.envs e).ptrPageWorkingSet i ⟨roundDown faultVa pageSize, false, 0x80000000⟩
      pageLastWSIndex := u32 ((s.envs e).pageLastWSIndex + 1) }) := by
  have hset : (envPageWsSetEntry e i faultVa).run s = .ok ((), s.setEnv e { s.envs e with
      ptrPageWorkingSet := Function.update (s.envs e).ptrPageWorkingSet i ⟨roundDown faultVa pageSize, false, 0x80000000⟩ }) := by
    rw [envPageWsSetEntry, run_bind_ok run_get, if_neg (not_le.mpr hi), if_neg (not_le.mpr hva)]
    rfl
  rw [enterPage, run_bind_ok hset, modifyEnv, run_modify]
  simp only [setEnv, Function.update_self, Function.update_idem]

theorem enter_run (hi : (s.envs e).pageLastWSIndex < (s.envs e).pageWSMaxSize) (hsize : (s.envs e).pageWSMaxSize < 2 ^ 32)
    (hva : faultVa < userTop) : (do
      enterPage e (s.envs e).pageLastWSIndex faultVa
      modifyEnv e fun v => { v with pageLastWSIndex := if v.pageLastWSIndex = v.pageWSMaxSize then 0 else v.pageLastWSIndex } :
        Kernel Unit).run s = .ok ((), s.setEnv e (enteredSet (s.envs e) faultVa)) := by
  rw [run_bind_ok (enterPage_run hi hva), modifyEnv, run_modify]
  have hhand : (if u32 ((s.envs e).pageLastWSIndex + 1) = (s.envs e).pageWSMaxSize then 0
      else u32 ((s.envs e).pageLastWSIndex + 1)) = ((s.envs e).pageLastWSIndex + 1) % (s.envs e).pageWSMaxSize := by
    rw [u32_of_lt (by omega)]
    split
    · rename_i he
      rw [he, Nat.mod_self]
    · rw [Nat.mod_eq_of_lt (by omega)]
  simp only [setEnv, Function.update_self, Function.update_idem, hhand]
  rfl

theorem Stocked.mapNext_run (h : Stocked E s g) (hva : va < userTop) (hl : g (.leaf (.user e) (pdx va)) ≠ 0)
    (hp : ¬HasPerm (s.entries g (.user e, pageNumber va)) permPresent) (hfree : s.freeFrameList = f :: fs) {perm : ℕ}
    (hperm : perm < 4096) : ∃ t, (mapFrame createPageTable (g (.root (.user e))) f va perm).run (s.taken f fs) = .ok (0, t) ∧
      Changes E s g {(.user e, pageNumber va)} {f} t ∧
      t.entries g = Function.update (s.entries g) (.user e, pageNumber va) (newEntry f perm) ∧
      (t.framesInfo f).references = 1 ∧ t.freeFrameList = fs ∧ t.disk = s.disk ∧
      t.diskFreeFrameList = s.diskFreeFrameList ∧ t.envs = s.envs := by
  have hmem : f ∈ s.freeFrameList := hfree ▸ List.mem_cons_self
  have hord := (h.free f hmem).1
  obtain ⟨h₁, hcell₁⟩ := h.changeNone (F := {f}) (h.toReady.take hfree) rfl fun f' hf' => taken_info_of_ne hf'
  have hent₁ : (s.taken f fs).entries g = s.entries g := entries_congr fun _ _ _ => congrFun hcell₁ _
  have hord₁ := h₁.ordinary hord
  have hword := h₁.stocked.word_entry (τ := .user e) hva hl
  rw [hent₁] at hword
  have hstep := h₁.stocked.toReady.userStep_self.addReference hord₁.not_heap
  obtain ⟨h₂, hent₂⟩ := h₁.stocked.changeEntry (F := {f}) hstep rfl (fun f' hf' => setInfo_of_ne hf') hva hl
    (h₁.stocked.newEntry_lt (h₁.stocked.ordinary_lt hord₁) hperm)
  refine ⟨_, (h₁.stocked.hasTable hva hl).mapFrame_unmapped (hword.symm ▸ hp), (h₁.trans h₂).mono (by simp) (by simp), ?_,
    ?_, rfl, rfl, rfl, rfl⟩
  · rw [← hent₁]
    exact hent₂
  · show ((s.taken f fs).addReference f |>.framesInfo f).references = 1
    rw [addReference_references, taken, setInfo_self]
    rfl

theorem readWrite_newEntry (f : ℕ) : ReadWrite (newEntry f (permModified ||| permWriteable ||| permUser)) :=
  ⟨newEntry_present .., hasPerm_constructEntry (k := 1) (by decide) (by decide),
    hasPerm_constructEntry (k := 2) (by decide) (by decide)⟩

theorem Faulted.enter {tol : Panic → Prop} {n : ℕ} (h : Faulted E s g e faultVa)
    (hch : Changes E s g {(.user e, pageNumber faultVa)} {f} t) (hback : t.backing g (.user e) faultVa = f)
    (hperms : ReadWrite (t.entries g (.user e, pageNumber faultVa)))
    (hcontents : s.entries g (.disk e, pageNumber faultVa) ≠ 0 → t.ram f = s.disk (s.entries g (.disk e, pageNumber faultVa)))
    (hfresh : s.entries g (.disk e, pageNumber faultVa) = 0 → HasPerm (t.entries g (.user e, pageNumber faultVa)) permModified)
    (hrefs : (t.framesInfo f).references = 1) (hfree : s.freeFrameList = f :: t.freeFrameList) (hdisk : t.disk = s.disk)
    (hdiskFree : t.diskFreeFrameList = s.diskFreeFrameList) (henvs : t.envs = Function.update s.envs e { s.envs e with nPageIn := n }) :
    Sat tol (do
      enterPage e (s.envs e).pageLastWSIndex faultVa
      modifyEnv e fun v => { v with pageLastWSIndex := if v.pageLastWSIndex = v.pageWSMaxSize then 0 else v.pageLastWSIndex } :
        Kernel Unit) t fun _ u => ∃ f, PlacesPage E s g e faultVa f u := by
  have henv : t.envs e = { s.envs e with nPageIn := n } := by rw [henvs, Function.update_self]
  have hrun := enter_run (s := t) (e := e) (by rw [henv]; exact h.hand) (by rw [henv]; exact h.size) h.reaches.user
  obtain ⟨hset, hcell⟩ := hch.stocked.changeEnv (F := {f}) (e := e) (v := enteredSet (t.envs e) faultVa) rfl rfl rfl
  have hent : (t.setEnv e (enteredSet (t.envs e) faultVa)).entries g = t.entries g :=
    entries_congr fun _ _ _ => congrFun hcell _
  have hhand : (t.envs e).pageLastWSIndex = (s.envs e).pageLastWSIndex := by rw [henv]
  rw [hhand] at hrun
  refine .of_ok hrun ⟨f, ⟨(hch.trans hset).mono (by simp) (by simp), ?_, ?_, hcontents, hrefs, hfree, hdisk, n, ?_⟩,
    fun h0 => ?_, hdiskFree⟩
  · rw [backing, hent]
    exact hback
  · rwa [hent]
  · show Function.update t.envs e _ = _
    rw [henv, henvs, Function.update_idem]
    rfl
  · rw [hent]
    exact hfresh h0

/-- `placment` -/
theorem Faulted.placement_sat (h : Faulted E s g e faultVa) : Sat (fun x => x = .noFreeFrame ∧ s.freeFrameList = [])
    (placement e faultVa) s fun _ t => ∃ f, PlacesPage E s g e faultVa f t := by
  have hva := h.reaches.user
  unfold placement
  refine .bind_ok run_get ?_
  dsimp only
  rw [if_pos h.empty, (h.stocked.roots e).1]
  cases hfree : s.freeFrameList with
  | nil =>
    refine .of_error (run_bind_error ?_) ⟨rfl, rfl⟩
    rw [allocateFrame, run_bind_ok run_get, hfree]
    rfl
  | cons f fs =>
    obtain ⟨t, hmap, hch, hent, hrefs, htfree, hdisk, hdiskFree, henvs⟩ := h.stocked.mapNext_run hva h.table h.absent hfree
      (show permModified ||| permWriteable ||| permUser < 4096 by decide)
    refine .bind_ok (h.stocked.toReady.allocateFrame_run hfree) (.bind_ok hmap ?_)
    have hr := hch.reaches h.reaches
    have hentry : t.entries g (.user e, pageNumber faultVa) = newEntry f (permModified ||| permWriteable ||| permUser) := by
      rw [hent, Function.update_self]
    have hperms := readWrite_newEntry f
    rw [← hentry] at hperms
    have hback : t.backing g (.user e) faultVa = f := by
      rw [backing, hentry, frameNumber_newEntry (by decide)]
    have hord : Ordinary t f := hch.ordinary (h.stocked.free f (hfree ▸ List.mem_cons_self)).1
    have hdiskEntry : t.entries g (.disk e, pageNumber faultVa) = s.entries g (.disk e, pageNumber faultVa) :=
      hch.entries _ (by simp)
    rcases hch.stocked.pfReadEnvPage_run hr h.disk (hasPerm_or.mpr ⟨hperms.1, hperms.2.1⟩) (hback.symm ▸ hord) with
      ⟨h0, hrun⟩ | ⟨h0, u, hrun, hu⟩
    · refine .bind_ok hrun ?_
      rw [if_neg (by decide), if_pos rfl, if_pos (h.legal.resolve_left fun hne => hne (hdiskEntry ▸ h0))]
      refine h.enter hch hback hperms (fun hne => absurd (hdiskEntry ▸ h0) hne) (fun _ => ?_) hrefs (by rw [hfree, htfree]) hdisk
        hdiskFree (n := (s.envs e).nPageIn) ?_
      · rw [hentry, newEntry]
        exact hasPerm_constructEntry (k := 6) (by decide) (by decide)
      · rw [henvs, Function.update_eq_self]
    · refine .bind_ok hrun ?_
      rw [if_pos rfl]
      have hchanges := hu.changes
      have hcontents := hu.contents
      have hframe := hu.frame
      rw [hback] at hchanges hcontents hframe
      refine h.enter ((hch.trans hchanges).mono (by simp) (by simp)) hframe (hu.perms hperms) (fun _ => ?_)
        (fun h0' => absurd (hdiskEntry.trans h0') h0) ?_ ?_ (hu.disk.trans hdisk) (hu.diskFree.trans hdiskFree)
        (n := u32 ((s.envs e).nPageIn + 1)) ?_
      · rw [hcontents, hdiskEntry, hdisk]
      · rw [hu.info, hrefs]
      · rw [hfree, hu.free, htfree]
      · rw [hu.envs, henvs]

end FosKernel.Machine
