import FosKernel.ClockSweep
import FosKernel.FreeUserMemory
import FosKernel.Placement

/-!
# Replacement

The first page that the clock does not pass is written to the page file if it was modified, and
unmapped. The page that faulted takes its slot.
-/

namespace FosKernel.Machine
open FailingPrograms PageEntries

variable {s t u : Machine} {E : Finset ℕ} {g g' : Obj → ℕ} {e f i j k va w faultVa : ℕ} {v : Env}

/-- The page of a slot is unmapped, and the hand points to the slot. -/
structure Evicted (E : Finset ℕ) (s : Machine) (g : Obj → ℕ) (e i va f : ℕ) (t : Machine) : Prop where
  changes : Changes E s g {(.user e, pageNumber va)} {f} t
  entry : t.entries g (.user e, pageNumber va) = 0
  info : t.framesInfo f = (s.framesInfo f).drop 1
  free : t.freeFrameList = if (s.framesInfo f).references = 1 then f :: s.freeFrameList else s.freeFrameList
  ram : ∀ f', Ordinary s f' → t.ram f' = s.ram f'
  disk : t.disk = s.disk
  diskFree : t.diskFreeFrameList = s.diskFreeFrameList
  envs : t.envs = Function.update s.envs e { s.envs e with
    ptrPageWorkingSet := Function.update (s.envs e).ptrPageWorkingSet i ⟨0, true, 0⟩
    pageLastWSIndex := i }

/-- The entry of a page is cleared, and its frame has a reference fewer. -/
structure UnmapsPage (E : Finset ℕ) (s : Machine) (g : Obj → ℕ) (e va f : ℕ) (t : Machine) : Prop where
  changes : Changes E s g {(.user e, pageNumber va)} {f} t
  entry : t.entries g (.user e, pageNumber va) = 0
  info : t.framesInfo f = (s.framesInfo f).drop 1
  free : t.freeFrameList = if (s.framesInfo f).references = 1 then f :: s.freeFrameList else s.freeFrameList
  ram : ∀ f', Ordinary s f' → t.ram f' = s.ram f'
  globals : SameGlobals s t

theorem Stocked.unmapPage_run (h : Stocked E s g) (hva : va < userTop)
    (hn : nameOf (s.entries g (.user e, pageNumber va)) = some f) (hf : InUse s f) (hpos : 0 < (s.framesInfo f).references)
    (hlt : (s.framesInfo f).references < 2 ^ 16) :
    ∃ t, (unmapFrame (g (.root (.user e))) va).run s = .ok ((), t) ∧ UnmapsPage E s g e va f t := by
  have hl := table_of_entry hva (nameOf_eq_some.mp hn).1
  have hunmap := h.unmapFrame_run (τ := .user e) hva hn (h.ordinary_lt hf.toOrdinary)
  obtain ⟨hinfo, hfree⟩ := dropReference_drop (s := s) (n := 0) (r := s.framesInfo f) rfl hpos hlt
  have hmem := sameMemory_dropReference s f
  obtain ⟨hchanges, hent⟩ := h.changeEntry (w := 0) (F := {f}) (h.toReady.dropReference hf) hmem.ram
    (fun f' hf' => dropReference_info_of_ne hf') hva hl (by decide)
  refine ⟨_, hunmap, hchanges, ?_, ?_, ?_, fun f' hf' => ?_, hmem.toSameGlobals.trans (sameGlobals_setEntry ..)⟩
  · rw [hent, Function.update_self]
  · rw [setEntry_framesInfo, hinfo, Function.update_self]
  · rw [setEntry_freeFrameList, hfree]
  · refine (setFrame_ram_of_ne ?_).trans (congrFun hmem.ram f')
    exact (h.ordinary_ne hf' hl).symm

theorem Stocked.evict_run (h : Stocked E s g) (hi : i < (s.envs e).pageWSMaxSize) (hva : va < userTop)
    (hn : nameOf (s.entries g (.user e, pageNumber va)) = some f) (hf : InUse s f) (hpos : 0 < (s.framesInfo f).references)
    (hlt : (s.framesInfo f).references < 2 ^ 16) : ∃ t, (do
      envPageWsClearEntry e i
      unmapFrame (g (.root (.user e))) va
      modifyEnv e fun v => { v with pageLastWSIndex := i } : Kernel Unit).run s = .ok ((), t) ∧ Evicted E s g e i va f t := by
  set v : Env := { s.envs e with ptrPageWorkingSet := Function.update (s.envs e).ptrPageWorkingSet i ⟨0, true, 0⟩ }
  have hclear : (envPageWsClearEntry e i).run s = .ok ((), s.setEnv e v) := by
    rw [envPageWsClearEntry, run_bind_ok run_get, if_neg (not_le.mpr hi)]
    rfl
  obtain ⟨h₁, hcell₁⟩ := h.changeEnv (F := {f}) (e := e) (v := v) rfl rfl rfl
  have hent₁ : (s.setEnv e v).entries g = s.entries g := entries_congr fun _ _ _ => congrFun hcell₁ _
  obtain ⟨t₂, hunmap, h₂⟩ := h₁.stocked.unmapPage_run hva (hent₁.symm ▸ hn) ⟨h₁.ordinary hf.toOrdinary, hf.not_free⟩ hpos hlt
  obtain ⟨h₃, hcell₃⟩ := h₂.changes.stocked.changeEnv (F := {f}) (e := e)
    (v := { t₂.envs e with pageLastWSIndex := i }) rfl rfl rfl
  have hent₃ : (t₂.setEnv e { t₂.envs e with pageLastWSIndex := i }).entries g = t₂.entries g :=
    entries_congr fun _ _ _ => congrFun hcell₃ _
  refine ⟨t₂.setEnv e { t₂.envs e with pageLastWSIndex := i }, ?_, ((h₁.trans h₂.changes).trans h₃).mono (by simp) (by simp),
    ?_, h₂.info, h₂.free, fun f' hf' => h₂.ram f' (h₁.ordinary hf'), h₂.globals.disk,
    h₂.globals.diskFreeFrameList, ?_⟩
  · rw [run_bind_ok hclear, run_bind_ok hunmap]
    rfl
  · rw [hent₃, h₂.entry]
  · have henv : (s.setEnv e v).envs = Function.update s.envs e v := rfl
    show Function.update t₂.envs e _ = _
    rw [h₂.globals.envs, henv, Function.update_self, Function.update_idem]

theorem envPageWsGetSize_lt (hi : i < v.pageWSMaxSize) (hempty : (v.ptrPageWorkingSet i).empty = true) :
    envPageWsGetSize v < v.pageWSMaxSize := by
  have hle := List.countP_le_length (p := fun i => !(v.ptrPageWorkingSet i).empty) (l := List.range v.pageWSMaxSize)
  have hne : (List.range v.pageWSMaxSize).countP (fun i => !(v.ptrPageWorkingSet i).empty) ≠
      (List.range v.pageWSMaxSize).length := fun hc => by
    have hall := List.countP_eq_length.mp hc i (List.mem_range.mpr hi)
    rw [hempty] at hall
    cases hall
  rw [List.length_range] at hle hne
  exact lt_of_le_of_ne hle hne

theorem Evicted.placement_sat (h : Evicted E s g e i va f t) (hr : Reaches E s g (.user e) faultVa)
    (hdisk : g (.root (.disk e)) ≠ 0) (hl : g (.leaf (.user e) (pdx faultVa)) ≠ 0)
    (hne : pageNumber faultVa ≠ pageNumber va) (habsent : ¬HasPerm (s.entries g (.user e, pageNumber faultVa)) permPresent)
    (hi : i < (s.envs e).pageWSMaxSize) (hsize : (s.envs e).pageWSMaxSize < 2 ^ 32)
    (hlegal : s.entries g (.disk e, pageNumber faultVa) ≠ 0 ∨ InHeapOrStack faultVa) :
    Sat (fun x => x = .noFreeFrame ∧ t.freeFrameList = []) (placement e faultVa) t fun _ u => ∃ f', PlacesPage E t g e faultVa f' u := by
  have henv : t.envs e = { s.envs e with
      ptrPageWorkingSet := Function.update (s.envs e).ptrPageWorkingSet i ⟨0, true, 0⟩
      pageLastWSIndex := i } := by rw [h.envs, Function.update_self]
  refine Faulted.placement_sat ⟨h.changes.stocked, h.changes.reaches hr, hdisk, hl, ?_, ?_, ?_, ?_, ?_⟩
  · rw [h.changes.entries _ (by simpa using hne)]
    exact habsent
  · rw [henv]
    exact hi
  · rw [henv]
    exact hsize
  · have hslot : (t.envs e).ptrPageWorkingSet i = ⟨0, true, 0⟩ := by
      rw [henv]
      exact Function.update_self ..
    exact envPageWsGetSize_lt (by rw [henv]; exact hi) (by rw [hslot])
  · rw [h.changes.entries _ (by simp)]
    exact hlegal

/-- What the replacement relies on: the working set is full, the directory of the environment is loaded, its page file
has a directory, and nothing is mapped at `USER_LIMIT`. A modified page that the page file has must leave the counter of
its frame one to go, and one for which the page file has no table needs room for it. The page that faulted is not mapped,
and may be accessed. -/
structure Replaceable (E : Finset ℕ) (s : Machine) (g : Obj → ℕ) (e faultVa : ℕ) : Prop extends Resident E s g e where
  tree : e ∈ E
  loaded : frameNumber s.cr3 = s.pageFrame (g (.root (.user e)))
  disk : g (.root (.disk e)) ≠ 0
  size : (s.envs e).pageWSMaxSize < 2 ^ 32
  uint16 : ∀ i < (s.envs e).pageWSMaxSize, (s.framesInfo (frameNumber (s.slotEntry g e i))).references < 2 ^ 16
  counter : ∀ i < (s.envs e).pageWSMaxSize, HasPerm (s.slotEntry g e i) permModified →
    s.entries g (.disk e, pageNumber (s.slotVa e i)) ≠ 0 →
      (s.framesInfo (frameNumber (s.slotEntry g e i))).references ≠ 2 ^ 16 - 1
  room : ∀ i < (s.envs e).pageWSMaxSize, HasPerm (s.slotEntry g e i) permModified →
    g (.leaf (.disk e) (pdx (s.slotVa e i))) = 0 → Room s 1
  window : s.kernelPte userLimit = 0
  diskFrames : ∀ d ∈ s.diskFreeFrameList, d ≠ 0 ∧ d < 2 ^ 32
  fault : faultVa < userTop
  table : g (.leaf (.user e) (pdx faultVa)) ≠ 0
  absent : ¬HasPerm (s.entries g (.user e, pageNumber faultVa)) permPresent
  legal : s.entries g (.disk e, pageNumber faultVa) ≠ 0 ∨ InHeapOrStack faultVa

/-- Where the handler stops: the victim in slot `i` was modified, and the page file does not take it, or its frame is
shared and no other one is free. -/
def Stops (s : Machine) (g : Obj → ℕ) (e i : ℕ) (x : Panic) : Prop :=
  HasPerm (s.slotEntry g e i) permModified ∧ RefusesPage s g e (s.slotVa e i) x ∨
    x = .noFreeFrame ∧ 1 < (s.framesInfo (frameNumber (s.slotEntry g e i))).references ∧ s.freeFrameList.length ≤ 1

/-- The page in slot `i` was replaced by the one that faulted, after `j` slots were passed. -/
structure Replaced (E : Finset ℕ) (s : Machine) (g : Obj → ℕ) (e faultVa j i : ℕ) (t : Machine) (g' : Obj → ℕ) : Prop where
  stocked : Stocked E t g'
  passed : ∀ k < j, slotFrom (s.envs e) k ≠ i → t.entries g' (.user e, pageNumber (s.slotVa e (slotFrom (s.envs e) k))) =
    clearPerm (s.slotEntry g e (slotFrom (s.envs e) k)) permUsed
  entries : ∀ e' p, (e', p) ≠ (e, pageNumber (s.slotVa e i)) → (e', p) ≠ (e, pageNumber faultVa) →
    (Tree.user e', p) ∉ passedPages s e j → t.entries g' (.user e', p) = s.entries g (.user e', p)
  contents : ∀ i' < (s.envs e).pageWSMaxSize, i' ≠ i →
    t.ram (frameNumber (s.slotEntry g e i')) = s.ram (frameNumber (s.slotEntry g e i'))
  slots : (t.envs e).ptrPageWorkingSet =
    Function.update (s.envs e).ptrPageWorkingSet i ⟨roundDown faultVa pageSize, false, 0x80000000⟩
  hand : (t.envs e).pageLastWSIndex = (i + 1) % (s.envs e).pageWSMaxSize
  written : HasPerm (s.slotEntry g e i) permModified → SavedPage s g e (pageNumber (s.slotVa e i))
    (s.ram (frameNumber (s.slotEntry g e i))) t g'
  unwritten : ¬HasPerm (s.slotEntry g e i) permModified → t.disk = s.disk
  unmapped : t.entries g' (.user e, pageNumber (s.slotVa e i)) = 0
  mapped : ReadWrite (t.entries g' (.user e, pageNumber faultVa))
  reference : (s.framesInfo (frameNumber (s.slotEntry g e i))).references = 1 ∧
      frameNumber (t.entries g' (.user e, pageNumber faultVa)) = frameNumber (s.slotEntry g e i) ∨
    1 < (s.framesInfo (frameNumber (s.slotEntry g e i))).references ∧
      frameNumber (t.entries g' (.user e, pageNumber faultVa)) ≠ frameNumber (s.slotEntry g e i) ∧
      (t.framesInfo (frameNumber (s.slotEntry g e i))).references =
        (s.framesInfo (frameNumber (s.slotEntry g e i))).references - 1
  counted : (t.framesInfo (frameNumber (t.entries g' (.user e, pageNumber faultVa)))).references = 1

theorem Passed.modified_iff (ht : Passed E s g e j t) (h : Resident E s g e) (hi : i < (s.envs e).pageWSMaxSize) :
    HasPerm (t.slotEntry g e i) permModified ↔ HasPerm (s.slotEntry g e i) permModified := by
  rcases ht.slotEntry_cases h hi with he | he
  · rw [he]
  · rw [he, hasPerm_modified, testBit_clearPerm (by decide), show permUsed.testBit 6 = false by decide, hasPerm_modified,
      Bool.not_false, Bool.and_true]

namespace Replaceable

variable {I : Finset ℕ}

theorem fault_ne (h : Replaceable E s g e faultVa) (hi : i < (s.envs e).pageWSMaxSize) :
    pageNumber faultVa ≠ pageNumber (s.slotVa e i) := fun he => h.absent (he ▸ h.present i hi)

theorem replaceSlot_sat (h : Replaceable E s g e faultVa) (hi : i < (s.envs e).pageWSMaxSize)
    (hu : Undisturbed E s g e I (pageNumber (s.slotVa e i)) u g') :
    Sat (fun x => x = .noFreeFrame ∧ 1 < (s.framesInfo (frameNumber (s.slotEntry g e i))).references ∧ u.freeFrameList = [])
      (replaceSlot e faultVa i (g (.root (.user e))) (s.slotVa e i)) u fun _ t => ∃ v f',
        Evicted E u g' e i (s.slotVa e i) (frameNumber (s.slotEntry g e i)) v ∧ PlacesPage E v g' e faultVa f' t := by
  have hva := h.user i hi
  have hinUse := h.inUse i hi
  have hroot := hu.tables.rootTable (.user e)
  have hreach : Reaches E s g (.user e) faultVa :=
    ⟨h.stocked.toLayout, user_mem_mmuTrees.mpr h.tree, h.root, h.loaded, h.fault⟩
  have hne := h.fault_ne hi
  have hframe : frameNumber (u.entries g' (.user e, pageNumber (s.slotVa e i))) = frameNumber (s.slotEntry g e i) :=
    hu.entry.frameNumber_eq
  have hn : nameOf (u.entries g' (.user e, pageNumber (s.slotVa e i))) = some (frameNumber (s.slotEntry g e i)) :=
    nameOf_eq_some.mpr ⟨ne_zero_of_hasPerm_present (hu.entry.present.mpr (h.present i hi)), hframe⟩
  obtain ⟨out, added, henvs⟩ := hu.envs
  have henv : u.envs e = { s.envs e with nPageOut := out, nNewPageAdded := added } := by rw [henvs, Function.update_self]
  have hinfo : u.framesInfo (frameNumber (s.slotEntry g e i)) = s.framesInfo (frameNumber (s.slotEntry g e i)) :=
    hu.tables.info _ hinUse.not_free
  have hmax : (u.envs e).pageWSMaxSize = (s.envs e).pageWSMaxSize := by rw [henv]
  obtain ⟨v, hrun, hv⟩ := hu.stocked.evict_run (hmax.symm ▸ hi) hva hn (hu.inUse hinUse).1 (hinfo.symm ▸ h.counted i hi)
    (hinfo.symm ▸ h.uint16 i hi)
  rw [hroot] at hrun
  have hassoc : replaceSlot e faultVa i (g (.root (.user e))) (s.slotVa e i) = (do
      envPageWsClearEntry e i
      unmapFrame (g (.root (.user e))) (s.slotVa e i)
      modifyEnv e fun v => { v with pageLastWSIndex := i }) >>= fun _ => placement e faultVa >>= fun _ => pure true := by
    simp only [replaceSlot, bind_assoc]
  have hdisk : u.entries g' (.disk e, pageNumber faultVa) = s.entries g (.disk e, pageNumber faultVa) :=
    hu.entries _ (by simpa using hne) (by simp)
  have hfault : u.entries g' (.user e, pageNumber faultVa) = s.entries g (.user e, pageNumber faultVa) :=
    hu.entries _ (by simp) (by simpa using hne)
  have hplace := hv.placement_sat (hu.reaches h.stocked hreach) (hu.tables.rootTable (.disk e) ▸ h.disk)
    (by rw [hu.tables.other _ (by simp)]; exact h.table) hne (hfault ▸ h.absent) (hmax.symm ▸ hi) (hmax.symm ▸ h.size)
    (hdisk ▸ h.legal)
  rw [hassoc]
  refine .bind_ok hrun ((hplace.weaken fun x hx => ⟨hx.1, ?_⟩).bind fun _ z ⟨f', hz⟩ => .pure ⟨v, f', hv, hz⟩)
  have hfree := hv.free
  rw [hinfo, hx.2] at hfree
  split at hfree
  · cases hfree
  · rename_i hone
    have hpos := h.counted i hi
    exact ⟨by omega, hfree.symm⟩

theorem replaced_of_steps {v : Machine} {f' : ℕ} (h : Replaceable E s g e faultVa) (hi : i < (s.envs e).pageWSMaxSize)
    (hu : Undisturbed E s g e I (pageNumber (s.slotVa e i)) u g')
    (hw : HasPerm (s.slotEntry g e i) permModified → SavedPage s g e (pageNumber (s.slotVa e i))
      (s.ram (frameNumber (s.slotEntry g e i))) u g')
    (hn : ¬HasPerm (s.slotEntry g e i) permModified → u.disk = s.disk)
    (hv : Evicted E u g' e i (s.slotVa e i) (frameNumber (s.slotEntry g e i)) v) (ht : Placed E v g' e faultVa f' t) :
    Replaced E s g e faultVa 0 i t g' := by
  have hne := h.fault_ne hi
  have hinUse := h.inUse i hi
  have hinfo : u.framesInfo (frameNumber (s.slotEntry g e i)) = s.framesInfo (frameNumber (s.slotEntry g e i)) :=
    hu.tables.info _ hinUse.not_free
  have hentries (x : Tree × ℕ) (hx : x ≠ (.user e, pageNumber (s.slotVa e i))) (hx' : x ≠ (.user e, pageNumber faultVa)) :
      t.entries g' x = u.entries g' x := by
    rw [ht.changes.entries x hx', hv.changes.entries x hx]
  have hdisk : t.disk = u.disk := ht.disk.trans hv.disk
  have hframe : frameNumber (t.entries g' (.user e, pageNumber faultVa)) = f' := ht.frame
  -- the frame of the page that faulted is the one that became free, or one that was free
  have hnext : (s.framesInfo (frameNumber (s.slotEntry g e i))).references = 1 ∧ f' = frameNumber (s.slotEntry g e i) ∨
      1 < (s.framesInfo (frameNumber (s.slotEntry g e i))).references ∧ f' ∈ u.freeFrameList := by
    have hfree := hv.free
    have hpos := h.counted i hi
    rw [hinfo, ht.free] at hfree
    by_cases hone : (s.framesInfo (frameNumber (s.slotEntry g e i))).references = 1
    · rw [if_pos hone] at hfree
      exact .inl ⟨hone, (List.cons.inj hfree).1⟩
    · rw [if_neg hone] at hfree
      exact .inr ⟨by omega, hfree ▸ List.mem_cons_self⟩
  obtain ⟨out, added, henvs⟩ := hu.envs
  obtain ⟨pageIns, hset⟩ := ht.envs
  have henv : v.envs e = { s.envs e with
      nPageOut := out
      nNewPageAdded := added
      ptrPageWorkingSet := Function.update (s.envs e).ptrPageWorkingSet i ⟨0, true, 0⟩
      pageLastWSIndex := i } := by
    rw [hv.envs, Function.update_self, henvs, Function.update_self]
  have hend : t.envs e = { enteredSet (v.envs e) faultVa with nPageIn := pageIns } := by rw [hset, Function.update_self]
  refine ⟨ht.changes.stocked, fun k hk => absurd hk (Nat.not_lt_zero k), fun e' p hp hp' _ => ?_, fun i' hi' hii => ?_,
    ?_, ?_, fun hm => ?_, fun hm => hdisk.trans (hn hm), ?_, ht.perms, ?_, ?_⟩
  · have hp₁ : (Tree.user e', p) ≠ (.user e, pageNumber (s.slotVa e i)) := by simpa using hp
    have hp₂ : (Tree.user e', p) ≠ (.user e, pageNumber faultVa) := by simpa using hp'
    rw [hentries _ hp₁ hp₂, hu.entries _ (by simp) hp₁]
  · obtain ⟨huse', hram⟩ := hu.inUse (h.inUse i' hi')
    have hord := hv.changes.ordinary huse'.toOrdinary
    have hne' : frameNumber (s.slotEntry g e i') ≠ f' := by
      rintro rfl
      rcases hnext with ⟨hone, hsame⟩ | ⟨-, hmem⟩
      · have hshared := h.shared i' hi' i hi hii hsame
        rw [hsame, hone] at hshared
        exact absurd hshared (lt_irrefl 1)
      · exact huse'.not_free hmem
    rw [ht.changes.ram _ hne' hord, hv.ram _ huse'.toOrdinary, hram]
  · rw [hend, henv]
    exact Function.update_idem ..
  · rw [hend, henv]
    rfl
  · have hsaved := hw hm
    have hsame : t.entries g' (.disk e, pageNumber (s.slotVa e i)) = u.entries g' (.disk e, pageNumber (s.slotVa e i)) :=
      hentries _ (by simp) (by simp)
    exact ⟨hsame ▸ hsaved.present, fun h0 => hsame.trans (hsaved.same h0), by rw [hdisk, hsaved.disk, hsame]⟩
  · rw [ht.changes.entries _ (by simpa using hne.symm)]
    exact hv.entry
  · rw [hframe]
    rcases hnext with hone | ⟨hmany, hmem⟩
    · exact .inl hone
    · have hne' : f' ≠ frameNumber (s.slotEntry g e i) := fun hf =>
        (hu.inUse hinUse).1.not_free (hf ▸ hmem)
      refine .inr ⟨hmany, hne', ?_⟩
      rw [ht.changes.info _ (by simpa using hne'.symm), hv.info, hinfo, FrameInfo.drop, if_neg one_ne_zero, if_neg hmany.ne']
  · rw [hframe]
    exact ht.references

/-- `pf_update_env_page` of the page in a slot. -/
theorem pfUpdateEnvPage_saves (h : Replaceable E s g e faultVa) (hi : i < (s.envs e).pageWSMaxSize)
    (hm : HasPerm (s.slotEntry g e i) permModified) :
    Sat (RefusesPage s g e (s.slotVa e i)) (pfUpdateEnvPage e (s.slotVa e i) (frameNumber (s.slotEntry g e i))) s fun _ u =>
      (s.entries g (.disk e, pageNumber (s.slotVa e i)) = 0 → InHeapOrStack (s.slotVa e i) ∧ s.diskFreeFrameList ≠ []) ∧ ∃ g',
        Undisturbed E s g e {pdx (s.slotVa e i)} (pageNumber (s.slotVa e i)) u g' ∧
          SavesPage s g e (pageNumber (s.slotVa e i)) (s.ram (frameNumber (s.slotEntry g e i))) u g' := by
  have hinUse : InUse s (s.backing g (.user e) (s.slotVa e i)) := h.inUse i hi
  have hreach : Reaches E s g (.user e) (s.slotVa e i) :=
    ⟨h.stocked.toLayout, user_mem_mmuTrees.mpr h.tree, h.root, h.loaded, h.user i hi⟩
  have hrefs : (s.framesInfo (s.backing g (.user e) (s.slotVa e i))).references < 2 ^ 16 := h.uint16 i hi
  exact h.stocked.pfUpdateEnvPage_saves h.tree hreach (roundDown_dvd _ _) h.disk (h.present i hi) hinUse hrefs h.diskFrames
    h.window (h.counter i hi hm) (h.room i hi hm)

/-- A page that is not marked as used is written to the page file if it was modified, and unmapped, and the page that
faulted is placed. -/
theorem clockEntry_steps (h : Replaceable E s g e faultVa) (hi : i < (s.envs e).pageWSMaxSize)
    (hunused : ¬HasPerm (s.slotEntry g e i) permUsed) :
    Sat (Stops s g e i) (clockEntry e faultVa i) s fun _ t => ∃ I u g' v f', I.card ≤ 1 ∧
      Undisturbed E s g e I (pageNumber (s.slotVa e i)) u g' ∧
      (HasPerm (s.slotEntry g e i) permModified → SavesPage s g e (pageNumber (s.slotVa e i))
        (s.ram (frameNumber (s.slotEntry g e i))) u g') ∧
      (¬HasPerm (s.slotEntry g e i) permModified → u = s ∧ g' = g) ∧
      Evicted E u g' e i (s.slotVa e i) (frameNumber (s.slotEntry g e i)) v ∧ PlacesPage E v g' e faultVa f' t := by
  refine .of_run (h.clockEntry_run hi) (.ite (fun hused => absurd hused hunused) fun _ => .ite (fun hm => ?_) fun hm => ?_)
  · refine ((h.pfUpdateEnvPage_saves hi hm).weaken fun x hx => .inl ⟨hm, hx⟩).bind fun _ u ⟨_, g', hu, hsaved⟩ => ?_
    refine ((h.replaceSlot_sat hi hu).weaken fun x hx => .inr ⟨hx.1, hx.2.1, ?_⟩).mono fun _ t ⟨v, f', hv, ht⟩ =>
      ⟨_, u, g', v, f', (Finset.card_singleton _).le, hu, fun _ => hsaved, fun hn => absurd hm hn, hv, ht⟩
    -- the page file took one frame at most
    have hfree := hu.tables.free
    have hcard : (Machine.absent g (.disk e) {pdx (s.slotVa e i)}).card ≤ 1 :=
      (Finset.card_filter_le _ _).trans (Finset.card_singleton _).le
    rw [hx.2.2] at hfree
    have hlen : s.freeFrameList.length ≤ _ := List.drop_eq_nil_iff.mp hfree.symm
    omega
  · have hu : Undisturbed E s g e ∅ (pageNumber (s.slotVa e i)) s g :=
      .refl h.stocked fun i hi => absurd hi (Finset.notMem_empty i)
    refine ((h.replaceSlot_sat hi hu).weaken fun x hx => .inr ⟨hx.1, hx.2.1, ?_⟩).mono fun _ t ⟨v, f', hv, ht⟩ =>
      ⟨∅, s, g, v, f', Nat.zero_le 1, hu, fun hc => absurd hc hm, fun _ => ⟨rfl, rfl⟩, hv, ht⟩
    rw [hx.2.2]
    exact Nat.zero_le 1

theorem clockEntry_sat (h : Replaceable E s g e faultVa) (hi : i < (s.envs e).pageWSMaxSize)
    (hunused : ¬HasPerm (s.slotEntry g e i) permUsed) :
    Sat (Stops s g e i) (clockEntry e faultVa i) s fun _ t => ∃ g', Replaced E s g e faultVa 0 i t g' :=
  (h.clockEntry_steps hi hunused).mono fun _ _ ⟨_, _, g', _, _, _, hu, hw, hn, hv, ht⟩ =>
    ⟨g', h.replaced_of_steps hi hu (fun hm => (hw hm).toSavedPage) (fun hm => by rw [(hn hm).1]) hv ht.toPlaced⟩

theorem clockEntry_stops (h : Replaceable E s g e faultVa) (hi : i < (s.envs e).pageWSMaxSize)
    (hunused : ¬HasPerm (s.slotEntry g e i) permUsed) (hm : HasPerm (s.slotEntry g e i) permModified)
    (h0 : s.entries g (.disk e, pageNumber (s.slotVa e i)) = 0) (hheap : InHeapOrStack (s.slotVa e i))
    (hnil : s.diskFreeFrameList = []) (hfree : s.freeFrameList ≠ []) :
    (clockEntry e faultVa i).run s = .error .pageFileSpace := by
  have hsat := h.pfUpdateEnvPage_saves hi hm
  rw [h.clockEntry_run hi, if_neg hunused, if_pos hm]
  rcases hrun : (pfUpdateEnvPage e (s.slotVa e i) (frameNumber (s.slotEntry g e i))).run s with x | ⟨r, u⟩
  · refine run_bind_error ?_
    rw [hrun]
    rcases hsat.error hrun with ⟨-, -, hno⟩ | ⟨-, -, rfl, -⟩ | ⟨-, -, -, -, hnone⟩
    · exact absurd hheap hno
    · rfl
    · exact absurd hnone hfree
  · exact absurd hnil ((hsat.ok hrun).1 h0).2

theorem passed (h : Replaceable E s g e faultVa) (ht : Passed E s g e j t) : Replaceable E t g e faultVa := by
  have henvs := ht.records.envs
  have hreach : Reaches E s g (.user e) faultVa :=
    ⟨h.stocked.toLayout, user_mem_mmuTrees.mpr h.tree, h.root, h.loaded, h.fault⟩
  have hfault : t.entries g (.user e, pageNumber faultVa) = s.entries g (.user e, pageNumber faultVa) := by
    refine ht.changes.entries _ ?_
    rintro ⟨k, -, he⟩
    exact h.fault_ne (slotFrom_lt h.hand k) (Prod.mk.inj he).2
  have hdisk (p : ℕ) : t.entries g (.disk e, p) = s.entries g (.disk e, p) := ht.changes.entries _ (by simp [passedPages])
  have hva (i : ℕ) : t.slotVa e i = s.slotVa e i := slotVa_congr henvs e i
  have hroom (n : ℕ) : Room t n ↔ Room s n := by rw [Room, Room, ht.records.strategy, ht.records.heap]
  refine ⟨ht.resident h.toResident, h.tree, (ht.changes.reaches hreach).loaded, h.disk, by rw [henvs]; exact h.size,
    fun i hi => ?_, fun i hi hm hd => ?_, fun i hi hm hl => ?_, ?_, ?_, h.fault, h.table, hfault ▸ h.absent, ?_⟩
  · rw [henvs] at hi
    rw [ht.frame_eq h.toResident hi, ht.records.info]
    exact h.uint16 i hi
  · rw [henvs] at hi
    rw [hva, hdisk] at hd
    rw [ht.frame_eq h.toResident hi, ht.records.info]
    exact h.counter i hi ((ht.modified_iff h.toResident hi).mp hm) hd
  · rw [henvs] at hi
    rw [hva] at hl
    exact (hroom 1).mpr (h.room i hi ((ht.modified_iff h.toResident hi).mp hm) hl)
  · rw [ht.changes.kernelPte (.inl rfl)]
    exact h.window
  · rw [ht.records.diskFreeFrameList]
    exact h.diskFrames
  · rw [hdisk]
    exact h.legal

end Replaceable

theorem Stops.of_passed {x : Panic} (hx : Stops t g e i x) (ht : Passed E s g e j t) (h : Resident E s g e)
    (hi : i < (s.envs e).pageWSMaxSize) : Stops s g e i x := by
  have hdisk (p : ℕ) : t.entries g (.disk e, p) = s.entries g (.disk e, p) := ht.changes.entries _ (by simp [passedPages])
  rw [Stops, RefusesPage, slotVa_congr ht.records.envs, ht.modified_iff h hi, ht.frame_eq h hi, ht.records.info,
    ht.records.free, ht.records.diskFreeFrameList, hdisk] at hx
  exact hx

theorem Replaced.after (h : Replaceable E s g e faultVa) (hi : i < (s.envs e).pageWSMaxSize) (ht : Passed E s g e j t)
    (hu : Replaced E t g e faultVa 0 i u g') : Replaced E s g e faultVa j i u g' := by
  have henvs := ht.records.envs
  have hmod := ht.modified_iff h.toResident hi
  have hva (k : ℕ) : t.slotVa e k = s.slotVa e k := slotVa_congr henvs e k
  have hframe : frameNumber (t.slotEntry g e i) = frameNumber (s.slotEntry g e i) := ht.frame_eq h.toResident hi
  have hram {k : ℕ} (hk : k < (s.envs e).pageWSMaxSize) :
      t.ram (frameNumber (s.slotEntry g e k)) = s.ram (frameNumber (s.slotEntry g e k)) :=
    ht.changes.ram _ (Set.notMem_empty _) (h.inUse k hk).toOrdinary
  have hdisk (p : ℕ) : t.entries g (.disk e, p) = s.entries g (.disk e, p) := ht.changes.entries _ (by simp [passedPages])
  have hrest := hu.entries
  have hcontents := hu.contents
  have hreference := hu.reference
  have hwritten := hu.written
  rw [hva] at hrest hwritten
  rw [hframe, ht.records.info] at hreference
  rw [henvs] at hcontents
  rw [hframe, hram hi] at hwritten
  refine ⟨hu.stocked, fun k hk hki => ?_, fun e' p hp hp' hpassed => ?_, fun i' hi' hii => ?_, ?_, ?_, fun hm => ?_, fun hm => ?_,
    hva i ▸ hu.unmapped, hu.mapped, hreference, hu.counted⟩
  · have hlt := slotFrom_lt h.hand k
    have hne : pageNumber (s.slotVa e (slotFrom (s.envs e) k)) ≠ pageNumber (s.slotVa e i) := fun he => by
      refine hki (h.distinct _ hlt _ hi ?_)
      rw [slotVa_eq, he, ← slotVa_eq]
    rw [hrest e _ (by simpa using hne) (by simpa using (h.fault_ne hlt).symm) (by simp [passedPages]), ← ht.entry k hk,
      slotEntry, hva]
  · rw [hrest e' p hp hp' (by simp [passedPages]), ht.changes.entries _ hpassed]
  · rw [← ht.frame_eq h.toResident hi', hcontents i' hi' hii, ht.frame_eq h.toResident hi', hram hi']
  · rw [hu.slots, henvs]
  · rw [hu.hand, henvs]
  · obtain ⟨hpresent, hsame, hpage⟩ := hwritten (hmod.mpr hm)
    exact ⟨hpresent, fun h0 => (hsame ((hdisk _).symm ▸ h0)).trans (hdisk _), by rw [hpage, ht.records.disk]⟩
  · rw [hu.unwritten (mt hmod.mp hm), ht.records.disk]

/-- A full working set: the first page from the hand on that is not marked as used, or the one at the hand if all are,
is replaced by the page that faulted, unless the kernel stops for want of room. -/
theorem pageFaultHandler_replaces (h : Replaceable E s g e faultVa) : ∃ j ≤ (s.envs e).pageWSMaxSize,
    (∀ k < j, HasPerm (s.slotEntry g e (slotFrom (s.envs e) k)) permUsed) ∧
    (j < (s.envs e).pageWSMaxSize → ¬HasPerm (s.slotEntry g e (slotFrom (s.envs e) j)) permUsed) ∧
    (∃ t, (inspect e faultVa (slotOrder (s.envs e) j)).run s = .ok (false, t) ∧
      (pageFaultHandler e faultVa).run s = (do
        let _ ← clockEntry e faultVa (slotFrom (s.envs e) j)
        return : Kernel Unit).run t) ∧
    Sat (Stops s g e (slotFrom (s.envs e) j)) (pageFaultHandler e faultVa) s fun _ t => ∃ g',
      Replaced E s g e faultVa j (slotFrom (s.envs e) j) t g' := by
  obtain ⟨j, hj, hused, hlast⟩ : ∃ j ≤ (s.envs e).pageWSMaxSize,
      (∀ k < j, HasPerm (s.slotEntry g e (slotFrom (s.envs e) k)) permUsed) ∧
      (j < (s.envs e).pageWSMaxSize → ¬HasPerm (s.slotEntry g e (slotFrom (s.envs e) j)) permUsed) := by
    by_cases hex : ∃ k, k < (s.envs e).pageWSMaxSize ∧ ¬HasPerm (s.slotEntry g e (slotFrom (s.envs e) k)) permUsed
    · classical
      have hfirst := Nat.find_spec hex
      refine ⟨Nat.find hex, hfirst.1.le, fun k hk => ?_, fun _ => hfirst.2⟩
      by_contra hno
      exact Nat.find_min hex hk ⟨hk.trans hfirst.1, hno⟩
    · push Not at hex
      exact ⟨_, le_rfl, hex, fun hlt => absurd hlt (lt_irrefl _)⟩
  obtain ⟨t, hrun, ht, hunused, hhandler⟩ := h.pageFaultHandler_run faultVa hj hused hlast
  have hi := slotFrom_lt h.hand j
  have hi' : slotFrom (s.envs e) j < (t.envs e).pageWSMaxSize := by
    rw [ht.records.envs]
    exact hi
  refine ⟨j, hj, hused, hlast, ⟨t, hrun, hhandler⟩, .of_run hhandler ?_⟩
  refine (((h.passed ht).clockEntry_sat hi' hunused).weaken fun x hx => hx.of_passed ht h.toResident hi).bind ?_
  rintro _ u ⟨g', hu⟩
  exact .pure ⟨g', hu.after h hi ht⟩

/-- The page at `USER_LIMIT` is unmapped. -/
theorem exists_unmappedWindow (h : Stocked E s g) (he : e ∈ E) (ho : g (.root (.user e)) ≠ 0) :
    ∃ t, Stocked E t g ∧ t.entries g = s.entries g ∧ (∀ f, InUse s f → InUse t f) ∧ SameRecords s t ∧
      t.kernelPte userLimit = 0 := by
  have husable := usable_userLimit h.toLayout
  have hloc := h.located_shared (user_mem_mmuTrees.mpr he) ho (by decide) husable
  set t := s.setEntry (s.kernelTable (pdx userLimit)) (ptx userLimit) 0
  have hst : SameGlobals s t := sameGlobals_setEntry ..
  have hpage : cellAt (.user e) userLimit = .page userLimit := cellAt_page (.inl rfl)
  have hcell : t.cellWord g = Function.update (s.cellWord g) (cellAt (.user e) userLimit) 0 :=
    hloc.set hst.places (by decide) rfl
  have hlay : Layout E t g :=
    h.of_update hst.places hcell (fun o hk _ => husable.ne_page hk) (fun _ _ => cellAt_ne_root) fun _ _ _ => rfl
  rw [hpage] at hcell
  have hpte (p : ℕ) (hp : HeapPage p) : t.kernelPte p = s.kernelPte p := by
    have hne : p ≠ userLimit := fun he => absurd (he ▸ hp.start) (by decide)
    have := congrFun hcell (.page p)
    rwa [Function.update_of_ne (by simpa using hne), cellWord_page hp.shared, cellWord_page hp.shared] at this
  refine ⟨t, h.of_layout hlay hst hpte rfl rfl, entries_congr fun _ _ _ => ?_,
    fun f hf => ⟨hf.toOrdinary.congr hst.places.toSameBoot hpte, hf.not_free⟩, sameRecords_setEntry .., ?_⟩
  · rw [hcell, Function.update_of_ne (by simp)]
  · rw [← cellWord_page (.inl rfl) g, hcell, Function.update_self]

private theorem exists_pageAndTables : ∃ s g f, Stocked {0, 1} s g ∧ g (.root (.user 0)) ≠ 0 ∧ g (.root (.disk 0)) ≠ 0 ∧
    g (.leaf (.user 0) (pdx userHeapStart)) ≠ 0 ∧ InUse s f ∧ (s.framesInfo f).references = 1 ∧
    80 ≤ s.freeFrameList.length ∧ Room s 80 ∧
    s.entries g = Function.update (fun _ => 0) (.user 0, 0) (newEntry f (permUser ||| permWriteable)) := by
  obtain ⟨s, g, f, hs, ho, hent, hf, hrefs, hlen, hroom, -⟩ := exists_onePage
  have hva : userHeapStart < userTop := by decide
  -- the table of the heap
  obtain ⟨s₁, g₁, hs₁, ho₁, hl₁, hf₁, hrefs₁, hent₁, hlen₁, hroom₁⟩ : ∃ s₁ g₁, Stocked {0, 1} s₁ g₁ ∧
      g₁ (.root (.user 0)) ≠ 0 ∧ g₁ (.leaf (.user 0) (pdx userHeapStart)) ≠ 0 ∧ InUse s₁ f ∧
      (s₁.framesInfo f).references = 1 ∧ s₁.entries g₁ = s.entries g ∧ 89 ≤ s₁.freeFrameList.length ∧ Room s₁ 81 := by
    by_cases hl : g (.leaf (.user 0) (pdx userHeapStart)) = 0
    · have hok : Sat (fun _ => False) _ _ _ := (hs.createPageTable_sat ho rfl hva hl).weaken fun x hx => by
        rcases hx with ⟨-, hlt⟩ | ⟨-, hr⟩
        · omega
        · exact hr (hroom.mono (by decide))
      obtain ⟨pt, t, -, f', ht⟩ := hok.exists_ok
      have hadds := ht.grows hs.toReady hl
      have hspent := ht.spent.frames
      refine ⟨t, _, ht.stocked, ?_, ht.table, hadds.stays hf, ?_, ht.entries_eq, by omega,
        ht.spent.room 81 (hroom.mono (by decide))⟩
      · rwa [hadds.rootTable]
      · rwa [hadds.info f hf.not_free]
    · exact ⟨s, g, hs, ho, hl, hf, hrefs, rfl, by omega, hroom.mono (by decide)⟩
  -- the directory of the page file
  by_cases hd : g₁ (.root (.disk 0)) = 0
  · have hok : Sat (fun _ => False) _ _ _ := (hs₁.getDiskPageDirectory_sat hd).weaken fun x hx => by
      rw [hx.2] at hlen₁
      exact absurd hlen₁ (by decide)
    obtain ⟨_, t, -, ht⟩ := hok.exists_ok
    obtain ⟨p, hp⟩ := ht (hroom₁.mono (by decide))
    have hspent := hp.spent.frames
    refine ⟨t, _, f, hp.stocked, ?_, ?_, ?_, hp.inUse f hf₁, ?_, by omega, hp.spent.room 80 hroom₁, hp.entries.trans (hent₁.trans hent)⟩
    · rwa [Function.update_of_ne (by simp)]
    · rw [Function.update_self]
      exact hp.ne
    · rwa [Function.update_of_ne (by simp)]
    · rwa [hp.info f hf₁.not_free]
  · exact ⟨s₁, g₁, f, hs₁, ho₁, hd, hl₁, hf₁, hrefs₁, by omega, hroom₁.mono (by decide), hent₁.trans hent⟩

theorem newEntry_marks (f m : ℕ) :
    (HasPerm (newEntry f (permUser ||| permWriteable ||| m)) permUsed ↔ HasPerm m permUsed) ∧
      (HasPerm (newEntry f (permUser ||| permWriteable ||| m)) permModified ↔ HasPerm m permModified) := by
  have hlow (k : ℕ) (hk : k = 5 ∨ k = 6) : (permUser ||| permWriteable).testBit k = false ∧ permPresent.testBit k = false := by
    rcases hk with rfl | rfl <;> decide
  simp only [hasPerm_used, hasPerm_modified, newEntry, toPhysicalAddress, pageSize]
  rw [testBit_constructEntry (by decide), testBit_constructEntry (by decide)]
  simp [Nat.testBit_or (x := permUser ||| permWriteable ||| m), Nat.testBit_or (x := permUser ||| permWriteable), hlow]

private theorem exists_entrySet (h : Stocked E s g) (hva : va < userTop) (hl : g (.leaf (.user e) (pdx va)) ≠ 0)
    (hw : w < 2 ^ 32) : ∃ t, Changes E s g {(.user e, pageNumber va)} ∅ t ∧
      t.entries g = Function.update (s.entries g) (.user e, pageNumber va) w ∧ SameRecords s t := by
  obtain ⟨hch, hent⟩ := h.changeEntry (F := ∅) h.toReady.userStep_self rfl (fun _ _ => rfl) hva hl hw
  exact ⟨_, hch, hent, sameRecords_setEntry ..⟩

/-- The first page of the heap is all that is mapped, with the marks `m`. -/
structure OnlyHeapPage (s : Machine) (g : Obj → ℕ) (f m : ℕ) : Prop where
  stocked : Stocked {0, 1} s g
  rootUser : g (.root (.user 0)) ≠ 0
  rootDisk : g (.root (.disk 0)) ≠ 0
  table : g (.leaf (.user 0) (pdx userHeapStart)) ≠ 0
  inUse : InUse s f
  references : (s.framesInfo f).references = 1
  frames : 80 ≤ s.freeFrameList.length
  room : Room s 80
  window : s.kernelPte userLimit = 0
  entries : s.entries g = Function.update (fun _ => 0) (.user 0, pageNumber userHeapStart)
    (newEntry f (permUser ||| permWriteable ||| m))

private theorem exists_heapPage (m : ℕ) (hm : m < 4096) : ∃ s g f, OnlyHeapPage s g f m := by
  obtain ⟨s₀, g, f, hs₀, ho, hd, hl, hf₀, hrefs, hlen, hroom, hent₀⟩ := exists_pageAndTables
  obtain ⟨s₁, hs₁, hent₁, hf₁, hrec₁, hlim⟩ := exists_unmappedWindow hs₀ (e := 0) (by simp) ho
  have hl₀ : g (.leaf (.user 0) (pdx 0)) ≠ 0 := table_of_entry (s := s₀) (by decide) (by
    rw [hent₀, show pageNumber 0 = 0 from rfl, Function.update_self]
    exact newEntry_ne_zero f _)
  have hlt : newEntry f (permUser ||| permWriteable ||| m) < 2 ^ 32 :=
    hs₁.newEntry_lt (hs₁.ordinary_lt (hf₁ f hf₀).toOrdinary) (Nat.or_lt_two_pow (n := 12) (by decide) hm)
  -- the frame of page 0 goes to the heap
  obtain ⟨s₂, h₂, hent₂, hrec₂⟩ := exists_entrySet hs₁ (by decide : 0 < userTop) hl₀ (show 0 < 2 ^ 32 by decide)
  obtain ⟨s₃, h₃, hent₃, hrec₃⟩ := exists_entrySet h₂.stocked (by decide : userHeapStart < userTop) hl hlt
  have hrec := (hrec₁.trans hrec₂).trans hrec₃
  refine ⟨s₃, g, f, h₃.stocked, ho, hd, hl, ⟨h₃.ordinary (h₂.ordinary (hf₁ f hf₀).toOrdinary), ?_⟩, ?_, ?_, ?_, ?_, ?_⟩
  · rw [hrec.free]
    exact hf₀.not_free
  · rw [hrec.info, hrefs]
  · rwa [hrec.free]
  · rwa [Room, hrec.strategy, hrec.heap]
  · rw [h₃.kernelPte (.inl rfl), h₂.kernelPte (.inl rfl), hlim]
  · rw [hent₃, hent₂, hent₁, hent₀, show pageNumber 0 = 0 from rfl, Function.update_idem, Function.update_eq_self_iff.mpr rfl]

/-- The page is in the only slot of the working set, and the disk frames `d` are free. -/
structure HeldHeapPage (s : Machine) (g : Obj → ℕ) (f m : ℕ) (d : List ℕ) : Prop extends OnlyHeapPage s g f m where
  size : (s.envs 0).pageWSMaxSize = 1
  hand : (s.envs 0).pageLastWSIndex = 0
  slots : ∀ i, (s.envs 0).ptrPageWorkingSet i = ⟨userHeapStart, false, 0⟩
  diskFrames : s.diskFreeFrameList = d

theorem exists_heldHeapPage (m : ℕ) (hm : m < 4096) (d : List ℕ) : ∃ s g f, HeldHeapPage s g f m d := by
  obtain ⟨s, g, f, h⟩ := exists_heapPage m hm
  set v : Env := { s.envs 0 with
    pageWSMaxSize := 1
    ptrPageWorkingSet := fun _ => ⟨userHeapStart, false, 0⟩
    pageLastWSIndex := 0 } with hv
  set r : Machine := { s with
    diskFreeFrameList := d
    envs := Function.update s.envs 0 v } with hr
  have henvs (e : ℕ) : (r.envs e).envPageDirectory = (s.envs e).envPageDirectory ∧
      (r.envs e).diskEnvPgdir = (s.envs e).diskEnvPgdir ∧ (r.envs e).envCr3 = (s.envs e).envCr3 := by
    simp only [hr, hv, Function.update_apply]
    split
    · simp [*]
    · simp
  have hstep : UserStep s r := ⟨⟨⟨rfl, rfl, rfl, rfl⟩, fun e => (henvs e).1, fun e => (henvs e).2.1, fun e => (henvs e).2.2⟩,
    rfl, rfl, fun _ _ => rfl, h.stocked.nodup, h.stocked.free⟩
  obtain ⟨hch, -⟩ := h.stocked.changeNone (F := ∅) hstep rfl fun _ _ => rfl
  have henv : r.envs 0 = v := by
    have hset : r.envs = Function.update s.envs 0 v := rfl
    rw [hset, Function.update_self]
  refine ⟨r, g, f, ⟨hch.stocked, h.rootUser, h.rootDisk, h.table, ⟨⟨h.inUse.managed, h.inUse.not_heap⟩, h.inUse.not_free⟩,
    h.references, h.frames, h.room, h.window, ?_⟩, ?_, ?_, fun i => ?_, rfl⟩
  · rw [← h.entries]
    funext x
    exact hch.entries x (Set.notMem_empty _)
  · rw [henv]
  · rw [henv]
  · rw [henv]

namespace HeldHeapPage

variable {m : ℕ} {d : List ℕ} (h : HeldHeapPage s g f m d)
include h

theorem entry (x : Tree × ℕ) : s.entries g x = if x = (.user 0, pageNumber userHeapStart) then
    newEntry f (permUser ||| permWriteable ||| m) else 0 := by
  rw [h.entries, Function.update_apply]

theorem slotVa (i : ℕ) : s.slotVa 0 i = userHeapStart := by
  rw [Machine.slotVa, h.slots]
  decide

theorem slotEntry (i : ℕ) : s.slotEntry g 0 i = newEntry f (permUser ||| permWriteable ||| m) := by
  rw [Machine.slotEntry, h.slotVa, h.entry, if_pos rfl]

theorem load : HeldHeapPage { s with cr3 := (s.envs 0).envCr3 } g f m d where
  stocked := h.stocked.load (e := 0) (by simp) h.rootUser
  rootUser := h.rootUser
  rootDisk := h.rootDisk
  table := h.table
  inUse := ⟨⟨h.inUse.managed, h.inUse.not_heap⟩, h.inUse.not_free⟩
  references := h.references
  frames := h.frames
  room := h.room
  window := h.window
  entries := h.entries
  size := h.size
  hand := h.hand
  slots := h.slots
  diskFrames := h.diskFrames

end HeldHeapPage

private theorem exists_replaceable (m : ℕ) (hm : m < 4096) : ∃ s g f, Replaceable {0, 1} s g 0 (userHeapStart + pageSize) ∧
    (s.envs 0).pageWSMaxSize = 1 ∧ (s.envs 0).pageLastWSIndex = 0 ∧ s.slotVa 0 0 = userHeapStart ∧
    s.slotEntry g 0 0 = newEntry f (permUser ||| permWriteable ||| m) ∧ (s.framesInfo f).references = 1 ∧
    s.freeFrameList ≠ [] ∧ s.diskFreeFrameList = [] ∧ ∀ p, s.entries g (.disk 0, p) = 0 := by
  obtain ⟨s₀, g, f, h₀⟩ := exists_heldHeapPage m hm []
  have h := h₀.load
  set s : Machine := { s₀ with cr3 := (s₀.envs 0).envCr3 }
  have hframe (i : ℕ) : frameNumber (s.slotEntry g 0 i) = f := by
    rw [h.slotEntry, frameNumber_newEntry (Nat.or_lt_two_pow (n := 12) (by decide) hm)]
  have hdisk (p : ℕ) : s.entries g (.disk 0, p) = 0 := by rw [h.entry, if_neg (by simp)]
  have hfault : s.entries g (.user 0, pageNumber (userHeapStart + pageSize)) = 0 := by rw [h.entry, if_neg (by decide)]
  have hone (i : ℕ) (hi : i < (s.envs 0).pageWSMaxSize) : i = 0 := Nat.lt_one_iff.mp (h.size ▸ hi)
  have hres : Resident {0, 1} s g 0 := by
    refine ⟨h.stocked, h.rootUser, ?_, fun i _ => ?_, fun i _ => ?_, fun i _ => ?_, fun i hi j hj _ => ?_, fun i _ => ?_,
      fun i _ => ?_, fun i hi j hj hij => ?_⟩
    · rw [h.hand, h.size]
      decide
    · rw [h.slots]
    · rw [h.slotVa]
      decide
    · rw [h.slotEntry]
      exact newEntry_present ..
    · rw [hone i hi, hone j hj]
    · rw [hframe]
      exact h.inUse
    · rw [hframe, h.references]
      decide
    · exact absurd ((hone i hi).trans (hone j hj).symm) hij
  refine ⟨s, g, f, ⟨hres, by simp, h.stocked.frameNumber_envCr3 h.rootUser, h.rootDisk, ?_, fun i _ => ?_, fun i _ _ h0 => ?_,
    fun i _ _ _ => h.room.mono (by decide), h.window, fun d hd => ?_, by decide, h.table, ?_, .inr (by decide)⟩, h.size, h.hand,
    h.slotVa 0, h.slotEntry 0, h.references, fun hnil => ?_, h.diskFrames, hdisk⟩
  · rw [h.size]
    decide
  · rw [hframe, h.references]
    decide
  · exact absurd (hdisk _) h0
  · rw [h.diskFrames] at hd
    exact absurd hd List.not_mem_nil
  · rw [hfault]
    decide
  · have hframes := h.frames
    rw [hnil] at hframes
    exact absurd hframes (by decide)

/-- The page that faulted takes the frame of the other one, which was not modified. -/
theorem pageFaultHandler_replaces_heapPage : ∃ s g t g', Replaceable {0, 1} s g 0 (userHeapStart + pageSize) ∧
    (pageFaultHandler 0 (userHeapStart + pageSize)).run s = .ok ((), t) ∧
    Replaced {0, 1} s g 0 (userHeapStart + pageSize) 0 0 t g' := by
  obtain ⟨s, g, f, h, hmax, hhand, -, hslot, hrefs, -⟩ := exists_replaceable 0 (by decide)
  obtain ⟨hused, hmod⟩ := newEntry_marks f 0
  rw [← hslot] at hused hmod
  have hfrom : slotFrom (s.envs 0) 0 = 0 := by rw [slotFrom, hhand, hmax]
  have hframe : frameNumber (s.slotEntry g 0 0) = f := by rw [hslot, frameNumber_newEntry (by decide)]
  obtain ⟨j, hj, hpassed, -, -, hsat⟩ := pageFaultHandler_replaces h
  have hj0 : j = 0 := by
    by_contra hne
    have hfirst := hpassed 0 (Nat.pos_of_ne_zero hne)
    rw [hfrom] at hfirst
    exact absurd (hused.mp hfirst) (by decide)
  rw [hj0, hfrom] at hsat
  have hok : Sat (fun _ => False) _ _ _ := hsat.weaken fun x hx => by
    rcases hx with ⟨hm, -⟩ | ⟨-, hlt, -⟩
    · exact absurd (hmod.mp hm) (by decide)
    · rw [hframe, hrefs] at hlt
      exact lt_irrefl 1 hlt
  obtain ⟨_, t, hrun, g', ht⟩ := hok.exists_ok
  exact ⟨s, g, t, g', h, hrun, ht⟩

/-- The page was modified, and the page file is full. -/
theorem pageFaultHandler_stops_fullDisk : ∃ s g, Replaceable {0, 1} s g 0 (userHeapStart + pageSize) ∧
    (pageFaultHandler 0 (userHeapStart + pageSize)).run s = .error .pageFileSpace := by
  obtain ⟨s, g, f, h, hmax, hhand, hva, hslot, -, hfree, hnil, hdisk⟩ := exists_replaceable permModified (by decide)
  obtain ⟨hused, hmod⟩ := newEntry_marks f permModified
  rw [← hslot] at hused hmod
  have hi : 0 < (s.envs 0).pageWSMaxSize := by
    rw [hmax]
    decide
  have hfrom : slotFrom (s.envs 0) 0 = 0 := by rw [slotFrom, hhand, hmax]
  have hunused : ¬HasPerm (s.slotEntry g 0 0) permUsed := fun hu => absurd (hused.mp hu) (by decide)
  obtain ⟨t, -, ht, hrest, hrun⟩ := h.pageFaultHandler_run (userHeapStart + pageSize) (Nat.zero_le _)
    (fun k hk => absurd hk (Nat.not_lt_zero k)) fun _ => by rwa [hfrom]
  rw [hfrom] at hrest hrun
  have hvat : t.slotVa 0 0 = userHeapStart := (slotVa_congr ht.records.envs 0 0).trans hva
  have hstop := (h.passed ht).clockEntry_stops (by rwa [ht.records.envs]) hrest
    ((ht.modified_iff h.toResident hi).mpr (hmod.mpr (by decide)))
    (by rw [ht.changes.entries _ (by simp [passedPages]), hdisk]) (by rw [hvat]; decide)
    (ht.records.diskFreeFrameList.trans hnil) (by rwa [ht.records.free])
  exact ⟨s, g, h, hrun.trans (run_bind_error hstop)⟩

end FosKernel.Machine
