import FosKernel.PageFileRuns
import FosKernel.Placement

/-!
# The page files of a machine

The directories and tables of the page files lie in the kernel heap of a machine, and their
entries are those of the page files seen by themselves. What a call does on the machine it
does to them.
-/

namespace FosKernel.DiskFrames
open FailingPrograms PageEntries Machine

variable {s t : Machine} {E : Finset ℕ} {g g' : Obj → ℕ} {w w' : PageFiles} {e va : ℕ} {r : ℤ} {src : Page}

/-- The tables of the page files on a machine hold the entries. -/
structure Represents (E : Finset ℕ) (s : Machine) (g : Obj → ℕ) (w : PageFiles) : Prop where
  entry : ∀ e ∈ E, ∀ va < userTop, w.entry (slotOf e va) = s.entries g (.disk e, pageNumber va)
  free : w.diskFreeFrameList = s.diskFreeFrameList
  disk : w.disk = s.disk

/-- The page files with the memory of a machine. -/
noncomputable def pagingOf (s : Machine) (g : Obj → ℕ) (w : PageFiles) : Paging where
  files := w
  frames := s.ram
  mapped x :=
    if HasPerm (s.entries g (.user x.1, x.2)) (permPresent ||| permWriteable) then
      some (frameNumber (s.entries g (.user x.1, x.2)))
    else none

theorem slotOf_inj {e' va' : ℕ} (hva : va < userTop) (hva' : va' < userTop) :
    slotOf e' va' = slotOf e va ↔ (Tree.disk e', pageNumber va') = (.disk e, pageNumber va) := by
  rw [slotOf_eq_iff hva hva']
  simp only [pageNumber, Prod.mk.injEq, Tree.disk.injEq]

namespace Represents

variable (h : Represents E s g w)
include h

theorem saves (he : e ∈ E) (hva : va < userTop) (hs : SavesPage s g e (pageNumber va) src t g')
    (hother : ∀ e' p, (Tree.disk e', p) ≠ (.disk e, pageNumber va) → t.entries g' (.disk e', p) = s.entries g (.disk e', p))
    (ha : AddsPage (slotOf e va) src w 0 w') : Represents E t g' w' := by
  have hentry := h.entry e he va hva
  rcases ha with ⟨h0, -⟩ | ⟨-, d, u, hg, rfl⟩
  · exact absurd h0 (by decide)
  have hd : d = t.entries g' (.disk e, pageNumber va) := by
    cases hg with
    | old hold _ => rw [hentry, hs.same (hentry ▸ hold)]
    | new hold hfree _ _ =>
      have htaken := hs.taken (hentry ▸ hold)
      rw [← h.free, hfree] at htaken
      exact (List.cons.inj htaken).1
  refine ⟨fun e' he' va' hva' => ?_, ?_, ?_⟩
  · have hkept : u.entry (slotOf e' va') = if slotOf e' va' = slotOf e va then d else w.entry (slotOf e' va') := by
      cases hg with
      | old _ hsame =>
        rw [hsame.entry]
        split
        · rename_i hx
          rw [hx]
        · rfl
      | new _ _ hnew _ => rw [hnew.1, Function.update_apply]
    refine hkept.trans ?_
    by_cases hx : slotOf e' va' = slotOf e va
    · rw [if_pos hx, (slotOf_inj hva hva').mp hx, hd]
    · rw [if_neg hx, h.entry e' he' va' hva', hother e' _ fun hne => hx ((slotOf_inj hva hva').mpr hne)]
  · cases hg with
    | old hold hsame => exact (hsame.free.trans h.free).trans (hs.kept (hentry ▸ hold)).symm
    | new hold hfree hnew _ =>
      have htaken := hs.taken (hentry ▸ hold)
      rw [← h.free, hfree] at htaken
      exact hnew.2.trans (List.cons.inj htaken).2
  · have hdisk : u.disk = w.disk := by
      cases hg with
      | old _ hsame => exact hsame.disk
      | new _ _ _ hsame => exact hsame.1
    rw [hs.disk, ← hd, PageFiles.setDisk, hdisk, h.disk]

theorem clears (hva : va < userTop) (hc : ClearedDiskPage E s g e (pageNumber va) t) (he : e ∈ E)
    (hf : Frees {slotOf e va} {slotOf e va} w w') (hfree : w'.diskFreeFrameList =
      if w.entry (slotOf e va) = 0 then w.diskFreeFrameList else w.entry (slotOf e va) :: w.diskFreeFrameList) :
    Represents E t g w' where
  entry e' he' va' hva' := by
    rw [hc.entries, Function.update_apply, ← h.entry e' he' va' hva']
    split
    · rename_i hx
      exact hf.cleared _ ((slotOf_inj hva hva').mpr hx)
    · rename_i hx
      exact hf.kept _ fun hs => hx ((slotOf_inj hva hva').mp hs)
  free := by
    rw [hfree, hc.disk, h.free, h.entry e he va hva]
    split
    · rename_i h0
      simp [h0]
    · rename_i h0
      simp [h0]
  disk := by rw [hf.disk, h.disk, hc.globals.disk]

end Represents

/-- The frame that `ptr_zero_page` points to. -/
def zeroFrame : ℕ := (Machine.ptrZeroPage - kernelBase) / pageSize

/-- The page at `ptr_zero_page` is written to a disk frame. -/
theorem writeZeroPage (h : Stocked E s g) (hboot : Machine.ptrZeroPage + pageSize ≤ s.ptrFreeMem) (d : ℕ) :
    (writeDiskPage d Machine.ptrZeroPage).run s = .ok ((), s.setDisk d (s.ram zeroFrame)) ∧
      Stocked E (s.setDisk d (s.ram zeroFrame)) g ∧ (s.setDisk d (s.ram zeroFrame)).entries g = s.entries g := by
  have hfree : s.ptrFreeMem ≤ 2 ^ 32 := h.tables.free_le.trans (by decide)
  have hread := readPage_static (by decide) hboot hfree (by decide)
  have hstep : UserStep s (s.setDisk d (s.ram zeroFrame)) :=
    SameButCounters.userStep (u := s.setDisk d (s.ram zeroFrame)) (.of_envs rfl 0) h
  obtain ⟨hch, hcell⟩ := h.changeNone (F := ∅) hstep rfl fun _ _ => rfl
  refine ⟨?_, hch.stocked, entries_congr fun _ _ _ => congrFun hcell _⟩
  rw [writeDiskPage, run_bind_ok hread, run_modify]
  rfl

/-- Adding a page of zeros on a machine does to the tables and the disk what it does to the page
files, unless there is no frame for a table. -/
theorem pfAddEnvPage_represents (h : Stocked E s g) (hrep : Represents E s g w) (he : e ∈ E) (hva : va < userTop)
    (ho : g (.root (.disk e)) ≠ 0) (haside : s.Aside zeroFrame) (hboot : Machine.ptrZeroPage + pageSize ≤ s.ptrFreeMem)
    (hds : ∀ d ∈ s.diskFreeFrameList, d ≠ 0 ∧ d < 2 ^ 32) (hroom : g (.leaf (.disk e) (pdx va)) = 0 → Room s 1)
    (hzero : w.ptrZeroPage = s.ram zeroFrame) (hrun : (pfAddEmptyEnvPage e va true).run w = .ok (r, w')) :
    Sat (fun x => x = .noFreeFrame ∧ g (.leaf (.disk e) (pdx va)) = 0 ∧ s.freeFrameList = [])
      (Machine.pfAddEnvPage e va Machine.ptrZeroPage) s fun r' t => r' = r ∧ (r = 0 → ∃ g', Stocked E t g' ∧
        Represents E t g' w' ∧ w'.ptrZeroPage = t.ram zeroFrame) := by
  have hadd := (pfAddEmptyEnvPage_zero w e va).ok hrun
  have hzero' := hadd.zero
  have hentry := hrep.entry e he va hva
  rw [hzero] at hadd hzero'
  rw [Machine.pfAddEnvPage]
  by_cases hold : s.entries g (.disk e, pageNumber va) = 0
  · refine (h.diskFrameOf_sat ho hva hold (fun d hd => (hds d hd).2) hroom).bind ?_
    rintro _ t (⟨rfl, hnil⟩ | ⟨d, g', rfl, ht⟩)
    · have hr : r ≠ 0 := by
        rintro rfl
        rcases hadd with ⟨h0, -⟩ | ⟨-, d, u, hg, -⟩
        · exact absurd h0 (by decide)
        · cases hg with
          | old hold' => exact hold' (hentry.trans hold)
          | new _ hfree => exact absurd (hfree.symm.trans (hrep.free.trans hnil)) (by simp)
      exact .pure ⟨(hadd.code.resolve_left hr).symm, fun h0 => absurd h0 hr⟩
    · have hmem : d ∈ s.diskFreeFrameList := by simp [ht.free]
      obtain rfl : r = 0 := hadd.served (.inr (hrep.free ▸ List.ne_nil_of_mem hmem))
      have hram : t.ram zeroFrame = s.ram zeroFrame := ht.untouched _ haside
      have hboot' : Machine.ptrZeroPage + pageSize ≤ t.ptrFreeMem := by rwa [ht.tables.places.ptrFreeMem]
      obtain ⟨hwrite, hstocked, hent⟩ := writeZeroPage ht.stocked hboot' d
      have hgets : (t.setDisk d (t.ram zeroFrame)).entries g' (.disk e, pageNumber va) = d := by
        rw [hent, ht.entries, Function.update_self]
      refine .bind_ok hwrite (.pure ⟨rfl, fun _ => ⟨g', hstocked, ?_, hzero'.trans hram.symm⟩⟩)
      refine hrep.saves he hva ⟨⟨?_, fun hne => absurd hold hne, ?_⟩, fun hne => absurd hold hne, fun _ => ?_⟩
        (fun e' p hx => ?_) hadd
      · rw [hgets]
        exact (hds d hmem).1
      · rw [hgets, ← ht.disk, ← hram]
        rfl
      · rw [hgets]
        exact ht.free
      · rw [hent, ht.entries, Function.update_of_ne hx]
  · obtain rfl : r = 0 := hadd.served (.inl (hentry ▸ hold))
    obtain ⟨hwrite, hstocked, hent⟩ := writeZeroPage h hboot (s.entries g (.disk e, pageNumber va))
    refine .bind_ok (h.diskFrameOf_old ho hva hold) (.bind_ok hwrite (.pure ⟨rfl, fun _ => ⟨g, hstocked, ?_, hzero'⟩⟩))
    refine hrep.saves he hva ⟨⟨hent ▸ hold, fun _ => congrFun hent _, ?_⟩, fun _ => rfl, fun h0 => absurd h0 hold⟩
      (fun _ _ _ => congrFun hent _) hadd
    rw [hent]
    rfl

theorem pfUpdateEnvPage_represents (h : Stocked E s g) (hrep : Represents E s g w) (hw : w.Consistent) (hsup : w.Supplied)
    (he : e ∈ E) (hr : Reaches E s g (.user e) va) (hd : pageSize ∣ va) (ho : g (.root (.disk e)) ≠ 0)
    (hp : HasPerm (s.entries g (.user e, pageNumber va)) permPresent) (hf : InUse s (s.backing g (.user e) va))
    (hrefs : (s.framesInfo (s.backing g (.user e) va)).references < 2 ^ 16)
    (hds : ∀ d ∈ s.diskFreeFrameList, d ≠ 0 ∧ d < 2 ^ 32) (hlim : s.kernelPte userLimit = 0)
    (hmax : s.entries g (.disk e, pageNumber va) ≠ 0 → (s.framesInfo (s.backing g (.user e) va)).references ≠ 2 ^ 16 - 1)
    (hroom : g (.leaf (.disk e) (pdx va)) = 0 → Room s 1) :
    Sat (RefusesPage s g e va) (Machine.pfUpdateEnvPage e va (s.backing g (.user e) va)) s fun _ t => ∃ m g',
      (FileCall.update e va (s.backing g (.user e) va)).run.run (pagingOf s g w) = .ok (0, m) ∧ Stocked E t g' ∧
        Represents E t g' m.files := by
  refine (h.pfUpdateEnvPage_saves he hr hd ho hp hf hrefs hds hlim hmax hroom).mono fun _ t ⟨hnew, g', ht, hsaves⟩ => ?_
  have hentry := hrep.entry e he va hr.user
  have hupdate : ¬NoUpdate w e va := by
    rintro (hno | ⟨h0, hno⟩)
    · exact not_noTable hsup hr.user hno
    · obtain ⟨hheap, hfree⟩ := hnew (hentry ▸ h0)
      exact hno.elim (fun hva => hva hheap) (hrep.free ▸ hfree)
  obtain ⟨r, w', hrun, rfl, ha⟩ := ((pfUpdateEnvPage_sat hw e va (s.ram (s.backing g (.user e) va))
    (if (pagingOf s g w).mapped (e, va / pageSize) = some (s.backing g (.user e) va) then
      some (s.ram (s.backing g (.user e) va)) else none)).weaken fun _ => hupdate).exists_ok
  rw [update_given] at ha
  refine ⟨_, g', (run_bind_ok run_get).trans (onFiles_run hrun), ht.stocked, hrep.saves he hr.user hsaves (fun e' p hx => ?_) ha⟩
  exact ht.entries _ hx (by simp)

theorem pfReadEnvPage_represents (h : Stocked E s g) (hrep : Represents E s g w) (he : e ∈ E)
    (hr : Reaches E s g (.user e) va) (ho : g (.root (.disk e)) ≠ 0)
    (hp : HasPerm (s.entries g (.user e, pageNumber va)) (permPresent ||| permWriteable))
    (hf : Ordinary s (s.backing g (.user e) va)) :
    ∃ r t m, (Machine.pfReadEnvPage e va).run s = .ok (r, t) ∧
      (FileCall.read e va).run.run (pagingOf s g w) = .ok (r, m) ∧ Stocked E t g ∧ Represents E t g m.files ∧
      t.ram (s.backing g (.user e) va) = m.frames (s.backing g (.user e) va) := by
  have hentry := hrep.entry e he va hr.user
  have hread := read_run (pagingOf s g w) e va
  have hmapped : (pagingOf s g w).mapped (e, va / pageSize) = some (s.backing g (.user e) va) := if_pos hp
  rw [hmapped] at hread
  rcases h.pfReadEnvPage_run hr ho hp hf with ⟨h0, hrun⟩ | ⟨h0, t, hrun, ht⟩
  · have hshown : w.shown (slotOf e va) = none := if_pos (hentry.trans h0)
    rw [show (pagingOf s g w).files.shown (slotOf e va) = none from hshown] at hread
    exact ⟨_, s, _, hrun, hread, h, hrep, rfl⟩
  · have hshown : w.shown (slotOf e va) = some (s.disk (s.entries g (.disk e, pageNumber va))) := by
      rw [PageFiles.shown, hentry, if_neg h0, hrep.disk]
    rw [show (pagingOf s g w).files.shown (slotOf e va) = _ from hshown] at hread
    refine ⟨_, t, _, hrun, hread, ht.changes.stocked, ⟨fun e' he' va' hva' => ?_, ?_, ?_⟩, ?_⟩
    · rw [ht.changes.entries _ (by simp)]
      exact hrep.entry e' he' va' hva'
    · exact hrep.free.trans ht.diskFree.symm
    · exact hrep.disk.trans ht.disk.symm
    · have hcopied : Function.update s.ram (s.backing g (.user e) va) (s.disk (s.entries g (.disk e, pageNumber va)))
          (s.backing g (.user e) va) = s.disk (s.entries g (.disk e, pageNumber va)) := Function.update_self ..
      exact ht.contents.trans hcopied.symm

theorem pfRemoveEnvPage_represents (h : Stocked E s g) (hrep : Represents E s g w) (hw : w.Consistent) (he : e ∈ E)
    (hva : va < userTop) : ∃ t m, (Machine.pfRemoveEnvPage e va).run s = .ok ((), t) ∧
      (FileCall.remove e va).run.run (pagingOf s g w) = .ok (0, m) ∧ Stocked E t g ∧ Represents E t g m.files := by
  obtain ⟨t, hrun, ht⟩ := h.pfRemoveEnvPage_run (e := e) hva
  obtain ⟨_, w', hremove, hfrees, hfree⟩ := (pfRemoveEnvPage_returns hw e va).exists_ok
  exact ⟨t, _, hrun, (run_bind_ok (onFiles_run (s := pagingOf s g w) hremove)).trans (run_pure _), ht.stocked,
    hrep.clears hva ht he hfrees hfree⟩

end FosKernel.DiskFrames
