import FosKernel.Boot
import FosKernel.PageFileImages
import FosKernel.PagedMachines

/-!
# Pages of zeros in the page file

A page that is to be zero is written to the page file from `ptr_zero_page`, of which
`initialize_paging` clears the first 1024 bytes. The rest of it is what the memory held
when the machine was started.
-/

namespace FosKernel.DiskFrames
open FailingPrograms PageEntries Machine
open ProgramLoading (Elf EnvLoad ProgramSegment Covers loadProgram programSegments stackVa)

/-- A page file after the pages of a list were added. -/
def filed (file : ℕ → Option Page) (adds : List (ℕ × Page)) : ℕ → Option Page :=
  adds.foldl (fun file a => Function.update file (a.1 / pageSize) (some a.2)) file

def addPages (e : ℕ) : List (ℕ × Page) → Filer Unit
  | [] => pure ()
  | a :: adds => do
    if (← pfAddEnvPage e a.1 a.2) = eNoPageFileSpace then throw .pageFileSpace
    addPages e adds

/-- What `env_create` does with the page file. Whether there was room for the stack page
is not looked at. -/
def createFile (e : ℕ) (adds : List (ℕ × Page)) : Filer Unit := do
  modify (·.setDirectory e none)
  addPages e adds
  let _ ← pfAddEmptyEnvPage e stackVa true

/-- A program was loaded, and `adds` are the pages that were added for its segments. -/
structure Load (e : ℕ) (x : Elf) (adds : List (ℕ × Page)) (w w' : PageFiles) : Prop where
  program : ∃ s t : EnvLoad, (∀ p, s.pageFile p = none) ∧ (∀ p, s.pages p = none) ∧
    s.ptrZeroPage = w.ptrZeroPage ∧ (loadProgram x).run s = .ok ((), t) ∧
    t.pageFile = Function.update (filed s.pageFile adds) (stackVa / pageSize) (some w.ptrZeroPage)
  file : (createFile e adds).run w = .ok ((), w')

/-- An operation of the page file or a program load, with the pages that it writes or removes. -/
inductive Step : PageFiles → Set Slot → PageFiles → Prop
  | add {w w' e va src r} (run : (pfAddEnvPage e va src).run w = .ok (r, w')) : Step w {slotOf e va} w'
  | addEmpty {w w' e va z r} (run : (pfAddEmptyEnvPage e va z).run w = .ok (r, w')) :
    Step w (if z then {slotOf e va} else ∅) w'
  | update {w w' e va q mapped r} (run : (pfUpdateEnvPage e va q mapped).run w = .ok (r, w')) :
    Step w {slotOf e va} w'
  | read {w w' e va r} (run : (pfReadEnvPage e va).run w = .ok (r, w')) : Step w ∅ w'
  | remove {w w' e va} (run : (pfRemoveEnvPage e va).run w = .ok ((), w')) : Step w {slotOf e va} w'
  | free {w w' e} (run : (pfFreeEnv e).run w = .ok ((), w')) : Step w (pagesOf e) w'
  | load {w w' e x adds} (load : Load e x adds w w') : Step w (pagesOf e) w'

inductive Run : PageFiles → Set Slot → PageFiles → Prop
  | refl {w} : Run w ∅ w
  | step {w v w' W V} (tail : Run w W v) (last : Step v V w') : Run w (W ∪ V) w'

variable {w w' v : PageFiles} {W V : Set Slot} {x : Elf} {e va p : ℕ} {q : Page} {adds : List (ℕ × Page)}
  {file : ℕ → Option Page} {s t : Machine}

/-- The pages that are not in `W` are in the page file as before. -/
structure Keeps (W : Set Slot) (w w' : PageFiles) : Prop where
  consistent : w'.Consistent
  zero : w'.ptrZeroPage = w.ptrZeroPage
  shown : ∀ x ∉ W, ∀ q, w.shown x = some q → w'.shown x = some q

namespace Keeps

theorem refl (h : w.Consistent) : Keeps W w w := ⟨h, rfl, fun _ _ _ hq => hq⟩

theorem trans (h : Keeps W w w') (h' : Keeps V w' v) : Keeps (W ∪ V) w v :=
  ⟨h'.consistent, h'.zero.trans h.zero, fun x hx q hq =>
    h'.shown x (fun hV => hx (.inr hV)) q (h.shown x (fun hW => hx (.inl hW)) q hq)⟩

theorem mono (h : Keeps W w w') (hWV : W ⊆ V) : Keeps V w w' :=
  ⟨h.consistent, h.zero, fun x hx => h.shown x fun hW => hx (hWV hW)⟩

theorem again (h : Keeps W w w') (h' : Keeps W w' v) : Keeps W w v :=
  (h.trans h').mono (Set.union_self W).subset

theorem setDirectory (h : w.Consistent) (e : ℕ) : Keeps (pagesOf e) w (w.setDirectory e none) := by
  refine ⟨Numbered.forget h fun x => ?_, rfl, fun x hx q hq => ?_⟩
  · rw [entry_setDirectory_none]
    split
    · exact .inl rfl
    · exact .inr rfl
  · have hother : x.1 ≠ e := hx
    rw [PageFiles.shown, entry_setDirectory_none, if_neg hother]
    exact hq

end Keeps

theorem GivesFrame.keeps {y : Slot} {r : Option ℕ} (hg : GivesFrame y w w' r) (h : w.Consistent) : Keeps ∅ w w' :=
  ⟨hg.consistent h, hg.zero, fun _ _ _ hq => hg.shown_of_some hq⟩

theorem AddsPage.keeps {y : Slot} {r : ℤ} (ha : AddsPage y q w r w') (h : w.Consistent) : Keeps {y} w w' := by
  refine ⟨ha.consistent h, ha.zero, fun x hx p hp => ?_⟩
  by_cases hr : r = 0
  · subst hr
    rwa [ha.shown h, Function.update_of_ne hx]
  · rwa [(ha.shown_full hr).1]

theorem Frees.keeps {S T : Set Slot} (hf : Frees S T w w') : Keeps T w w' :=
  ⟨hf.consistent, hf.zero, fun _ hx _ hq => (hf.shown_kept hx).trans hq⟩

theorem pfAddEmptyEnvPage_keeps (h : w.Consistent) (e va : ℕ) (z : Bool) : Ends (pfAddEmptyEnvPage e va z) w
    fun _ w' => Keeps (if z then {slotOf e va} else ∅) w w' := by
  cases z with
  | true => exact ((pfAddEmptyEnvPage_zero w e va).weaken fun _ _ => trivial).mono fun _ _ ha => ha.keeps h
  | false =>
    refine ((pfAddEmptyEnvPage_false w e va).weaken fun _ _ => trivial).mono fun _ _ ha => ?_
    rcases ha with ⟨-, hg⟩ | ⟨-, d, hg⟩
    · exact hg.keeps h
    · exact hg.keeps h

theorem pfAddEnvPage_below (w : PageFiles) (e va : ℕ) (q : Page) :
    Ends (pfAddEnvPage e va q) w fun _ _ => va < kernelBase := by
  by_cases hva : kernelBase ≤ va
  · have hrun : (pfAddEnvPage e va q).run w = .error .assertion := by
      rw [pfAddEnvPage, diskFrameOf, if_pos hva]
      rfl
    exact .of_error hrun trivial
  · rcases hrun : (pfAddEnvPage e va q).run w with x | ⟨r, u⟩
    · exact .of_error hrun trivial
    · exact .of_ok hrun (not_le.mp hva)

theorem page_of_slotOf {a : ℕ} (ha : a < kernelBase) (hp : pageSize * p < kernelBase)
    (h : slotOf e a = slotOf e (pageSize * p)) : a / pageSize = p := by
  simp only [slotOf, pdx, ptx, Prod.mk.injEq, true_and] at h
  simp only [pageSize, kernelBase] at *
  omega

theorem slotOf_page (e a : ℕ) : slotOf e (pageSize * (a / pageSize)) = slotOf e a := by
  simp only [slotOf, pdx, ptx, Prod.mk.injEq, true_and]
  simp only [pageSize]
  omega

/-- The pages of one environment, as its loader sees them. -/
def Files (e : ℕ) (file : ℕ → Option Page) (w : PageFiles) : Prop :=
  ∀ va < kernelBase, w.shown (slotOf e va) = file (va / pageSize)

namespace Files

theorem add (h : Files e file w) (hw : w.Consistent) (hva : va < kernelBase) (ha : AddsPage (slotOf e va) q w 0 w') :
    Files e (Function.update file (va / pageSize) (some q)) w' := by
  intro a hlt
  rw [ha.shown hw, Function.update_apply, Function.update_apply, h a hlt]
  refine if_congr ⟨fun hx => ?_, fun hx => ?_⟩ rfl rfl
  · rw [← slotOf_page e va] at hx
    exact page_of_slotOf hlt ((Nat.mul_div_le _ _).trans_lt hva) hx
  · rw [← slotOf_page e a, hx, slotOf_page]

theorem pfAddEnvPage {l l' : EnvLoad} {r : ℤ} (h : Files e l.pageFile w) (hw : w.Consistent)
    (hload : (ProgramLoading.pfAddEnvPage va q).run l = .ok ((), l')) (hrun : (pfAddEnvPage e va q).run w = .ok (r, w'))
    (hr : r = 0) : Files e l'.pageFile w' := by
  subst hr
  have hfile := ((ProgramLoading.pfAddEnvPage_sat l va q).ok hload).pageFile
  rw [funext hfile]
  exact h.add hw ((pfAddEnvPage_below w e va q).ok hrun) ((pfAddEnvPage_sat w e va q).ok hrun)

theorem pfAddEmptyEnvPage {l l' : EnvLoad} {r : ℤ} (h : Files e l.pageFile w) (hw : w.Consistent)
    (hzero : l.ptrZeroPage = w.ptrZeroPage) (hload : (ProgramLoading.pfAddEmptyEnvPage va).run l = .ok ((), l'))
    (hrun : (pfAddEmptyEnvPage e va true).run w = .ok (r, w')) (hr : r = 0) : Files e l'.pageFile w' := by
  subst hr
  have hfile := ((ProgramLoading.pfAddEmptyEnvPage_sat l va).ok hload).pageFile
  rw [funext hfile, hzero]
  exact h.add hw ((pfAddEnvPage_below w e va w.ptrZeroPage).ok hrun) ((pfAddEmptyEnvPage_zero w e va).ok hrun)

end Files

theorem addPages_ends (h : w.Consistent) (e : ℕ) (adds : List (ℕ × Page)) (file : ℕ → Option Page)
    (hfile : Files e file w) : Ends (addPages e adds) w fun _ w' => Keeps (pagesOf e) w w' ∧
      Files e (filed file adds) w' := by
  induction adds generalizing w file with
  | nil => exact .pure ⟨.refl h, hfile⟩
  | cons a adds ih =>
    refine (((pfAddEnvPage_sat w e a.1 a.2).weaken fun _ _ => trivial).and (pfAddEnvPage_below w e a.1 a.2)).bind
      fun r u ⟨hadd, hlt⟩ => ?_
    have hu := hadd.keeps h
    refine .ite (fun _ => .of_error rfl trivial) fun hr => ?_
    obtain rfl : r = 0 := hadd.code.resolve_right hr
    have hpages : Keeps (pagesOf e) w u := hu.mono (by rintro _ rfl; rfl)
    exact (ih hu.consistent _ (hfile.add h hlt hadd)).mono fun _ v hv => ⟨hpages.again hv.1, hv.2⟩

theorem createFile_ends (h : w.Consistent) (e : ℕ) (adds : List (ℕ × Page)) :
    Ends (createFile e adds) w fun _ w' => Keeps (pagesOf e) w w' ∧
      (Files e (Function.update (filed (fun _ => none) adds) (stackVa / pageSize) (some w.ptrZeroPage)) w' ∨
        Files e (filed (fun _ => none) adds) w' ∧ w'.shown (slotOf e stackVa) = none) := by
  have hnew := Keeps.setDirectory h e
  unfold createFile
  refine .bind_ok (run_modify _) ?_
  have hnone : Files e (fun _ => none) (w.setDirectory e none) := fun va _ =>
    if_pos (by rw [entry_setDirectory_none, if_pos (show (slotOf e va).1 = e from rfl)])
  refine (addPages_ends hnew.consistent e adds _ hnone).bind fun _ u ⟨hu, hadds⟩ => ?_
  have hzero : u.ptrZeroPage = w.ptrZeroPage := hu.zero
  refine ((pfAddEmptyEnvPage_zero u e stackVa).weaken fun _ _ => trivial).bind fun r v hadd => ?_
  have hv := hadd.keeps hu.consistent
  refine .pure ⟨(hnew.again hu).again (hv.mono (by rintro _ rfl; rfl)), ?_⟩
  by_cases hr : r = 0
  · subst hr
    exact .inl (hzero ▸ hadds.add hu.consistent (by decide) hadd)
  · obtain ⟨hsame, hnone⟩ := hadd.shown_full hr
    exact .inr ⟨fun a ha => hsame ▸ hadds a ha, hsame ▸ hnone⟩

theorem Step.keeps (hs : Step w W w') (h : w.Consistent) : Keeps W w w' := by
  cases hs with
  | add run => exact ((pfAddEnvPage_sat _ _ _ _).ok run).keeps h
  | addEmpty run => exact (pfAddEmptyEnvPage_keeps h _ _ _).ok run
  | update run => exact ((pfUpdateEnvPage_sat h _ _ _ _).ok run).2.keeps h
  | read run =>
    rw [pfReadEnvPage_run] at run
    cases run
    exact .refl h
  | remove run => exact ((pfRemoveEnvPage_returns h _ _).ok run).1.keeps
  | free run => exact ((pfFreeEnv_sat h _).ok run).keeps
  | load load => exact ((createFile_ends h _ _).ok load.file).1

theorem Run.keeps (hr : Run w W w') (h : w.Consistent) : Keeps W w w' := by
  induction hr with
  | refl => exact .refl h
  | step _ last ih => exact ih.trans (last.keeps ih.consistent)

/-- What is in the page file is read until it is written or removed. -/
theorem Run.read (hr : Run w W w') (h : w.Consistent) (hW : slotOf e va ∉ W) (hq : w.shown (slotOf e va) = some q) :
    (pfReadEnvPage e va).run w' = .ok (some q, w') := by
  rw [pfReadEnvPage_run, (hr.keeps h).shown _ hW q hq]

/-- Pages that were added as zeros are read as zeros, as long as they are not written. -/
def ReadsZero (w : PageFiles) : Prop := ∀ e va w₁ W w₂, (pfAddEmptyEnvPage e va true).run w = .ok (0, w₁) →
  Run w₁ W w₂ → slotOf e va ∉ W → (pfReadEnvPage e va).run w₂ = .ok (some zeroPage, w₂)

/-- An image whose segments lie below the kernel, and have no page in common and not the
stack page. -/
structure Apart (x : Elf) : Prop where
  sizes : ∀ seg ∈ programSegments x, seg.sizeInFile ≤ seg.sizeInMemory
  below : ∀ seg ∈ programSegments x, seg.virtualAddress + seg.sizeInMemory ≤ kernelBase
  disjoint : (programSegments x).Pairwise fun seg seg' => ∀ p, Covers seg p → ¬Covers seg' p
  stack : ∀ seg ∈ programSegments x, ¬Covers seg (stackVa / pageSize)

/-- The bytes of a segment that are not in the file are read as zeros, and so is the stack
page, if it is in the page file at all. -/
def LoadsZero (w : PageFiles) : Prop := ∀ e x adds w₁ W w₂, Load e x adds w w₁ → Run w₁ W w₂ →
  (Apart x → ∀ seg ∈ programSegments x, ∀ a, seg.virtualAddress + seg.sizeInFile ≤ a →
    a < seg.virtualAddress + seg.sizeInMemory → slotOf e a ∉ W →
      ∃ q, (pfReadEnvPage e a).run w₂ = .ok (some q, w₂) ∧ byteAt q a = 0) ∧
  (w₁.shown (slotOf e stackVa) ≠ none → slotOf e stackVa ∉ W →
    (pfReadEnvPage e stackVa).run w₂ = .ok (some zeroPage, w₂))

theorem readsZero (h : w.Consistent) (hz : w.ptrZeroPage = zeroPage) : ReadsZero w := by
  intro e va w₁ W w₂ hadd hrun hW
  have ha := (pfAddEmptyEnvPage_zero w e va).ok hadd
  refine hrun.read (ha.consistent h) hW ?_
  rw [ha.shown h, Function.update_self, hz]

theorem loadsZero (h : w.Consistent) (hz : w.ptrZeroPage = zeroPage) : LoadsZero w := by
  intro e x adds w₁ W w₂ hload hrun
  obtain ⟨hkeeps, hfiles⟩ := (createFile_ends h e adds).ok hload.file
  refine ⟨fun hx seg hseg a hle hlt hW => ?_, fun hne hW => ?_⟩
  · obtain ⟨s, t, hfile, hpages, hzero, hprogram, ht⟩ := hload.program
    obtain ⟨A, B, hsegs⟩ := List.append_of_mem hseg
    have hc : Covers seg (a / pageSize) := ProgramLoading.covers_of_mem (by omega) hlt
    have hne : a / pageSize ≠ stackVa / pageSize := fun hp => hx.stack seg hseg (hp ▸ hc)
    have hfinal := ((ProgramLoading.loadProgram_ends hx.sizes hx.disjoint hx.below
      ⟨hfile, hpages, hzero.trans hz⟩).ok hprogram).1 A seg B hsegs _ hc
    rw [ht, Function.update_of_ne hne, funext hfile] at hfinal
    have hlow : a < kernelBase := hlt.trans_le (hx.below seg hseg)
    have hshown : w₁.shown (slotOf e a) = filed (fun _ => none) adds (a / pageSize) := by
      rcases hfiles with hfiles | ⟨hfiles, -⟩
      · rw [hfiles a hlow, Function.update_of_ne hne]
      · exact hfiles a hlow
    exact ⟨_, hrun.read hkeeps.consistent hW (hshown.trans hfinal), ProgramLoading.finalPage_tail hle x B⟩
  · rcases hfiles with hfiles | ⟨-, hnone⟩
    · refine hrun.read hkeeps.consistent hW ((hfiles stackVa (by decide)).trans ?_)
      rw [Function.update_self, hz]
    · exact absurd hnone hne

/-- The pages that are added for the segments are those that the program has in the page
file before the stack page is added. -/
theorem loadProgram_adds (s : EnvLoad) (x : Elf) : ProgramLoading.Ends (loadProgram x) s fun _ t => ∃ adds,
    t.pageFile = Function.update (filed s.pageFile adds) (stackVa / pageSize) (some s.ptrZeroPage) := by
  have hP : ProgramLoading.KeptByAdds fun file => ∃ adds, file = filed s.pageFile adds := by
    rintro _ va q _ ⟨adds, rfl⟩
    exact ⟨adds ++ [(va, q)], by simp only [filed, List.foldl_append, List.foldl_cons, List.foldl_nil]⟩
  refine (ProgramLoading.loadProgram_holds hP ⟨⟨[], rfl⟩, rfl⟩ x).mono fun _ t ht => ?_
  obtain ⟨_, ⟨adds, rfl⟩, ht⟩ := ht
  exact ⟨adds, ht⟩

/-- The page files of a machine on which no environment was created. -/
def filesAt (s : Machine) (kmalloc : ℕ → Bool) : PageFiles where
  diskEnvPgdir _ := none
  diskFreeFrameList := s.diskFreeFrameList
  disk := s.disk
  ptrZeroPage := s.ram zeroFrame
  kmalloc := kmalloc
  kmallocs := 0

theorem filesAt_consistent {n : ℕ} (hfree : t.diskFreeFrameList = (List.range' 1 n).reverse)
    (kmalloc : ℕ → Bool) : (filesAt t kmalloc).Consistent :=
  consistent_of_none (w := filesAt t kmalloc) (fun _ => rfl) hfree

/-- A page of zeros that is read right after boot shows what is at `ptr_zero_page`. -/
theorem zeroFrame_of_readsZero {n : ℕ} (hn : n ≠ 0) (hfree : t.diskFreeFrameList = (List.range' 1 n).reverse)
    (h : ReadsZero (filesAt t fun _ => true)) : t.ram zeroFrame = zeroPage := by
  obtain ⟨d, ds, hds⟩ : ∃ d ds, (filesAt t fun _ => true).diskFreeFrameList = d :: ds := by
    have hne : t.diskFreeFrameList ≠ [] := by
      rw [hfree]
      simpa using hn
    exact List.exists_cons_of_ne_nil hne
  have hcons := filesAt_consistent hfree fun _ => true
  obtain ⟨r, w, hadd, hadds⟩ := ((pfAddEnvPage_sat (filesAt t fun _ => true) 0 0 (t.ram zeroFrame)).weaken
    fun _ => not_noTable (fun _ _ => rfl) (by decide)).exists_ok
  obtain rfl : r = 0 := hadds.served (.inr (by simp [hds]))
  have hempty : (pfAddEmptyEnvPage 0 0 true).run (filesAt t fun _ => true) = .ok (0, w) := hadd
  have hshown := ((pfAddEmptyEnvPage_zero _ 0 0).ok hempty).shown hcons
  have hread := h 0 0 w ∅ w hempty .refl (Set.notMem_empty _)
  rw [pfReadEnvPage_run, hshown, Function.update_self] at hread
  exact Option.some.inj (Prod.mk.inj (Except.ok.inj hread)).1

/-- All pages of zeros are zero, in every run, exactly when the machine was started with
zeros behind the bytes that `initialize_paging` clears. -/
theorem zeroPages_zero_iff (hb : Boot s) (hrun : initializePaging.run s = .ok ((), t)) :
    (∀ kmalloc W w, Run (filesAt t kmalloc) W w → ReadsZero w ∧ LoadsZero w) ↔
      ∀ o : Fin 4096, 1024 ≤ o.val → s.ram zeroFrame o = 0 := by
  obtain ⟨t', hrun', hp, hclear⟩ := hb.initializePaging_clears
  obtain rfl : t' = t := by
    rw [hrun] at hrun'
    cases hrun'
    rfl
  constructor
  · intro h o ho
    have hzero := zeroFrame_of_readsZero (by decide) hp.diskFree (h _ _ _ .refl).1
    have hbyte := congrFun (hclear.symm.trans hzero) o
    rwa [if_neg (not_lt.mpr ho)] at hbyte
  · intro h kmalloc W w hw
    have hzero : t'.ram zeroFrame = zeroPage := by
      funext o
      refine (congrFun hclear o).trans ?_
      split
      · rfl
      · rename_i ho
        exact h o (not_lt.mp ho)
    have hkeeps := hw.keeps (filesAt_consistent hp.diskFree kmalloc)
    exact ⟨readsZero hkeeps.consistent (hkeeps.zero.trans hzero), loadsZero hkeeps.consistent (hkeeps.zero.trans hzero)⟩

theorem zeroPages_zero_iff_bootMachine : ∃ t, initializePaging.run bootMachine = .ok ((), t) ∧
    ∀ kmalloc W w, Run (filesAt t kmalloc) W w → ReadsZero w ∧ LoadsZero w := by
  obtain ⟨t, hrun, -⟩ := bootMachine_boot.initializePaging_run
  exact ⟨t, hrun, (zeroPages_zero_iff bootMachine_boot hrun).mpr fun _ _ => rfl⟩

/-- Unless the memory is known to be zero, a page of zeros need not be. -/
theorem ones_not_readsZero : ¬∀ s t, Boot s → initializePaging.run s = .ok ((), t) →
    ∀ kmalloc W w, Run (filesAt t kmalloc) W w → ReadsZero w ∧ LoadsZero w := by
  intro h
  have hb : Boot (bootMachine.setFrame 1 fun _ => 1) := bootMachine_boot.setFrame_one _
  obtain ⟨t, hrun, hp, hclear⟩ := hb.initializePaging_clears
  have hzero := zeroFrame_of_readsZero (by decide) hp.diskFree (h _ t hb hrun _ _ _ .refl).1
  have hbyte := congrFun (hclear.symm.trans hzero) 1024
  rw [if_neg (by decide), setFrame_ram_self] at hbyte
  exact absurd hbyte (by decide)

end FosKernel.DiskFrames
