import Mathlib.Algebra.BigOperators.Group.Finset.Piecewise
import Mathlib.Algebra.BigOperators.Group.Finset.Sigma
import FosKernel.DiskFrames

/-!
# Runs of the page file

Over any number of environments the page file is a map from pages to contents, and each of
its disk frames is free or has one page.
-/

namespace FosKernel.DiskFrames
open FailingPrograms PageEntries Machine

def initializeDiskPageFile : Filer Unit := do
  modify (·.setFree [])
  forRange (fun i => modify fun w => w.setFree (i :: w.diskFreeFrameList)) 1 (pagesPerFile - 1)

/-- The page files and the memory that is paged: what the frames hold, and the frames that the
pages of environments are mapped to, writable. -/
structure Paging where
  files : PageFiles
  frames : ℕ → Page
  mapped : ℕ × ℕ → Option ℕ

abbrev Pager (α : Type) := Prog Paging FilePanic α

def onFiles {α : Type} (x : Filer α) : Pager α := do
  let s ← get
  match x.run s.files with
  | .ok (a, w) =>
    set { s with files := w }
    return a
  | .error p => throw p

/-- A call of the page file. A page is added with the contents `dataSrc`, and updated from the frame `f`. -/
inductive FileCall
  | add (e va : ℕ) (dataSrc : Page)
  | addEmpty (e va : ℕ) (initializeByZero : Bool)
  | update (e va f : ℕ)
  | read (e va : ℕ)
  | remove (e va : ℕ)
  | free (e : ℕ)

namespace FileCall

/-- While the directory of the environment is loaded, so that its pages are read and written at their addresses. -/
def run : FileCall → Pager ℤ
  | add e va dataSrc => onFiles (pfAddEnvPage e va dataSrc)
  | addEmpty e va z => onFiles (pfAddEmptyEnvPage e va z)
  | update e va f => do
    let s ← get
    let q := s.frames f
    onFiles (pfUpdateEnvPage e va q (if s.mapped (e, va / pageSize) = some f then some q else none))
  | read e va => do
    match ← onFiles (pfReadEnvPage e va) with
    | none => return ePageNotExistInPf
    | some q =>
      match (← get).mapped (e, va / pageSize) with
      | none => throw .pageFault
      | some f =>
        modify fun s => { s with frames := Function.update s.frames f q }
        return 0
  | remove e va => do
    onFiles (pfRemoveEnvPage e va)
    return 0
  | free e => do
    onFiles (pfFreeEnv e)
    return 0

def onDisk (s : Paging) : FileCall → Filer ℤ
  | add e va dataSrc => pfAddEnvPage e va dataSrc
  | addEmpty e va z => pfAddEmptyEnvPage e va z
  | update e va f =>
    pfUpdateEnvPage e va (s.frames f) (if s.mapped (e, va / pageSize) = some f then some (s.frames f) else none)
  | read e va => do return (← pfReadEnvPage e va).elim ePageNotExistInPf fun _ => 0
  | remove e va => do
    pfRemoveEnvPage e va
    return 0
  | free e => do
    pfFreeEnv e
    return 0

def env : FileCall → ℕ
  | add e _ _ | addEmpty e _ _ | update e _ _ | read e _ | remove e _ | free e => e

/-- The address is below `USER_TOP`. -/
def BelowUserTop : FileCall → Prop
  | add _ va _ | addEmpty _ va _ | update _ va _ | read _ va | remove _ va => va < userTop
  | free _ => True

def Initializes : FileCall → Prop
  | addEmpty _ _ z => z = true
  | _ => True

end FileCall

/-- The calls of a run, what the frames held at each of them and what it returned, the last one first. -/
abbrev History := List (FileCall × (ℕ → Page) × ℤ)

/-- A run from the start of the page file on, when no environment had a page in it, of calls
that `L` allows, between which memory changes in any way. An environment that is created again
is another one. -/
inductive FileRun (L : FileCall → Prop) (z : Page) : History → Paging → Prop
  | start {s : Paging} {w} (none : ∀ e, s.files.diskEnvPgdir e = none) (zero : s.files.ptrZeroPage = z)
    (run : initializeDiskPageFile.run s.files = .ok ((), w)) : FileRun L z [] { s with files := w }
  | call {h s s'} {c : FileCall} {r} (tail : FileRun L z h s) (legal : L c) (run : c.run.run s = .ok (r, s')) :
    FileRun L z ((c, s.frames, r) :: h) s'
  | memory {h} {s : Paging} (tail : FileRun L z h s) (frames : ℕ → Page) (mapped : ℕ × ℕ → Option ℕ) :
    FileRun L z h { s with frames, mapped }

/-- What the pages of the environments hold, by their numbers. -/
abbrev Contents := ℕ × ℕ → Option Page

/-- The contents after a call that returned `r`. -/
def FileCall.after (z : Page) (frames : ℕ → Page) (r : ℤ) (m : Contents) : FileCall → Contents
  | add e va dataSrc => if r = 0 then Function.update m (e, va / pageSize) (some dataSrc) else m
  | addEmpty e va _ => if r = 0 then Function.update m (e, va / pageSize) (some z) else m
  | update e va f => Function.update m (e, va / pageSize) (some (frames f))
  | read _ _ => m
  | remove e va => Function.update m (e, va / pageSize) none
  | free e => fun x => if x.1 = e then none else m x

def contents (z : Page) : History → Contents
  | [] => fun _ => none
  | (c, frames, r) :: h => c.after z frames r (contents z h)

variable {L : FileCall → Prop} {z : Page} {h : History} {w w' : PageFiles} {s s' : Paging} {c : FileCall} {r : ℤ}
  {m : Contents} {frames : ℕ → Page} {x : ℕ × ℕ} {e va : ℕ}

theorem onFiles_run {α : Type} {y : Filer α} {a : α} (h : y.run s.files = .ok (a, w)) :
    (onFiles y).run s = .ok (a, { s with files := w }) := by
  rw [onFiles, run_bind_ok run_get, h]
  rfl

theorem onFiles_ok {α : Type} {y : Filer α} {a : α} (h : (onFiles y).run s = .ok (a, s')) :
    ∃ w, y.run s.files = .ok (a, w) ∧ s' = { s with files := w } := by
  rw [onFiles, run_bind_ok run_get] at h
  rcases hy : y.run s.files with p | ⟨b, w⟩
  · rw [hy] at h
    cases h
  · rw [hy] at h
    cases h
    exact ⟨w, rfl, rfl⟩

theorem read_run (s : Paging) (e va : ℕ) : (FileCall.read e va).run.run s =
    match s.files.shown (slotOf e va) with
    | none => .ok (ePageNotExistInPf, s)
    | some q =>
      match s.mapped (e, va / pageSize) with
      | none => .error .pageFault
      | some f => .ok (0, { s with frames := Function.update s.frames f q }) := by
  rw [FileCall.run, run_bind_ok (onFiles_run (pfReadEnvPage_run s.files e va))]
  cases s.files.shown (slotOf e va) with
  | none => rfl
  | some q =>
    dsimp only
    rw [run_bind_ok run_get]
    cases s.mapped (e, va / pageSize) with
    | none => rfl
    | some f => rfl

theorem FileCall.onDisk_ok (hrun : c.run.run s = .ok (r, s')) : (c.onDisk s).run s.files = .ok (r, s'.files) := by
  cases c with
  | add e va src =>
    obtain ⟨w, hw, rfl⟩ := onFiles_ok hrun
    exact hw
  | addEmpty e va z =>
    obtain ⟨w, hw, rfl⟩ := onFiles_ok hrun
    exact hw
  | update e va f =>
    rw [run, run_bind_ok run_get] at hrun
    obtain ⟨w, hw, rfl⟩ := onFiles_ok hrun
    exact hw
  | read e va =>
    rw [onDisk, run_bind_ok (pfReadEnvPage_run s.files e va), run_pure]
    rw [read_run] at hrun
    cases hq : s.files.shown (slotOf e va) with
    | none =>
      rw [hq] at hrun
      cases hrun
      rfl
    | some q =>
      rw [hq] at hrun
      dsimp only at hrun
      cases hf : s.mapped (e, va / pageSize) with
      | none =>
        rw [hf] at hrun
        cases hrun
      | some f =>
        rw [hf] at hrun
        cases hrun
        rfl
  | remove e va =>
    rcases hx : (onFiles (pfRemoveEnvPage e va)).run s with p | ⟨a, t⟩
    · rw [run, run_bind_error hx] at hrun
      cases hrun
    · rw [run, run_bind_ok hx] at hrun
      cases hrun
      obtain ⟨w, hw, rfl⟩ := onFiles_ok hx
      rw [onDisk, run_bind_ok hw]
      rfl
  | free e =>
    rcases hx : (onFiles (pfFreeEnv e)).run s with p | ⟨a, t⟩
    · rw [run, run_bind_error hx] at hrun
      cases hrun
    · rw [run, run_bind_ok hx] at hrun
      cases hrun
      obtain ⟨w, hw, rfl⟩ := onFiles_ok hx
      rw [onDisk, run_bind_ok hw]
      rfl

theorem update_given (b c : Prop) [Decidable b] [Decidable c] (q : Page) :
    (if b then (if c then some q else none).getD q else q) = q := by
  by_cases hb : b
  · by_cases hc : c
    · rw [if_pos hb, if_pos hc, Option.getD_some]
    · rw [if_pos hb, if_neg hc, Option.getD_none]
  · rw [if_neg hb]

theorem removeCall_returns (hw : w.Consistent) (s : Paging) (e va : ℕ) : Returns ((FileCall.remove e va).onDisk s) w
    fun r v => r = 0 ∧ Frees {slotOf e va} {slotOf e va} w v :=
  (pfRemoveEnvPage_returns hw e va).bind fun _ _ hu => .pure ⟨rfl, hu.1⟩

theorem freeCall_sat (hw : w.Consistent) (s : Paging) (e : ℕ) : Sat (fun _ => w.diskEnvPgdir e = none)
    ((FileCall.free e).onDisk s) w fun r v => r = 0 ∧ Frees (userPages e) (pagesOf e) w v :=
  (pfFreeEnv_sat hw e).bind fun _ _ hu => .pure ⟨rfl, hu⟩

/-- The page file holds the pages of `m`. -/
structure Holds (z : Page) (m : Contents) (w : PageFiles) : Prop where
  consistent : w.Consistent
  zero : w.ptrZeroPage = z
  shown : ∀ e va, va < userTop → w.shown (slotOf e va) = m (e, va / pageSize)

namespace Holds

theorem add {src : Page} (hm : Holds z m w) (hva : va < userTop) (ha : AddsPage (slotOf e va) src w 0 w') :
    Holds z (Function.update m (e, va / pageSize) (some src)) w' := by
  refine ⟨ha.consistent hm.consistent, ha.zero.trans hm.zero, fun e' va' hva' => ?_⟩
  rw [ha.shown hm.consistent, Function.update_apply, Function.update_apply, hm.shown e' va' hva']
  exact if_congr (slotOf_eq_iff hva hva') rfl rfl

theorem add_or {src : Page} (hm : Holds z m w) (hva : va < userTop) (ha : AddsPage (slotOf e va) src w r w') :
    Holds z (if r = 0 then Function.update m (e, va / pageSize) (some src) else m) w' := by
  by_cases hr : r = 0
  · subst hr
    exact hm.add hva ha
  · rw [if_neg hr]
    refine ⟨ha.consistent hm.consistent, ha.zero.trans hm.zero, fun e' va' hva' => ?_⟩
    rw [(ha.shown_full hr).1, hm.shown e' va' hva']

theorem remove {S T : Set Slot} {m' : Contents} (hm : Holds z m w) (hf : Frees S T w w')
    (hm' : ∀ e va, va < userTop → slotOf e va ∈ T ∧ m' (e, va / pageSize) = none ∨
      slotOf e va ∉ T ∧ m' (e, va / pageSize) = m (e, va / pageSize)) : Holds z m' w' := by
  refine ⟨hf.consistent, hf.zero.trans hm.zero, fun e va hva => ?_⟩
  rcases hm' e va hva with ⟨hT, hnone⟩ | ⟨hT, hkept⟩
  · rw [hf.shown_cleared hT, hnone]
  · rw [hf.shown_kept hT, hkept, hm.shown e va hva]

theorem entry_eq_zero_iff (hm : Holds z m w) (hva : va < userTop) :
    w.entry (slotOf e va) = 0 ↔ m (e, va / pageSize) = none := by
  rw [← hm.shown e va hva, PageFiles.shown]
  by_cases h0 : w.entry (slotOf e va) = 0 <;> simp [h0]

theorem call (hm : Holds z m s.files) (hc : c.BelowUserTop) (hi : c.Initializes) (hrun : c.run.run s = .ok (r, s')) :
    Holds z (c.after z s.frames r m) s'.files := by
  have hdisk := FileCall.onDisk_ok hrun
  cases c with
  | add e va src => exact hm.add_or hc ((pfAddEnvPage_sat _ e va src).ok hdisk)
  | addEmpty e va b =>
    obtain rfl : b = true := hi
    have ha := (pfAddEmptyEnvPage_zero _ e va).ok hdisk
    rw [hm.zero] at ha
    exact hm.add_or hc ha
  | update e va f =>
    obtain ⟨-, ha⟩ := (pfUpdateEnvPage_sat hm.consistent e va _ _).ok hdisk
    rw [update_given] at ha
    exact hm.add hc ha
  | read e va =>
    rw [FileCall.onDisk, run_bind_ok (pfReadEnvPage_run s.files e va)] at hdisk
    obtain ⟨-, hfiles⟩ := Prod.mk.inj (Except.ok.inj hdisk)
    exact hfiles ▸ hm
  | remove e va =>
    refine hm.remove ((removeCall_returns hm.consistent s e va).ok hdisk).2 fun e' va' hva' => ?_
    by_cases hx : (e', va' / pageSize) = (e, va / pageSize)
    · exact .inl ⟨(slotOf_eq_iff hc hva').mpr hx, by rw [FileCall.after, hx, Function.update_self]⟩
    · exact .inr ⟨fun hs => hx ((slotOf_eq_iff hc hva').mp hs), Function.update_of_ne hx _ _⟩
  | free e =>
    refine hm.remove ((freeCall_sat hm.consistent s e).ok hdisk).2 fun e' va' _ => ?_
    by_cases hx : e' = e
    · exact .inl ⟨hx, if_pos hx⟩
    · exact .inr ⟨hx, if_neg hx⟩

end Holds

theorem foldl_setFree (w : PageFiles) (l ds : List ℕ) :
    l.foldl (fun u i => u.setFree (i :: u.diskFreeFrameList)) (w.setFree ds) = w.setFree (l.reverse ++ ds) := by
  induction l generalizing ds with
  | nil => rfl
  | cons i l ih =>
    rw [List.foldl_cons, List.reverse_cons, List.append_assoc, List.singleton_append]
    exact ih (i :: ds)

theorem initializeDiskPageFile_run (w : PageFiles) : initializeDiskPageFile.run w =
    .ok ((), w.setFree (List.range' 1 (pagesPerFile - 1)).reverse) := by
  have hloop (n : ℕ) :
      (forRange (fun i => (modify fun w => w.setFree (i :: w.diskFreeFrameList) : Filer Unit)) 1 n).run (w.setFree []) =
        .ok ((), (List.range' 1 n).foldl (fun u i => u.setFree (i :: u.diskFreeFrameList)) (w.setFree [])) :=
    forRange_run (fun i (u : PageFiles) => u.setFree (i :: u.diskFreeFrameList)) (fun _ _ => True) trivial fun _ _ _ _ _ => ⟨rfl, trivial⟩
  rw [initializeDiskPageFile, run_bind_ok (run_modify _), hloop, foldl_setFree, List.append_nil]

theorem eq_of_initialize (hrun : initializeDiskPageFile.run w = .ok ((), w')) :
    ∃ n, n = pagesPerFile - 1 ∧ w' = w.setFree (List.range' 1 n).reverse :=
  ⟨_, rfl, (Prod.mk.inj (Except.ok.inj (hrun.symm.trans (initializeDiskPageFile_run w)))).2⟩

theorem FileRun.holds (hr : FileRun L z h s) (hL : ∀ c, L c → c.BelowUserTop ∧ c.Initializes) :
    Holds z (contents z h) s.files := by
  induction hr with
  | @start s w hnone hzero hrun =>
    obtain ⟨n, -, rfl⟩ := eq_of_initialize hrun
    have hnone' : ∀ e, (s.files.setFree (List.range' 1 n).reverse).diskEnvPgdir e = none := hnone
    exact ⟨consistent_of_none hnone' rfl, hzero, fun e va _ => if_pos (entry_of_none hnone' _)⟩
  | call _ hlegal hrun ih => exact ih.call (hL _ hlegal).1 (hL _ hlegal).2 hrun
  | memory _ _ _ ih => exact ih

/-- A page that is not in the page file is reported so, and one that is there is copied to the
frame that it is mapped to. -/
def Reads (s : Paging) (e va : ℕ) : Option Page → Prop
  | none => (FileCall.read e va).run.run s = .ok (ePageNotExistInPf, s)
  | some q => ∀ f, s.mapped (e, va / pageSize) = some f →
      (FileCall.read e va).run.run s = .ok (0, { s with frames := Function.update s.frames f q })

theorem Holds.reads (hm : Holds z m s.files) (hva : va < userTop) : Reads s e va (m (e, va / pageSize)) := by
  have hread := read_run s e va
  rw [hm.shown e va hva] at hread
  cases hq : m (e, va / pageSize) with
  | none =>
    rw [hq] at hread
    exact hread
  | some q =>
    rw [hq] at hread
    intro f hf
    rw [hf] at hread
    exact hread

/-- There is what the call needs: memory and a disk frame for a page that is added, a place for one that is read,
and a directory that is freed. -/
def FileCall.Served (m : Contents) (s : Paging) : FileCall → Prop
  | add e va _ | addEmpty e va _ =>
    s.files.Supplied ∧ (m (e, va / pageSize) ≠ none ∨ s.files.diskFreeFrameList ≠ [])
  | update e va _ =>
    s.files.Supplied ∧ (m (e, va / pageSize) ≠ none ∨ InHeapOrStack va ∧ s.files.diskFreeFrameList ≠ [])
  | read e va => m (e, va / pageSize) ≠ none ∧ s.mapped (e, va / pageSize) ≠ none
  | remove _ _ => True
  | free e => s.files.diskEnvPgdir e ≠ none

theorem Holds.served (hm : Holds z m s.files) (hc : c.BelowUserTop) (hi : c.Initializes) (hserved : c.Served m s) :
    ∃ s', c.run.run s = .ok (0, s') := by
  have hin {e va : ℕ} (hva : va < userTop) (h : m (e, va / pageSize) ≠ none) : s.files.entry (slotOf e va) ≠ 0 :=
    fun h0 => h ((hm.entry_eq_zero_iff hva).mp h0)
  cases c with
  | add e va src =>
    obtain ⟨hs, hroom⟩ := hserved
    obtain ⟨r, w, hrun, ha⟩ := ((pfAddEnvPage_sat s.files e va src).weaken fun _ => not_noTable hs hc).exists_ok
    rw [ha.served (hroom.imp_left (hin hc))] at hrun
    exact ⟨_, onFiles_run hrun⟩
  | addEmpty e va b =>
    obtain rfl : b = true := hi
    obtain ⟨hs, hroom⟩ := hserved
    obtain ⟨r, w, hrun, ha⟩ := ((pfAddEmptyEnvPage_zero s.files e va).weaken fun _ => not_noTable hs hc).exists_ok
    rw [ha.served (hroom.imp_left (hin hc))] at hrun
    exact ⟨_, onFiles_run hrun⟩
  | update e va f =>
    obtain ⟨hs, hroom⟩ := hserved
    have hupdate : ¬NoUpdate s.files e va := by
      rintro (hno | ⟨h0, hno⟩)
      · exact not_noTable hs hc hno
      · rcases hroom with hroom | ⟨hva, hfree⟩
        · exact hin hc hroom h0
        · exact hno.elim (fun h => h hva) hfree
    obtain ⟨r, w, hrun, rfl, -⟩ := ((pfUpdateEnvPage_sat hm.consistent e va (s.frames f)
      (if s.mapped (e, va / pageSize) = some f then some (s.frames f) else none)).weaken fun _ => hupdate).exists_ok
    exact ⟨_, (run_bind_ok run_get).trans (onFiles_run hrun)⟩
  | read e va =>
    obtain ⟨hq, hf⟩ := hserved
    obtain ⟨q, hq⟩ := Option.ne_none_iff_exists'.mp hq
    obtain ⟨f, hf⟩ := Option.ne_none_iff_exists'.mp hf
    have hread := hm.reads (e := e) hc
    rw [hq] at hread
    exact ⟨_, hread f hf⟩
  | remove e va =>
    obtain ⟨_, w, hrun, -⟩ := (pfRemoveEnvPage_returns hm.consistent e va).exists_ok
    exact ⟨_, (run_bind_ok (onFiles_run hrun)).trans (run_pure _)⟩
  | free e =>
    obtain ⟨_, w, hrun, -⟩ := ((pfFreeEnv_sat hm.consistent e).weaken fun _ => hserved).exists_ok
    exact ⟨_, (run_bind_ok (onFiles_run hrun)).trans (run_pure _)⟩

/-- A page file with memory for its tables. The first page of each environment is mapped to the frame with its
number. -/
def newPaging : Paging where
  files := ⟨fun _ => none, [], fun _ => zeroPage, zeroPage, fun _ => true, 0⟩
  frames _ := zeroPage
  mapped x := if x.2 = 0 then some x.1 else none

def ones : Page := fun _ => 1

/-- The disk frame of a page of environment 0 is recycled by environment 1. -/
def recycling : List FileCall :=
  [.add 0 0 ones, .add 1 0 zeroPage, .remove 0 0, .add 1 4096 ones, .add 0 0 zeroPage]

theorem fileRun_recycling (hL : ∀ c ∈ recycling, L c) : ∃ s,
    FileRun L zeroPage (recycling.reverse.map fun c => (c, newPaging.frames, 0)) s ∧ s.mapped = newPaging.mapped := by
  have hstart := initializeDiskPageFile_run newPaging.files
  have hfree : (List.range' 1 (pagesPerFile - 1)).reverse = (pagesPerFile - 1) :: (pagesPerFile - 2) ::
      (pagesPerFile - 3) :: (List.range' 1 (pagesPerFile - 4)).reverse := by
    obtain ⟨n, hn⟩ : ∃ n, pagesPerFile = n + 4 := ⟨pagesPerFile - 4, by decide⟩
    simp [hn, List.range'_1_concat]
    omega
  rw [hfree] at hstart
  -- the free disk frames behind the first three are not looked at
  generalize (List.range' 1 (pagesPerFile - 4)).reverse = ds at hstart
  have hnew := FileRun.start (L := L) (s := newPaging) (fun _ => rfl) rfl hstart
  have hadd := hnew.call (hL (.add 0 0 ones) (by simp [recycling])) rfl
  have hother := hadd.call (hL (.add 1 0 zeroPage) (by simp [recycling])) rfl
  have hremove := hother.call (hL (.remove 0 0) (by simp [recycling])) rfl
  have hrecycle := hremove.call (hL (.add 1 4096 ones) (by simp [recycling])) rfl
  exact ⟨_, hrecycle.call (hL (.add 0 0 zeroPage) (by simp [recycling])) rfl, rfl⟩

/-- The numbers below `n` are free or have a user page, and there are no others. -/
structure Accounted (n : ℕ) (w : PageFiles) : Prop where
  consistent : w.Consistent
  all : ∀ d ≠ 0, (d ∈ w.diskFreeFrameList ∨ ∃ x, w.entry x = d) ↔ d < n
  pages : ∀ x, w.entry x ≠ 0 → x ∈ userPages x.1

theorem slotOf_mem_userPages (hva : va < userTop) : slotOf e va ∈ userPages e := by
  refine ⟨rfl, ?_, Nat.mod_lt _ (by decide)⟩
  have htop : pdx userTop = userTop / 2 ^ 22 := by decide
  rw [slotOf, htop, pdx, Nat.mod_eq_of_lt]
  · simp only [userTop] at *
    omega
  · simp only [userTop] at *
    omega

namespace Accounted

variable {n : ℕ} {y : Slot}

theorem same (ha : Accounted n w) (hs : SameEntries w w') : Accounted n w' := by
  refine ⟨hs.consistent ha.consistent, ?_, ?_⟩
  · rw [hs.free, hs.entry]
    exact ha.all
  · rw [hs.entry]
    exact ha.pages

theorem givesFrame {o : Option ℕ} (ha : Accounted n w) (hy : y ∈ userPages y.1) (hg : GivesFrame y w w' o) :
    Accounted n w' := by
  cases hg with
  | old _ hs => exact ha.same hs
  | full _ _ hs => exact ha.same hs
  | @new d ds hold hfree hnew hs =>
    refine ⟨(GivesFrame.new hold hfree hnew hs).consistent ha.consistent, fun d' hd' => ?_, fun x hx => ?_⟩
    · rw [← ha.all d' hd', hnew.1, hnew.2, hfree, List.mem_cons]
      constructor
      · rintro (hmem | ⟨x, hx⟩)
        · exact .inl (.inr hmem)
        · by_cases hxy : x = y
          · rw [hxy, Function.update_self] at hx
            exact .inl (.inl hx.symm)
          · rw [Function.update_of_ne hxy] at hx
            exact .inr ⟨x, hx⟩
      · rintro ((rfl | hmem) | ⟨x, hx⟩)
        · exact .inr ⟨y, Function.update_self ..⟩
        · exact .inl hmem
        · have hxy : x ≠ y := by
            rintro rfl
            exact hd' (hx.symm.trans hold)
          exact .inr ⟨x, (Function.update_of_ne hxy _ _).trans hx⟩
    · rw [hnew.1] at hx
      by_cases hxy : x = y
      · rwa [hxy]
      · rw [Function.update_of_ne hxy] at hx
        exact ha.pages x hx

theorem addsPage {src : Page} (ha : Accounted n w) (hy : y ∈ userPages y.1) (h : AddsPage y src w r w') :
    Accounted n w' := by
  rcases h with ⟨-, hg⟩ | ⟨-, d, u, hg, rfl⟩
  · exact ha.givesFrame hy hg
  · have hu := ha.givesFrame hy hg
    exact ⟨hu.consistent, hu.all, hu.pages⟩

theorem frees {S T : Set Slot} (ha : Accounted n w) (hf : Frees S T w w')
    (hTS : ∀ x ∈ T, w.entry x ≠ 0 → x ∈ S) : Accounted n w' := by
  refine ⟨hf.consistent, fun d hd => ?_, fun x hx => ?_⟩
  · rw [← ha.all d hd, hf.free]
    constructor
    · rintro ((hmem | ⟨-, x, -, hx⟩) | ⟨x, hx⟩)
      · exact .inl hmem
      · exact .inr ⟨x, hx⟩
      · by_cases hxT : x ∈ T
        · exact absurd (hx.symm.trans (hf.cleared x hxT)) hd
        · exact .inr ⟨x, (hf.kept x hxT).symm.trans hx⟩
    · rintro (hmem | ⟨x, hx⟩)
      · exact .inl (.inl hmem)
      · by_cases hxT : x ∈ T
        · exact .inl (.inr ⟨hd, x, hTS x hxT (hx ▸ hd), hx⟩)
        · exact .inr ⟨x, (hf.kept x hxT).trans hx⟩
  · by_cases hxT : x ∈ T
    · exact absurd (hf.cleared x hxT) hx
    · rw [hf.kept x hxT] at hx
      exact ha.pages x hx

theorem call (ha : Accounted n s.files) (hc : c.BelowUserTop) (hrun : c.run.run s = .ok (r, s')) :
    Accounted n s'.files := by
  have hdisk := FileCall.onDisk_ok hrun
  cases c with
  | add e va src => exact ha.addsPage (slotOf_mem_userPages hc) ((pfAddEnvPage_sat _ e va src).ok hdisk)
  | addEmpty e va z =>
    cases z with
    | true => exact ha.addsPage (slotOf_mem_userPages hc) ((pfAddEmptyEnvPage_zero _ e va).ok hdisk)
    | false =>
      rcases (pfAddEmptyEnvPage_false _ e va).ok hdisk with ⟨-, hg⟩ | ⟨-, d, hg⟩
      · exact ha.givesFrame (slotOf_mem_userPages hc) hg
      · exact ha.givesFrame (slotOf_mem_userPages hc) hg
  | update e va f =>
    exact ha.addsPage (slotOf_mem_userPages hc) ((pfUpdateEnvPage_sat ha.consistent e va _ _).ok hdisk).2
  | read e va =>
    rw [FileCall.onDisk, run_bind_ok (pfReadEnvPage_run s.files e va)] at hdisk
    obtain ⟨-, hfiles⟩ := Prod.mk.inj (Except.ok.inj hdisk)
    exact hfiles ▸ ha
  | remove e va => exact ha.frees ((removeCall_returns ha.consistent s e va).ok hdisk).2 fun x hx _ => hx
  | free e =>
    refine ha.frees ((freeCall_sat ha.consistent s e).ok hdisk).2 fun x hx h0 => ?_
    obtain rfl : x.1 = e := hx
    exact ha.pages x h0

end Accounted

/-- Other environments have the same directories. -/
def Elsewhere (e : ℕ) (w w' : PageFiles) : Prop := ∀ e' ≠ e, w'.diskEnvPgdir e' = w.diskEnvPgdir e'

namespace Elsewhere

variable {v : PageFiles}

theorem refl (e : ℕ) (w : PageFiles) : Elsewhere e w w := fun _ _ => rfl

theorem trans (h : Elsewhere e w w') (h' : Elsewhere e w' v) : Elsewhere e w v :=
  fun e' he' => (h' e' he').trans (h e' he')

theorem setDirectory (e : ℕ) (w : PageFiles) (dir : Option (ℕ → Option (ℕ → ℕ))) :
    Elsewhere e w (w.setDirectory e dir) := fun _ he' => Function.update_of_ne he' _ _

theorem of_eq (h : w'.diskEnvPgdir = w.diskEnvPgdir) : Elsewhere e w w' := fun _ _ => by rw [h]

end Elsewhere

theorem kmallocPage_elsewhere (e : ℕ) (w : PageFiles) : Ends kmallocPage w fun _ w' => Elsewhere e w w' :=
  ((kmallocPage_returns w).weaken fun _ => False.elim).mono fun _ _ h => .of_eq h.2.1

theorem freeDiskFrame_elsewhere (e : ℕ) (w : PageFiles) (d : ℕ) :
    Ends (freeDiskFrame d) w fun _ w' => Elsewhere e w w' := by
  refine .of_ok (freeDiskFrame_run w d) ?_
  split
  · exact .refl e w
  · exact .of_eq rfl

theorem getDiskPageDirectory_elsewhere (e : ℕ) (w : PageFiles) :
    Ends (getDiskPageDirectory e) w fun _ w' => Elsewhere e w w' := by
  unfold getDiskPageDirectory
  refine .bind_ok run_get (.ite (fun _ => ?_) fun _ => .pure (.refl e w))
  refine (kmallocPage_elsewhere e w).bind fun b u hu => ?_
  exact .ite (fun _ => .of_ok (run_modify _) (hu.trans (.setDirectory e u _))) fun _ => .pure hu

theorem getDiskPageTable_elsewhere (e : ℕ) (w : PageFiles) (va : ℕ) (create : Bool) :
    Ends (getDiskPageTable e va create) w fun _ w' => Elsewhere e w w' := by
  unfold getDiskPageTable
  refine .bind_ok run_get ?_
  cases w.diskEnvPgdir e with
  | none => exact .of_error rfl trivial
  | some dir =>
    dsimp only
    cases dir (pdx va) with
    | some pt => exact .pure (.refl e w)
    | none =>
      refine .ite (fun _ => ?_) fun _ => .pure (.refl e w)
      refine (kmallocPage_elsewhere e w).bind fun b u hu => ?_
      exact .ite (fun _ => .bind_ok (run_modify _) (.pure (hu.trans (.setDirectory e u _)))) fun _ => .pure hu

theorem diskFrameOf_elsewhere (e : ℕ) (w : PageFiles) (va : ℕ) :
    Ends (diskFrameOf e va) w fun _ w' => Elsewhere e w w' := by
  unfold diskFrameOf
  refine .ite (fun _ => .of_error rfl trivial) fun _ => ?_
  refine (getDiskPageDirectory_elsewhere e w).bind fun _ u hu => ?_
  refine (getDiskPageTable_elsewhere e u va true).bind fun r v hv => ?_
  have huv := hu.trans hv
  cases r with
  | none => exact .of_error rfl trivial
  | some pt =>
    refine .ite (fun _ => .pure huv) fun _ => ?_
    refine ((allocateDiskFrame_returns v).weaken fun _ => False.elim).bind fun r t hr => ?_
    rcases hr with ⟨rfl, -, rfl⟩ | ⟨d, ds, rfl, -, rfl⟩
    · exact .pure huv
    · exact .bind_ok (run_modify _) (.pure (huv.trans (.setDirectory e (v.setFree ds) _)))

theorem pfAddEnvPage_elsewhere (e : ℕ) (w : PageFiles) (va : ℕ) (src : Page) :
    Ends (pfAddEnvPage e va src) w fun _ w' => Elsewhere e w w' := by
  unfold pfAddEnvPage
  refine (diskFrameOf_elsewhere e w va).bind fun r u hu => ?_
  cases r with
  | none => exact .pure hu
  | some d => exact .of_ok rfl hu

theorem pfAddEmptyEnvPage_elsewhere (e : ℕ) (w : PageFiles) (va : ℕ) (z : Bool) :
    Ends (pfAddEmptyEnvPage e va z) w fun _ w' => Elsewhere e w w' := by
  unfold pfAddEmptyEnvPage
  refine .ite (fun _ => .bind_ok run_get (pfAddEnvPage_elsewhere e w va _)) fun _ => ?_
  refine (diskFrameOf_elsewhere e w va).bind fun r u hu => ?_
  cases r with
  | none => exact .pure hu
  | some d => exact .pure hu

theorem pfWriteFrame_elsewhere (e : ℕ) (w : PageFiles) (va : ℕ) (q : Page) :
    Ends (pfWriteFrame e va q) w fun _ w' => Elsewhere e w w' := by
  unfold pfWriteFrame
  refine (getDiskPageTable_elsewhere e w va false).bind fun r u hu => ?_
  cases r with
  | none => exact .of_error rfl trivial
  | some pt => exact .of_ok rfl hu

theorem pfUpdateEnvPage_elsewhere (e : ℕ) (w : PageFiles) (va : ℕ) (q : Page) (mapped : Option Page) :
    Ends (pfUpdateEnvPage e va q mapped) w fun _ w' => Elsewhere e w w' := by
  have hwrite {u : PageFiles} (hu : Elsewhere e w u) : Ends (pfWriteFrame e va q) u fun _ w' => Elsewhere e w w' :=
    (pfWriteFrame_elsewhere e u va q).mono fun _ _ hv => hu.trans hv
  unfold pfUpdateEnvPage
  refine .ite (fun _ => .of_error rfl trivial) fun _ => ?_
  refine (getDiskPageDirectory_elsewhere e w).bind fun _ u hu => ?_
  refine (getDiskPageTable_elsewhere e u va false).bind fun r v hv => ?_
  have huv := hu.trans hv
  refine .ite (fun _ => .ite (fun _ => ?_) fun _ => .of_error rfl trivial) fun _ => hwrite huv
  cases mapped with
  | some p =>
    refine (pfAddEnvPage_elsewhere e v va p).bind fun r t ht => ?_
    exact .ite (fun _ => .of_error rfl trivial) fun _ => .pure (huv.trans ht)
  | none =>
    refine (pfAddEmptyEnvPage_elsewhere e v va false).bind fun r t ht => ?_
    exact .ite (fun _ => .of_error rfl trivial) fun _ => hwrite (huv.trans ht)

theorem pfRemoveEnvPage_elsewhere (e : ℕ) (w : PageFiles) (va : ℕ) :
    Ends (pfRemoveEnvPage e va) w fun _ w' => Elsewhere e w w' := by
  unfold pfRemoveEnvPage
  refine .bind_ok run_get (.ite (fun _ => .pure (.refl e w)) fun _ => ?_)
  refine (getDiskPageTable_elsewhere e w va false).bind fun r u hu => ?_
  cases r with
  | none => exact .pure hu
  | some pt =>
    refine .bind_ok (run_modify _) ((freeDiskFrame_elsewhere e _ _).mono fun _ v hv => ?_)
    exact (hu.trans (.setDirectory e u _)).trans hv

theorem freeTable_elsewhere (e : ℕ) (w : PageFiles) (i : ℕ) :
    Ends (freeTable e i) w fun _ w' => Elsewhere e w w' := by
  unfold freeTable
  refine .bind_ok run_get (.ite (fun _ => ?_) fun _ => .pure (.refl e w))
  refine Sat.bind (Sat.forRange (fun _ u => Elsewhere e w u) (.refl e w) fun k u _ _ hu => ?_) fun _ u hu => ?_
  · refine .bind_ok run_get (.bind_ok (run_modify _) ((freeDiskFrame_elsewhere e _ _).mono fun _ v hv => ?_))
    exact (hu.trans (.setDirectory e u _)).trans hv
  · exact .of_ok (run_modify _) (hu.trans (.setDirectory e u _))

theorem pfFreeEnv_elsewhere (e : ℕ) (w : PageFiles) : Ends (pfFreeEnv e) w fun _ w' => Elsewhere e w w' := by
  unfold pfFreeEnv
  refine .bind_ok run_get (.ite (fun _ => .of_error rfl trivial) fun _ => ?_)
  refine Sat.bind (Sat.forRange (fun _ u => Elsewhere e w u) (.refl e w) fun k u _ _ hu => ?_) fun _ u hu => ?_
  · exact (freeTable_elsewhere e u k).mono fun _ v hv => hu.trans hv
  · exact .of_ok (run_modify _) (hu.trans (.setDirectory e u _))

theorem FileCall.run_elsewhere (hrun : c.run.run s = .ok (r, s')) : Elsewhere c.env s.files s'.files := by
  have hdisk := onDisk_ok hrun
  cases c with
  | add e va src => exact (pfAddEnvPage_elsewhere e _ va src).ok hdisk
  | addEmpty e va z => exact (pfAddEmptyEnvPage_elsewhere e _ va z).ok hdisk
  | update e va f => exact (pfUpdateEnvPage_elsewhere e _ va _ _).ok hdisk
  | read e va =>
    rw [onDisk, run_bind_ok (pfReadEnvPage_run s.files e va)] at hdisk
    obtain ⟨-, hfiles⟩ := Prod.mk.inj (Except.ok.inj hdisk)
    exact hfiles ▸ .refl e _
  | remove e va =>
    have hends : Ends ((remove e va).onDisk s) s.files fun _ w => Elsewhere e s.files w :=
      (pfRemoveEnvPage_elsewhere e s.files va).bind fun _ _ hu => .pure hu
    exact hends.ok hdisk
  | free e =>
    have hends : Ends ((free e).onDisk s) s.files fun _ w => Elsewhere e s.files w :=
      (pfFreeEnv_elsewhere e s.files).bind fun _ _ hu => .pure hu
    exact hends.ok hdisk

def withDirectory (w : PageFiles) : Set ℕ := {e | (w.diskEnvPgdir e).isSome}

theorem FileRun.finite_withDirectory (hr : FileRun L z h s) : (withDirectory s.files).Finite := by
  induction hr with
  | @start s w hnone _ hrun =>
    obtain ⟨n, -, rfl⟩ := eq_of_initialize hrun
    refine Set.finite_empty.subset fun e he => ?_
    have hsome : (s.files.diskEnvPgdir e).isSome := he
    rw [hnone] at hsome
    cases hsome
  | @call h s s' c r _ _ hrun ih =>
    refine (ih.insert c.env).subset fun e he => ?_
    by_cases hce : e = c.env
    · exact .inl hce
    · right
      have hsame := FileCall.run_elsewhere hrun e hce
      exact (congrArg Option.isSome hsame).symm.trans he
  | memory _ _ _ ih => exact ih

theorem FileRun.accounted (hr : FileRun L z h s) (hL : ∀ c, L c → c.BelowUserTop) :
    Accounted pagesPerFile s.files := by
  induction hr with
  | @start s w hnone _ hrun =>
    obtain ⟨n, hn, rfl⟩ := eq_of_initialize hrun
    have hnone' : ∀ e, (s.files.setFree (List.range' 1 n).reverse).diskEnvPgdir e = none := hnone
    refine ⟨consistent_of_none hnone' rfl, fun d hd => ?_, fun x hx => absurd (entry_of_none hnone' x) hx⟩
    have hmem : d ∈ (s.files.setFree (List.range' 1 n).reverse).diskFreeFrameList ↔ 1 ≤ d ∧ d < 1 + n := by
      rw [PageFiles.setFree, List.mem_reverse, List.mem_range'_1]
    have hpos : 1 ≤ pagesPerFile := by decide
    have hfile : ({ s with files := s.files.setFree (List.range' 1 n).reverse } : Paging).files =
      s.files.setFree (List.range' 1 n).reverse := rfl
    rw [hfile, hmem]
    constructor
    · rintro (hd' | ⟨x, hx⟩)
      · omega
      · exact absurd (hx.symm.trans (entry_of_none hnone' x)) hd
    · exact fun hlt => .inl (by omega)
  | call _ hlegal hrun ih => exact ih.call (hL _ hlegal) hrun
  | memory _ _ _ ih => exact ih

def pfCalculateAllocatedPages (e : ℕ) : Filer ℕ := do
  if ((← get).diskEnvPgdir e).isNone then throw .nullPointer
  foldRange (fun i counter => do
    match (← get).table e i with
    | none => return counter
    | some pt => foldRange (fun j counter => return if pt j ≠ 0 then counter + 1 else counter) 0 1024 counter)
    0 (pdx userTop) 0

def pfCalculateFreeFrames : Filer ℕ := do
  return (← get).diskFreeFrameList.foldl (fun totalFreeDiskFrames _ => totalFreeDiskFrames + 1) 0

theorem pfCalculateFreeFrames_run (w : PageFiles) :
    pfCalculateFreeFrames.run w = .ok (w.diskFreeFrameList.length, w) := by
  rw [pfCalculateFreeFrames, run_bind_ok run_get, List.foldl_add_const, Nat.one_mul, Nat.zero_add]
  rfl

/-- How many entries of a table have disk frames. -/
def tableCount (w : PageFiles) (e i : ℕ) : ℕ := ∑ j ∈ Finset.range 1024, if w.entry (e, i, j) ≠ 0 then 1 else 0

def allocatedPages (w : PageFiles) (e : ℕ) : ℕ := ∑ i ∈ Finset.range (pdx userTop), tableCount w e i

theorem pfCalculateAllocatedPages_run (hdir : (w.diskEnvPgdir e).isSome) :
    (pfCalculateAllocatedPages e).run w = .ok (allocatedPages w e, w) := by
  have hnone : ¬(w.diskEnvPgdir e).isNone := by simpa using Option.isSome_iff_ne_none.mp hdir
  rw [pfCalculateAllocatedPages, run_bind_ok run_get, if_neg hnone]
  have hloop := foldRange_run (s := w) (fun i counter => (do
    match (← get).table e i with
    | none => return counter
    | some pt => foldRange (fun j counter => return if pt j ≠ 0 then counter + 1 else counter) 0 1024 counter : Filer ℕ))
    (fun i => ∑ k ∈ Finset.range i, tableCount w e k) (i := 0) (n := pdx userTop) fun i _ _ => ?_
  · rw [Finset.range_zero, Finset.sum_empty, Nat.zero_add] at hloop
    exact hloop
  · rw [run_bind_ok run_get, Finset.sum_range_succ]
    cases htable : w.table e i with
    | none =>
      have hcount : tableCount w e i = 0 := Finset.sum_eq_zero fun j _ => if_neg (not_not.mpr (entry_of_table_none htable))
      rw [hcount]
      rfl
    | some pt =>
      have hinner := foldRange_run (s := w) (fun j counter => (return if pt j ≠ 0 then counter + 1 else counter : Filer ℕ))
        (fun j => ∑ k ∈ Finset.range i, tableCount w e k +
          ∑ k ∈ Finset.range j, if w.entry (e, i, k) ≠ 0 then 1 else 0) (i := 0) (n := 1024) fun j _ _ => ?_
      · rw [Finset.range_zero, Finset.sum_empty, Nat.add_zero, Nat.zero_add] at hinner
        exact hinner
      · rw [run_pure, Finset.sum_range_succ, entry_of_table htable, ← Nat.add_assoc]
        by_cases h0 : pt j ≠ 0
        · rw [if_pos h0, if_pos h0]
        · rw [if_neg h0, if_neg h0, Nat.add_zero]

/-- The slots of some environments that have disk frames. -/
def filedSlots (w : PageFiles) (E : Finset ℕ) : Finset Slot :=
  (E ×ˢ Finset.range (pdx userTop) ×ˢ Finset.range 1024).filter fun x => w.entry x ≠ 0

theorem sum_allocatedPages (w : PageFiles) (E : Finset ℕ) :
    ∑ e ∈ E, allocatedPages w e = (filedSlots w E).card := by
  rw [filedSlots, Finset.card_filter, Finset.sum_product]
  refine Finset.sum_congr rfl fun e _ => ?_
  rw [Finset.sum_product]
  rfl

theorem Accounted.count {n : ℕ} {E : Finset ℕ} (ha : Accounted n w) (hE : ∀ x, w.entry x ≠ 0 → x.1 ∈ E) :
    w.diskFreeFrameList.length + ∑ e ∈ E, allocatedPages w e = n - 1 := by
  have hfiled (x : Slot) : x ∈ filedSlots w E ↔ w.entry x ≠ 0 := by
    rw [filedSlots, Finset.mem_filter, Finset.mem_product, Finset.mem_product, Finset.mem_range, Finset.mem_range]
    exact ⟨And.right, fun hx => ⟨⟨hE x hx, (ha.pages x hx).2⟩, hx⟩⟩
  have hcard : ((filedSlots w E).image w.entry).card = (filedSlots w E).card :=
    Finset.card_image_of_injOn fun x hx y _ hxy => ha.consistent.inj x y ((hfiled x).mp hx) hxy
  have hdis : Disjoint w.diskFreeFrameList.toFinset ((filedSlots w E).image w.entry) := by
    rw [Finset.disjoint_left]
    intro d hd hd'
    obtain ⟨x, -, rfl⟩ := Finset.mem_image.mp hd'
    exact ha.consistent.used x (List.mem_toFinset.mp hd)
  have hall : w.diskFreeFrameList.toFinset ∪ (filedSlots w E).image w.entry = Finset.Ico 1 n := by
    ext d
    rw [Finset.mem_union, List.mem_toFinset, Finset.mem_image, Finset.mem_Ico]
    constructor
    · intro h
      have hd : d ≠ 0 := by
        rintro rfl
        rcases h with hfree | ⟨x, hx, h0⟩
        · exact ha.consistent.zero hfree
        · exact (hfiled x).mp hx h0
      refine ⟨Nat.pos_of_ne_zero hd, (ha.all d hd).mp (h.imp_right ?_)⟩
      rintro ⟨x, -, hx⟩
      exact ⟨x, hx⟩
    · rintro ⟨hpos, hlt⟩
      have hd : d ≠ 0 := Nat.pos_iff_ne_zero.mp hpos
      rcases (ha.all d hd).mpr hlt with hfree | ⟨x, hx⟩
      · exact .inl hfree
      · exact .inr ⟨x, (hfiled x).mpr (hx ▸ hd), hx⟩
  rw [sum_allocatedPages, ← hcard, ← List.toFinset_card_of_nodup ha.consistent.nodup, ← Finset.card_union_of_disjoint hdis,
    hall, Nat.card_Ico]

/-- What is counted: the free disk frames, and the pages of all environments with directories. -/
def Counts (w : PageFiles) (free allocated : ℕ) : Prop :=
  pfCalculateFreeFrames.run w = .ok (free, w) ∧ ∃ (E : Finset ℕ) (f : ℕ → ℕ), (∀ e, e ∈ E ↔ (w.diskEnvPgdir e).isSome) ∧
    (∀ e ∈ E, (pfCalculateAllocatedPages e).run w = .ok (f e, w)) ∧ allocated = ∑ e ∈ E, f e

theorem isSome_of_entry {x : Slot} (hx : w.entry x ≠ 0) : (w.diskEnvPgdir x.1).isSome := by
  rw [PageFiles.entry] at hx
  cases htable : w.table x.1 x.2.1 with
  | none => simp [htable] at hx
  | some pt => exact isSome_of_table htable

theorem Accounted.once {n d : ℕ} (ha : Accounted n w) (hd : 1 ≤ d) (hlt : d < n) :
    w.diskFreeFrameList.count d = 1 ∧ (∀ x, w.entry x ≠ d) ∨ w.diskFreeFrameList.count d = 0 ∧ ∃! x, w.entry x = d := by
  rcases (ha.all d (Nat.pos_iff_ne_zero.mp hd)).mpr hlt with hfree | ⟨x, hx⟩
  · refine .inl ⟨List.count_eq_one_of_mem ha.consistent.nodup hfree, ?_⟩
    rintro x rfl
    exact ha.consistent.used x hfree
  · refine .inr ⟨List.count_eq_zero.mpr (hx ▸ ha.consistent.used x), x, hx, fun y hy => ?_⟩
    exact ha.consistent.inj y x (hy ▸ Nat.pos_iff_ne_zero.mp hd) (hy.trans hx.symm)

theorem GivesFrame.same_of_none {x : Slot} (hg : GivesFrame x w w' none) : SameEntries w w' := by
  cases hg with
  | full _ _ hs => exact hs

theorem FileCall.run_full (hrun : c.run.run s = .ok (eNoPageFileSpace, s')) (hw : s.files.Consistent) :
    SameEntries s.files s'.files := by
  have hdisk := onDisk_ok hrun
  have hne : (0 : ℤ) ≠ eNoPageFileSpace := by decide
  have hadd {x : Slot} {src : Page} (ha : AddsPage x src s.files eNoPageFileSpace s'.files) :
      SameEntries s.files s'.files := by
    rcases ha with ⟨-, hg⟩ | ⟨h0, -⟩
    · exact hg.same_of_none
    · exact absurd h0.symm hne
  cases c with
  | add e va src => exact hadd ((pfAddEnvPage_sat _ e va src).ok hdisk)
  | addEmpty e va z =>
    cases z with
    | true => exact hadd ((pfAddEmptyEnvPage_zero _ e va).ok hdisk)
    | false =>
      rcases (pfAddEmptyEnvPage_false _ e va).ok hdisk with ⟨-, hg⟩ | ⟨h0, -⟩
      · exact hg.same_of_none
      · exact absurd h0.symm hne
  | update e va f => exact absurd ((pfUpdateEnvPage_sat hw e va _ _).ok hdisk).1.symm hne
  | read e va =>
    rw [onDisk, run_bind_ok (pfReadEnvPage_run s.files e va)] at hdisk
    have hr := (Prod.mk.inj (Except.ok.inj hdisk)).1
    cases hshown : s.files.shown (slotOf e va) with
    | none =>
      rw [hshown] at hr
      exact absurd hr (by decide)
    | some q =>
      rw [hshown] at hr
      exact absurd hr hne
  | remove e va => exact absurd ((removeCall_returns hw s e va).ok hdisk).1.symm hne
  | free e => exact absurd ((freeCall_sat hw s e).ok hdisk).1.symm hne

theorem counts_of_finite {E : Finset ℕ} (hE : ∀ e, e ∈ E ↔ (w.diskEnvPgdir e).isSome) :
    Counts w w.diskFreeFrameList.length (∑ e ∈ E, allocatedPages w e) :=
  ⟨pfCalculateFreeFrames_run w, E, allocatedPages w, hE, fun e he => pfCalculateAllocatedPages_run ((hE e).mp he), rfl⟩

/-- In every run, each disk frame is free once or is that of one page, and the counts of both
kinds add up to all there are. A call that finds the page file full changes neither count. -/
theorem diskFrames_accounted (hr : FileRun FileCall.BelowUserTop z h s) :
    (∀ d, 1 ≤ d → d < pagesPerFile → s.files.diskFreeFrameList.count d = 1 ∧ (∀ x, s.files.entry x ≠ d) ∨
      s.files.diskFreeFrameList.count d = 0 ∧ ∃! x, s.files.entry x = d) ∧
    0 ∉ s.files.diskFreeFrameList ∧
    ∃ free allocated, Counts s.files free allocated ∧ free + allocated = pagesPerFile - 1 ∧
      ∀ (c : FileCall) s', c.BelowUserTop → c.run.run s = .ok (eNoPageFileSpace, s') → Counts s'.files free allocated := by
  have ha := hr.accounted fun _ hc => hc
  have hE (e : ℕ) : e ∈ hr.finite_withDirectory.toFinset ↔ (s.files.diskEnvPgdir e).isSome := Set.Finite.mem_toFinset _
  have hcount := ha.count fun x hx => (hE x.1).mpr (isSome_of_entry hx)
  refine ⟨fun d hd hlt => ha.once hd hlt, ha.consistent.zero, _, _, counts_of_finite hE, hcount, fun c s' hc hrun => ?_⟩
  have hs := FileCall.run_full hrun ha.consistent
  have hfinite := (FileRun.call hr hc hrun).finite_withDirectory
  have hE' (e : ℕ) : e ∈ hfinite.toFinset ↔ (s'.files.diskEnvPgdir e).isSome := Set.Finite.mem_toFinset _
  have hcount' := (ha.same hs).count fun x hx => (hE' x.1).mpr (isSome_of_entry hx)
  have hsum : ∑ e ∈ hr.finite_withDirectory.toFinset, allocatedPages s.files e =
      ∑ e ∈ hfinite.toFinset, allocatedPages s'.files e := by
    rw [hs.free] at hcount'
    exact Nat.add_left_cancel (hcount.trans hcount'.symm)
  rw [hsum, ← hs.free]
  exact counts_of_finite hE'

theorem diskFrames_accounted_recycling : ∃ h s, FileRun FileCall.BelowUserTop zeroPage h s ∧
    h.map Prod.fst = recycling.reverse ∧ ∃ free allocated, Counts s.files free allocated ∧
      free + allocated = pagesPerFile - 1 := by
  have hlegal : ∀ c ∈ recycling, c.BelowUserTop := by
    simp [recycling, FileCall.BelowUserTop, userTop]
  obtain ⟨s, hr, -⟩ := fileRun_recycling hlegal
  obtain ⟨-, -, free, allocated, hcounts, hsum, -⟩ := diskFrames_accounted hr
  exact ⟨_, s, hr, rfl, free, allocated, hcounts, hsum⟩

end FosKernel.DiskFrames
