import FosKernel.PageFile

/-!
# Disk frames of pages

`pagefile_manager.c` over the entries of its directories and tables, whatever pages of the
kernel heap hold them. No two pages have the same disk frame, and every operation keeps the
pages that it does not write.
-/

namespace FosKernel.DiskFrames
open FailingPrograms PageEntries Machine

section Numbers

variable {ι : Type} [DecidableEq ι] {number number' : ι → ℕ} {free ds : List ℕ} {x : ι} {d : ℕ}

/-- No number that is not 0 is had twice, or by someone and the free list. -/
structure Numbered (number : ι → ℕ) (free : List ℕ) : Prop where
  inj : ∀ x y, number x ≠ 0 → number x = number y → x = y
  used : ∀ x, number x ∉ free
  zero : 0 ∉ free
  nodup : free.Nodup

namespace Numbered

omit [DecidableEq ι] in
theorem forget (h : Numbered number free) (hle : ∀ x, number' x = 0 ∨ number' x = number x) :
    Numbered number' free := by
  refine ⟨fun x y hx hxy => ?_, fun x => ?_, h.zero, h.nodup⟩
  · have hx' : number' x = number x := (hle x).resolve_left hx
    have hy' : number' y = number y := (hle y).resolve_left (hxy ▸ hx)
    exact h.inj x y (hx' ▸ hx) (by rw [← hx', ← hy', hxy])
  · rcases hle x with hx | hx
    · exact hx ▸ h.zero
    · exact hx ▸ h.used x

theorem take (h : Numbered number (d :: ds)) : Numbered (Function.update number x d) ds := by
  have hd : ∀ y, number y ≠ d := fun y hy => h.used y (hy ▸ List.mem_cons_self)
  obtain ⟨hmem, hnodup⟩ := List.nodup_cons.mp h.nodup
  refine ⟨fun y z hy hyz => ?_, fun y => ?_, fun h0 => h.zero (List.mem_cons_of_mem _ h0), hnodup⟩
  · rw [Function.update_apply, Function.update_apply] at hyz
    rw [Function.update_apply] at hy
    by_cases hyx : y = x <;> by_cases hzx : z = x
    · rw [hyx, hzx]
    · rw [if_pos hyx, if_neg hzx] at hyz
      exact absurd hyz.symm (hd z)
    · rw [if_neg hyx, if_pos hzx] at hyz
      exact absurd hyz (hd y)
    · rw [if_neg hyx, if_neg hzx] at hyz
      rw [if_neg hyx] at hy
      exact h.inj y z hy hyz
  · rw [Function.update_apply]
    split
    · exact hmem
    · exact fun hy => h.used y (List.mem_cons_of_mem _ hy)

theorem release (h : Numbered number free) (hx : number x ≠ 0) :
    Numbered (Function.update number x 0) (number x :: free) := by
  have hle : ∀ y, Function.update number x 0 y = 0 ∨ Function.update number x 0 y = number y := fun y => by
    rw [Function.update_apply]
    split
    · exact .inl rfl
    · exact .inr rfl
  have hforget := h.forget hle
  refine ⟨hforget.inj, fun y hy => ?_, ?_, List.nodup_cons.mpr ⟨h.used x, h.nodup⟩⟩
  · rcases List.mem_cons.mp hy with hy | hy
    · rw [Function.update_apply] at hy
      split at hy
      · exact hx hy.symm
      · rename_i hyx
        exact hyx (h.inj x y hx hy.symm).symm
    · exact hforget.used y hy
  · rw [List.mem_cons]
    exact fun h0 => h0.elim (fun h0 => hx h0.symm) h.zero

end Numbered

end Numbers

/-- Where an operation stops. -/
inductive FilePanic
  /-- `virtual_address < KERNEL_BASE` -/
  | assertion
  /-- a directory or a table that there is no memory for -/
  | nullPointer
  /-- `page file out of space!` -/
  | pageFileSpace
  /-- `Attempt to add a new page to page file that's outside the USER HEAP and USER STACK!` -/
  | invalidAccess
  /-- a page that is read to an address where nothing is mapped -/
  | pageFault
deriving DecidableEq

/-- The page files of all environments. Disk frame 0 is no disk frame. Whether `kmalloc`
gives a page depends on how often it was asked before. -/
structure PageFiles where
  diskEnvPgdir : ℕ → Option (ℕ → Option (ℕ → ℕ))
  diskFreeFrameList : List ℕ
  disk : ℕ → Page
  ptrZeroPage : Page
  kmalloc : ℕ → Bool
  kmallocs : ℕ

abbrev Filer (α : Type) := Prog PageFiles FilePanic α

namespace PageFiles

def setDirectory (w : PageFiles) (e : ℕ) (dir : Option (ℕ → Option (ℕ → ℕ))) : PageFiles :=
  { w with diskEnvPgdir := Function.update w.diskEnvPgdir e dir }

def setTable (w : PageFiles) (e i : ℕ) (pt : Option (ℕ → ℕ)) : PageFiles :=
  w.setDirectory e ((w.diskEnvPgdir e).map fun dir => Function.update dir i pt)

/-- The table with directory index `i` of an environment. -/
def table (w : PageFiles) (e i : ℕ) : Option (ℕ → ℕ) := (w.diskEnvPgdir e).bind fun dir => dir i

def setEntry (w : PageFiles) (e i j dfn : ℕ) : PageFiles :=
  w.setTable e i ((w.table e i).map fun pt => Function.update pt j dfn)

def setDisk (w : PageFiles) (dfn : ℕ) (q : Page) : PageFiles :=
  { w with disk := Function.update w.disk dfn q }

def setFree (w : PageFiles) (dfns : List ℕ) : PageFiles := { w with diskFreeFrameList := dfns }

end PageFiles

def kmallocPage : Filer Bool := do
  let w ← get
  set { w with kmallocs := w.kmallocs + 1 }
  return w.kmalloc w.kmallocs

/-- `none` is `E_NO_PAGE_FILE_SPACE`. -/
def allocateDiskFrame : Filer (Option ℕ) := do
  let w ← get
  match w.diskFreeFrameList with
  | [] => return none
  | dfn :: dfns =>
    set (w.setFree dfns)
    return some dfn

def freeDiskFrame (dfn : ℕ) : Filer Unit := do
  if dfn ≠ 0 then modify fun w => w.setFree (dfn :: w.diskFreeFrameList)

def getDiskPageDirectory (e : ℕ) : Filer Unit := do
  if ((← get).diskEnvPgdir e).isNone then
    if ← kmallocPage then modify (·.setDirectory e (some fun _ => none))

def getDiskPageTable (e va : ℕ) (create : Bool) : Filer (Option (ℕ → ℕ)) := do
  match (← get).diskEnvPgdir e with
  | none => throw .nullPointer
  | some dir =>
    match dir (pdx va) with
    | some pt => return some pt
    | none =>
      if create then
        if ← kmallocPage then
          modify (·.setTable e (pdx va) (some fun _ => 0))
          return some fun _ => 0
        else return none
      else return none

/-- The disk frame of a page, allocated where there is none. -/
def diskFrameOf (e va : ℕ) : Filer (Option ℕ) := do
  if kernelBase ≤ va then throw .assertion
  getDiskPageDirectory e
  match ← getDiskPageTable e va true with
  | none => throw .nullPointer
  | some pt =>
    if pt (ptx va) ≠ 0 then return some (pt (ptx va))
    else
      match ← allocateDiskFrame with
      | none => return none
      | some dfn =>
        modify (·.setEntry e (pdx va) (ptx va) dfn)
        return some dfn

def pfAddEnvPage (e va : ℕ) (dataSrc : Page) : Filer ℤ := do
  match ← diskFrameOf e va with
  | none => return eNoPageFileSpace
  | some dfn =>
    modify (·.setDisk dfn dataSrc)
    return 0

def pfAddEmptyEnvPage (e va : ℕ) (initializeByZero : Bool) : Filer ℤ := do
  if initializeByZero then pfAddEnvPage e va (← get).ptrZeroPage
  else
    match ← diskFrameOf e va with
    | none => return eNoPageFileSpace
    | some _ => return 0

/-- The end of `pf_update_env_page`; the page is what the frame holds. -/
def pfWriteFrame (e va : ℕ) (q : Page) : Filer ℤ := do
  match ← getDiskPageTable e va false with
  | none => throw .nullPointer
  | some pt =>
    modify (·.setDisk (pt (ptx va)) q)
    return 0

/-- `mapped` is the page at the address if the frame is mapped there. -/
def pfUpdateEnvPage (e va : ℕ) (q : Page) (mapped : Option Page) : Filer ℤ := do
  if kernelBase ≤ va then throw .assertion
  getDiskPageDirectory e
  let pt ← getDiskPageTable e va false
  if pt.elim 0 (fun pt => pt (ptx va)) = 0 then
    if InHeapOrStack va then
      match mapped with
      | some p =>
        if (← pfAddEnvPage e va p) = eNoPageFileSpace then throw .pageFileSpace
        return 0
      | none =>
        if (← pfAddEmptyEnvPage e va false) = eNoPageFileSpace then throw .pageFileSpace
        pfWriteFrame e va q
    else throw .invalidAccess
  else pfWriteFrame e va q

/-- The page that is read, `none` is `E_PAGE_NOT_EXIST_IN_PF`. -/
def pfReadEnvPage (e va : ℕ) : Filer (Option Page) := do
  let va := roundDown va pageSize
  if ((← get).diskEnvPgdir e).isNone then return none
  else
    match ← getDiskPageTable e va false with
    | none => return none
    | some pt =>
      if pt (ptx va) = 0 then return none
      else return some ((← get).disk (pt (ptx va)))

def pfRemoveEnvPage (e va : ℕ) : Filer Unit := do
  if ((← get).diskEnvPgdir e).isNone then return
  else
    match ← getDiskPageTable e va false with
    | none => return
    | some pt =>
      modify (·.setEntry e (pdx va) (ptx va) 0)
      freeDiskFrame (pt (ptx va))

/-- One round of the inner loop of `pf_free_env`. -/
def freeEntry (e i j : ℕ) : Filer Unit := do
  let dfn := ((← get).table e i).elim 0 fun pt => pt j
  modify (·.setEntry e i j 0)
  freeDiskFrame dfn

def freeTable (e i : ℕ) : Filer Unit := do
  if ((← get).table e i).isSome then
    forRange (freeEntry e i) 0 1024
    modify (·.setTable e i none)

def pfFreeEnv (e : ℕ) : Filer Unit := do
  if ((← get).diskEnvPgdir e).isNone then throw .nullPointer
  forRange (freeTable e) 0 (pdx userTop)
  modify (·.setDirectory e none)

/-- A page of an environment: the indices of its table and of its entry. -/
abbrev Slot := ℕ × ℕ × ℕ

def slotOf (e va : ℕ) : Slot := (e, pdx va, ptx va)

theorem slotOf_eq_iff {e e' va va' : ℕ} (hva : va < userTop) (hva' : va' < userTop) :
    slotOf e' va' = slotOf e va ↔ (e', va' / pageSize) = (e, va / pageSize) := by
  simp only [slotOf, pdx, ptx, Prod.mk.injEq]
  simp only [pageSize, userTop] at *
  omega

namespace PageFiles

def entry (w : PageFiles) (x : Slot) : ℕ := (w.table x.1 x.2.1).elim 0 fun pt => pt x.2.2

def shown (w : PageFiles) (x : Slot) : Option Page :=
  if w.entry x = 0 then none else some (w.disk (w.entry x))

def Consistent (w : PageFiles) : Prop := Numbered w.entry w.diskFreeFrameList

/-- From now on `kmalloc` gives every page that it is asked for. -/
def Supplied (w : PageFiles) : Prop := ∀ n ≥ w.kmallocs, w.kmalloc n = true

end PageFiles

variable {w w' v : PageFiles} {W V : Set Slot} {x : Slot} {e va i j d n : ℕ} {q src : Page}
  {pt : ℕ → ℕ} {z : Bool}

theorem slotOf_roundDown (e va : ℕ) : slotOf e (roundDown va pageSize) = slotOf e va := by
  rw [slotOf, slotOf]
  simp only [pdx, ptx, roundDown, pageSize, Prod.mk.injEq, true_and]
  omega

theorem table_setTable (w : PageFiles) (e i : ℕ) (pt : Option (ℕ → ℕ)) (e' i' : ℕ) :
    (w.setTable e i pt).table e' i' =
      if e' = e ∧ i' = i ∧ (w.diskEnvPgdir e).isSome then pt else w.table e' i' := by
  simp only [PageFiles.table, PageFiles.setTable, PageFiles.setDirectory, Function.update_apply]
  by_cases he : e' = e
  · rw [if_pos he, he]
    cases w.diskEnvPgdir e with
    | none => simp
    | some dir =>
      simp only [Option.map_some, Option.bind_some, Function.update_apply, Option.isSome_some, true_and, and_true]
  · rw [if_neg he, if_neg fun h => he h.1]

theorem isSome_of_table (h : w.table e i = some pt) : (w.diskEnvPgdir e).isSome := by
  rw [PageFiles.table] at h
  cases hdir : w.diskEnvPgdir e with
  | none => simp [hdir] at h
  | some dir => rfl

theorem entry_of_table (h : w.table e i = some pt) : w.entry (e, i, j) = pt j := by
  rw [PageFiles.entry, h, Option.elim_some]

theorem entry_setDirectory_none (w : PageFiles) (e : ℕ) (x : Slot) :
    (w.setDirectory e none).entry x = if x.1 = e then 0 else w.entry x := by
  simp only [PageFiles.entry, PageFiles.table, PageFiles.setDirectory, Function.update_apply]
  by_cases hx : x.1 = e
  · rw [if_pos hx, if_pos hx]
    rfl
  · rw [if_neg hx, if_neg hx]

theorem entry_setEntry (h : w.table e i = some pt) (j d : ℕ) :
    (w.setEntry e i j d).entry = Function.update w.entry (e, i, j) d := by
  funext x
  obtain ⟨e', i', j'⟩ := x
  simp only [PageFiles.entry, PageFiles.setEntry, table_setTable, h, Function.update_apply, Prod.mk.injEq,
    isSome_of_table h, and_true]
  by_cases hei : e' = e ∧ i' = i
  · obtain ⟨rfl, rfl⟩ := hei
    simp only [true_and, and_self, if_true, h, Option.map_some, Option.elim_some, Function.update_apply]
  · rw [if_neg hei, if_neg fun h => hei ⟨h.1, h.2.1⟩]

/-- Nothing is seen of the change in the entries and on the disk. -/
structure SameEntries (w w' : PageFiles) : Prop where
  entry : w'.entry = w.entry
  free : w'.diskFreeFrameList = w.diskFreeFrameList
  disk : w'.disk = w.disk
  zero : w'.ptrZeroPage = w.ptrZeroPage
  supplied : w.Supplied → w'.Supplied

namespace SameEntries

theorem refl (w : PageFiles) : SameEntries w w := ⟨rfl, rfl, rfl, rfl, id⟩

theorem trans (h : SameEntries w w') (h' : SameEntries w' v) : SameEntries w v :=
  ⟨h'.entry.trans h.entry, h'.free.trans h.free, h'.disk.trans h.disk, h'.zero.trans h.zero, h'.supplied ∘ h.supplied⟩

theorem consistent (h : SameEntries w w') (hw : w.Consistent) : w'.Consistent := by
  rwa [PageFiles.Consistent, h.entry, h.free]

theorem shown (h : SameEntries w w') : w'.shown = w.shown := by
  funext x
  rw [PageFiles.shown, h.entry, h.disk, PageFiles.shown]

end SameEntries

/-- A page has a disk frame already, or there is none for it, or it is given the first one. -/
inductive GivesFrame (x : Slot) (w w' : PageFiles) : Option ℕ → Prop
  | old (hold : w.entry x ≠ 0) (hsame : SameEntries w w') : GivesFrame x w w' (some (w.entry x))
  | full (hold : w.entry x = 0) (hfree : w.diskFreeFrameList = []) (hsame : SameEntries w w') : GivesFrame x w w' none
  | new {d ds} (hold : w.entry x = 0) (hfree : w.diskFreeFrameList = d :: ds)
    (hnew : w'.entry = Function.update w.entry x d ∧ w'.diskFreeFrameList = ds)
    (hsame : w'.disk = w.disk ∧ w'.ptrZeroPage = w.ptrZeroPage) : GivesFrame x w w' (some d)

namespace GivesFrame

variable {r : Option ℕ}

theorem consistent (hg : GivesFrame x w w' r) (h : w.Consistent) : w'.Consistent := by
  cases hg with
  | old _ hsame => exact hsame.consistent h
  | full _ _ hsame => exact hsame.consistent h
  | new _ hfree hnew _ =>
    rw [PageFiles.Consistent, hfree] at h
    rw [PageFiles.Consistent, hnew.1, hnew.2]
    exact h.take

theorem zero (hg : GivesFrame x w w' r) : w'.ptrZeroPage = w.ptrZeroPage := by
  cases hg with
  | old _ hsame => exact hsame.zero
  | full _ _ hsame => exact hsame.zero
  | new _ _ _ hsame => exact hsame.2

theorem entry (hg : GivesFrame x w w' (some d)) : w'.entry x = d := by
  cases hg with
  | old _ hsame => exact congrFun hsame.entry x
  | new _ _ hnew _ => rw [hnew.1, Function.update_self]

theorem ne_zero (hg : GivesFrame x w w' (some d)) (h : w.Consistent) : d ≠ 0 := by
  cases hg with
  | old hold _ => exact hold
  | new _ hfree _ _ =>
    rw [PageFiles.Consistent, hfree] at h
    exact fun hd => h.zero (hd ▸ List.mem_cons_self)

theorem shown_of_ne (hg : GivesFrame x w w' r) {y : Slot} (hy : y ≠ x) : w'.shown y = w.shown y := by
  cases hg with
  | old _ hsame => rw [hsame.shown]
  | full _ _ hsame => rw [hsame.shown]
  | new _ _ hnew hsame => rw [PageFiles.shown, hnew.1, Function.update_of_ne hy, hsame.1, PageFiles.shown]

theorem shown_of_some (hg : GivesFrame x w w' r) {y : Slot} (hq : w.shown y = some q) : w'.shown y = some q := by
  cases hg with
  | old _ hsame => rwa [hsame.shown]
  | full _ _ hsame => rwa [hsame.shown]
  | new hold hfree hnew hsame =>
    have hy : y ≠ x := by
      rintro rfl
      rw [PageFiles.shown, if_pos hold] at hq
      cases hq
    rwa [(GivesFrame.new hold hfree hnew hsame).shown_of_ne hy]

theorem same {u u' : PageFiles} (hw : SameEntries w u) (hg : GivesFrame x u u' r) (hw' : SameEntries u' w') :
    GivesFrame x w w' r := by
  cases hg with
  | old hold hsame =>
    rw [hw.entry] at hold ⊢
    exact .old hold ((hw.trans hsame).trans hw')
  | full hold hfree hsame => exact .full (hw.entry ▸ hold) (hw.free ▸ hfree) ((hw.trans hsame).trans hw')
  | new hold hfree hnew hsame =>
    refine .new (hw.entry ▸ hold) (hw.free ▸ hfree) ⟨?_, hw'.free.trans hnew.2⟩
      ⟨hw'.disk.trans (hsame.1.trans hw.disk), hw'.zero.trans (hsame.2.trans hw.zero)⟩
    rw [hw'.entry, hnew.1, hw.entry]

end GivesFrame

/-- The page is written, or there was no room for it. -/
def AddsPage (x : Slot) (src : Page) (w : PageFiles) (r : ℤ) (w' : PageFiles) : Prop :=
  r = eNoPageFileSpace ∧ GivesFrame x w w' none ∨ r = 0 ∧ ∃ d u, GivesFrame x w u (some d) ∧ w' = u.setDisk d src

theorem shown_setDisk (h : w.Consistent) (hx : w.entry x ≠ 0) (q : Page) :
    (w.setDisk (w.entry x) q).shown = Function.update w.shown x (some q) := by
  funext y
  have hentry : (w.setDisk (w.entry x) q).entry y = w.entry y := rfl
  rw [PageFiles.shown, hentry, Function.update_apply]
  by_cases hy : y = x
  · rw [if_pos hy, hy, if_neg hx]
    exact congrArg some (Function.update_self ..)
  · rw [if_neg hy, PageFiles.shown]
    by_cases h0 : w.entry y = 0
    · rw [if_pos h0, if_pos h0]
    · rw [if_neg h0, if_neg h0]
      exact congrArg some (Function.update_of_ne (fun hd => hy (h.inj y x h0 hd)) _ _)

namespace AddsPage

variable {r : ℤ}

theorem consistent (ha : AddsPage x src w r w') (h : w.Consistent) : w'.Consistent := by
  rcases ha with ⟨-, hg⟩ | ⟨-, d, u, hg, rfl⟩
  · exact hg.consistent h
  · exact hg.consistent h

theorem zero (ha : AddsPage x src w r w') : w'.ptrZeroPage = w.ptrZeroPage := by
  rcases ha with ⟨-, hg⟩ | ⟨-, d, u, hg, rfl⟩
  · exact hg.zero
  · exact hg.zero

theorem code (ha : AddsPage x src w r w') : r = 0 ∨ r = eNoPageFileSpace :=
  ha.symm.imp And.left And.left

theorem shown (ha : AddsPage x src w 0 w') (h : w.Consistent) :
    w'.shown = Function.update w.shown x (some src) := by
  rcases ha with ⟨h0, -⟩ | ⟨-, d, u, hg, rfl⟩
  · exact absurd h0 (by decide)
  · have hdisk := shown_setDisk (hg.consistent h) (hg.entry.trans_ne (hg.ne_zero h)) src
    rw [hg.entry] at hdisk
    rw [hdisk]
    funext y
    rw [Function.update_apply, Function.update_apply]
    by_cases hy : y = x
    · rw [if_pos hy, if_pos hy]
    · rw [if_neg hy, if_neg hy, hg.shown_of_ne hy]

/-- Without room the page is not in the page file, and was not before. -/
theorem shown_full (ha : AddsPage x src w r w') (hr : r ≠ 0) : w'.shown = w.shown ∧ w.shown x = none := by
  rcases ha with ⟨-, hg⟩ | ⟨h0, -⟩
  · cases hg with
    | full hold _ hsame => exact ⟨hsame.shown, if_pos hold⟩
  · exact absurd h0 hr

end AddsPage

/-- The entries of the pages in `T` are 0 now, and the disk frames of those in `S` are free. -/
structure Frees (S T : Set Slot) (w w' : PageFiles) : Prop where
  consistent : w'.Consistent
  cleared : ∀ x ∈ T, w'.entry x = 0
  kept : ∀ x ∉ T, w'.entry x = w.entry x
  free : ∀ d, d ∈ w'.diskFreeFrameList ↔ d ∈ w.diskFreeFrameList ∨ d ≠ 0 ∧ ∃ x ∈ S, w.entry x = d
  disk : w'.disk = w.disk
  zero : w'.ptrZeroPage = w.ptrZeroPage

namespace Frees

variable {S T S' T' : Set Slot}

theorem nothing (h : w.Consistent) (hs : SameEntries w w') (hST : S ⊆ T) (h0 : ∀ x ∈ T, w.entry x = 0) :
    Frees S T w w' := by
  refine ⟨hs.consistent h, fun x hx => ?_, fun x _ => congrFun hs.entry x, fun d => ?_, hs.disk, hs.zero⟩
  · rw [hs.entry, h0 x hx]
  · rw [hs.free]
    refine ⟨.inl, ?_⟩
    rintro (hd | ⟨hd, x, hx, rfl⟩)
    · exact hd
    · exact absurd (h0 x (hST hx)) hd

theorem trans (h : Frees S T w w') (h' : Frees S' T' w' v) (hdis : ∀ x ∈ S', x ∉ T) : Frees (S ∪ S') (T ∪ T') w v := by
  refine ⟨h'.consistent, fun x hx => ?_, fun x hx => ?_, fun d => ?_, h'.disk.trans h.disk, h'.zero.trans h.zero⟩
  · by_cases hT' : x ∈ T'
    · exact h'.cleared x hT'
    · rw [h'.kept x hT', h.cleared x (hx.resolve_right hT')]
  · rw [h'.kept x fun hT' => hx (.inr hT'), h.kept x fun hT => hx (.inl hT)]
  · rw [h'.free, h.free]
    constructor
    · rintro ((hd | ⟨hd, x, hx, he⟩) | ⟨hd, x, hx, he⟩)
      · exact .inl hd
      · exact .inr ⟨hd, x, .inl hx, he⟩
      · exact .inr ⟨hd, x, .inr hx, (h.kept x (hdis x hx)).symm.trans he⟩
    · rintro (hd | ⟨hd, x, hx | hx, he⟩)
      · exact .inl (.inl hd)
      · exact .inl (.inr ⟨hd, x, hx, he⟩)
      · exact .inr ⟨hd, x, hx, (h.kept x (hdis x hx)).trans he⟩

/-- The entries of `T'` are forgotten afterwards. -/
theorem forget (h : Frees S T w w') (hentry : ∀ x, v.entry x = 0 ∧ x ∈ T' ∨ v.entry x = w'.entry x ∧ x ∉ T')
    (hfree : v.diskFreeFrameList = w'.diskFreeFrameList) (hdisk : v.disk = w'.disk)
    (hzero : v.ptrZeroPage = w'.ptrZeroPage) : Frees S (T ∪ T') w v := by
  refine ⟨?_, fun x hx => ?_, fun x hx => ?_, fun d => ?_, hdisk.trans h.disk, hzero.trans h.zero⟩
  · rw [PageFiles.Consistent, hfree]
    exact Numbered.forget h.consistent fun x => (hentry x).imp And.left And.left
  · rcases hentry x with hx' | hx'
    · exact hx'.1
    · rw [hx'.1, h.cleared x (hx.resolve_right hx'.2)]
  · rw [((hentry x).resolve_left fun hx' => hx (.inr hx'.2)).1, h.kept x fun hT => hx (.inl hT)]
  · rw [hfree, h.free]

theorem shown_cleared (h : Frees S T w w') (hx : x ∈ T) : w'.shown x = none := if_pos (h.cleared x hx)

theorem shown_kept (h : Frees S T w w') (hx : x ∉ T) : w'.shown x = w.shown x := by
  rw [PageFiles.shown, h.kept x hx, h.disk, PageFiles.shown]

end Frees

/-- From `w` the operation may stop, and returns with `Q` if it does not. -/
abbrev Ends {α : Type} (m : Filer α) (w : PageFiles) (Q : α → PageFiles → Prop) : Prop :=
  Sat (fun _ => True) m w Q

/-- From `w` the operation returns with `Q`. -/
abbrev Returns {α : Type} (m : Filer α) (w : PageFiles) (Q : α → PageFiles → Prop) : Prop :=
  Sat (fun _ => False) m w Q

theorem kmallocPage_returns (w : PageFiles) : Returns kmallocPage w fun b w' => SameEntries w w' ∧
    w'.diskEnvPgdir = w.diskEnvPgdir ∧ (w.Supplied → b = true) := by
  unfold kmallocPage
  refine .bind_ok run_get (.bind_ok run_set (.pure ⟨⟨rfl, rfl, rfl, rfl, fun h n hn => ?_⟩, rfl, fun h => h _ le_rfl⟩))
  exact h n (Nat.le_of_succ_le hn)

theorem getDiskPageDirectory_returns (w : PageFiles) (e : ℕ) : Returns (getDiskPageDirectory e) w fun _ w' =>
    SameEntries w w' ∧ (w.Supplied → w'.diskEnvPgdir e ≠ none) := by
  unfold getDiskPageDirectory
  refine .bind_ok run_get (.ite (fun hnone => ?_) fun hdir => .pure ⟨.refl w, fun _ => by simpa using hdir⟩)
  refine (kmallocPage_returns w).bind fun b u ⟨hu, hdir, hb⟩ => ?_
  cases b with
  | false => exact .pure ⟨hu, fun h => absurd (hb h) (by decide)⟩
  | true =>
    have hsome : (u.setDirectory e (some fun _ => none)).diskEnvPgdir e ≠ none := by simp [PageFiles.setDirectory]
    refine .of_ok (run_modify _) ⟨hu.trans ⟨funext fun x => ?_, rfl, rfl, rfl, id⟩, fun _ => hsome⟩
    have hnone' : u.diskEnvPgdir e = none := by rw [hdir, Option.isNone_iff_eq_none.mp hnone]
    simp only [PageFiles.entry, PageFiles.table, PageFiles.setDirectory, Function.update_apply]
    by_cases he : x.1 = e
    · rw [if_pos he, he, hnone']
      rfl
    · rw [if_neg he]

theorem getDiskPageTable_sat (w : PageFiles) (e va : ℕ) (create : Bool) : Sat (fun _ => w.diskEnvPgdir e = none)
    (getDiskPageTable e va create) w fun r w' =>
      SameEntries w w' ∧ w'.table e (pdx va) = r ∧ (create → w.Supplied → r ≠ none) := by
  unfold getDiskPageTable
  refine .bind_ok run_get ?_
  cases hdir : w.diskEnvPgdir e with
  | none => exact .of_error rfl rfl
  | some dir =>
    dsimp only
    have htable : w.table e (pdx va) = dir (pdx va) := by simp only [PageFiles.table, hdir, Option.bind_some]
    cases hpt : dir (pdx va) with
    | some pt => exact .pure ⟨.refl w, htable.trans hpt, fun _ _ => Option.some_ne_none pt⟩
    | none =>
      refine .ite (fun _ => ?_) fun hcreate => .pure ⟨.refl w, htable.trans hpt, fun hc => absurd hc hcreate⟩
      refine ((kmallocPage_returns w).weaken fun _ => False.elim).bind fun b u ⟨hu, hudir, hb⟩ => ?_
      have hutable (e' i' : ℕ) : u.table e' i' = w.table e' i' := by rw [PageFiles.table, hudir, PageFiles.table]
      have husome : (u.diskEnvPgdir e).isSome := by rw [hudir, hdir, Option.isSome_some]
      cases b with
      | false => exact .pure ⟨hu, (hutable _ _).trans (htable.trans hpt), fun _ h => absurd (hb h) (by decide)⟩
      | true =>
        refine .bind_ok (run_modify _) (.pure ⟨hu.trans ⟨funext fun x => ?_, rfl, rfl, rfl, id⟩, ?_,
          fun _ _ => Option.some_ne_none _⟩)
        · simp only [PageFiles.entry, table_setTable, husome, and_true]
          by_cases hx : x.1 = e ∧ x.2.1 = pdx va
          · rw [if_pos hx, hx.1, hx.2, hutable, htable, hpt]
            rfl
          · rw [if_neg hx]
        · rw [table_setTable, if_pos ⟨rfl, rfl, husome⟩]

theorem allocateDiskFrame_returns (w : PageFiles) : Returns allocateDiskFrame w fun r w' =>
    r = none ∧ w.diskFreeFrameList = [] ∧ w' = w ∨
      ∃ d ds, r = some d ∧ w.diskFreeFrameList = d :: ds ∧ w' = w.setFree ds := by
  unfold allocateDiskFrame
  refine .bind_ok run_get ?_
  cases hfree : w.diskFreeFrameList with
  | nil => exact .pure (.inl ⟨rfl, rfl, rfl⟩)
  | cons d ds => exact .bind_ok run_set (.pure (.inr ⟨d, ds, rfl, rfl, rfl⟩))

theorem freeDiskFrame_run (w : PageFiles) (d : ℕ) : (freeDiskFrame d).run w =
    .ok ((), if d = 0 then w else w.setFree (d :: w.diskFreeFrameList)) := by
  unfold freeDiskFrame
  by_cases hd : d = 0
  · rw [if_neg (not_not.mpr hd), if_pos hd]
    rfl
  · rw [if_pos hd, if_neg hd]
    rfl

def NoTable (w : PageFiles) (va : ℕ) : Prop := kernelBase ≤ va ∨ ¬w.Supplied

theorem diskFrameOf_sat (w : PageFiles) (e va : ℕ) :
    Sat (fun _ => NoTable w va) (diskFrameOf e va) w fun r w' => GivesFrame (slotOf e va) w w' r := by
  unfold diskFrameOf
  refine .ite (fun hva => .of_error rfl (.inl hva)) fun _ => ?_
  refine ((getDiskPageDirectory_returns w e).weaken fun _ => False.elim).bind fun _ u ⟨hu, hdir⟩ => ?_
  refine ((getDiskPageTable_sat u e va true).weaken fun _ hnone => .inr fun h => hdir h hnone).bind
    fun r v ⟨hv, htable, hr⟩ => ?_
  have hsame : SameEntries w v := hu.trans hv
  cases r with
  | none => exact .of_error rfl (.inr fun h => hr rfl (hu.supplied h) rfl)
  | some pt =>
    have hentry : w.entry (slotOf e va) = pt (ptx va) := hsame.entry ▸ entry_of_table htable
    refine .ite (fun hne => .pure ?_) fun h0 => ?_
    · rw [← hentry] at hne ⊢
      exact .old hne hsame
    · have hold := hentry.trans (not_not.mp h0)
      refine ((allocateDiskFrame_returns v).weaken fun _ => False.elim).bind fun r v' hr => ?_
      rcases hr with ⟨rfl, hfree, rfl⟩ | ⟨d, ds, rfl, hfree, rfl⟩
      · exact .pure (.full hold (hsame.free ▸ hfree) hsame)
      · refine .bind_ok (run_modify _) (.pure (.new hold (hsame.free ▸ hfree) ⟨?_, rfl⟩ ⟨hsame.disk, hsame.zero⟩))
        rw [← hsame.entry]
        exact entry_setEntry (w := v.setFree ds) htable _ d

theorem pfAddEnvPage_sat (w : PageFiles) (e va : ℕ) (src : Page) :
    Sat (fun _ => NoTable w va) (pfAddEnvPage e va src) w fun r w' => AddsPage (slotOf e va) src w r w' := by
  unfold pfAddEnvPage
  refine (diskFrameOf_sat w e va).bind fun r u hg => ?_
  cases r with
  | none => exact .pure (.inl ⟨rfl, hg⟩)
  | some d => exact .of_ok rfl (.inr ⟨rfl, d, u, hg, rfl⟩)

theorem pfAddEmptyEnvPage_zero (w : PageFiles) (e va : ℕ) : Sat (fun _ => NoTable w va) (pfAddEmptyEnvPage e va true) w
    fun r w' => AddsPage (slotOf e va) w.ptrZeroPage w r w' := by
  unfold pfAddEmptyEnvPage
  exact .bind_ok run_get (pfAddEnvPage_sat w e va _)

/-- Without `create` a table is only looked up. -/
theorem getDiskPageTable_run (h : ¬(w.diskEnvPgdir e).isNone) (va : ℕ) :
    (getDiskPageTable e va false).run w = .ok (w.table e (pdx va), w) := by
  rw [getDiskPageTable, run_bind_ok run_get, PageFiles.table]
  rcases hdir : w.diskEnvPgdir e with _ | dir
  · exact absurd (by rw [hdir]; rfl) h
  · dsimp only
    rw [Option.bind_some]
    rcases hpt : dir (pdx va) with _ | pt
    · rfl
    · rfl

theorem entry_of_isNone (h : (w.diskEnvPgdir e).isNone) (i j : ℕ) : w.entry (e, i, j) = 0 := by
  rw [PageFiles.entry, PageFiles.table, Option.isNone_iff_eq_none.mp h]
  rfl

theorem pfReadEnvPage_run (w : PageFiles) (e va : ℕ) :
    (pfReadEnvPage e va).run w = .ok (w.shown (slotOf e va), w) := by
  rw [← slotOf_roundDown e va]
  unfold pfReadEnvPage
  rw [run_bind_ok run_get]
  generalize roundDown va pageSize = a
  by_cases hdir : (w.diskEnvPgdir e).isNone
  · rw [if_pos hdir, PageFiles.shown, slotOf, if_pos (entry_of_isNone hdir _ _)]
    rfl
  · rw [if_neg hdir, run_bind_ok (getDiskPageTable_run hdir a), PageFiles.shown, slotOf]
    rcases hpt : w.table e (pdx a) with _ | pt
    · rw [if_pos (by rw [PageFiles.entry, hpt]; rfl), run_pure]
    · rw [entry_of_table hpt]
      dsimp only
      by_cases h0 : pt (ptx a) = 0
      · rw [if_pos h0, if_pos h0, run_pure]
      · rw [if_neg h0, if_neg h0, run_bind_ok run_get, run_pure]

theorem pfAddEmptyEnvPage_false (w : PageFiles) (e va : ℕ) : Sat (fun _ => NoTable w va) (pfAddEmptyEnvPage e va false) w
    fun r w' => r = eNoPageFileSpace ∧ GivesFrame (slotOf e va) w w' none ∨ r = 0 ∧ ∃ d, GivesFrame (slotOf e va) w w' (some d) := by
  unfold pfAddEmptyEnvPage
  refine (diskFrameOf_sat w e va).bind fun r u hg => ?_
  cases r with
  | none => exact .pure (.inl ⟨rfl, hg⟩)
  | some d => exact .pure (.inr ⟨rfl, d, hg⟩)

theorem entry_of_table_none (h : w.table e i = none) : w.entry (e, i, j) = 0 := by
  rw [PageFiles.entry, h]
  rfl

theorem pfWriteFrame_sat (w : PageFiles) (e va : ℕ) (q : Page) : Sat (fun _ => w.entry (slotOf e va) = 0)
    (pfWriteFrame e va q) w fun r w' => r = 0 ∧ ∃ u, SameEntries w u ∧ w' = u.setDisk (w.entry (slotOf e va)) q := by
  have hnone (h : w.diskEnvPgdir e = none) : w.entry (slotOf e va) = 0 :=
    entry_of_isNone (Option.isNone_iff_eq_none.mpr h) _ _
  unfold pfWriteFrame
  refine ((getDiskPageTable_sat w e va false).weaken fun _ => hnone).bind fun r u ⟨hu, htable, _⟩ => ?_
  cases r with
  | none => exact .of_error rfl (hu.entry ▸ entry_of_table_none htable)
  | some pt =>
    have hentry : w.entry (slotOf e va) = pt (ptx va) := hu.entry ▸ entry_of_table htable
    rw [hentry]
    exact .of_ok rfl ⟨rfl, u, hu, rfl⟩

/-- Why a page cannot be updated: it is not in the page file and does not belong there, or there is no room for it. -/
def NoUpdate (w : PageFiles) (e va : ℕ) : Prop :=
  NoTable w va ∨ w.entry (slotOf e va) = 0 ∧ (¬InHeapOrStack va ∨ w.diskFreeFrameList = [])

/-- Without a disk frame for it, the page had none, and there is none. -/
theorem GivesFrame.none_free (hg : GivesFrame x w w' none) : w.entry x = 0 ∧ w.diskFreeFrameList = [] := by
  cases hg with
  | full hold hfree _ => exact ⟨hold, hfree⟩

theorem pfUpdateEnvPage_sat (hw : w.Consistent) (e va : ℕ) (q : Page) (mapped : Option Page) :
    Sat (fun _ => NoUpdate w e va) (pfUpdateEnvPage e va q mapped) w fun r w' => r = 0 ∧
      AddsPage (slotOf e va) (if w.entry (slotOf e va) = 0 then mapped.getD q else q) w 0 w' := by
  unfold pfUpdateEnvPage
  refine .ite (fun hva => .of_error rfl (.inl (.inl hva))) fun _ => ?_
  refine ((getDiskPageDirectory_returns w e).weaken fun _ => False.elim).bind fun _ u ⟨hu, hdir⟩ => ?_
  refine ((getDiskPageTable_sat u e va false).weaken fun _ hnone => .inl (.inr fun h => hdir h hnone)).bind
    fun r v ⟨hv, htable, _⟩ => ?_
  have hsame : SameEntries w v := hu.trans hv
  have hno (h : NoTable v va) : NoTable w va := h.imp_right fun hs h => hs (hsame.supplied h)
  have hentry : w.entry (slotOf e va) = r.elim 0 fun pt => pt (ptx va) := by
    rw [← hsame.entry, PageFiles.entry, slotOf, htable]
  rw [← hentry]
  have hfull (h0 : w.entry (slotOf e va) = 0) {v' : PageFiles} (hg : GivesFrame (slotOf e va) v v' none) : NoUpdate w e va :=
    .inr ⟨h0, .inr (hsame.free ▸ hg.none_free.2)⟩
  have hzero : (0 : ℤ) ≠ eNoPageFileSpace := by decide
  refine .ite (fun h0 => .ite (fun _ => ?_) fun hva => .of_error rfl (.inr ⟨h0, .inl hva⟩)) fun hne => ?_
  · rw [if_pos h0]
    cases mapped with
    | some p =>
      refine ((pfAddEnvPage_sat v e va p).weaken fun _ h => .inl (hno h)).bind fun r v' hadd => ?_
      rcases hadd with ⟨rfl, hg⟩ | ⟨rfl, d, u', hg, rfl⟩
      · exact .ite (fun _ => .of_error rfl (hfull h0 hg)) fun hr => absurd rfl hr
      · exact .ite (fun hr => absurd hr hzero) fun _ => .pure ⟨rfl, .inr ⟨rfl, d, u', hg.same hsame (.refl _), rfl⟩⟩
    | none =>
      refine ((pfAddEmptyEnvPage_false v e va).weaken fun _ h => .inl (hno h)).bind fun r v' hadd => ?_
      rcases hadd with ⟨rfl, hg⟩ | ⟨rfl, d, hg⟩
      · exact .ite (fun _ => .of_error rfl (hfull h0 hg)) fun hr => absurd rfl hr
      · refine .ite (fun hr => absurd hr hzero) fun _ => ?_
        have hd : v'.entry (slotOf e va) ≠ 0 := hg.entry ▸ hg.ne_zero (hsame.consistent hw)
        refine ((pfWriteFrame_sat v' e va q).weaken fun _ h0 => absurd h0 hd).mono
          fun r w' ⟨hr, u', hu', hw'⟩ => ⟨hr, .inr ⟨rfl, d, u', ?_, ?_⟩⟩
        · exact hg.same hsame hu'
        · rw [hw', hg.entry]
          rfl
  · rw [if_neg hne]
    refine ((pfWriteFrame_sat v e va q).weaken fun _ h0 => absurd (hsame.entry ▸ h0) hne).mono
      fun r w' ⟨hr, u', hu', hw'⟩ => ⟨hr, .inr ⟨rfl, _, u', .old hne ?_, ?_⟩⟩
    · exact hsame.trans hu'
    · rw [hw', hsame.entry]

/-- The pages of an environment, and those that its page file has tables for. -/
def pagesOf (e : ℕ) : Set Slot := {x | x.1 = e}
def userPages (e : ℕ) : Set Slot := {x | x.1 = e ∧ x.2.1 < pdx userTop ∧ x.2.2 < 1024}

theorem removeEntry_returns (h : w.Consistent) (hpt : w.table e i = some pt) (j : ℕ) :
    Returns (do modify (·.setEntry e i j 0); freeDiskFrame (pt j)) w fun _ w' => Frees {(e, i, j)} {(e, i, j)} w w' ∧
      w'.diskFreeFrameList = if w.entry (e, i, j) = 0 then w.diskFreeFrameList else w.entry (e, i, j) :: w.diskFreeFrameList := by
  have hentry := entry_setEntry hpt j 0
  have hold : w.entry (e, i, j) = pt j := entry_of_table hpt
  have hcleared (x : Slot) (hx : x ∈ ({(e, i, j)} : Set Slot)) : (w.setEntry e i j 0).entry x = 0 := by
    rw [Set.mem_singleton_iff.mp hx, hentry, Function.update_self]
  have hkept (x : Slot) (hx : x ∉ ({(e, i, j)} : Set Slot)) : (w.setEntry e i j 0).entry x = w.entry x := by
    rw [hentry, Function.update_of_ne hx]
  refine .bind_ok (run_modify _) (.of_ok (freeDiskFrame_run _ _) ?_)
  rw [hold]
  by_cases h0 : pt j = 0
  · rw [if_pos h0, if_pos h0]
    refine ⟨⟨?_, hcleared, hkept, fun d => ⟨.inl, ?_⟩, rfl, rfl⟩, rfl⟩
    · rw [PageFiles.Consistent, hentry, ← h0, ← hold, Function.update_eq_self]
      exact h
    · rintro (hd | ⟨hd, _, rfl, rfl⟩)
      · exact hd
      · exact absurd (hold.trans h0) hd
  · rw [if_neg h0, if_neg h0]
    have hfreed : Numbered (w.setEntry e i j 0).entry (pt j :: w.diskFreeFrameList) := by
      rw [hentry, ← hold]
      exact h.release (hold ▸ h0)
    refine ⟨⟨hfreed, hcleared, hkept, fun d => ?_, rfl, rfl⟩, rfl⟩
    refine List.mem_cons.trans ⟨?_, ?_⟩
    · rintro (rfl | hd)
      · exact .inr ⟨h0, _, rfl, hold⟩
      · exact .inl hd
    · rintro (hd | ⟨-, _, rfl, hd⟩)
      · exact .inr hd
      · exact .inl (hd.symm.trans hold)

theorem pfRemoveEnvPage_returns (h : w.Consistent) (e va : ℕ) :
    Returns (pfRemoveEnvPage e va) w fun _ w' => Frees {slotOf e va} {slotOf e va} w w' ∧ w'.diskFreeFrameList =
      if w.entry (slotOf e va) = 0 then w.diskFreeFrameList else w.entry (slotOf e va) :: w.diskFreeFrameList := by
  unfold pfRemoveEnvPage
  have hnothing (h0 : w.entry (slotOf e va) = 0) : Frees {slotOf e va} {slotOf e va} w w ∧ w.diskFreeFrameList =
      if w.entry (slotOf e va) = 0 then w.diskFreeFrameList else w.entry (slotOf e va) :: w.diskFreeFrameList :=
    ⟨.nothing h (.refl w) subset_rfl (by rintro _ rfl; exact h0), (if_pos h0).symm⟩
  refine .bind_ok run_get (.ite (fun hdir => .pure (hnothing (entry_of_isNone hdir _ _))) fun hdir => ?_)
  refine .bind_ok (getDiskPageTable_run hdir va) ?_
  rcases hpt : w.table e (pdx va) with _ | pt
  · exact .pure (hnothing (by rw [PageFiles.entry, slotOf, hpt]; rfl))
  · exact removeEntry_returns h hpt (ptx va)

theorem entry_setTable_none (w : PageFiles) (e i : ℕ) (x : Slot) :
    (w.setTable e i none).entry x = if x.1 = e ∧ x.2.1 = i then 0 else w.entry x := by
  rw [PageFiles.entry, table_setTable]
  by_cases hx : x.1 = e ∧ x.2.1 = i
  · rw [if_pos hx]
    by_cases hdir : (w.diskEnvPgdir e).isSome
    · rw [if_pos ⟨hx.1, hx.2, hdir⟩]
      rfl
    · rw [if_neg fun h => hdir h.2.2, hx.1]
      exact entry_of_isNone (by simpa using hdir) x.2.1 x.2.2
  · rw [if_neg hx, if_neg fun h => hx ⟨h.1, h.2.1⟩]
    rfl

theorem freeEntry_returns (h : w.Consistent) (e i j : ℕ) :
    Returns (freeEntry e i j) w fun _ w' => Frees {(e, i, j)} {(e, i, j)} w w' := by
  unfold freeEntry
  refine .bind_ok run_get ?_
  rcases hpt : w.table e i with _ | pt
  · refine .bind_ok (run_modify _) (.of_ok (freeDiskFrame_run _ _) ?_)
    rw [Option.elim_none, if_pos rfl]
    refine .nothing h ⟨funext fun x => ?_, rfl, rfl, rfl, id⟩ subset_rfl (by rintro _ rfl; exact entry_of_table_none hpt)
    rw [PageFiles.setEntry, hpt, Option.map_none, entry_setTable_none]
    by_cases hx : x.1 = e ∧ x.2.1 = i
    · rw [if_pos hx, PageFiles.entry, hx.1, hx.2, hpt]
      rfl
    · rw [if_neg hx]
  · exact (removeEntry_returns h hpt j).mono fun _ _ hu => hu.1

/-- The pages of the table `i`, and those of its first `k` entries. -/
def tablePages (e i : ℕ) : Set Slot := {x | x.1 = e ∧ x.2.1 = i}
def firstPages (e i k : ℕ) : Set Slot := {x | x.1 = e ∧ x.2.1 = i ∧ x.2.2 < k}

theorem firstPages_succ (e i k : ℕ) : firstPages e i k ∪ {(e, i, k)} = firstPages e i (k + 1) := by
  ext ⟨e', i', j'⟩
  simp only [firstPages, Set.mem_union, Set.mem_ofPred_eq, Set.mem_singleton_iff, Prod.mk.injEq]
  omega

theorem freeTable_returns (h : w.Consistent) (e i : ℕ) :
    Returns (freeTable e i) w fun _ w' => Frees (firstPages e i 1024) (tablePages e i) w w' := by
  unfold freeTable
  refine .bind_ok run_get (.ite (fun _ => ?_) fun hnone => .pure ?_)
  · refine Sat.bind (R := fun _ u => Frees (firstPages e i 1024) (firstPages e i 1024) w u) ?_ fun _ u hu => ?_
    · refine Sat.mono (Sat.forRange (fun k u => Frees (firstPages e i k) (firstPages e i k) w u) ?_ fun k u _ _ hu => ?_)
        fun _ _ hu => ?_
      · exact .nothing h (.refl w) subset_rfl fun x hx => absurd hx.2.2 (Nat.not_lt_zero _)
      · refine (freeEntry_returns hu.consistent e i k).mono fun _ v hv => ?_
        have hdis : ∀ x ∈ ({(e, i, k)} : Set Slot), x ∉ firstPages e i k := by
          rintro _ rfl hx
          exact absurd hx.2.2 (lt_irrefl k)
        exact firstPages_succ e i k ▸ hu.trans hv hdis
      · rwa [Nat.zero_add] at hu
    · have hall : firstPages e i 1024 ∪ tablePages e i = tablePages e i :=
        Set.union_eq_right.mpr fun x hx => ⟨hx.1, hx.2.1⟩
      refine .of_ok (run_modify _) (hall ▸ hu.forget (fun x => ?_) rfl rfl rfl)
      rw [entry_setTable_none]
      by_cases hx : x.1 = e ∧ x.2.1 = i
      · exact .inl ⟨if_pos hx, hx⟩
      · exact .inr ⟨if_neg hx, hx⟩
  · have htable : w.table e i = none := by simpa using hnone
    refine .nothing h (.refl w) (fun x hx => ⟨hx.1, hx.2.1⟩) ?_
    rintro ⟨e', i', j'⟩ ⟨rfl, rfl⟩
    exact entry_of_table_none htable

/-- The pages of the tables with an index below `k`, whatever the index of the entry. -/
def lowPages (e k : ℕ) : Set Slot := {x | x.1 = e ∧ x.2.1 < k ∧ x.2.2 < 1024}
def lowTables (e k : ℕ) : Set Slot := {x | x.1 = e ∧ x.2.1 < k}

theorem lowPages_succ (e k : ℕ) : lowPages e k ∪ firstPages e k 1024 = lowPages e (k + 1) := by
  ext ⟨e', i', j'⟩
  simp only [lowPages, firstPages, Set.mem_union, Set.mem_ofPred_eq]
  omega

theorem lowTables_succ (e k : ℕ) : lowTables e k ∪ tablePages e k = lowTables e (k + 1) := by
  ext ⟨e', i', j'⟩
  simp only [lowTables, tablePages, Set.mem_union, Set.mem_ofPred_eq]
  omega

theorem pfFreeEnv_sat (h : w.Consistent) (e : ℕ) : Sat (fun _ => w.diskEnvPgdir e = none) (pfFreeEnv e) w
    fun _ w' => Frees (userPages e) (pagesOf e) w w' := by
  unfold pfFreeEnv
  refine .bind_ok run_get (.ite (fun hnone => .of_error rfl (Option.isNone_iff_eq_none.mp hnone)) fun _ => ?_)
  refine Sat.bind (Sat.forRange (fun k u => Frees (lowPages e k) (lowTables e k) w u) ?_ fun k u _ _ hu => ?_)
    fun _ u hu => ?_
  · refine .nothing h (.refl w) (fun x hx => ⟨hx.1, hx.2.1⟩) fun x hx => absurd hx.2 (Nat.not_lt_zero _)
  · refine ((freeTable_returns hu.consistent e k).weaken fun _ => False.elim).mono fun _ v hv => ?_
    have hdis : ∀ x ∈ firstPages e k 1024, x ∉ lowTables e k := fun x hx hx' => absurd hx'.2 (hx.2.1 ▸ lt_irrefl k)
    exact lowPages_succ e k ▸ lowTables_succ e k ▸ hu.trans hv hdis
  · rw [Nat.zero_add] at hu
    have hall : lowTables e (pdx userTop) ∪ pagesOf e = pagesOf e := Set.union_eq_right.mpr fun x hx => hx.1
    refine .of_ok (run_modify _) (hall ▸ hu.forget (fun x => ?_) rfl rfl rfl)
    rw [entry_setDirectory_none]
    by_cases hx : x.1 = e
    · exact .inl ⟨if_pos hx, hx⟩
    · exact .inr ⟨if_neg hx, hx⟩

/-- Without directories there are no pages. -/
theorem entry_of_none (hnone : ∀ e, w.diskEnvPgdir e = none) (x : Slot) : w.entry x = 0 := by
  rw [PageFiles.entry, PageFiles.table, hnone]
  rfl

theorem consistent_of_none {n : ℕ} (hnone : ∀ e, w.diskEnvPgdir e = none)
    (hfree : w.diskFreeFrameList = (List.range' 1 n).reverse) : w.Consistent := by
  have h0 : 0 ∉ w.diskFreeFrameList := by
    rw [hfree, List.mem_reverse, List.mem_range'_1]
    omega
  refine ⟨fun x _ hx => absurd (entry_of_none hnone x) hx, fun x => ?_, h0, ?_⟩
  · rwa [entry_of_none hnone]
  · rw [hfree]
    exact List.nodup_reverse.mpr List.nodup_range'

theorem not_noTable (hs : w.Supplied) (hva : va < userTop) : ¬NoTable w va := by
  rintro (hkern | hno)
  · simp only [kernelBase, userTop] at *
    omega
  · exact hno hs

theorem AddsPage.served {y : Slot} {src : Page} {r : ℤ} (ha : AddsPage y src w r w')
    (hroom : w.entry y ≠ 0 ∨ w.diskFreeFrameList ≠ []) : r = 0 := by
  rcases ha with ⟨-, hg⟩ | ⟨h0, -⟩
  · obtain ⟨hentry, hfree⟩ := hg.none_free
    exact absurd hroom (by simp [hentry, hfree])
  · exact h0

end FosKernel.DiskFrames
