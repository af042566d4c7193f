import FosKernel.AgingCounters
import FosKernel.ClockSweep
import FosKernel.ProgramLoading

/-!
# Time stamps of the working set

`update_WS_time_stamps` looks at the mark of use of each page in the working set, shifts the
stamp of its slot and clears the mark. The tables that the environment uses are treated alike,
with the marks in its directory. Nothing that finds an entry depends on marks of use.
-/

namespace FosKernel.Machine
open FailingPrograms PageEntries AgingCounters
open ProgramLoading (twsMaxSize)

def pdIsTableUsed (dir va : ℕ) : Kernel Bool := do
  return HasPerm (← readEntry dir (pdx va)) permUsed

def pdSetTableUnused (dir va : ℕ) : Kernel Unit := do
  let w ← readEntry dir (pdx va)
  writeEntry dir (pdx va) (clearPerm w permUsed)

def updatePageTimeStamp (e i : ℕ) : Kernel Unit := do
  let v := (← get).envs e
  let elem := v.ptrPageWorkingSet i
  if ¬elem.empty then
    let perm := (← ptGetPagePermissions v.envPageDirectory elem.virtualAddress).getD (2 ^ 32 - 1)
    if perm &&& permUsed ≠ 0 then
      setWorkingSetElement e i { elem with timeStamp := elem.timeStamp >>> 2 ||| 0x80000000 }
      ptSetPagePermissions v.envPageDirectory elem.virtualAddress 0 permUsed
    else setWorkingSetElement e i { elem with timeStamp := elem.timeStamp >>> 2 }

/-- One round of the loop over the tables, whose working set is passed along. -/
def updateTableTimeStamp (dir t : ℕ) (tws : ℕ → WorkingSetElement) : Kernel (ℕ → WorkingSetElement) := do
  let elem := tws t
  if elem.empty then return tws
  if ← pdIsTableUsed dir elem.virtualAddress then
    pdSetTableUnused dir elem.virtualAddress
    return Function.update tws t { elem with timeStamp := elem.timeStamp >>> 2 ||| 0x80000000 }
  else return Function.update tws t { elem with timeStamp := elem.timeStamp >>> 2 }

/-- The argument and the result are the `__ptr_tws` of the current environment. -/
def updateWSTimeStamps (curenv : Option ℕ) (tws : ℕ → WorkingSetElement) : Kernel (ℕ → WorkingSetElement) := do
  match curenv with
  | none => return tws
  | some e =>
    forRange (updatePageTimeStamp e) 0 ((← get).envs e).pageWSMaxSize
    foldRange (updateTableTimeStamp ((← get).envs e).envPageDirectory) 0 twsMaxSize tws

variable {s t u : Machine} {w w' need dir va e f i j n pt : ℕ}

/-- Two words that differ in the mark of use at most. -/
def SameButUsed (w w' : ℕ) : Prop := clearPerm w permUsed = clearPerm w' permUsed

namespace SameButUsed

theorem clear (w : ℕ) : SameButUsed (clearPerm w permUsed) w := by
  rw [SameButUsed, clearPerm, clearPerm, Nat.and_assoc, Nat.and_self]

theorem hasPerm (h : SameButUsed w w') (hneed : clearPerm need permUsed = need) :
    HasPerm w need ↔ HasPerm w' need := by
  have hmask (a : ℕ) : a &&& need = clearPerm a permUsed &&& need := by
    rw [clearPerm, Nat.and_assoc, Nat.and_comm (0xFFFFFFFF ^^^ permUsed)]
    exact congrArg (a &&& ·) hneed.symm
  rw [HasPerm, HasPerm, hmask w, hmask w', h]

theorem frameNumber (h : SameButUsed w w') (hw : w < 2 ^ 32) (hw' : w' < 2 ^ 32) :
    PageEntries.frameNumber w = PageEntries.frameNumber w' := by
  rw [← frameNumber_clearPerm hw (show permUsed < 4096 by decide), h,
    frameNumber_clearPerm hw' (by decide)]

end SameButUsed

structure SameWalk (s t : Machine) : Prop where
  cr3 : t.cr3 = s.cr3
  numberOfFrames : t.numberOfFrames = s.numberOfFrames
  ptrFreeMem : t.ptrFreeMem = s.ptrFreeMem
  framesInfo : t.framesInfo = s.framesInfo
  word : ∀ f, ∀ j < 1024, SameButUsed (wordAt (t.ram f) j) (wordAt (s.ram f) j)

namespace SameWalk

variable (h : SameWalk s t)
include h

theorem frame_eq (f j : ℕ) (hj : j < 1024) :
    frameNumber (wordAt (t.ram f) j) = frameNumber (wordAt (s.ram f) j) :=
  (h.word f j hj).frameNumber (wordAt_lt ..) (wordAt_lt ..)

theorem pde_frame (va : ℕ) : frameNumber (t.pde va) = frameNumber (s.pde va) := by
  rw [pde, h.cr3, h.frame_eq _ _ (pdx_lt va), pde]

theorem translate (hneed : clearPerm need permUsed = need) (p : ℕ) : t.translate need p = s.translate need p := by
  have hpde : HasPerm (t.pde p) need ↔ HasPerm (s.pde p) need := by
    rw [pde, h.cr3]
    exact (h.word _ _ (pdx_lt p)).hasPerm hneed
  have hpte : HasPerm (t.pte p) need ↔ HasPerm (s.pte p) need := by
    rw [pte, h.pde_frame]
    exact (h.word _ _ (ptx_lt p)).hasPerm hneed
  have hframe : frameNumber (t.pte p) = frameNumber (s.pte p) := by
    rw [pte, h.pde_frame, h.frame_eq _ _ (ptx_lt p), pte]
  simp only [Machine.translate, h.ptrFreeMem, hpde, hpte, hframe]

theorem translate_read (p : ℕ) : t.translate permPresent p = s.translate permPresent p :=
  h.translate (by decide) p

theorem translate_write (p : ℕ) :
    t.translate (permPresent ||| permWriteable) p = s.translate (permPresent ||| permWriteable) p :=
  h.translate (by decide) p

theorem getPageTable_run (hget : (getPageTable dir va).run s = .ok (some pt, s)) :
    (getPageTable dir va).run t = .ok (some pt, t) := by
  have htrans := h.translate_read dir
  rcases hdir : s.translate permPresent dir with _ | f
  · have herror : (readEntry dir (pdx va)).run s = .error (.pageFault dir) := by
      rw [readEntry, run_bind_error]
      rw [frameAt, run_bind_ok run_get, hdir]
      rfl
    rw [getPageTable, run_bind_error herror] at hget
    cases hget
  · have hword := h.word f (pdx va) (pdx_lt va)
    have hframe := h.frame_eq f (pdx va) (pdx_lt va)
    have hperm : HasPerm (wordAt (t.ram f) (pdx va)) permPresent ↔ HasPerm (wordAt (s.ram f) (pdx va)) permPresent :=
      hword.hasPerm (by decide)
    have haddr : extractAddress (wordAt (t.ram f) (pdx va)) = extractAddress (wordAt (s.ram f) (pdx va)) := by
      rw [extractAddress_eq, extractAddress_eq, hframe]
    rw [getPageTable, run_bind_ok (readEntry_run hdir)] at hget
    rw [getPageTable, run_bind_ok (readEntry_run (htrans.trans hdir)), haddr]
    by_cases hp : HasPerm (wordAt (s.ram f) (pdx va)) permPresent
    · rw [if_pos hp] at hget
      rw [if_pos (hperm.mpr hp)]
      by_cases hlt : PageEntries.frameNumber (extractAddress (wordAt (s.ram f) (pdx va))) < s.numberOfFrames
      · have hlt' := hlt
        rw [← h.numberOfFrames] at hlt'
        by_cases hk : checkIfKernelAddress va = true
        · rw [if_pos hk, run_bind_ok (staticKernelVirtualAddress_run hlt), run_pure, Except.ok.injEq,
            Prod.mk.injEq] at hget
          rw [if_pos hk, run_bind_ok (staticKernelVirtualAddress_run hlt'), run_pure, hget.1]
        · rw [if_neg hk, run_bind_ok (kheapVirtualAddress_run hlt), run_pure, Except.ok.injEq,
            Prod.mk.injEq] at hget
          rw [if_neg hk, run_bind_ok (kheapVirtualAddress_run hlt'), run_pure, h.framesInfo, hget.1]
      · -- an address beyond the last frame has no pointer
        have hno := not_lt.mp hlt
        by_cases hk : checkIfKernelAddress va = true
        · rw [if_pos hk, run_bind_error (e := Panic.invalidPA)] at hget
          · cases hget
          · rw [staticKernelVirtualAddress, run_bind_ok run_get, if_pos hno]
            rfl
        · rw [if_neg hk, run_bind_error (e := Panic.invalidPA)] at hget
          · cases hget
          · rw [kheapVirtualAddress, run_bind_error (e := Panic.invalidPA)]
            rw [toFrameInfo, run_bind_ok run_get, if_pos hno]
            rfl
    · rw [if_neg hp] at hget
      by_cases h0 : wordAt (s.ram f) (pdx va) ≠ 0
      · rw [if_pos h0] at hget
        cases hget
      · rw [if_neg h0] at hget
        cases hget

theorem hasTable (ht : HasTable s dir va pt f) : HasTable t dir va pt f where
  get := h.getPageTable_run ht.get
  ne := ht.ne
  read := (h.translate_read pt).trans ht.read
  write := (h.translate_write pt).trans ht.write
  stable hpt := by
    rw [h.cr3, h.pde_frame]
    rw [h.ptrFreeMem] at hpt
    exact ht.stable hpt

end SameWalk

open Classical in
/-- The marks in the words `P` are cleared, and no other bit of a word changes. -/
def ClearsMarks (s : Machine) (P : ℕ → ℕ → Prop) (t : Machine) : Prop :=
  ∀ f, ∀ j < 1024, wordAt (t.ram f) j =
    if P f j then clearPerm (wordAt (s.ram f) j) permUsed else wordAt (s.ram f) j

namespace ClearsMarks

variable {P Q : ℕ → ℕ → Prop}

theorem refl (s : Machine) : ClearsMarks s (fun _ _ => False) s := fun _ _ _ => (if_neg id).symm

theorem congr (h : ClearsMarks s P t) (hPQ : ∀ f j, Q f j ↔ P f j) : ClearsMarks s Q t := by
  obtain rfl : Q = P := by
    funext f j
    exact propext (hPQ f j)
  exact h

theorem cleared (h : ClearsMarks s P t) (hP : P f j) (hj : j < 1024) :
    wordAt (t.ram f) j = clearPerm (wordAt (s.ram f) j) permUsed := by rw [h f j hj, if_pos hP]

theorem kept (h : ClearsMarks s P t) (hP : ¬P f j) (hj : j < 1024) : wordAt (t.ram f) j = wordAt (s.ram f) j := by
  rw [h f j hj, if_neg hP]

theorem sameButUsed (h : ClearsMarks s P t) (hj : j < 1024) :
    SameButUsed (wordAt (t.ram f) j) (wordAt (s.ram f) j) := by
  by_cases hP : P f j
  · rw [h.cleared hP hj]
    exact .clear _
  · rw [h.kept hP hj]
    rfl

theorem trans (h : ClearsMarks s P t) (h' : ClearsMarks t Q u) : ClearsMarks s (fun f j => P f j ∨ Q f j) u := by
  intro f j hj
  by_cases hQ : Q f j
  · rw [if_pos (.inr hQ), h'.cleared hQ hj]
    exact h.sameButUsed hj
  · rw [h'.kept hQ hj]
    by_cases hP : P f j
    · rw [if_pos (.inl hP), h.cleared hP hj]
    · rw [if_neg (not_or.mpr ⟨hP, hQ⟩), h.kept hP hj]

theorem walk {v : ℕ → Env} (h : ClearsMarks s P t) (hrest : t = { s with ram := t.ram, envs := v }) :
    SameWalk s t where
  cr3 := (congrArg Machine.cr3 hrest).trans rfl
  numberOfFrames := (congrArg Machine.numberOfFrames hrest).trans rfl
  ptrFreeMem := (congrArg Machine.ptrFreeMem hrest).trans rfl
  framesInfo := (congrArg Machine.framesInfo hrest).trans rfl
  word _ _ hj := h.sameButUsed hj

end ClearsMarks

def entryPlace (s : Machine) (dir va : ℕ) : Option (ℕ × ℕ) :=
  match (getPageTable dir va).run s with
  | .ok (some pt, _) => (s.translate permPresent pt).map fun f => (f, ptx va)
  | _ => none

theorem HasTable.entryPlace_eq (h : HasTable s dir va pt f) : s.entryPlace dir va = some (f, ptx va) := by
  rw [entryPlace, h.get]
  simp only [h.read, Option.map_some]

/-- Where the entry for the page in a slot is found. -/
def slotPlace (s : Machine) (e i : ℕ) : Option (ℕ × ℕ) :=
  s.entryPlace (s.envs e).envPageDirectory ((s.envs e).ptrPageWorkingSet i).virtualAddress

def slotUsed (s : Machine) (e i : ℕ) : Bool :=
  match s.slotPlace e i with
  | some (f, j) => HasPerm (wordAt (s.ram f) j) permUsed
  | none => false

/-- The word is the entry of a page in one of the first `n` slots. -/
def SlotEntry (s : Machine) (e n f j : ℕ) : Prop :=
  ∃ k < n, ((s.envs e).ptrPageWorkingSet k).empty = false ∧ s.slotPlace e k = some (f, j)

instance (s : Machine) (e n f j : ℕ) : Decidable (SlotEntry s e n f j) :=
  inferInstanceAs (Decidable (∃ k < n, _))

/-- The page in a slot was used since the last tick. A mark that slots share is that of the
first of them. -/
def referenced (s : Machine) (e i : ℕ) : Bool :=
  match s.slotPlace e i with
  | some (f, j) => HasPerm (wordAt (s.ram f) j) permUsed ∧ ¬SlotEntry s e i f j
  | none => false

theorem referenced_eq_slotUsed
    (hown : ∀ k < i, ((s.envs e).ptrPageWorkingSet k).empty = false → s.slotPlace e k ≠ s.slotPlace e i) :
    s.referenced e i = s.slotUsed e i := by
  rw [referenced, slotUsed]
  rcases hplace : s.slotPlace e i with _ | ⟨f, j⟩
  · rfl
  · have hnot : ¬SlotEntry s e i f j := by
      rintro ⟨k, hk, hne, he⟩
      exact hown k hk hne (he.trans hplace.symm)
    simp [hnot]

/-- A slot when the first `n` slots are done. -/
def stampedSlot (s : Machine) (e n k : ℕ) : WorkingSetElement :=
  let elem := (s.envs e).ptrPageWorkingSet k
  if k < n ∧ elem.empty = false then
    { elem with timeStamp := age 2 31 (s.referenced e k) elem.timeStamp }
  else elem

variable {k : ℕ}

theorem stampedSlot_done (hk : k < n) (hne : ((s.envs e).ptrPageWorkingSet k).empty = false) :
    s.stampedSlot e n k = { (s.envs e).ptrPageWorkingSet k with
      timeStamp := age 2 31 (s.referenced e k) ((s.envs e).ptrPageWorkingSet k).timeStamp } :=
  if_pos ⟨hk, hne⟩

theorem stampedSlot_rest (h : n ≤ k ∨ ((s.envs e).ptrPageWorkingSet k).empty = true) :
    s.stampedSlot e n k = (s.envs e).ptrPageWorkingSet k := by
  apply if_neg
  rintro ⟨hk, hne⟩
  rcases h with h | h
  · omega
  · rw [h] at hne
    cases hne

def stampedEnv (s : Machine) (e n : ℕ) : Env := { s.envs e with ptrPageWorkingSet := s.stampedSlot e n }

/-- The first `n` slots are done: their stamps are shifted, and the marks of their pages cleared. -/
structure Stamped (s : Machine) (e n : ℕ) (t : Machine) : Prop where
  rest : t = setEnv { s with ram := t.ram } e (s.stampedEnv e n)
  marks : ClearsMarks s (SlotEntry s e n) t

namespace Stamped

theorem refl (s : Machine) (e : ℕ) : Stamped s e 0 s where
  rest := by
    have hslots : s.stampedSlot e 0 = (s.envs e).ptrPageWorkingSet := by
      funext k
      exact stampedSlot_rest (.inl (Nat.zero_le k))
    rw [stampedEnv, hslots, setEnv, Function.update_eq_self]
  marks := by
    apply (ClearsMarks.refl s).congr
    intro f j
    apply iff_false_intro
    rintro ⟨k, hk, -⟩
    exact Nat.not_lt_zero k hk

variable (h : Stamped s e n t)
include h

theorem env : t.envs e = s.stampedEnv e n :=
  (congrArg (fun t => t.envs e) h.rest).trans (Function.update_self ..)

theorem walk : SameWalk s t := h.marks.walk h.rest

end Stamped

theorem and_permUsed_ne_zero : w &&& permUsed ≠ 0 ↔ HasPerm w permUsed := by
  rw [hasPerm_used, show permUsed = 2 ^ 5 from rfl, Nat.and_two_pow]
  cases w.testBit 5 <;> decide

def setStamp (s : Machine) (e i x : ℕ) : Machine :=
  s.setEnv e { s.envs e with
    ptrPageWorkingSet := Function.update (s.envs e).ptrPageWorkingSet i
      { (s.envs e).ptrPageWorkingSet i with timeStamp := x } }

theorem walk_setStamp (s : Machine) (e i x : ℕ) : SameWalk s (s.setStamp e i x) :=
  ⟨rfl, rfl, rfl, rfl, fun _ _ _ => rfl⟩

theorem updatePageTimeStamp_empty (hempty : ((s.envs e).ptrPageWorkingSet i).empty = true) :
    (updatePageTimeStamp e i).run s = .ok ((), s) := by
  rw [updatePageTimeStamp, run_bind_ok run_get]
  simp only [hempty, not_true_eq_false, ↓reduceIte]
  rfl

theorem clearPerm_of_not_used (hw : w < 2 ^ 32) (hu : ¬HasPerm w permUsed) : clearPerm w permUsed = w := by
  rw [hasPerm_used] at hu
  apply Nat.eq_of_testBit_eq
  intro k
  by_cases hk : k < 32
  · rw [testBit_clearPerm hk, show permUsed = 2 ^ 5 from rfl, Nat.testBit_two_pow]
    by_cases h5 : 5 = k
    · subst h5
      simp [hu]
    · simp [h5]
  · have hle : 2 ^ 32 ≤ 2 ^ k := Nat.pow_le_pow_right (by decide) (not_lt.mp hk)
    rw [Nat.testBit_lt_two_pow (hw.trans_le hle), Nat.testBit_lt_two_pow ((clearPerm_lt hw).trans_le hle)]

theorem clearsMarks_setEntry (s : Machine) {f j : ℕ} (hj : j < 1024) :
    ClearsMarks s (fun g k => g = f ∧ k = j) (s.setEntry f j (clearPerm (wordAt (s.ram f) j) permUsed)) := by
  intro g k hk
  by_cases hg : g = f
  · subst hg
    rw [setEntry, setFrame_ram_self]
    by_cases hkj : k = j
    · rw [if_pos ⟨rfl, hkj⟩, hkj, wordAt_setWord hj (clearPerm_lt (wordAt_lt ..))]
    · rw [if_neg fun hc => hkj hc.2, wordAt_setWord_of_ne hk hkj]
  · rw [if_neg fun hc => hg hc.1, setEntry, setFrame_ram_of_ne hg]

theorem clearsMarks_of_not_used (hu : ¬HasPerm (wordAt (s.ram f) j) permUsed) :
    ClearsMarks s (fun g k => g = f ∧ k = j) s := by
  intro g k _
  split
  · rename_i hc
    rw [hc.1, hc.2, clearPerm_of_not_used (wordAt_lt ..) hu]
  · rfl

theorem HasTable.updatePageTimeStamp_run
    (h : HasTable s (s.envs e).envPageDirectory ((s.envs e).ptrPageWorkingSet i).virtualAddress pt f)
    (hne : ((s.envs e).ptrPageWorkingSet i).empty = false)
    (hj : ptx ((s.envs e).ptrPageWorkingSet i).virtualAddress = j) :
    ∃ t, (updatePageTimeStamp e i).run s = .ok ((), t) ∧
      t = { s.setStamp e i (age 2 31 (HasPerm (wordAt (s.ram f) j) permUsed)
        ((s.envs e).ptrPageWorkingSet i).timeStamp) with ram := t.ram } ∧
      ClearsMarks s (fun g k => g = f ∧ k = j) t := by
  have hlt : j < 1024 := hj ▸ ptx_lt _
  have hfull : ¬((s.envs e).ptrPageWorkingSet i).empty = true := by rw [hne]; decide
  have hused : wordAt (s.ram f) j % 4096 &&& permUsed ≠ 0 ↔ HasPerm (wordAt (s.ram f) j) permUsed := by
    rw [and_permUsed_ne_zero, hasPerm_mod (by decide)]
  have hrun : (updatePageTimeStamp e i).run s = (if wordAt (s.ram f) j % 4096 &&& permUsed ≠ 0 then do
        setWorkingSetElement e i { (s.envs e).ptrPageWorkingSet i with
          timeStamp := ((s.envs e).ptrPageWorkingSet i).timeStamp >>> 2 ||| 0x80000000 }
        ptSetPagePermissions (s.envs e).envPageDirectory ((s.envs e).ptrPageWorkingSet i).virtualAddress 0 permUsed
      else setWorkingSetElement e i { (s.envs e).ptrPageWorkingSet i with
        timeStamp := ((s.envs e).ptrPageWorkingSet i).timeStamp >>> 2 } : Kernel Unit).run s := by
    subst hj
    rw [updatePageTimeStamp, run_bind_ok run_get]
    refine (congrArg (fun x : Kernel Unit => x.run s) (if_pos hfull)).trans ?_
    rw [run_bind_ok h.ptGetPagePermissions_run, Option.getD_some]
  by_cases hu : HasPerm (wordAt (s.ram f) j) permUsed
  · have hclear := ((walk_setStamp s e i (((s.envs e).ptrPageWorkingSet i).timeStamp >>> 2 ||| 0x80000000)).hasTable h)
      |>.ptSetPagePermissions_clear (show permUsed ≠ 0 by decide)
    rw [hj] at hclear
    refine ⟨(s.setStamp e i (((s.envs e).ptrPageWorkingSet i).timeStamp >>> 2 ||| 0x80000000)).setEntry f j
      (clearPerm (wordAt (s.ram f) j) permUsed), hrun.trans ?_, ?_, clearsMarks_setEntry s hlt⟩
    · rw [if_pos (hused.mpr hu)]
      exact hclear
    · rw [decide_eq_true hu]
      rfl
  · refine ⟨s.setStamp e i (((s.envs e).ptrPageWorkingSet i).timeStamp >>> 2), hrun.trans ?_, ?_,
      clearsMarks_of_not_used hu⟩
    · rw [if_neg (mt hused.mp hu)]
      rfl
    · rw [decide_eq_false hu]
      rfl

theorem slotEntry_succ {j : ℕ} : SlotEntry s e (n + 1) f j ↔
    SlotEntry s e n f j ∨ ((s.envs e).ptrPageWorkingSet n).empty = false ∧ s.slotPlace e n = some (f, j) := by
  constructor
  · rintro ⟨k, hk, hne, hplace⟩
    by_cases hkn : k = n
    · subst hkn
      exact .inr ⟨hne, hplace⟩
    · exact .inl ⟨k, by omega, hne, hplace⟩
  · rintro (⟨k, hk, hne, hplace⟩ | ⟨hne, hplace⟩)
    · exact ⟨k, by omega, hne, hplace⟩
    · exact ⟨n, Nat.lt_succ_self n, hne, hplace⟩

theorem stampedSlot_succ_empty (hempty : ((s.envs e).ptrPageWorkingSet n).empty = true) :
    s.stampedSlot e (n + 1) = s.stampedSlot e n := by
  funext k
  cases hne : ((s.envs e).ptrPageWorkingSet k).empty with
  | true => rw [stampedSlot_rest (.inr hne), stampedSlot_rest (.inr hne)]
  | false =>
    have hkn : k ≠ n := by
      rintro rfl
      rw [hempty] at hne
      cases hne
    by_cases hk : k < n
    · rw [stampedSlot_done (by omega) hne, stampedSlot_done hk hne]
    · rw [stampedSlot_rest (.inl (by omega)), stampedSlot_rest (.inl (by omega))]

theorem stampedSlot_succ (hne : ((s.envs e).ptrPageWorkingSet n).empty = false) :
    s.stampedSlot e (n + 1) = Function.update (s.stampedSlot e n) n { (s.envs e).ptrPageWorkingSet n with
      timeStamp := age 2 31 (s.referenced e n) ((s.envs e).ptrPageWorkingSet n).timeStamp } := by
  funext k
  by_cases hkn : k = n
  · subst hkn
    rw [Function.update_self, stampedSlot_done (Nat.lt_succ_self k) hne]
  · rw [Function.update_of_ne hkn]
    cases hk : ((s.envs e).ptrPageWorkingSet k).empty with
    | true => rw [stampedSlot_rest (.inr hk), stampedSlot_rest (.inr hk)]
    | false =>
      by_cases hlt : k < n
      · rw [stampedSlot_done (by omega) hk, stampedSlot_done hlt hk]
      · rw [stampedSlot_rest (.inl (by omega)), stampedSlot_rest (.inl (by omega))]

namespace Stamped

variable (h : Stamped s e n t)
include h

theorem slot : (t.envs e).ptrPageWorkingSet n = (s.envs e).ptrPageWorkingSet n := by
  rw [h.env]
  exact stampedSlot_rest (.inl (le_refl n))

theorem setStamp_eq (x : ℕ) : t.setStamp e n x = setEnv { s with ram := t.ram } e { s.envs e with
    ptrPageWorkingSet := Function.update (s.stampedSlot e n) n
      { (s.envs e).ptrPageWorkingSet n with timeStamp := x } } := by
  have hset (m : Machine) (v v' : Env) : (m.setEnv e v).setEnv e v' = m.setEnv e v' := by
    simp only [setEnv, Function.update_idem]
  have hstamp : t.setStamp e n x = t.setEnv e { s.envs e with
      ptrPageWorkingSet := Function.update (s.stampedSlot e n) n
        { (s.envs e).ptrPageWorkingSet n with timeStamp := x } } := by
    rw [setStamp, h.slot, h.env]
    rfl
  rw [hstamp]
  exact (congrArg (fun m => setEnv m e _) h.rest).trans (hset ..)

theorem step (htab : ((s.envs e).ptrPageWorkingSet n).empty = false → ∃ pt f,
      HasTable s (s.envs e).envPageDirectory ((s.envs e).ptrPageWorkingSet n).virtualAddress pt f) :
    ∃ u, (updatePageTimeStamp e n).run t = .ok ((), u) ∧ Stamped s e (n + 1) u := by
  have hslot := h.slot
  have hdir : (t.envs e).envPageDirectory = (s.envs e).envPageDirectory := by
    rw [h.env]
    rfl
  cases hempty : ((s.envs e).ptrPageWorkingSet n).empty with
  | true =>
    refine ⟨t, updatePageTimeStamp_empty (by rw [hslot, hempty]), ?_, h.marks.congr fun g k => ?_⟩
    · rw [stampedEnv, stampedSlot_succ_empty hempty]
      exact h.rest
    · rw [slotEntry_succ, hempty]
      simp
  | false =>
    obtain ⟨pt, f, hs⟩ := htab hempty
    have hplace : s.slotPlace e n = some (f, ptx ((s.envs e).ptrPageWorkingSet n).virtualAddress) := hs.entryPlace_eq
    generalize hj : ptx ((s.envs e).ptrPageWorkingSet n).virtualAddress = j at hplace
    have ht := h.walk.hasTable hs
    rw [← hdir, ← hslot] at ht
    obtain ⟨u, hrun, hu, hmarks⟩ := ht.updatePageTimeStamp_run (by rw [hslot, hempty]) (by rw [hslot, hj])
    -- an earlier slot with the same entry has cleared the mark
    have hused : decide (HasPerm (wordAt (t.ram f) j) permUsed) = s.referenced e n := by
      have hlt : j < 1024 := hj ▸ ptx_lt _
      rw [referenced, hplace]
      by_cases hentry : SlotEntry s e n f j
      · rw [h.marks.cleared hentry hlt]
        simp [hentry, not_used_clearPerm]
      · rw [h.marks.kept hentry hlt]
        simp [hentry]
    refine ⟨u, hrun, ?_, (h.marks.trans hmarks).congr fun g k => ?_⟩
    · rw [hused, hslot, h.setStamp_eq, ← stampedSlot_succ hempty] at hu
      exact hu
    · rw [slotEntry_succ, hplace]
      simp only [hempty, true_and, Option.some.injEq, Prod.mk.injEq, eq_comm (a := f), eq_comm (a := j)]

end Stamped

/-- The directory can be written, and the tables of the pages in the working set are found. -/
structure PagesPresent (s : Machine) (e : ℕ) : Prop where
  directory : ∃ d, s.translate (permPresent ||| permWriteable) (s.envs e).envPageDirectory = some d
  table : ∀ i < (s.envs e).pageWSMaxSize, ((s.envs e).ptrPageWorkingSet i).empty = false → ∃ pt f,
    HasTable s (s.envs e).envPageDirectory ((s.envs e).ptrPageWorkingSet i).virtualAddress pt f

theorem PagesPresent.pages_run (h : PagesPresent s e) :
    ∃ t, (forRange (updatePageTimeStamp e) 0 (s.envs e).pageWSMaxSize).run s = .ok (⟨⟩, t) ∧
      Stamped s e (s.envs e).pageWSMaxSize t := by
  have hloop : Sat (fun _ => False) (forRange (updatePageTimeStamp e) 0 (s.envs e).pageWSMaxSize) s
      fun _ t => Stamped s e (0 + (s.envs e).pageWSMaxSize) t := by
    apply Sat.forRange (fun k t => Stamped s e k t) (Stamped.refl s e)
    intro k t _ hk ht
    obtain ⟨u, hrun, hu⟩ := ht.step (h.table k (by omega))
    exact .of_ok hrun hu
  obtain ⟨_, t, hrun, ht⟩ := hloop.exists_ok
  rw [Nat.zero_add] at ht
  exact ⟨t, hrun, ht⟩

/-- The word is the entry in the directory `d` of one of the first `n` tables. -/
def TableEntry (tws : ℕ → WorkingSetElement) (d n f j : ℕ) : Prop :=
  f = d ∧ ∃ m < n, (tws m).empty = false ∧ pdx (tws m).virtualAddress = j

variable {tws c : ℕ → WorkingSetElement} {d : ℕ}

/-- The first `n` tables are done: their marks are cleared. -/
structure TablesStamped (s : Machine) (tws : ℕ → WorkingSetElement) (d n : ℕ) (c : ℕ → WorkingSetElement)
    (t : Machine) : Prop where
  rest : t = { s with ram := t.ram }
  ahead : ∀ m, n ≤ m → c m = tws m
  marks : ClearsMarks s (TableEntry tws d n) t

theorem tableEntry_succ : TableEntry tws d (n + 1) f j ↔
    TableEntry tws d n f j ∨ (tws n).empty = false ∧ f = d ∧ j = pdx (tws n).virtualAddress := by
  constructor
  · rintro ⟨hf, m, hm, hne, hj⟩
    by_cases hmn : m = n
    · subst hmn
      exact .inr ⟨hne, hf, hj.symm⟩
    · exact .inl ⟨hf, m, by omega, hne, hj⟩
  · rintro (⟨hf, m, hm, hne, hj⟩ | ⟨hne, hf, hj⟩)
    · exact ⟨hf, m, by omega, hne, hj⟩
    · exact ⟨hf, n, Nat.lt_succ_self n, hne, hj.symm⟩

theorem updateTableTimeStamp_run (hdir : s.translate (permPresent ||| permWriteable) dir = some d)
    (hread : s.translate permPresent dir = some d) (hne : (c n).empty = false)
    (hj : pdx (c n).virtualAddress = j) :
    ∃ x t, (updateTableTimeStamp dir n c).run s = .ok (Function.update c n x, t) ∧ t = { s with ram := t.ram } ∧
      ClearsMarks s (fun g k => g = d ∧ k = j) t := by
  have hlt : j < 1024 := hj ▸ pdx_lt _
  have hfull : ¬(c n).empty = true := by rw [hne]; decide
  have hused : (pdIsTableUsed dir (c n).virtualAddress).run s =
      .ok (decide (HasPerm (wordAt (s.ram d) j) permUsed), s) := by
    rw [pdIsTableUsed, run_bind_ok (readEntry_run hread), hj]
    rfl
  have hclear : (pdSetTableUnused dir (c n).virtualAddress).run s =
      .ok (⟨⟩, s.setEntry d j (clearPerm (wordAt (s.ram d) j) permUsed)) := by
    rw [pdSetTableUnused, run_bind_ok (readEntry_run hread), writeEntry_run hdir, hj]
  by_cases hu : HasPerm (wordAt (s.ram d) j) permUsed
  · refine ⟨{ c n with timeStamp := (c n).timeStamp >>> 2 ||| 0x80000000 },
      s.setEntry d j (clearPerm (wordAt (s.ram d) j) permUsed), ?_, rfl, clearsMarks_setEntry s hlt⟩
    rw [updateTableTimeStamp]
    refine (congrArg (fun x : Kernel _ => x.run s) (if_neg hfull)).trans ?_
    rw [run_bind_ok hused, if_pos (decide_eq_true hu), run_bind_ok hclear]
    rfl
  · refine ⟨{ c n with timeStamp := (c n).timeStamp >>> 2 }, s, ?_, rfl, clearsMarks_of_not_used hu⟩
    rw [updateTableTimeStamp]
    refine (congrArg (fun x : Kernel _ => x.run s) (if_neg hfull)).trans ?_
    rw [run_bind_ok hused, if_neg (by rw [decide_eq_false hu]; decide)]
    rfl

namespace TablesStamped

theorem refl (s : Machine) (tws : ℕ → WorkingSetElement) (d : ℕ) : TablesStamped s tws d 0 tws s where
  rest := rfl
  ahead _ _ := rfl
  marks := by
    apply (ClearsMarks.refl s).congr
    intro f j
    apply iff_false_intro
    rintro ⟨-, m, hm, -⟩
    exact Nat.not_lt_zero m hm

theorem step (h : TablesStamped s tws d n c t) (hdir : s.translate (permPresent ||| permWriteable) dir = some d)
    (hread : s.translate permPresent dir = some d) :
    ∃ c' u, (updateTableTimeStamp dir n c).run t = .ok (c', u) ∧ TablesStamped s tws d (n + 1) c' u := by
  have hnext := h.ahead n (le_refl n)
  cases hempty : (tws n).empty with
  | true =>
    refine ⟨c, t, ?_, h.rest, fun m hm => h.ahead m (by omega), h.marks.congr fun g k => ?_⟩
    · rw [updateTableTimeStamp]
      exact congrArg (fun x : Kernel _ => x.run t) (if_pos (by rw [hnext, hempty]))
    · rw [tableEntry_succ, hempty]
      simp
  | false =>
    have hwalk : SameWalk s t := h.marks.walk h.rest
    obtain ⟨x, u, hrun, hu, hmarks⟩ := updateTableTimeStamp_run ((hwalk.translate_write dir).trans hdir)
      ((hwalk.translate_read dir).trans hread) (by rw [hnext, hempty]) (congrArg (pdx ·.virtualAddress) hnext)
    refine ⟨_, u, hrun, ?_, fun m hm => ?_, (h.marks.trans hmarks).congr fun g k => ?_⟩
    · exact hu.trans (congrArg (fun m => { m with ram := u.ram }) h.rest)
    · have hmn : m ≠ n := by omega
      rw [Function.update_of_ne hmn]
      exact h.ahead m (by omega)
    · rw [tableEntry_succ, hempty]
      simp

end TablesStamped

/-- The word is the entry of a page or table in the working sets of the environment. -/
def WorkingSetEntry (s : Machine) (e : ℕ) (tws : ℕ → WorkingSetElement) (f j : ℕ) : Prop :=
  SlotEntry s e (s.envs e).pageWSMaxSize f j ∨
    ∃ d, s.translate permPresent (s.envs e).envPageDirectory = some d ∧ TableEntry tws d twsMaxSize f j

/-- Stamps are shifted, and marks of use cleared; nothing else changes. -/
structure Ticked (s : Machine) (e : ℕ) (tws : ℕ → WorkingSetElement) (t : Machine) : Prop where
  rest : t = setEnv { s with ram := t.ram } e (s.stampedEnv e (s.envs e).pageWSMaxSize)
  marks : ClearsMarks s (WorkingSetEntry s e tws) t

theorem translate_read_of_write {p : ℕ} (h : s.translate (permPresent ||| permWriteable) p = some f) :
    s.translate permPresent p = some f := by
  have hweak : HasPerm (permPresent ||| permWriteable) permPresent := by decide
  rw [translate] at h ⊢
  split at h
  · rename_i hc
    rw [if_pos hc, if_pos hweak]
    split at h
    · exact h
    · cases h
  · rename_i hc
    rw [if_neg hc]
    split at h
    · rename_i hp
      rw [if_pos ⟨hp.1.trans hweak, hp.2.trans hweak⟩, h]
    · cases h

theorem PagesPresent.tick_run (h : PagesPresent s e) (tws : ℕ → WorkingSetElement) :
    ∃ tws' t, (updateWSTimeStamps (some e) tws).run s = .ok (tws', t) ∧ Ticked s e tws t := by
  obtain ⟨t, hpages, ht⟩ := h.pages_run
  obtain ⟨d, hdir⟩ := h.directory
  have hread := translate_read_of_write hdir
  have hroot : (t.envs e).envPageDirectory = (s.envs e).envPageDirectory := by
    rw [ht.env]
    rfl
  have hloop : Sat (fun _ => False) (foldRange (updateTableTimeStamp (s.envs e).envPageDirectory) 0 twsMaxSize tws) t
      fun c u => TablesStamped t tws d (0 + twsMaxSize) c u := by
    apply Sat.foldRange (fun k c u => TablesStamped t tws d k c u) (TablesStamped.refl t tws d)
    intro k c u _ _ hu
    obtain ⟨c', v, hrun, hv⟩ := hu.step ((ht.walk.translate_write _).trans hdir)
      ((ht.walk.translate_read _).trans hread)
    exact .of_ok hrun hv
  obtain ⟨tws', u, htables, hu⟩ := hloop.exists_ok
  rw [Nat.zero_add] at hu
  refine ⟨tws', u, ?_, ?_, (ht.marks.trans hu.marks).congr fun f j => ?_⟩
  · rw [updateWSTimeStamps, run_bind_ok run_get, run_bind_ok hpages, run_bind_ok run_get, hroot]
    exact htables
  · exact hu.rest.trans (congrArg (fun m => { m with ram := u.ram }) ht.rest)
  · simp only [WorkingSetEntry, hread, Option.some.injEq, exists_eq_left']

namespace Ticked

variable (h : Ticked s e tws t)
include h

theorem env : t.envs e = s.stampedEnv e (s.envs e).pageWSMaxSize :=
  (congrArg (fun t => t.envs e) h.rest).trans (Function.update_self ..)

theorem walk : SameWalk s t := h.marks.walk h.rest

theorem slot (hi : i < (s.envs e).pageWSMaxSize) (hne : ((s.envs e).ptrPageWorkingSet i).empty = false) :
    (t.envs e).ptrPageWorkingSet i = { (s.envs e).ptrPageWorkingSet i with
      timeStamp := age 2 31 (s.referenced e i) ((s.envs e).ptrPageWorkingSet i).timeStamp } := by
  rw [h.env]
  exact stampedSlot_done hi hne

theorem slotUsed_eq (hp : PagesPresent s e) (hi : i < (s.envs e).pageWSMaxSize)
    (hne : ((s.envs e).ptrPageWorkingSet i).empty = false) : t.slotUsed e i = false := by
  obtain ⟨pt, f, htab⟩ := hp.table i hi hne
  have hplace : s.slotPlace e i = some (f, ptx ((s.envs e).ptrPageWorkingSet i).virtualAddress) := htab.entryPlace_eq
  have hplace' : t.slotPlace e i = some (f, ptx ((s.envs e).ptrPageWorkingSet i).virtualAddress) := by
    rw [slotPlace, h.slot hi hne, h.env]
    exact (h.walk.hasTable htab).entryPlace_eq
  rw [slotUsed, hplace']
  simp only
  rw [h.marks.cleared (.inl ⟨i, hi, hne, hplace⟩) (ptx_lt _)]
  exact decide_eq_false (not_used_clearPerm _)

end Ticked

/-- The slots in `I` hold pages. -/
def Occupied (s : Machine) (e : ℕ) (I : Set ℕ) : Prop :=
  ∀ i ∈ I, i < (s.envs e).pageWSMaxSize ∧ ((s.envs e).ptrPageWorkingSet i).empty = false

/-- Ticks of the clock. Between two of them anything may happen that leaves the slots in `I` as
they are. The references at each tick are listed from the latest one on. -/
inductive Ticks (e : ℕ) (I : Set ℕ) (s : Machine) : List (ℕ → Bool) → Machine → Prop
  | first {tws tws' : ℕ → WorkingSetElement} {t : Machine} (hp : PagesPresent s e) (hI : Occupied s e I)
      (hrun : (updateWSTimeStamps (some e) tws).run s = .ok (tws', t)) : Ticks e I s [s.referenced e] t
  | next {rs : List (ℕ → Bool)} {t u v : Machine} {tws tws' : ℕ → WorkingSetElement} (h : Ticks e I s rs t)
      (hkept : ∀ i ∈ I, (u.envs e).ptrPageWorkingSet i = (t.envs e).ptrPageWorkingSet i)
      (hp : PagesPresent u e) (hI : Occupied u e I)
      (hrun : (updateWSTimeStamps (some e) tws).run u = .ok (tws', v)) :
      Ticks e I s (u.referenced e :: rs) v

/-- A completed tick is one that `Ticked` describes. -/
theorem PagesPresent.ticked (h : PagesPresent s e) {tws' : ℕ → WorkingSetElement}
    (hrun : (updateWSTimeStamps (some e) tws).run s = .ok (tws', t)) : Ticked s e tws t := by
  obtain ⟨tws₁, t₁, hrun₁, ht⟩ := h.tick_run tws
  rw [hrun, Except.ok.injEq, Prod.mk.injEq] at hrun₁
  exact hrun₁.2 ▸ ht

theorem Ticks.timeStamp_eq {I : Set ℕ} {rs : List (ℕ → Bool)} (h : Ticks e I s rs t) (hi : i ∈ I) :
    ((t.envs e).ptrPageWorkingSet i).timeStamp =
      aged 2 31 ((s.envs e).ptrPageWorkingSet i).timeStamp (rs.map fun r => r i) := by
  induction h with
  | first hp hI hrun => rw [(hp.ticked hrun).slot (hI i hi).1 (hI i hi).2, List.map_singleton, aged, aged]
  | next _ hkept hp hI hrun ih =>
    rw [(hp.ticked hrun).slot (hI i hi).1 (hI i hi).2, hkept i hi, ih, List.map_cons, aged]

/-- A tick clears the marks of the pages in the working set and changes no other bit of an entry.
Of two slots that stay occupied, the one that was referenced at the latest tick where they differ
has the larger stamp, if that tick is among the last sixteen. -/
theorem updateWSTimeStamps_orders (e : ℕ) :
    (∀ (s : Machine) (tws : ℕ → WorkingSetElement), PagesPresent s e →
      ∃ tws' t, (updateWSTimeStamps (some e) tws).run s = .ok (tws', t) ∧ Ticked s e tws t ∧
        ∀ i < (s.envs e).pageWSMaxSize, ((s.envs e).ptrPageWorkingSet i).empty = false → t.slotUsed e i = false) ∧
    (∀ (i j : ℕ) (s t : Machine) (rs : List (ℕ → Bool)), Ticks e {i, j} s rs t →
      ((s.envs e).ptrPageWorkingSet i).timeStamp < 2 ^ 32 → ((s.envs e).ptrPageWorkingSet j).timeStamp < 2 ^ 32 →
      ∀ (k : ℕ) (hk : k < rs.length), k < 16 → (∀ (m : ℕ) (hm : m < k), rs[m] i = rs[m] j) →
        rs[k] i = true → rs[k] j = false →
        ((t.envs e).ptrPageWorkingSet j).timeStamp < ((t.envs e).ptrPageWorkingSet i).timeStamp) ∧
    ∀ (s : Machine) (i : ℕ), (∀ k < i, ((s.envs e).ptrPageWorkingSet k).empty = false →
        s.slotPlace e k ≠ s.slotPlace e i) →
      s.referenced e i = s.slotUsed e i := by
  refine ⟨fun s tws hp => ?_, fun i j s t rs h hsi hsj k hk hk16 hsame hi hj => ?_, fun s i => referenced_eq_slotUsed⟩
  · obtain ⟨tws', t, hrun, ht⟩ := hp.tick_run tws
    exact ⟨tws', t, hrun, ht, fun i hi hne => ht.slotUsed_eq hp hi hne⟩
  · rw [h.timeStamp_eq (i := i) (by simp), h.timeStamp_eq (i := j) (by simp)]
    have hget (x m : ℕ) (hm : m < rs.length) : (rs.map fun r => r x).getD m false = rs[m] x := by
      simp [hm]
    apply aged_lt_aged (k := k) (by decide) hsj hsi
    · rwa [List.length_map]
    · rwa [List.length_map]
    · omega
    · intro m hm
      rw [hget j m (by omega), hget i m (by omega), hsame m hm]
    · rw [hget j k hk, hj]
    · rw [hget i k hk, hi]

/-- Two pages with equal stamps, of which the first one is marked as used. -/
def twoInUse : Machine :=
  { bootMachine with
    ram := fun f => pageOfWords fun j =>
      if f = 1 then 4096 * 2 + 7 else if j = 0 then 4096 * 5 + 0x27 else 4096 * 6 + 7
    framesInfo := fun _ => ⟨1, kernelBase + 4096 * 2, none, false⟩
    envs := fun _ => { bootEnv with
      envPageDirectory := kernelBase + 4096 * 1
      pageWSMaxSize := 2
      ptrPageWorkingSet := fun i => ⟨0x800000 + 4096 * i, false, 0x80000000⟩ } }

theorem twoInUse_translate (hneed : HasPerm (permPresent ||| permWriteable) need) (hf : f < 2048) :
    twoInUse.translate need (kernelBase + 4096 * f) = some f := by
  have hfree : twoInUse.ptrFreeMem = kernelBase + 4096 * 2048 := rfl
  rw [translate_static (by omega) hneed, Nat.add_sub_cancel_left, frameNumber, Nat.mul_div_cancel_left f (by decide)]

theorem twoInUse_table (hi : i < 2) :
    HasTable twoInUse (kernelBase + 4096 * 1) (0x800000 + 4096 * i) (kernelBase + 4096 * 2) 2 := by
  have hread : HasPerm (permPresent ||| permWriteable) permPresent := by decide
  have hword : wordAt (twoInUse.ram 1) (pdx (0x800000 + 4096 * i)) = 4096 * 2 + 7 :=
    wordAt_pageOfWords (pdx_lt _) (show 4096 * 2 + 7 < 2 ^ 32 by decide)
  have hlt : 0x800000 + 4096 * i < userTop := by
    rw [userTop]
    omega
  have huser : checkIfKernelAddress (0x800000 + 4096 * i) = false := decide_eq_false (not_le.mpr hlt)
  refine ⟨?_, by decide, twoInUse_translate hread (by decide), twoInUse_translate (by decide) (by decide),
    fun hc => absurd ?_ hc⟩
  · rw [getPageTable, run_bind_ok (readEntry_run (twoInUse_translate hread (by decide))), hword, if_pos (by decide),
      huser, if_neg (by decide), run_bind_ok (kheapVirtualAddress_run (by decide))]
    rfl
  · have hfree : twoInUse.ptrFreeMem = kernelBase + 4096 * 2048 := rfl
    omega

theorem twoInUse_place (hi : i < 2) : twoInUse.slotPlace 0 i = some (2, i) := by
  have hplace : twoInUse.slotPlace 0 i = some (2, ptx (0x800000 + 4096 * i)) := (twoInUse_table hi).entryPlace_eq
  rw [hplace, ptx]
  congr 2
  omega

theorem twoInUse_referenced : twoInUse.referenced 0 0 = true ∧ twoInUse.referenced 0 1 = false := by
  have hone : wordAt (twoInUse.ram 2) 0 = 4096 * 5 + 0x27 := wordAt_pageOfWords (by decide) (by decide)
  have htwo : wordAt (twoInUse.ram 2) 1 = 4096 * 6 + 7 := wordAt_pageOfWords (by decide) (by decide)
  constructor
  · have hfirst : ¬SlotEntry twoInUse 0 0 2 0 := fun ⟨k, hk, _⟩ => Nat.not_lt_zero k hk
    rw [referenced, twoInUse_place (by decide)]
    simp only
    rw [hone]
    exact decide_eq_true ⟨by decide, hfirst⟩
  · rw [referenced, twoInUse_place (by decide)]
    simp only
    rw [htwo]
    exact decide_eq_false fun hc => absurd hc.1 (by decide)

theorem twoInUse_present : PagesPresent twoInUse 0 :=
  ⟨⟨1, twoInUse_translate (by decide) (by decide)⟩, fun _ hi _ => ⟨_, 2, twoInUse_table hi⟩⟩

theorem updateWSTimeStamps_orders_twoInUse : ∃ tws' t,
    (updateWSTimeStamps (some 0) fun _ => ⟨0, true, 0⟩).run twoInUse = .ok (tws', t) ∧
      ((t.envs 0).ptrPageWorkingSet 1).timeStamp < ((t.envs 0).ptrPageWorkingSet 0).timeStamp := by
  obtain ⟨htick, horder, -⟩ := updateWSTimeStamps_orders 0
  obtain ⟨tws', t, hrun, -⟩ := htick twoInUse (fun _ => ⟨0, true, 0⟩) twoInUse_present
  have hslots : Occupied twoInUse 0 {0, 1} := by
    rintro i (rfl | rfl)
    · exact ⟨by decide, rfl⟩
    · exact ⟨by decide, rfl⟩
  have hrun' : Ticks 0 {0, 1} twoInUse [twoInUse.referenced 0] t := .first twoInUse_present hslots hrun
  exact ⟨tws', t, hrun, horder 0 1 twoInUse t _ hrun' (by decide) (by decide) 0 (by decide) (by decide)
    (fun m hm => absurd hm (Nat.not_lt_zero m)) twoInUse_referenced.1 twoInUse_referenced.2⟩

end FosKernel.Machine
