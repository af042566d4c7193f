import FosKernel.FaultHandling

/-!
# The counter of repeated faults

`last_fault_va` and `num_repeated_fault` belong to no environment and are not reset when
a fault was resolved. So it is the sequence of all faulted addresses that decides whether
`fault_handler` gives up.
-/

namespace FosKernel.Machine
open FailingPrograms PageEntries

variable {s t : FaultState} {faults : List ℕ} {va : ℕ}

/-- The permissions that a user's access needs. -/
def accessPerm (write : Bool) : ℕ :=
  if write then permPresent ||| permUser ||| permWriteable else permPresent ||| permUser

def accessMarks (write : Bool) : ℕ := if write then permUsed ||| permModified else permUsed

/-- The page file of the running environment has the page of an address. -/
def inPageFile (e va : ℕ) : Kernel Bool := do
  let v := (← get).envs e
  if v.diskEnvPgdir = 0 then return false
  let pt ← getDiskPageTable v.diskEnvPgdir va false
  if pt = 0 then return false
  return decide ((← readEntry pt (ptx va)) ≠ 0)

def LegalAccess (s : FaultState) (va : ℕ) : Prop :=
  va < ustackTop ∧ (InHeapOrStack va ∨ ∃ m, (inPageFile s.curenv va).run s.machine = .ok (true, m))

/-- The states of a run, with the faulted addresses, the last one first. The variable
`last_fault_va` starts as if address 0 had faulted. -/
inductive FaultRun : FaultState → List ℕ → Prop
  | start (m : Machine) (e : ℕ) : FaultRun ⟨m, e, 0, 0⟩ [0]
  | access {s : FaultState} {faults : List ℕ} (write : Bool) (va : ℕ) : FaultRun s faults →
    (s.machine.translate (accessPerm write) va).isSome →
    FaultRun { s with machine := s.machine.touch va (accessMarks write) } faults
  | fault {s t : FaultState} {faults : List ℕ} (write : Bool) (va : ℕ) : FaultRun s faults →
    s.machine.translate (accessPerm write) va = none → LegalAccess s va →
    (faultHandler true va).run s = .ok ((), t) → FaultRun t (va :: faults)
  | free {s : FaultState} {m : Machine} {faults : List ℕ} (va size : ℕ) : FaultRun s faults →
    (freeUserMem s.curenv va size).run s.machine = .ok ((), m) →
    FaultRun { s with machine := m } faults
  | switch {s : FaultState} {faults : List ℕ} (e : ℕ) : FaultRun s faults →
    FaultRun { s with curenv := e, machine := { s.machine with cr3 := (s.machine.envs e).envCr3 } } faults

/-- `fault_handler` panics because of a repeated fault. -/
def GivesUp (s : FaultState) (va : ℕ) : Prop := (faultHandler true va).run s = .error .repeatedFault

/-- How often the first element follows itself. -/
def repeats : List ℕ → ℕ
  | a :: b :: l => if a = b then repeats (b :: l) + 1 else 0
  | _ => 0

theorem thrice_iff : [va, va, va] <+: faults ↔ faults.head? = some va ∧ 2 ≤ repeats faults := by
  match faults with
  | [] => simp
  | [a] => simp [repeats]
  | [a, b] =>
    simp only [repeats, List.cons_prefix_cons]
    constructor
    · rintro ⟨-, -, h⟩
      simp at h
    · split <;> simp
  | a :: b :: c :: l =>
    simp only [repeats, List.cons_prefix_cons, List.nil_prefix, and_true, List.head?_cons, Option.some.injEq]
    constructor
    · rintro ⟨rfl, rfl, rfl⟩
      simp
    · rintro ⟨rfl, h⟩
      split at h
      · split at h
        · simp_all
        · omega
      · omega

/-- The globals say how the sequence of faults begins. -/
structure Counted (s : FaultState) (faults : List ℕ) : Prop where
  last : faults.head? = some s.lastFaultVa
  num : s.numRepeatedFault = repeats faults
  lt : repeats faults < 3

theorem onFault_sat {α : Type} (x : Kernel α) (s : FaultState) :
    Sat (fun e => e ≠ .repeatedFault) (onFault x) s fun _ t =>
      t.lastFaultVa = s.lastFaultVa ∧ t.numRepeatedFault = s.numRepeatedFault := by
  unfold onFault
  refine .bind_ok run_get ?_
  rcases x.run s.machine with e | ⟨a, m⟩
  · exact .of_error rfl (by simp)
  · exact .of_ok rfl ⟨rfl, rfl⟩

theorem faultHandler_bind (va : ℕ) : ∃ x : FaultKernel Unit,
    faultHandler true va = (countFault va >>= fun _ => x) ∧ ∀ t, Sat (fun e => e ≠ .repeatedFault) x t
      fun _ u => u.lastFaultVa = t.lastFaultVa ∧ u.numRepeatedFault = t.numRepeatedFault := by
  refine ⟨_, rfl, fun t => ?_⟩
  simp only [if_true]
  split
  · exact .of_error rfl (by simp)
  · exact .bind_ok rfl (.bind_ok run_get (onFault_sat _ _))

theorem Counted.countFault (h : Counted s faults) (va : ℕ) :
    [va, va, va] <+: faults ∧ (Machine.countFault va).run s = .error .repeatedFault ∨
      ¬[va, va, va] <+: faults ∧
        ∃ t, (Machine.countFault va).run s = .ok ((), t) ∧ Counted t (va :: faults) := by
  obtain ⟨hlast, hnum, hlt⟩ := h
  obtain ⟨l, rfl⟩ : ∃ l, faults = s.lastFaultVa :: l := by
    cases faults with
    | nil => cases hlast
    | cons a l => exact ⟨l, by rw [Option.some.inj hlast]⟩
  rw [thrice_iff, Machine.countFault, run_bind_ok run_get]
  by_cases hva : s.lastFaultVa = va
  · have hrep : repeats (va :: s.lastFaultVa :: l) = repeats (s.lastFaultVa :: l) + 1 := by
      rw [repeats, if_pos hva.symm]
    have hbmod : (s.numRepeatedFault + 1).bmod 256 = s.numRepeatedFault + 1 := by
      simp only [Int.bmod]
      omega
    rw [if_pos hva, hbmod]
    by_cases htwo : repeats (s.lastFaultVa :: l) = 2
    · have hthree : s.numRepeatedFault + 1 = 3 := by omega
      refine .inl ⟨⟨by rw [← hva]; rfl, htwo.ge⟩, ?_⟩
      rw [if_pos hthree]
      rfl
    · have hthree : s.numRepeatedFault + 1 ≠ 3 := by omega
      rw [if_neg hthree]
      refine .inr ⟨fun h => htwo (by omega), _, rfl, rfl, ?_, by omega⟩
      simp only
      omega
  · have hrep : repeats (va :: s.lastFaultVa :: l) = 0 := if_neg fun h => hva h.symm
    rw [if_neg hva]
    exact .inr ⟨fun h => hva (Option.some.inj h.1), _, rfl, rfl, by rw [hrep]; rfl, by rw [hrep]; decide⟩

theorem Counted.faultHandler (h : Counted s faults) (hrun : (Machine.faultHandler true va).run s = .ok ((), t)) :
    Counted t (va :: faults) := by
  obtain ⟨x, hx, hsat⟩ := faultHandler_bind va
  rw [hx] at hrun
  rcases h.countFault va with ⟨-, hcount⟩ | ⟨-, u, hcount, hu⟩
  · rw [run_bind_error hcount] at hrun
    cases hrun
  · rw [run_bind_ok hcount] at hrun
    obtain ⟨hl, hn⟩ := (hsat u).ok hrun
    exact ⟨hl ▸ hu.last, hn ▸ hu.num, hu.lt⟩

theorem FaultRun.counted (h : FaultRun s faults) : Counted s faults := by
  induction h with
  | start m e => exact ⟨rfl, rfl, by decide⟩
  | access write va _ _ ih => exact ⟨ih.last, ih.num, ih.lt⟩
  | fault write va _ _ _ hrun ih => exact ih.faultHandler hrun
  | free va size _ _ ih => exact ⟨ih.last, ih.num, ih.lt⟩
  | switch e _ ih => exact ⟨ih.last, ih.num, ih.lt⟩

/-- In every run the next fault makes the handler give up exactly when the three faults
before it were at the same address. -/
theorem givesUp_iff (h : FaultRun s faults) (va : ℕ) : GivesUp s va ↔ [va, va, va] <+: faults := by
  obtain ⟨x, hx, hsat⟩ := faultHandler_bind va
  rw [GivesUp, hx]
  rcases h.counted.countFault va with ⟨hthree, hcount⟩ | ⟨hthree, u, hcount, -⟩
  · exact ⟨fun _ => hthree, fun _ => run_bind_error hcount⟩
  · refine ⟨fun herr => ?_, fun h => absurd h hthree⟩
    rw [run_bind_ok hcount] at herr
    exact absurd rfl ((hsat u).error herr)

/-- The address of a page of the kernel heap, by its frame. -/
def heapVa (f : ℕ) : ℕ := kernelHeapStart + pageSize * f

/-- The page that the stack of a new environment has. -/
def stackPage : ℕ := ustackTop - pageSize

/-- A table of the kernel, and of each of four environments the directory, the table of
its stack, and the directory and the table of its page file. -/
def fourEnvsRam (f : ℕ) : Page :=
  if f = 10 then pageOfWords fun j => if 20 ≤ j ∧ j < 70 then constructEntry (pageSize * j) 3 else 0
  else if 20 ≤ f ∧ f < 24 then pageOfWords fun j =>
    if j = pdx kernelHeapStart then constructEntry (pageSize * 10) 3
    else if j = pdx stackPage then constructEntry (pageSize * (f + 10)) 7 else 0
  else if 30 ≤ f ∧ f < 34 then pageOfWords fun j =>
    if j = ptx stackPage then constructEntry (pageSize * (f + 10)) 7 else 0
  else if 50 ≤ f ∧ f < 54 then pageOfWords fun j =>
    if j = pdx stackPage then constructEntry (pageSize * (f + 10)) 1 else 0
  else if 60 ≤ f ∧ f < 64 then pageOfWords fun j => if j = ptx stackPage then f - 50 else 0
  else zeroPage

/-- Environments whose stacks have one page each. -/
def fourEnvs : Machine where
  ram := fourEnvsRam
  cr3 := pageSize * 20
  numberOfFrames := 100
  ptrFreeMem := kernelBase + pageSize * 16
  ptrPageDirectory := kernelBase + pageSize * 9
  framesInfo f := ⟨1, heapVa f, none, false⟩
  freeFrameList := [70, 71, 72, 73]
  heap := ⟨⟨fun _ => none, fun _ => none, fun _ => ⟨none, none, 0⟩⟩, fun _ => 0, fun _ => 0, 0⟩
  kHeapPlacementStrategy := .firstFit
  disk _ := zeroPage
  diskFreeFrameList := [20, 21]
  envs e := {
    envPageDirectory := heapVa (20 + e)
    envCr3 := pageSize * (20 + e)
    diskEnvPgdir := heapVa (50 + e)
    diskEnvPgdirPA := pageSize * (50 + e)
    diskEnvTabledir := 0
    diskEnvTabledirPA := 0
    pageWSMaxSize := 5
    ptrPageWorkingSet := fun i => if i = 0 then ⟨stackPage, false, 0⟩ else ⟨0, true, 0⟩
    pageLastWSIndex := 1
    pageFaultsCounter := 0
    tableFaultsCounter := 0
    nPageIn := 0
    nPageOut := 0
    nNewPageAdded := 0
    initNumStackPages := 1 }

/-- The scheduler runs environment `e`. -/
def FaultState.switch (s : FaultState) (e : ℕ) : FaultState :=
  { s with curenv := e, machine := { s.machine with cr3 := (s.machine.envs e).envCr3 } }

/-- Environment `e` has used the page below its first stack page. -/
def FaultState.grow (s : FaultState) (e : ℕ) : FaultState :=
  match (faultHandler true (stackPage - pageSize)).run (s.switch e) with
  | .ok (_, t) => t
  | .error _ => s

/-- The access faults, and the handler returns. -/
def Grows (s : FaultState) (e : ℕ) : Bool :=
  ((s.switch e).machine.translate (accessPerm true) (stackPage - pageSize)).isNone &&
    match (faultHandler true (stackPage - pageSize)).run (s.switch e) with
    | .ok _ => true
    | .error _ => false

theorem FaultRun.grow {e : ℕ} (h : FaultRun s faults) (hgrows : Grows s e = true) :
    FaultRun (s.grow e) ((stackPage - pageSize) :: faults) := by
  obtain ⟨hnone, hok⟩ := Bool.and_eq_true_iff.mp hgrows
  have hlegal : LegalAccess (s.switch e) (stackPage - pageSize) := ⟨by decide, .inl (by decide)⟩
  refine .fault true _ (.switch e h) (Option.isNone_iff_eq_none.mp hnone) hlegal ?_
  change (faultHandler true (stackPage - pageSize)).run (s.switch e) = _
  unfold FaultState.grow
  split at hok
  · rename_i r hr
    rw [hr]
  · cases hok

def threeGrown : FaultState := (((⟨fourEnvs, 0, 0, 0⟩ : FaultState).grow 0).grow 1).grow 2

theorem threeGrown_run : FaultRun threeGrown
    [stackPage - pageSize, stackPage - pageSize, stackPage - pageSize, 0] :=
  (((FaultRun.start fourEnvs 0).grow (e := 0) (by decide +kernel)).grow (e := 1) (by decide +kernel)).grow
    (e := 2) (by decide +kernel)

/-- The fourth environment may use a page of its stack, but the handler gives up. -/
theorem fourStacks_givesUp : ¬∀ s faults va, FaultRun s faults → LegalAccess s va → ¬GivesUp s va := by
  intro h
  have hrun : FaultRun (threeGrown.switch 3) _ := .switch 3 threeGrown_run
  obtain ⟨x, hx, -⟩ := faultHandler_bind (stackPage - pageSize)
  refine h _ _ (stackPage - pageSize) hrun ⟨by decide, .inl (by decide)⟩ ?_
  rcases hrun.counted.countFault (stackPage - pageSize) with ⟨-, hcount⟩ | ⟨hnot, -⟩
  · rw [GivesUp, hx]
    exact run_bind_error hcount
  · exact absurd ⟨[0], rfl⟩ hnot

/-- After two stacks a third one may still grow. -/
theorem givesUp_iff_twoStacks : ¬GivesUp (((⟨fourEnvs, 0, 0, 0⟩ : FaultState).grow 0).grow 1)
    (stackPage - pageSize) := by
  have hrun := ((FaultRun.start fourEnvs 0).grow (e := 0) (by decide +kernel)).grow (e := 1) (by decide +kernel)
  intro h
  exact absurd ((givesUp_iff hrun _).mp h) (by decide)

end FosKernel.Machine
