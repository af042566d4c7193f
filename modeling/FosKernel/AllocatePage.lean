import FosKernel.EnvironmentDirectories

/-!
# `__sys_allocate_page`

The call takes a frame before it looks at its arguments and returns without the
frame when they are wrong. Every call that fails loses one frame, so a program
can use them all up.
-/

namespace FosKernel.Machine
open FailingPrograms PageEntries

def permAvailable : ℕ := 0xE00
def eInval : ℤ := -3
def eNoMem : ℤ := -4

/-- `PERM_USER` is set and of the other bits at most those of `PERM_AVAILABLE` and
`PERM_WRITEABLE`. -/
def UserPerm (perm : ℕ) : Prop :=
  perm &&& (2 ^ 32 - 1 - (permAvailable ||| permWriteable)) = permUser

instance (perm : ℕ) : Decidable (UserPerm perm) := inferInstanceAs (Decidable (_ = _))

/-- The call of the environment `e`; `perm` is the word that holds the `int`. -/
def sysAllocatePage (e va perm : ℕ) : Kernel ℤ := do
  let f ← allocateFrame
  if userTop ≤ va ∨ va % pageSize ≠ 0 then return eInval
  if ¬ UserPerm perm then return eInval
  let dir := ((← get).envs e).envPageDirectory
  let _ ← mapFrame createPageTable dir f userLimit permWriteable
  clearPage userLimit
  -- `unmap_frame` is not to free the frame
  incrementReferences f
  unmapFrame dir userLimit
  modify fun s => s.setInfo f ((s.framesInfo f).addReferences (2 ^ 16 - 1))
  let r ← mapFrame createPageTable dir f va perm
  if r = eNoMem then
    decrementReferences f
    return r
  return 0

def ValidArguments (va perm : ℕ) : Prop := va < userTop ∧ va % pageSize = 0 ∧ UserPerm perm

/-- A negative result means that frames and tables are as before the call. -/
def LeavesNoTrace (e va perm : ℕ) (s : Machine) : Prop :=
  ∀ r t, (sysAllocatePage e va perm).run s = .ok (r, t) → r < 0 →
    t.freeFrameList.Perm s.freeFrameList ∧ t.ram = s.ram ∧
      ∀ f, (t.framesInfo f).references = (s.framesInfo f).references

/-- Calls, by whatever environments, each of which returns a negative result. -/
inductive FailingRun : Machine → ℕ → Machine → Prop
  | refl (s : Machine) : FailingRun s 0 s
  | call {s t u : Machine} {n e va perm : ℕ} {r : ℤ} (hr : (sysAllocatePage e va perm).run s = .ok (r, t))
      (hneg : r < 0) (h : FailingRun t n u) : FailingRun s (n + 1) u

/-- No free frame is waiting to be taken from its page. -/
def Unbuffered (s : Machine) : Prop := ∀ f ∈ s.freeFrameList, (s.framesInfo f).isBuffered = false

variable {s t u : Machine} {e va perm f n : ℕ} {fs : List ℕ} {r : ℤ}

theorem Unbuffered.allocateFrame_run (h : Unbuffered s) (hs : s.freeFrameList = f :: fs) :
    allocateFrame.run s = .ok (f, (s.setFree fs).setInfo f .initial) := by
  have hb := h f (by simp [hs])
  rw [allocateFrame, run_bind_ok run_get]
  simp only [hs, run_bind_ok run_set, hb, Bool.false_eq_true, if_false]
  rfl

theorem Unbuffered.allocated (h : Unbuffered s) (hs : s.freeFrameList = f :: fs) :
    Unbuffered ((s.setFree fs).setInfo f .initial) := by
  intro g hg
  by_cases hgf : g = f
  · subst hgf
    simp [setInfo, FrameInfo.initial]
  · exact (congrArg FrameInfo.isBuffered (Function.update_of_ne hgf _ _)).trans
      (h g (by rw [hs]; exact List.mem_cons_of_mem f hg))

theorem mapFrame_zero (cpt : ℕ → ℕ → Kernel ℕ) (dir f va perm : ℕ) (s : Machine) :
    Sat (fun _ => True) (mapFrame cpt dir f va perm) s fun r _ => r = 0 := by
  have hend (pt : ℕ) (s : Machine) : Sat (fun _ => True) (do
      incrementReferences f
      writeEntry pt (ptx va) (constructEntry (toPhysicalAddress f) (perm ||| permPresent))
      return (0 : ℤ) : Kernel ℤ) s fun r _ => r = 0 :=
    .bind (Sat.any _ s) fun _ t _ => .bind (Sat.any _ t) fun _ _ _ => .pure rfl
  have hentry (pt : ℕ) (s : Machine) : Sat (fun _ => True) (do
      let w ← readEntry pt (ptx va)
      if HasPerm w permPresent then
        if extractAddress w = toPhysicalAddress f then return 0
        unmapFrame dir va
      incrementReferences f
      writeEntry pt (ptx va) (constructEntry (toPhysicalAddress f) (perm ||| permPresent))
      return (0 : ℤ) : Kernel ℤ) s fun r _ => r = 0 := by
    refine .bind (Sat.any _ s) fun w t _ => ?_
    by_cases hp : HasPerm w permPresent
    · by_cases ha : extractAddress w = toPhysicalAddress f
      · simp only [hp, ha, if_true]
        exact .pure rfl
      · simp only [hp, ha, if_true, if_false]
        exact .bind (Sat.any _ t) fun _ t _ => hend pt t
    · simp only [hp, if_false]
      exact hend pt t
  refine .bind (Sat.any _ s) fun o t _ => ?_
  cases o with
  | some pt => exact hentry pt t
  | none => exact .bind (Sat.any _ t) fun pt t _ => hentry pt t

theorem sysAllocatePage_valid (h : ValidArguments va perm) (s : Machine) :
    Sat (fun _ => True) (sysAllocatePage e va perm) s fun r _ => r = 0 := by
  obtain ⟨hva, halign, hperm⟩ := h
  refine .bind (Sat.any _ s) fun f s _ => ?_
  simp only [hva.not_ge, halign, hperm, ne_eq, not_true_eq_false, or_self, if_false]
  refine .bind (Sat.any _ s) fun s' s _ => .bind (Sat.any _ s) fun _ s _ => .bind (Sat.any _ s) fun _ s _ =>
    .bind (Sat.any _ s) fun _ s _ => .bind (Sat.any _ s) fun _ s _ => .bind (Sat.any _ s) fun _ s _ =>
    .bind (mapFrame_zero ..) fun r s hr => ?_
  simp only [hr, show (0 : ℤ) ≠ eNoMem by decide, if_false]
  exact .pure rfl

theorem Unbuffered.sysAllocatePage_invalid (h : Unbuffered s) (hs : s.freeFrameList = f :: fs)
    (hinvalid : ¬ ValidArguments va perm) :
    (sysAllocatePage e va perm).run s = .ok (eInval, (s.setFree fs).setInfo f .initial) := by
  rw [sysAllocatePage, run_bind_ok (h.allocateFrame_run hs)]
  by_cases hva : userTop ≤ va ∨ va % pageSize ≠ 0
  · simp only [hva, if_true]
    rfl
  · have hperm : ¬ UserPerm perm := fun hp => hinvalid ⟨by omega, by omega, hp⟩
    simp only [hva, hperm, if_false, not_false_eq_true, if_true]
    rfl

theorem Unbuffered.sysAllocatePage_negative (h : Unbuffered s)
    (hr : (sysAllocatePage e va perm).run s = .ok (r, t)) (hneg : r < 0) :
    ∃ f fs, s.freeFrameList = f :: fs ∧ t = (s.setFree fs).setInfo f .initial := by
  have hinvalid : ¬ ValidArguments va perm := fun hv =>
    absurd ((sysAllocatePage_valid hv s).ok hr) hneg.ne
  cases hs : s.freeFrameList with
  | nil =>
    rw [sysAllocatePage, run_bind_error (allocateFrame_nil hs)] at hr
    cases hr
  | cons f fs =>
    rw [h.sysAllocatePage_invalid hs hinvalid] at hr
    obtain ⟨-, rfl⟩ := Prod.mk.inj (Except.ok.inj hr)
    exact ⟨f, fs, rfl, rfl⟩

theorem FailingRun.length (hrun : FailingRun s n t) (h : Unbuffered s) :
    t.freeFrameList.length + n = s.freeFrameList.length := by
  induction hrun with
  | refl => rfl
  | call hr hneg _ ih =>
    obtain ⟨f, fs, hs, rfl⟩ := h.sysAllocatePage_negative hr hneg
    have := ih (h.allocated hs)
    rw [hs, List.length_cons, ← Nat.add_assoc, this]
    rfl

/-- The call leaves no trace of an error if and only if it cannot fail: its arguments are accepted,
or there is no free frame and it panics. A run of failing calls keeps the number of free frames if
and only if it is empty. -/
theorem leavesNoTrace_iff (h : Unbuffered s) :
    (LeavesNoTrace e va perm s ↔ ValidArguments va perm ∨ s.freeFrameList = []) ∧
      ∀ n t, FailingRun s n t → (s.freeFrameList.length ≤ t.freeFrameList.length ↔ n = 0) := by
  refine ⟨⟨fun hleaves => ?_, fun hcond r t hr hneg => ?_⟩, fun n t hrun => ?_⟩
  · by_contra hnot
    obtain ⟨hinvalid, hfree⟩ := not_or.mp hnot
    obtain ⟨f, fs, hs⟩ := List.exists_cons_of_ne_nil hfree
    have hperm := (hleaves _ _ (h.sysAllocatePage_invalid hs hinvalid) (by decide)).1.length_eq
    rw [hs, List.length_cons] at hperm
    exact absurd hperm (Nat.lt_succ_self _).ne
  · obtain ⟨f, fs, hs, -⟩ := h.sysAllocatePage_negative hr hneg
    rcases hcond with hv | hnil
    · exact absurd ((sysAllocatePage_valid hv s).ok hr) hneg.ne
    · simp [hs] at hnil
  · have := hrun.length h
    omega

theorem leavesNoTrace_iff_twoDirectories : ∃ s g, System {0, 1} s g ∅ ∧
    LeavesNoTrace 0 0 (permUser ||| permWriteable) s := by
  obtain ⟨s, g, hsys, -⟩ := exists_twoDirectories
  refine ⟨s, g, hsys, (leavesNoTrace_iff fun f _ => hsys.unbuffered f).1.mpr (.inl ?_)⟩
  exact ⟨by decide, by decide, by decide⟩

theorem not_validArguments_userTop (perm : ℕ) : ¬ ValidArguments userTop perm := fun h => absurd h.1 (lt_irrefl _)

theorem Unbuffered.exists_failingRun (h : Unbuffered s) (hn : n ≤ s.freeFrameList.length) (e : ℕ) :
    ∃ t, FailingRun s n t := by
  induction n generalizing s with
  | zero => exact ⟨s, .refl s⟩
  | succ n ih =>
    obtain ⟨f, fs, hs⟩ := List.exists_cons_of_length_pos (Nat.zero_lt_of_lt hn)
    rw [hs, List.length_cons] at hn
    obtain ⟨t, ht⟩ := ih (h.allocated hs) (by exact Nat.le_of_succ_le_succ hn)
    exact ⟨t, .call (h.sysAllocatePage_invalid (e := e) hs (not_validArguments_userTop permUser)) (by decide) ht⟩

/-- The address is not below `USER_TOP`. The call fails and a frame is gone; a hundred such calls
lose a hundred frames. -/
theorem not_leavesNoTrace_userTop : ∃ s g, System {0, 1} s g ∅ ∧
    ¬ LeavesNoTrace 0 userTop permUser s ∧
      ∃ t, FailingRun s 100 t ∧ t.freeFrameList.length < s.freeFrameList.length := by
  obtain ⟨s, g, hsys, -, -, -, -, hlen, -⟩ := exists_twoDirectories
  have h : Unbuffered s := fun f _ => hsys.unbuffered f
  obtain ⟨f, fs, hs⟩ := List.exists_cons_of_length_pos (show 0 < s.freeFrameList.length by omega)
  obtain ⟨t, ht⟩ := h.exists_failingRun hlen 0
  have hlost := ht.length h
  refine ⟨s, g, hsys, fun hleaves => ?_, t, ht, by omega⟩
  have hrun := h.sysAllocatePage_invalid (e := 0) hs (not_validArguments_userTop permUser)
  have hperm := (hleaves _ _ hrun (by decide)).1.length_eq
  rw [hs, List.length_cons] at hperm
  exact absurd hperm (Nat.lt_succ_self _).ne

end FosKernel.Machine
