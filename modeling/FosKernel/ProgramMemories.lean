import FosKernel.TransparentPaging
import Mathlib.Data.Set.Card

/-!
# What programs find in memory

The scheduler runs an instruction of one environment after the other. An instruction whose access
faults is attempted again when its environment runs the next time.
-/

namespace FosKernel.Machine
open FailingPrograms PageEntries WriteBackCaches LazyMemories

variable {s t u : Machine} {E A : Finset ℕ} {g g' : Obj → ℕ} {e f i j k p va w : ℕ} {b : UInt8} {pg : Page}

def userLoad (va : ℕ) : Kernel UInt8 := do
  let f ← frameAt (accessPerm false) va
  modify fun s => s.touch va (accessMarks false)
  return byteAt ((← get).ram f) va

def userStore (va : ℕ) (b : UInt8) : Kernel Unit := do
  let f ← frameAt (accessPerm true) va
  modify fun s => (s.setFrame f (setByte (s.ram f) va b)).touch va (accessMarks true)

/-- An instruction that uses one byte of memory. -/
inductive Instruction where
  | load (va : ℕ)
  | store (va : ℕ) (b : UInt8)

namespace Instruction

def address : Instruction → ℕ
  | load va => va
  | store va _ => va

/-- What the instruction does, and what it finds. -/
def perform (e : ℕ) : Instruction → Kernel (Access (ℕ × ℕ) UInt8)
  | load va => do return .load (e, va) (← userLoad va)
  | store va b => do
    userStore va b
    return .store (e, va) b

/-- The access is the one that the instruction asks for. -/
def Asks (e : ℕ) : Instruction → Access (ℕ × ℕ) UInt8 → Prop
  | load va, x => ∃ b, x = .load (e, va) b
  | store va b, x => x = .store (e, va) b

end Instruction

/-- Environment `e` runs. After a fault was handled the processor is at the same instruction. -/
def attempt (e : ℕ) (a : Instruction) : FaultKernel (Option (Access (ℕ × ℕ) UInt8)) := do
  modify fun s => s.switch e
  let s ← get
  match (a.perform e).run s.machine with
  | .ok (x, m) =>
    set { s with machine := m }
    return some x
  | .error (.pageFault va) =>
    faultHandler true va
    return none
  | .error q => throw (.other q)

/-- The environments `es` run in turn, each an instruction of its program `P e`. What is left of the programs is `P'`.
A fault needs a page of the kernel heap for the table that may be missing. -/
inductive Turns : FaultState → (ℕ → List Instruction) → List ℕ → List (Access (ℕ × ℕ) UInt8) → FaultState →
    (ℕ → List Instruction) → Prop
  | nil (s : FaultState) (P : ℕ → List Instruction) : Turns s P [] [] s P
  | turn {s t u : FaultState} {P P' : ℕ → List Instruction} {e : ℕ} {a : Instruction} {as : List Instruction}
      {r : Option (Access (ℕ × ℕ) UInt8)} {es : List ℕ} {xs : List (Access (ℕ × ℕ) UInt8)} (next : P e = a :: as)
      (room : r = none → Room s.machine 1) (run : (attempt e a).run s = .ok (r, t))
      (tail : Turns t (if r.isSome then Function.update P e as else P) es xs u P') : Turns s P (e :: es) (r.toList ++ xs) u P'

noncomputable def view (A : Finset ℕ) (s : Machine) (g : Obj → ℕ) (a : ℕ × ℕ) : Option UInt8 :=
  ((caching A s g).value (a.1, pageNumber a.2)).map (byteAt · a.2)

theorem fills_view (h : Fills (caching A s g).value (caching A t g').value) : Fills (view A s g) (view A t g') := by
  intro a b hb
  obtain ⟨pg, hpg, rfl⟩ := Option.map_eq_some_iff.mp hb
  exact Option.map_eq_some_iff.mpr ⟨pg, h _ _ hpg, rfl⟩

theorem offset_ne {va' : ℕ} (hp : pageNumber va' = pageNumber va) (hne : va' ≠ va) : va' % 4096 ≠ va % 4096 := by
  intro ho
  simp only [pageNumber, pageSize] at hp
  omega

theorem serves_store (hpg : (caching A s g).value (e, pageNumber va) = some pg)
    (hc : caching A t g' = (caching A s g).write (e, pageNumber va) (setByte pg va b)) :
    Serves (view A s g) (.store (e, va) b) (view A t g') := by
  have hvalue := (caching A s g).value_write (e, pageNumber va) (setByte pg va b)
  rw [← hc] at hvalue
  refine .store (fun a ha b' hb => ?_) ?_
  · by_cases hpage : (a.1, pageNumber a.2) = (e, pageNumber va)
    · have hne : a.2 ≠ va := fun h => ha (Prod.ext (Prod.mk.inj hpage).1 h)
      rw [view, hpage, hpg] at hb
      rw [view, hvalue, hpage, Function.update_self, ← hb]
      exact congrArg some (byteAt_setByte_of_ne (offset_ne (Prod.mk.inj hpage).2 hne))
    · rw [view, hvalue, Function.update_of_ne hpage]
      exact hb
  · rw [view, hvalue, Function.update_self]
    exact congrArg some (byteAt_setByte pg va b)

namespace Running

variable (h : Running E A s g e va)
include h

theorem translate_mapped (hm : IsMapped s g (e, pageNumber va)) (write : Bool) :
    s.translate (accessPerm write) va = some (frameNumber (s.userEntry g (e, pageNumber va))) := by
  have hperms := (h.memories.mapped _ h.own hm).perms
  have hneed : HasPerm (s.entries g (.user e, pageNumber va)) (accessPerm write) := by
    cases write with
    | false => exact hasPerm_or.mpr ⟨hperms.1, hperms.2.2⟩
    | true => exact hasPerm_or.mpr ⟨hasPerm_or.mpr ⟨hperms.1, hperms.2.2⟩, hperms.2.1⟩
  rw [h.reaches.translate (by cases write <;> decide) (by cases write <;> decide), if_pos hneed]
  rfl

theorem frameAt_absent (habsent : ¬IsMapped s g (e, pageNumber va)) (write : Bool) :
    (frameAt (accessPerm write) va).run s = .error (.pageFault va) := by
  have hneed : ¬HasPerm (s.entries g (.user e, pageNumber va)) (accessPerm write) := fun hc => by
    cases write with
    | false => exact habsent (hasPerm_or.mp hc).1
    | true => exact habsent (hasPerm_or.mp (hasPerm_or.mp hc).1).1
  rw [frameAt, run_bind_ok run_get, h.reaches.translate (by cases write <;> decide) (by cases write <;> decide),
    if_neg hneed]
  rfl

theorem perform_absent {a : Instruction} (ha : a.address = va) (habsent : ¬IsMapped s g (e, pageNumber va)) :
    (a.perform e).run s = .error (.pageFault va) := by
  cases a with
  | load va' =>
    obtain rfl : va' = va := ha
    exact run_bind_error (run_bind_error (h.frameAt_absent habsent false))
  | store va' b =>
    obtain rfl : va' = va := ha
    exact run_bind_error (run_bind_error (h.frameAt_absent habsent true))

theorem load_run (hm : IsMapped s g (e, pageNumber va)) : ∃ t b, (userLoad va).run s = .ok (b, t) ∧
    PrivateMemories E A t g ∧ caching A t g = caching A s g ∧ Takes 0 s t ∧ view A s g (e, va) = some b := by
  obtain ⟨hch, hent⟩ := h.memories.stocked.touch (F := ∅) h.reaches (h.reaches.table hm) (m := permUsed) (by decide)
  have hrec := sameRecords_touch s va permUsed
  have huse := h.memories.toPrivatePages.inUse h.own hm
  have hsame (x : ℕ × ℕ) : SameAccess (s.userEntry g x) ((s.touch va permUsed).userEntry g x) := by
    rw [userEntry, userEntry, hent, Function.update_apply]
    split
    · rename_i hx
      rw [hx]
      exact .setUsed _
    · exact .refl _
  obtain ⟨hmem, hcaching⟩ := h.memories.marked hch hrec hsame fun x => hch.entries _ (by simp)
  refine ⟨s.touch va permUsed, byteAt ((s.touch va permUsed).ram (frameNumber (s.userEntry g (e, pageNumber va)))) va,
    (run_bind_ok (frameAt_run (h.translate_mapped hm false))).trans rfl, hmem, hcaching, .of_records hrec, ?_⟩
  rw [view, Cache.value, caching_front h.own hm, hch.ram _ (Set.notMem_empty _) huse.toOrdinary]
  rfl

theorem store_run (hm : IsMapped s g (e, pageNumber va)) (b : UInt8) : ∃ t pg, (userStore va b).run s = .ok ((), t) ∧
    PrivateMemories E A t g ∧ (caching A s g).value (e, pageNumber va) = some pg ∧
    caching A t g = (caching A s g).write (e, pageNumber va) (setByte pg va b) ∧ Takes 0 s t := by
  have huse := h.memories.toPrivatePages.inUse h.own hm
  have htr := h.translate_mapped hm true
  obtain ⟨f, hf⟩ : ∃ f, frameNumber (s.userEntry g (e, pageNumber va)) = f := ⟨_, rfl⟩
  rw [hf] at huse htr
  obtain ⟨h₁, hcell₁⟩ := h.memories.stocked.changeFrame huse.toOrdinary (setByte (s.ram f) va b)
  have hent₁ : (s.setFrame f (setByte (s.ram f) va b)).entries g = s.entries g := entries_congr fun _ _ _ => congrFun hcell₁ _
  obtain ⟨h₂, hent₂⟩ := h₁.stocked.touch (F := ∅) (h₁.reaches h.reaches) (h.reaches.table hm) (m := permUsed ||| permModified)
    (by decide)
  set t := (s.setFrame f (setByte (s.ram f) va b)).touch va (permUsed ||| permModified)
  have hrec : SameRecords s t := (sameRecords_setFrame s f (setByte (s.ram f) va b)).trans (sameRecords_touch ..)
  have hram : t.ram f = setByte (s.ram f) va b := by
    rw [h₂.ram _ (Set.notMem_empty _) (h₁.ordinary huse.toOrdinary), setFrame_ram_self]
  obtain ⟨hpages, hcaching, hmapped⟩ := h.memories.stored h.own hm ((h₁.trans h₂).mono (by simp) (by simp [hf])) hrec
    (by rw [userEntry, hent₂, Function.update_self, hent₁]) (by rw [hf, hram])
  refine ⟨t, s.ram f, (run_bind_ok (frameAt_run htr)).trans rfl, ⟨⟨hpages, fun e' he' => ?_⟩, fun e' he' => ?_⟩, ?_, hcaching,
    .of_records hrec⟩
  · refine (h.memories.sets e' he').same ?_ fun p _ => hmapped _
    rw [hrec.envs]
    exact .refl _
  · rw [hrec.envs]
    exact h.memories.arranged e' he'
  · rw [Cache.value, caching_front h.own hm, hf]

end Running

open Classical in
noncomputable def faultsLeft (s : Machine) (g : Obj → ℕ) (e va : ℕ) : ℕ :=
  if IsMapped s g (e, pageNumber va) then 0 else if g (.leaf (.user e) (pdx va)) = 0 then 2 else 1

structure Attempted (E A : Finset ℕ) (s : FaultState) (g : Obj → ℕ) (e : ℕ) (a : Instruction)
    (r : Option (Access (ℕ × ℕ) UInt8)) (t : FaultState) (g' : Obj → ℕ) : Prop where
  memories : PrivateMemories E A t.machine g'
  takes : Takes (if r.isSome then 0 else 1) s.machine t.machine
  shows : Shows (view A s.machine g) r (view A t.machine g')
  asked : ∀ x, r = some x → a.Asks e x
  legal : ∀ e' va, LegalAddress A s.machine g e' va → LegalAddress A t.machine g' e' va
  performed : r.isSome ↔ IsMapped s.machine g (e, pageNumber a.address)
  mapped : r.isSome → ∀ x, OwnPage A x → (IsMapped t.machine g' x ↔ IsMapped s.machine g x)
  others : ∀ x, OwnPage A x → x.1 ≠ e → (IsMapped t.machine g' x ↔ IsMapped s.machine g x)
  tables : ∀ o, g o ≠ 0 → g' o ≠ 0
  nearer : r = none → faultsLeft t.machine g' e a.address < faultsLeft s.machine g e a.address
  counted : r = none → (faultHandler true a.address).run (s.switch e) = .ok ((), t)
  uncounted : r.isSome → t.lastFaultVa = s.lastFaultVa ∧ t.numRepeatedFault = s.numRepeatedFault

theorem countFault_sat (s : FaultState) (va : ℕ) : Sat (fun q => q = .repeatedFault) (countFault va) s fun _ t =>
    t.machine = s.machine ∧ t.curenv = s.curenv := by
  refine .bind_ok run_get (.ite (fun _ => .bind_ok run_set (.ite (fun _ => ?_) fun _ => ?_)) fun _ => .bind_ok run_set ?_)
  · exact .of_error rfl rfl
  · exact .of_ok rfl ⟨rfl, rfl⟩
  · exact .of_ok rfl ⟨rfl, rfl⟩

theorem PrivateMemories.running (h : PrivateMemories E A s g) (ha : LegalAddress A s g e va) :
    Running E A { s with cr3 := (s.envs e).envCr3 } g e va ∧
      caching A { s with cr3 := (s.envs e).envCr3 } g = caching A s g := by
  have he := ha.running
  have hroot := (h.roots e he).1
  obtain ⟨hmem, hcaching⟩ := h.load he
  refine ⟨⟨hmem, ⟨hmem.stocked.toLayout, user_mem_mmuTrees.mpr (h.trees he), hroot, hmem.stocked.frameNumber_envCr3 hroot,
    ha.address.1⟩, ha.fills ?_⟩, hcaching⟩
  rw [hcaching]
  exact .refl _

/-- A fault of a program is resolved, unless the counter or some resource says otherwise. -/
theorem faultHandler_sat {s : FaultState} (h : Running E A s.machine g s.curenv va)
    (habsent : ¬IsMapped s.machine g (s.curenv, pageNumber va)) (hroom : Room s.machine 1) :
    Sat (fun q => q = .repeatedFault ∨ ∃ p, q = .other p ∧ Exhausted s.machine 1 p) (faultHandler true va) s fun _ t =>
      ∃ g', Resumes E A s.machine g s.curenv va t.machine g' ∧
        faultsLeft t.machine g' s.curenv va < faultsLeft s.machine g s.curenv va := by
  refine ((countFault_sat s va).weaken fun q hq => .inl hq).bind ?_
  rintro _ t ⟨hmachine, hcurenv⟩
  refine .ite (fun _ => .ite (fun hle => absurd hle (not_le.mpr h.address.lt)) fun _ => ?_) fun hf => absurd rfl hf
  refine .bind_ok run_get ?_
  have hsat := h.handleFault_resumes habsent hroom
  rw [← hmachine, ← hcurenv] at hsat ⊢
  refine .bind_ok run_get ?_
  rcases hrun : (handleFault t.curenv va).run t.machine with q | ⟨_, m⟩
  · exact .of_error rfl (.inr ⟨q, rfl, hsat.error hrun⟩)
  · obtain ⟨g', hres, htable, hmap⟩ := hsat.ok hrun
    rw [← hmachine, ← hcurenv] at habsent
    refine .of_ok rfl ⟨g', hres, ?_⟩
    rw [faultsLeft, faultsLeft, if_neg habsent]
    by_cases hl : g (.leaf (.user t.curenv) (pdx va)) = 0
    · obtain ⟨hl', habsent'⟩ := htable hl
      rw [if_pos hl, if_neg habsent', if_neg hl']
      decide
    · rw [if_neg hl, if_pos (hmap hl)]
      decide

theorem Running.perform_mapped {a : Instruction} (h : Running E A s g e a.address)
    (hm : IsMapped s g (e, pageNumber a.address)) :
    ∃ x t, (a.perform e).run s = .ok (x, t) ∧ a.Asks e x ∧ PrivateMemories E A t g ∧ Takes 0 s t ∧
      Serves (view A s g) x (view A t g) ∧ (∀ y, OwnPage A y → (IsMapped t g y ↔ IsMapped s g y)) ∧
      ∀ e' va, LegalAddress A s g e' va → LegalAddress A t g e' va := by
  cases a with
  | load va =>
    obtain ⟨t, b, hrun, hmem, hcaching, htakes, hview⟩ := h.load_run hm
    have hsame : view A t g = view A s g := by
      funext a
      rw [view, hcaching, view]
    refine ⟨.load (e, va) b, t, (run_bind_ok hrun).trans rfl, ⟨b, rfl⟩, hmem, htakes, ?_, fun y hy => ?_,
      fun e' va' ha => ha.fills ?_⟩
    · rw [hsame]
      exact .load (.refl _) hview
    · rw [isMapped_iff hy, hcaching, isMapped_iff hy]
    · rw [hcaching]
      exact .refl _
  | store va b =>
    have hstore : Running E A s g e va := h
    obtain ⟨t, pg, hrun, hmem, hpg, hcaching, htakes⟩ := hstore.store_run hm b
    have hvalue := (caching A s g).value_write (e, pageNumber va) (setByte pg va b)
    rw [← hcaching] at hvalue
    refine ⟨.store (e, va) b, t, (run_bind_ok hrun).trans rfl, rfl, hmem, htakes, serves_store hpg hcaching, fun y hy => ?_,
      fun e' va' ha => ⟨ha.running, ha.address, ha.lt, ha.legal.imp_left fun hne => ?_⟩⟩
    · rw [isMapped_iff hy, hcaching, isMapped_iff hy]
      by_cases hye : y = (e, pageNumber va)
      · have hmapped : ((caching A s g).front (e, pageNumber va)).isSome := (isMapped_iff h.own).mp hm
        simp [Cache.write, hye, hmapped]
      · simp [Cache.write, hye]
    · rw [hvalue, Function.update_apply]
      split
      · exact Option.some_ne_none _
      · exact hne

/-- The access is performed, or its fault is resolved, unless the counter or some resource says otherwise. -/
theorem attempt_sat {s : FaultState} {a : Instruction} (h : PrivateMemories E A s.machine g)
    (ha : LegalAddress A s.machine g e a.address)
    (hroom : ¬IsMapped s.machine g (e, pageNumber a.address) → Room s.machine 1) :
    Sat (fun q => ¬IsMapped s.machine g (e, pageNumber a.address) ∧
        (q = .repeatedFault ∧ GivesUp (s.switch e) a.address ∨ ∃ p, q = .other p ∧ Exhausted s.machine 1 p))
      (attempt e a) s fun r t => ∃ g', Attempted E A s g e a r t g' := by
  obtain ⟨hrunning, hcaching⟩ := h.running ha
  have hmachine : (s.switch e).machine = { s.machine with cr3 := (s.machine.envs e).envCr3 } := rfl
  rw [← hmachine] at hrunning hcaching
  have hview : view A (s.switch e).machine g = view A s.machine g := by
    funext x
    exact congrArg (fun c : Cache (ℕ × ℕ) Page => (c.value (x.1, pageNumber x.2)).map (byteAt · x.2)) hcaching
  have hlegal (e' va : ℕ) (hl : LegalAddress A s.machine g e' va) : LegalAddress A (s.switch e).machine g e' va :=
    hl.fills (fun k b hb => (congrFun (congrArg Cache.value hcaching) k).trans hb)
  have hswitch : Takes 0 s.machine (s.switch e).machine := .of_heap rfl rfl le_rfl le_rfl
  refine .bind_ok (run_modify _) (.bind_ok run_get ?_)
  by_cases hm : IsMapped s.machine g (e, pageNumber a.address)
  · obtain ⟨x, m, hrun, hasks, hmem, htakes, hserves, hsame, hkeeps⟩ := hrunning.perform_mapped hm
    rw [hrun]
    refine .of_ok rfl ⟨g, hmem, hswitch.trans htakes, hview ▸ hserves, ?_, fun e' va hl => hkeeps e' va (hlegal e' va hl),
      iff_of_true rfl hm, fun _ => hsame, fun x hx _ => hsame x hx, fun _ ho => ho, fun hc => ?_, fun hc => ?_,
      fun _ => ⟨rfl, rfl⟩⟩
    · rintro _ ⟨⟩
      exact hasks
    · cases hc
    · cases hc
  · have habsent := hrunning.perform_absent rfl hm
    rw [habsent]
    have hsat := faultHandler_sat hrunning hm (hroom hm)
    rcases hrun : (faultHandler true a.address).run (s.switch e) with q | ⟨⟨⟩, t⟩
    · refine .of_error (run_bind_error hrun) ?_
      rcases hsat.error hrun with rfl | hq
      · exact ⟨hm, .inl ⟨rfl, hrun⟩⟩
      · exact ⟨hm, .inr hq⟩
    · obtain ⟨g', hres, hnear⟩ := hsat.ok hrun
      refine .of_ok (run_bind_ok hrun) ⟨g', hres.memories, hswitch.trans hres.takes, ?_, fun x hx => ?_,
        fun e' va hl => (hlegal e' va hl).fills hres.fills, iff_of_false (by simp) hm, fun hc => ?_, hres.others,
        hres.tables, fun _ => hnear, fun _ => hrun, fun hc => ?_⟩
      · rw [← hview]
        exact fills_view hres.fills
      · cases hx
      · cases hc
      · cases hc

theorem attempt_isSome {s t : FaultState} {a : Instruction} {r : Option (Access (ℕ × ℕ) UInt8)}
    (h : PrivateMemories E A s.machine g) (ha : LegalAddress A s.machine g e a.address)
    (hrun : (attempt e a).run s = .ok (r, t)) : r.isSome ↔ IsMapped s.machine g (e, pageNumber a.address) := by
  by_cases hm : IsMapped s.machine g (e, pageNumber a.address)
  · obtain ⟨g', ht⟩ := (attempt_sat h ha fun hno => absurd hm hno).ok hrun
    exact ht.performed
  · refine iff_of_false ?_ hm
    have habsent : (a.perform e).run (s.switch e).machine = .error (.pageFault a.address) :=
      (h.running ha).1.perform_absent rfl hm
    have hnone : Sat (fun _ => True) (attempt e a) s fun r _ => r = none := by
      refine .bind_ok (run_modify _) (.bind_ok run_get ?_)
      rw [habsent]
      rcases hfault : (faultHandler true a.address).run (s.switch e) with q | ⟨⟨⟩, u⟩
      · exact .of_error (run_bind_error hfault) trivial
      · exact .of_ok (run_bind_ok hfault) rfl
    rw [hnone.ok hrun]
    exact Bool.false_ne_true

theorem faultsLeft_le (s : Machine) (g : Obj → ℕ) (e va : ℕ) : faultsLeft s g e va ≤ 2 := by
  rw [faultsLeft]
  split
  · decide
  · split
    · decide
    · decide

theorem faultsLeft_eq_zero : faultsLeft s g e va = 0 ↔ IsMapped s g (e, pageNumber va) := by
  rw [faultsLeft]
  split
  · rename_i hm
    exact iff_of_true rfl hm
  · rename_i hm
    refine iff_of_false ?_ hm
    split
    · decide
    · decide

theorem one_le_faultsLeft (habsent : ¬IsMapped s g (e, pageNumber va)) : 1 ≤ faultsLeft s g e va :=
  Nat.one_le_iff_ne_zero.mpr (faultsLeft_eq_zero.not.mpr habsent)

theorem faultsLeft_mono (hm : IsMapped t g' (e, pageNumber va) ↔ IsMapped s g (e, pageNumber va))
    (htables : ∀ o, g o ≠ 0 → g' o ≠ 0) : faultsLeft t g' e va ≤ faultsLeft s g e va := by
  rw [faultsLeft, faultsLeft]
  by_cases hmapped : IsMapped s g (e, pageNumber va)
  · rw [if_pos (hm.mpr hmapped)]
    exact Nat.zero_le _
  · rw [if_neg (mt hm.mp hmapped), if_neg hmapped]
    by_cases hl : g (.leaf (.user e) (pdx va)) = 0
    · rw [if_pos hl]
      split
      · exact le_rfl
      · decide
    · rw [if_neg (htables _ hl), if_neg hl]

/-- How many faults the next instruction of a program has before it. -/
noncomputable def faultsAhead (s : Machine) (g : Obj → ℕ) (e : ℕ) : List Instruction → ℕ
  | [] => 0
  | a :: _ => faultsLeft s g e a.address

theorem faultsAhead_le (s : Machine) (g : Obj → ℕ) (e : ℕ) (as : List Instruction) : faultsAhead s g e as ≤ 2 := by
  cases as with
  | nil => exact Nat.zero_le 2
  | cons a as => exact faultsLeft_le s g e a.address

theorem LegalAddress.own (h : LegalAddress A s g e va) : OwnPage A (e, pageNumber va) :=
  ⟨h.running, (userAddress_page va).mpr h.address⟩

theorem Instruction.Asks.cell {a : Instruction} {x : Access (ℕ × ℕ) UInt8} (h : a.Asks e x) : x.cell.1 = e := by
  cases a with
  | load va =>
    obtain ⟨b, rfl⟩ := h
    rfl
  | store va b =>
    obtain rfl := h
    rfl

/-- The instructions of each program are performed one after the other, each of them after two faults at most. -/
structure InOrder (s : Machine) (g : Obj → ℕ) (P : ℕ → List Instruction) (es : List ℕ) (xs : List (Access (ℕ × ℕ) UInt8))
    (t : Machine) (g' : Obj → ℕ) (P' : ℕ → List Instruction) (e : ℕ) (as : List Instruction) : Prop where
  split : P e = as ++ P' e
  asked : List.Forall₂ (Instruction.Asks e) as (xs.filter fun x => x.cell.1 = e)
  count : es.count e + faultsAhead t g' e (P' e) ≤ 3 * as.length + faultsAhead s g e (P e)

structure Ran (E A : Finset ℕ) (s : Machine) (g : Obj → ℕ) (P : ℕ → List Instruction) (es : List ℕ)
    (xs : List (Access (ℕ × ℕ) UInt8)) (t : Machine) (g' : Obj → ℕ) (P' : ℕ → List Instruction) : Prop where
  memories : PrivateMemories E A t g'
  takes : Takes es.length s t
  views : Views (view A s g) xs (view A t g')
  legal : ∀ e' va, LegalAddress A s g e' va → LegalAddress A t g' e' va
  others : ∀ x, OwnPage A x → x.1 ∉ es → (IsMapped t g' x ↔ IsMapped s g x)
  cells : ∀ x ∈ xs, x.cell.1 ∈ es
  programs : ∀ e, ∃ as, InOrder s g P es xs t g' P' e as

theorem Ran.refl (h : PrivateMemories E A s g) (P : ℕ → List Instruction) : Ran E A s g P [] [] s g P :=
  ⟨h, .refl s, .nil _, fun _ _ hl => hl, fun _ _ _ => .rfl, by simp, fun _ => ⟨[], rfl, .nil, by simp⟩⟩

/-- What is left of the programs after an attempt. -/
abbrev rest (P : ℕ → List Instruction) (e : ℕ) (as : List Instruction) (r : Option (Access (ℕ × ℕ) UInt8)) :
    ℕ → List Instruction := if r.isSome then Function.update P e as else P

section

variable {u : Machine} {P P' : ℕ → List Instruction} {es : List ℕ} {xs : List (Access (ℕ × ℕ) UInt8)} {a : Instruction}
  {as : List Instruction} {r : Option (Access (ℕ × ℕ) UInt8)}

theorem Attempted.inOrder {s t : FaultState} {e' : ℕ} {bs : List Instruction} (h : Attempted E A s g e a r t g')
    (next : P e = a :: as) (hown : ∀ e, ∀ a ∈ P e, OwnPage A (e, pageNumber a.address)) {g'' : Obj → ℕ}
    (hrest : InOrder t.machine g' (rest P e as r) es xs u g'' P' e' bs) :
    ∃ bs, InOrder s.machine g P (e :: es) (r.toList ++ xs) u g'' P' e' bs := by
  obtain ⟨hsplit, hasked, hcount⟩ := hrest
  have hxs : (r.toList ++ xs).filter (fun x => x.cell.1 = e') =
      (if e = e' then r.toList else []) ++ xs.filter fun x => x.cell.1 = e' := by
    rw [List.filter_append]
    cases r with
    | none => simp
    | some x =>
      have hcell := (h.asked x rfl).cell
      by_cases he : e = e' <;> simp [hcell, he]
  by_cases he : e = e'
  · subst he
    rw [if_pos rfl] at hxs
    cases r with
    | none =>
      have hnear := h.nearer rfl
      refine ⟨bs, hsplit, by rwa [hxs], ?_⟩
      simp only [rest, Option.isSome_none, Bool.false_eq_true, if_false, next, faultsAhead] at hcount ⊢
      rw [List.count_cons_self]
      omega
    | some x =>
      have hahead := faultsAhead_le t.machine g' e as
      simp only [rest, Option.isSome_some, if_true, Function.update_self] at hsplit hcount
      refine ⟨a :: bs, by rw [next, hsplit]; rfl, by rw [hxs]; exact .cons (h.asked x rfl) hasked, ?_⟩
      rw [List.count_cons_self, List.length_cons]
      omega
  · have hP : rest P e as r e' = P e' := by
      rw [rest]
      split
      · exact Function.update_of_ne (Ne.symm he) ..
      · rfl
    rw [if_neg he, List.nil_append] at hxs
    rw [hP] at hsplit hcount
    refine ⟨bs, hsplit, by rwa [hxs], ?_⟩
    have hahead : faultsAhead t.machine g' e' (P e') ≤ faultsAhead s.machine g e' (P e') := by
      rcases hPe : P e' with - | ⟨b, cs⟩
      · exact le_rfl
      · have hb := hown e' b (by rw [hPe]; exact List.mem_cons_self)
        exact faultsLeft_mono (h.others _ hb (Ne.symm he)) h.tables
    rw [List.count_cons_of_ne he]
    omega

theorem Attempted.ran {s t : FaultState} {g'' : Obj → ℕ} (h : Attempted E A s g e a r t g') (next : P e = a :: as)
    (hown : ∀ e, ∀ a ∈ P e, OwnPage A (e, pageNumber a.address))
    (hran : Ran E A t.machine g' (rest P e as r) es xs u g'' P') :
    Ran E A s.machine g P (e :: es) (r.toList ++ xs) u g'' P' where
  memories := hran.memories
  takes := by
    have htakes : Takes 1 s.machine t.machine := h.takes.mono (by split <;> decide)
    exact (htakes.trans hran.takes).mono (by rw [List.length_cons, Nat.add_comm])
  views := hran.views.step h.shows
  legal e' va hl := hran.legal _ _ (h.legal _ _ hl)
  others x hx hne := by
    rw [hran.others x hx (fun hc => hne (List.mem_cons_of_mem _ hc)), h.others x hx fun hc => hne (hc ▸ List.mem_cons_self)]
  cells x hx := by
    rcases List.mem_append.mp hx with hx | hx
    · rw [(h.asked x (Option.mem_toList.mp hx)).cell]
      exact List.mem_cons_self
    · exact List.mem_cons_of_mem e (hran.cells x hx)
  programs e' := by
    obtain ⟨bs, hbs⟩ := hran.programs e'
    exact h.inOrder next hown hbs

theorem Ran.mem_of_mem {s t : Machine} (h : Ran E A s g P es xs t g' P') (ha : a ∈ P' e) : a ∈ P e := by
  obtain ⟨bs, hsplit, -⟩ := h.programs e
  rw [hsplit]
  exact List.mem_append_right bs ha

theorem mem_rest {e' : ℕ} {b : Instruction} (next : P e = a :: as) (hb : b ∈ rest P e as r e') : b ∈ P e' := by
  rw [rest] at hb
  split at hb
  · by_cases he : e' = e
    · subst he
      rw [Function.update_self] at hb
      rw [next]
      exact List.mem_cons_of_mem a hb
    · rwa [Function.update_of_ne he] at hb
  · exact hb

/-- Whatever the scheduler does, programs see memories of their own. -/
theorem Turns.ran {s t : FaultState} (h : Turns s P es xs t P') (hmem : PrivateMemories E A s.machine g)
    (hlegal : ∀ e, ∀ a ∈ P e, LegalAddress A s.machine g e a.address) :
    ∃ g', Ran E A s.machine g P es xs t.machine g' P' := by
  induction h generalizing g with
  | nil s P => exact ⟨g, .refl hmem P⟩
  | @turn s t u P P' e a as r es xs next room run tail ih =>
    have ha := hlegal e a (by rw [next]; exact List.mem_cons_self)
    have hroom (habsent : ¬IsMapped s.machine g (e, pageNumber a.address)) : Room s.machine 1 :=
      room (Option.not_isSome_iff_eq_none.mp ((attempt_isSome hmem ha run).not.mpr habsent))
    obtain ⟨g', ht⟩ := (attempt_sat hmem ha hroom).ok run
    obtain ⟨g'', hran⟩ := ih ht.memories fun e' b hb => ht.legal _ _ (hlegal e' b (mem_rest next hb))
    exact ⟨g'', ht.ran next (fun e' b hb => (hlegal e' b hb).own) hran⟩

end

/-- The counter of repeated faults will not stop the access. -/
def Patient (s : FaultState) (g : Obj → ℕ) (e va : ℕ) : Prop :=
  0 ≤ s.numRepeatedFault ∧ (s.lastFaultVa = va → s.numRepeatedFault + faultsLeft s.machine g e va ≤ 2)

/-- No fault was repeated, or the page that faulted last is mapped, or none of the instructions uses its address. -/
def Settled (A : Finset ℕ) (s : FaultState) (g : Obj → ℕ) (e : ℕ) (as : List Instruction) : Prop :=
  0 ≤ s.numRepeatedFault ∧ s.numRepeatedFault ≤ 2 ∧ (s.numRepeatedFault = 0 ∨
    OwnPage A (e, pageNumber s.lastFaultVa) ∧ IsMapped s.machine g (e, pageNumber s.lastFaultVa) ∨
    ∀ a ∈ as, a.address ≠ s.lastFaultVa)

theorem countFault_run {s : FaultState} (h0 : 0 ≤ s.numRepeatedFault) (h : s.lastFaultVa = va → s.numRepeatedFault ≤ 1) :
    ∃ t, (countFault va).run s = .ok ((), t) ∧ t.lastFaultVa = va ∧ t.machine = s.machine ∧
      t.numRepeatedFault = if s.lastFaultVa = va then s.numRepeatedFault + 1 else 0 := by
  rw [countFault, run_bind_ok run_get]
  by_cases hva : s.lastFaultVa = va
  · have hle := h hva
    have hbmod : (s.numRepeatedFault + 1).bmod 256 = s.numRepeatedFault + 1 := by
      simp only [Int.bmod]
      omega
    rw [if_pos hva, if_pos hva, hbmod, run_bind_ok run_set, if_neg (by omega)]
    exact ⟨_, rfl, rfl, rfl, rfl⟩
  · rw [if_neg hva, if_neg hva]
    exact ⟨_, rfl, rfl, rfl, rfl⟩

theorem Patient.counts {s : FaultState} (h : Patient s g e va) (habsent : ¬IsMapped s.machine g (e, pageNumber va)) :
    ¬GivesUp (s.switch e) va ∧ ∀ t, (faultHandler true va).run (s.switch e) = .ok ((), t) →
      t.numRepeatedFault = if s.lastFaultVa = va then s.numRepeatedFault + 1 else 0 := by
  have h0 : 0 ≤ (s.switch e).numRepeatedFault := h.1
  have hle : (s.switch e).lastFaultVa = va → (s.switch e).numRepeatedFault ≤ 1 := fun hva => by
    have hsum := h.2 hva
    have hleft := one_le_faultsLeft habsent
    have hnum : (s.switch e).numRepeatedFault = s.numRepeatedFault := rfl
    omega
  obtain ⟨u, hrun, -, -, hnum⟩ := countFault_run h0 hle
  obtain ⟨x, hx, hsat⟩ := faultHandler_bind va
  rw [GivesUp, hx, run_bind_ok hrun]
  exact ⟨fun hc => (hsat u).error hc rfl, fun t hok => ((hsat u).ok hok).2.trans hnum⟩

theorem Attempted.patient {s t : FaultState} {a : Instruction} (h : Attempted E A s g e a none t g')
    (hp : Patient s g e a.address) : Patient t g' e a.address ∧ t.numRepeatedFault ≤ 2 := by
  have habsent : ¬IsMapped s.machine g (e, pageNumber a.address) := fun hm => absurd (h.performed.mpr hm) Bool.false_ne_true
  have hnear := h.nearer rfl
  have hleft := faultsLeft_le s.machine g e a.address
  have hn := (hp.counts habsent).2 t (h.counted rfl)
  have hbound : 0 ≤ t.numRepeatedFault ∧ t.numRepeatedFault + faultsLeft t.machine g' e a.address ≤ 2 := by
    by_cases hva : s.lastFaultVa = a.address
    · rw [if_pos hva] at hn
      have hle := hp.2 hva
      have h0 := hp.1
      omega
    · rw [if_neg hva] at hn
      omega
  exact ⟨⟨hbound.1, fun _ => hbound.2⟩, by omega⟩

theorem Attempted.last {s t : FaultState} {a : Instruction} (h : Attempted E A s g e a none t g') :
    t.lastFaultVa = a.address := by
  have hrun := h.counted rfl
  have hcount : Sat (fun _ => True) (countFault a.address) (s.switch e) fun _ t => t.lastFaultVa = a.address := by
    refine .bind_ok run_get (.ite (fun _ => .bind_ok run_set (.ite (fun _ => ?_) fun _ => ?_)) fun _ => .bind_ok run_set ?_)
    · exact .of_error rfl trivial
    · exact .of_ok rfl rfl
    · exact .of_ok rfl rfl
  obtain ⟨x, hx, hsat⟩ := faultHandler_bind a.address
  rw [hx] at hrun
  exact ((hcount.bind fun _ u hu => ((hsat u).weaken fun _ _ => trivial).mono fun _ w hw => hw.1.trans hu).ok hrun)

/-- The counter is settled, or it counts the faults of the next instruction. -/
def Calm (A : Finset ℕ) (s : FaultState) (g : Obj → ℕ) (e : ℕ) (as cs : List Instruction) : Prop :=
  Settled A s g e (as ++ cs) ∨ (∃ a ∈ as.head?, s.lastFaultVa = a.address ∧ Patient s g e a.address) ∧ s.numRepeatedFault ≤ 2

section

variable {s t : FaultState} {a : Instruction} {as bs cs : List Instruction} {x : Access (ℕ × ℕ) UInt8}

theorem Calm.patient (h : Calm A s g e (a :: as) cs) : Patient s g e a.address := by
  rcases h with ⟨h0, hle, hzero | ⟨-, hm⟩ | hne⟩ | ⟨⟨b, hb, -, hp⟩, -⟩
  · refine ⟨h0, fun _ => ?_⟩
    have hleft := faultsLeft_le s.machine g e a.address
    omega
  · refine ⟨h0, fun hva => ?_⟩
    rw [← hva, faultsLeft_eq_zero.mpr hm]
    exact hle.trans_eq' (by simp)
  · exact ⟨h0, fun hva => absurd hva.symm (hne a List.mem_cons_self)⟩
  · obtain rfl : a = b := Option.some.inj hb
    exact hp

theorem Calm.performed (h : Calm A s g e (a :: as) cs) (ha : OwnPage A (e, pageNumber a.address))
    (ht : Attempted E A s g e a (some x) t g') : Calm A t g' e as cs := by
  obtain ⟨hlast, hnum⟩ := ht.uncounted rfl
  left
  rw [Settled, hlast, hnum]
  rcases h with ⟨h0, hle, hrest⟩ | ⟨⟨b, hb, hva, hp⟩, hle⟩
  · refine ⟨h0, hle, hrest.imp_right (.imp (fun hown => ⟨hown.1, (ht.mapped rfl _ hown.1).mpr hown.2⟩) fun hne b hb => ?_)⟩
    exact hne b (List.mem_cons_of_mem a hb)
  · obtain rfl : a = b := Option.some.inj hb
    refine ⟨hp.1, hle, .inr (.inl ?_)⟩
    rw [hva]
    exact ⟨ha, (ht.mapped rfl _ ha).mpr (ht.performed.mp rfl)⟩

theorem Calm.faulted (h : Calm A s g e (a :: as) cs) (ht : Attempted E A s g e a none t g') : Calm A t g' e (a :: as) cs :=
  .inr ⟨⟨a, rfl, ht.last, (ht.patient h.patient).1⟩, (ht.patient h.patient).2⟩

/-- How many turns the instructions need at most. -/
noncomputable def turnsLeft (s : Machine) (g : Obj → ℕ) (e : ℕ) : List Instruction → ℕ
  | [] => 0
  | a :: as => 3 * as.length + faultsLeft s g e a.address + 1

theorem turnsLeft_le (s : Machine) (g : Obj → ℕ) (e : ℕ) (as : List Instruction) : turnsLeft s g e as ≤ 3 * as.length := by
  cases as with
  | nil => exact le_rfl
  | cons a as =>
    have hleft := faultsLeft_le s g e a.address
    rw [turnsLeft, List.length_cons]
    omega

/-- The next instruction waits for a frame, a disk frame or a page of the kernel heap. -/
def Starved (t : FaultState) (e : ℕ) (P' : ℕ → List Instruction) : Prop :=
  ∃ a as, P' e = a :: as ∧ (¬Room t.machine 1 ∧ (∀ x u, (attempt e a).run t ≠ .ok (some x, u)) ∨
    ∃ p, (attempt e a).run t = .error (.other p) ∧ Exhausted t.machine 1 p)

/-- The instructions were performed, and the counter has counted only their faults. -/
structure Finished (A : Finset ℕ) (s : FaultState) (e : ℕ) (as bs cs : List Instruction) (t : FaultState) (g' : Obj → ℕ)
    (P' : ℕ → List Instruction) : Prop where
  rest : P' e = bs
  settled : Settled A t g' e cs
  counter : t.lastFaultVa = s.lastFaultVa ∧ t.numRepeatedFault = s.numRepeatedFault ∨ ∃ a ∈ as, t.lastFaultVa = a.address

/-- An attempt leaves one turn less for what remains of the instructions. -/
theorem Attempted.fewer_turns {P : ℕ → List Instruction} {r : Option (Access (ℕ × ℕ) UInt8)} {u : FaultState} {n : ℕ}
    (hu : Attempted E A s g e a r u g') (hown : OwnPage A (e, pageNumber a.address)) (hcalm : Calm A s g e (a :: as) cs)
    (hP : P e = a :: as ++ bs) (hn : turnsLeft s.machine g e (a :: as) ≤ n + 1) :
    ∃ as', rest P e (as ++ bs) r e = as' ++ bs ∧ Calm A u g' e as' cs ∧ turnsLeft u.machine g' e as' ≤ n ∧
      (∀ b ∈ as', b ∈ a :: as) ∧
        (u.lastFaultVa = s.lastFaultVa ∧ u.numRepeatedFault = s.numRepeatedFault ∨ u.lastFaultVa = a.address) := by
  rw [turnsLeft] at hn
  cases r with
  | some x =>
    have hle := turnsLeft_le u.machine g' e as
    exact ⟨as, Function.update_self .., hcalm.performed hown hu, by omega,
      fun b hb => List.mem_cons_of_mem a hb, .inl (hu.uncounted rfl)⟩
  | none =>
    have hnear := hu.nearer rfl
    refine ⟨a :: as, hP, hcalm.faulted hu, ?_, fun b hb => hb, .inr hu.last⟩
    rw [turnsLeft]
    omega

/-- The environment takes turns until its instructions are performed, or until something has run out. -/
theorem exists_turns {P : ℕ → List Instruction} (n : ℕ) (cs : List Instruction) (h : PrivateMemories E A s.machine g)
    (hlegal : ∀ e, ∀ a ∈ P e, LegalAddress A s.machine g e a.address) (hP : P e = as ++ bs) (hcalm : Calm A s g e as cs)
    (hn : turnsLeft s.machine g e as ≤ n) : ∃ k ≤ n, ∃ xs t P' g', Turns s P (List.replicate k e) xs t P' ∧
      Ran E A s.machine g P (List.replicate k e) xs t.machine g' P' ∧ (Finished A s e as bs cs t g' P' ∨ Starved t e P') := by
  induction n generalizing s g P as with
  | zero =>
    cases as with
    | nil =>
      refine ⟨0, le_rfl, [], s, P, g, .nil s P, .refl h P, .inl ⟨hP, ?_, .inl ⟨rfl, rfl⟩⟩⟩
      rcases hcalm with hsettled | ⟨⟨a, ha, -⟩, -⟩
      · exact hsettled
      · cases ha
    | cons a as => exact absurd hn (Nat.not_succ_le_zero _)
  | succ n ih =>
    cases as with
    | nil =>
      obtain ⟨k, hk, hrest⟩ := ih h hlegal hP hcalm (Nat.zero_le n)
      exact ⟨k, hk.trans (Nat.le_succ n), hrest⟩
    | cons a as =>
      have next : P e = a :: (as ++ bs) := hP
      have ha := hlegal e a (by rw [next]; exact List.mem_cons_self)
      by_cases hroom : ¬IsMapped s.machine g (e, pageNumber a.address) → Room s.machine 1
      · have hsat := attempt_sat h ha hroom
        rcases hrun : (attempt e a).run s with q | ⟨r, u⟩
        · obtain ⟨habsent, ⟨-, hgives⟩ | ⟨p, rfl, hp⟩⟩ := hsat.error hrun
          · exact absurd hgives (hcalm.patient.counts habsent).1
          · exact ⟨0, Nat.zero_le _, [], s, P, g, .nil s P, .refl h P, .inr ⟨a, as ++ bs, next, .inr ⟨p, hrun, hp⟩⟩⟩
        · obtain ⟨g', hu⟩ := hsat.ok hrun
          have hlegal' (e' : ℕ) (b : Instruction) (hb : b ∈ rest P e (as ++ bs) r e') :
              LegalAddress A u.machine g' e' b.address := hu.legal _ _ (hlegal e' b (mem_rest next hb))
          obtain ⟨as', hP', hcalm', hn', hsub⟩ := hu.fewer_turns ha.own hcalm hP hn
          obtain ⟨k, hk, xs, t, P', g'', hturns, hran, hend⟩ := ih hu.memories hlegal' hP' hcalm' hn'
          have hown (e' : ℕ) (b : Instruction) (hb : b ∈ P e') : OwnPage A (e', pageNumber b.address) :=
            (hlegal e' b hb).own
          refine ⟨k + 1, Nat.succ_le_succ hk, r.toList ++ xs, t, P', g'', .turn next (fun hr => hroom ?_) hrun hturns,
            hu.ran next hown hran, hend.imp_left fun hf => ⟨hf.rest, hf.settled, ?_⟩⟩
          · intro hm
            rw [hr] at hu
            exact absurd (hu.performed.mpr hm) Bool.false_ne_true
          · rcases hf.counter with ⟨hl, hc⟩ | ⟨b, hb, hl⟩
            · rw [hl, hc]
              exact hsub.2.imp_right fun hva => ⟨a, List.mem_cons_self, hva⟩
            · exact .inr ⟨b, hsub.1 b hb, hl⟩
      · obtain ⟨habsent, hno⟩ := Classical.not_imp.mp hroom
        refine ⟨0, Nat.zero_le _, [], s, P, g, .nil s P, .refl h P, .inr ⟨a, as ++ bs, next, .inl ⟨hno, fun x u hok => ?_⟩⟩⟩
        exact habsent ((attempt_isSome h ha hok).mp rfl)

theorem Ran.asked {P P' : ℕ → List Instruction} {k : ℕ} {xs : List (Access (ℕ × ℕ) UInt8)} {s t : Machine}
    (h : Ran E A s g P (List.replicate k e) xs t g' P') (hP : P e = as ++ P' e) :
    List.Forall₂ (Instruction.Asks e) as xs := by
  obtain ⟨bs, hsplit, hasked, -⟩ := h.programs e
  obtain rfl : as = bs := List.append_cancel_right (hP.symm.trans hsplit)
  rwa [List.filter_eq_self.mpr fun x hx => decide_eq_true (List.eq_of_mem_replicate (h.cells x hx))] at hasked

end

private theorem exists_diskDirectory (h : Stocked E s g) (e n : ℕ) (hframes : n + 1 ≤ s.freeFrameList.length)
    (hroom : Room s (n + 1)) : ∃ t g', Stocked E t g' ∧ t.entries g' = s.entries g ∧ g' (.root (.disk e)) ≠ 0 ∧
      (∀ o, g o ≠ 0 → g' o ≠ 0) ∧ n ≤ t.freeFrameList.length ∧ Room t n := by
  by_cases h0 : g (.root (.disk e)) = 0
  · have hok : Sat (fun _ => False) _ _ _ := (h.getDiskPageDirectory_sat h0).weaken fun x hx => by
      rw [hx.2] at hframes
      exact absurd hframes (Nat.not_succ_le_zero n)
    obtain ⟨_, t, -, ht⟩ := hok.exists_ok
    obtain ⟨p, hp⟩ := ht (hroom.mono (Nat.le_add_left 1 n))
    have hspent := hp.spent.frames
    refine ⟨t, _, hp.stocked, hp.entries, ?_, fun o ho => ?_, by omega, hp.spent.room n hroom⟩
    · rw [Function.update_self]
      exact hp.ne
    · rw [Function.update_apply]
      split
      · exact hp.ne
      · exact ho
  · exact ⟨s, g, h, rfl, h0, fun _ ho => ho, by omega, hroom.mono (Nat.le_succ n)⟩

theorem exists_privateMemories : ∃ s g, PrivateMemories {0, 1} {0, 1} s g ∧ 40 ≤ s.freeFrameList.length ∧ Room s 40 ∧
    s.diskFreeFrameList.length = 40 := by
  obtain ⟨s₀, g₀, hsys, h0, h1, -, hleaf, hlen₀, hroom₀⟩ := exists_twoDirectories
  have hent₀ : s₀.entries g₀ = fun _ => 0 := funext fun x => cellWord_absent (hleaf _ _)
  obtain ⟨s₁, g₁, hs₁, hent₁, hd₁, hg₁, hlen₁, hroom₁⟩ := exists_diskDirectory hsys.stocked 0 50 (by omega)
    (hroom₀.mono (by decide))
  obtain ⟨s₂, g, hs₂, hent₂, hd₂, hg₂, hlen₂, hroom₂⟩ := exists_diskDirectory hs₁ 1 40 (by omega) (hroom₁.mono (by decide))
  obtain ⟨s₃, hs₃, hent₃, -, hrec₃, hlim⟩ := exists_unmappedWindow hs₂ (e := 0) (by simp) (hg₂ _ (hg₁ _ h0))
  set r : Machine := { s₃ with
    diskFreeFrameList := List.range' 1 40
    envs := fun e => { s₃.envs e with
      pageWSMaxSize := 1
      ptrPageWorkingSet := fun _ => ⟨0, true, 0⟩
      pageLastWSIndex := 0 } }
  have hstep : UserStep s₃ r := ⟨⟨⟨rfl, rfl, rfl, rfl⟩, fun _ => rfl, fun _ => rfl, fun _ => rfl⟩, rfl, rfl, fun _ _ => rfl,
    hs₃.nodup, hs₃.free⟩
  obtain ⟨hch, -⟩ := hs₃.changeNone (F := ∅) hstep rfl fun _ _ => rfl
  have hentries (x : Tree × ℕ) : r.entries g x = 0 := by
    rw [hch.entries _ (Set.notMem_empty _), hent₃, hent₂, hent₁, hent₀]
  have hunmapped (x : ℕ × ℕ) : ¬IsMapped r g x := by
    rw [IsMapped, userEntry, hentries]
    decide
  have hdisk (x : ℕ × ℕ) : r.diskEntry g x = 0 := hentries _
  have hempty (e i p : ℕ) : ¬Holds (r.envs e) i p := fun hh => Bool.false_ne_true hh.2.1.symm
  have hpages : PrivatePages {0, 1} {0, 1} r g := by
    refine ⟨hch.stocked, subset_rfl, fun e he => ?_, fun x _ hm => absurd hm (hunmapped x), fun x _ _ _ hm => absurd hm (hunmapped x),
      fun x _ _ _ hne => absurd (hdisk x) hne, fun d hd => ?_, List.nodup_range' .., (hch.kernelPte (.inl rfl)).trans hlim,
      fun x b hb => ?_⟩
    · rcases Finset.mem_insert.mp he with rfl | he
      · exact ⟨hg₂ _ (hg₁ _ h0), hg₂ _ hd₁⟩
      · obtain rfl := Finset.mem_singleton.mp he
        exact ⟨hg₂ _ (hg₁ _ h1), hd₂⟩
    · obtain ⟨hle, hlt⟩ := List.mem_range'_1.mp hd
      exact ⟨Nat.one_le_iff_ne_zero.mp hle, hlt.trans (by decide), fun x _ => (hdisk x).trans_ne (by omega)⟩
    · rw [caching_front_none fun hx => hunmapped x hx.2] at hb
      cases hb
  refine ⟨r, g, ⟨⟨hpages, fun e _ => ⟨fun i j p hi => absurd hi (hempty e i p), fun p => ?_⟩⟩, fun e _ => ?_⟩, ?_, ?_, rfl⟩
  · exact iff_of_false (fun hx => hunmapped _ hx.2) fun hx => hx.elim fun i hi => hempty e i p hi
  · exact ⟨Nat.one_pos, (by decide : 1 < 2 ^ 32), 0, Nat.zero_le _, fun i _ => (decide_eq_true (Nat.zero_le i)).symm, fun _ => rfl⟩
  · show 40 ≤ s₃.freeFrameList.length
    rwa [hrec₃.free]
  · show Room s₃ 40
    rwa [Room, hrec₃.strategy, hrec₃.heap]

/-- Nothing runs out in `n` turns. -/
structure HasSupplies (s : Machine) (n : ℕ) : Prop where
  frames : n ≤ s.freeFrameList.length
  diskFrames : n ≤ s.diskFreeFrameList.length
  room : Room s n

theorem Takes.hasSupplies (h : Takes k s t) {n : ℕ} (hs : HasSupplies s (n + k)) : HasSupplies t n where
  frames := by
    have hle := hs.frames.trans h.frames
    omega
  diskFrames := by
    have hle := hs.diskFrames.trans h.diskFrames
    omega
  room := h.room n hs.room

theorem HasSupplies.mono {m n : ℕ} (h : HasSupplies s n) (hmn : m ≤ n) : HasSupplies s m :=
  ⟨hmn.trans h.frames, hmn.trans h.diskFrames, h.room.mono hmn⟩

section

variable {s t u : FaultState} {P P' P'' : ℕ → List Instruction} {as bs cs ds : List Instruction} {es es' : List ℕ}
  {xs ys : List (Access (ℕ × ℕ) UInt8)}

theorem HasSupplies.not_starved (h : HasSupplies t.machine 1) : ¬Starved t e P' := by
  rintro ⟨a, as, -, ⟨hno, -⟩ | ⟨p, -, ⟨-, hlt⟩ | ⟨-, hlt⟩⟩⟩
  · exact hno h.room
  · exact absurd hlt (not_lt.mpr h.frames)
  · exact absurd hlt (not_lt.mpr h.diskFrames)

theorem Turns.append (h : Turns s P es xs t P') (h' : Turns t P' es' ys u P'') :
    Turns s P (es ++ es') (xs ++ ys) u P'' := by
  induction h with
  | nil s P => exact h'
  | turn next room run _ ih =>
    rw [List.append_assoc]
    exact .turn next room run (ih h')

theorem Ran.kept {s t : Machine} (h : Ran E A s g P es xs t g' P') (he : e ∉ es) : P' e = P e := by
  obtain ⟨as, hsplit, hasked, -⟩ := h.programs e
  have hnil : (xs.filter fun x => x.cell.1 = e) = [] := List.filter_eq_nil_iff.mpr fun x hx hc =>
    he (of_decide_eq_true hc ▸ h.cells x hx)
  rw [hnil] at hasked
  cases hasked
  exact hsplit.symm

theorem Finished.settled_other {e' : ℕ} (hf : Finished A s e as bs cs t g' P')
    (hran : Ran E A s.machine g P (List.replicate k e) xs t.machine g' P') (h : Settled A s g e' ds) (hne : e' ≠ e)
    (hds : ∀ a ∈ as, ∀ d ∈ ds, d.address ≠ a.address) : Settled A t g' e' ds := by
  rcases hf.counter with ⟨hlast, hnum⟩ | ⟨a, ha, hlast⟩
  · rw [Settled, hlast, hnum]
    refine ⟨h.1, h.2.1, h.2.2.imp_right (.imp_left fun hown => ⟨hown.1, (hran.others _ hown.1 fun hc => ?_).mpr hown.2⟩)⟩
    exact hne (List.eq_of_mem_replicate hc)
  · refine ⟨hf.settled.1, hf.settled.2.1, .inr (.inr fun d hd => ?_)⟩
    rw [hlast]
    exact hds a ha d hd

theorem exists_finished (n : ℕ) (as bs cs : List Instruction) (h : PrivateMemories E A s.machine g)
    (hlegal : ∀ e, ∀ a ∈ P e, LegalAddress A s.machine g e a.address) (hP : P e = as ++ bs)
    (hsettled : Settled A s g e (as ++ cs)) (hs : HasSupplies s.machine (n + 1 + 3 * as.length)) :
    ∃ k xs t P' g', Turns s P (List.replicate k e) xs t P' ∧ Ran E A s.machine g P (List.replicate k e) xs t.machine g' P' ∧
      Finished A s e as bs cs t g' P' ∧ HasSupplies t.machine (n + 1) ∧ List.Forall₂ (Instruction.Asks e) as xs := by
  obtain ⟨k, hk, xs, t, P', g', hturns, hran, hend⟩ := exists_turns (3 * as.length) cs h hlegal hP (.inl hsettled)
    (turnsLeft_le ..)
  have htakes : Takes (3 * as.length) s.machine t.machine := hran.takes.mono (by rwa [List.length_replicate])
  have hleft : HasSupplies t.machine (n + 1) := htakes.hasSupplies hs
  have hf := hend.resolve_right (hleft.mono (Nat.le_add_left 1 n)).not_starved
  exact ⟨k, xs, t, P', g', hturns, hran, hf, hleft, hran.asked (by rw [hf.rest]; exact hP)⟩

end

theorem legalAddress_heap (s : Machine) (g : Obj → ℕ) (he : e ∈ A) (hk : k < 2 * pageSize) :
    LegalAddress A s g e (userHeapStart + k) := by
  have htop : ustackTop = pageSize * 977918 := by decide
  simp only [pageSize] at hk
  refine ⟨he, ?_, ?_, .inr ?_⟩
  · simp only [UserAddress, UserPagesWS, userTop, userHeapMax, userHeapStart]
    omega
  · simp only [htop, userHeapStart, pageSize]
    omega
  · simp only [InHeapOrStack, userHeapMax, userHeapStart]
    omega

/-- The programs use the same two pages, which are too many for either of the working sets. -/
def twoPrograms : ℕ → List Instruction
  | 0 => [.store (userHeapStart + 0) 7, .load (userHeapStart + 4096), .load (userHeapStart + 0)]
  | 1 => [.store (userHeapStart + 1) 9, .load (userHeapStart + 4097), .load (userHeapStart + 1)]
  | _ => []

theorem legalAddress_twoPrograms (s : Machine) (g : Obj → ℕ) (e : ℕ) :
    ∀ a ∈ twoPrograms e, LegalAddress {0, 1} s g e a.address := by
  match e with
  | 0 =>
    simp only [twoPrograms, List.forall_mem_cons]
    exact ⟨legalAddress_heap s g (by simp) (by decide), legalAddress_heap s g (by simp) (by decide),
      legalAddress_heap s g (by simp) (by decide), by simp⟩
  | 1 =>
    simp only [twoPrograms, List.forall_mem_cons]
    exact ⟨legalAddress_heap s g (by simp) (by decide), legalAddress_heap s g (by simp) (by decide),
      legalAddress_heap s g (by simp) (by decide), by simp⟩
  | e + 2 => simp [twoPrograms]

theorem exists_twoPrograms_run : ∃ s g es k xs t P' y u P'', PrivateMemories {0, 1} {0, 1} s.machine g ∧
    Turns s twoPrograms es xs t P' ∧ P' 1 = [.load (userHeapStart + 1)] ∧ Turns t P' (List.replicate k 1) [y] u P'' ∧ P'' 0 = [] ∧ P'' 1 = [] ∧
    (∃ b c d, xs = [.store (0, userHeapStart) 7, .load (0, userHeapStart + 4096) b, .store (1, userHeapStart + 1) 9,
      .load (1, userHeapStart + 4097) c, .load (0, userHeapStart) d]) ∧ ∃ f, y = .load (1, userHeapStart + 1) f := by
  obtain ⟨m, g, h, hlen, hroom, hdisk⟩ := exists_privateMemories
  set s : FaultState := ⟨m, 0, 0, 0⟩
  have hs : HasSupplies s.machine 40 := ⟨hlen, hdisk.ge, hroom⟩
  have hlegal := legalAddress_twoPrograms s.machine g
  have hstart (e : ℕ) (as : List Instruction) : Settled {0, 1} s g e as := ⟨le_rfl, (by decide : (0 : ℤ) ≤ 2), .inl rfl⟩
  obtain ⟨k₁, xs₁, t₁, P₁, g₁, hturns₁, hran₁, hf₁, hs₁, hxs₁⟩ := exists_finished (e := 0) 30
    [.store (userHeapStart + 0) 7, .load (userHeapStart + 4096)] _ [.load (userHeapStart + 0)] h hlegal rfl (hstart ..) (hs.mono (by decide))
  have hlegal₁ (e : ℕ) (a : Instruction) (ha : a ∈ P₁ e) : LegalAddress {0, 1} t₁.machine g₁ e a.address :=
    hran₁.legal _ _ (hlegal e a (hran₁.mem_of_mem ha))
  obtain ⟨k₂, xs₂, t₂, P₂, g₂, hturns₂, hran₂, hf₂, hs₂, hxs₂⟩ := exists_finished (e := 1) 20
    [.store (userHeapStart + 1) 9, .load (userHeapStart + 4097)] [.load (userHeapStart + 1)] [.load (userHeapStart + 1)] hran₁.memories hlegal₁ (hran₁.kept (by simp))
    (hf₁.settled_other hran₁ (hstart 1 _) (by decide) (by simp [Instruction.address])) (hs₁.mono (by decide))
  have hlegal₂ (e : ℕ) (a : Instruction) (ha : a ∈ P₂ e) : LegalAddress {0, 1} t₂.machine g₂ e a.address :=
    hran₂.legal _ _ (hlegal₁ e a (hran₂.mem_of_mem ha))
  obtain ⟨k₃, xs₃, t₃, P₃, g₃, hturns₃, hran₃, hf₃, hs₃, hxs₃⟩ := exists_finished (e := 0) 10
    [.load (userHeapStart + 0)] [] [] hran₂.memories hlegal₂
    ((hran₂.kept (by simp)).trans hf₁.rest) (hf₂.settled_other hran₂ hf₁.settled (by decide) (by simp [Instruction.address]))
    (hs₂.mono (by decide))
  have hlegal₃ (e : ℕ) (a : Instruction) (ha : a ∈ P₃ e) : LegalAddress {0, 1} t₃.machine g₃ e a.address :=
    hran₃.legal _ _ (hlegal₂ e a (hran₃.mem_of_mem ha))
  have hlast : P₃ 1 = [.load (userHeapStart + 1)] := (hran₃.kept (by simp)).trans hf₂.rest
  obtain ⟨k₄, xs₄, t₄, P₄, g₄, hturns₄, hran₄, hf₄, -, hxs₄⟩ := exists_finished (e := 1) 0
    [.load (userHeapStart + 1)] [] [] hran₃.memories hlegal₃ hlast
    (hf₃.settled_other hran₃ hf₂.settled (by decide) (by simp [Instruction.address])) (hs₃.mono (by decide))
  obtain - | ⟨rfl, - | ⟨⟨b, rfl⟩, - | _⟩⟩ := hxs₁
  obtain - | ⟨rfl, - | ⟨⟨c, rfl⟩, - | _⟩⟩ := hxs₂
  obtain - | ⟨⟨d, rfl⟩, - | _⟩ := hxs₃
  obtain - | ⟨⟨f, rfl⟩, - | _⟩ := hxs₄
  exact ⟨s, g, _, _, _, t₃, P₃, _, t₄, P₄, h, (hturns₁.append hturns₂).append hturns₃, hlast, hturns₄,
    (hran₄.kept (by simp)).trans hf₃.rest, hf₄.rest, ⟨b, c, d, rfl⟩, f, rfl⟩

/-- What the accesses of all programs found, they would have found in a byte for every address of every environment, and
each environment by itself in bytes of its own. A program is an instruction further after three turns at most, as long as
there are frames and no fault is repeated too often. -/
theorem programs_own_memories {s t : FaultState} {P P' : ℕ → List Instruction} {es : List ℕ}
    {xs : List (Access (ℕ × ℕ) UInt8)} (h : PrivateMemories E A s.machine g)
    (hlegal : ∀ e, ∀ a ∈ P e, LegalAddress A s.machine g e a.address) (hrun : Turns s P es xs t P') :
    (∀ e, ∃ as, P e = as ++ P' e ∧ List.Forall₂ (Instruction.Asks e) as (xs.filter fun x => x.cell.1 = e) ∧
      es.count e ≤ 3 * as.length + 2) ∧
    (∃ g' m m', PrivateMemories E A t.machine g' ∧ Extends m (view A s.machine g) ∧ Explains m xs m' ∧
      Extends m' (view A t.machine g') ∧
      ∀ e, Explains (fun va => m (e, va)) (xs.filterMap (Access.own e)) fun va => m' (e, va)) ∧
    ∀ e a as, P' e = a :: as → Room t.machine 1 →
      Sat (fun q => q = .repeatedFault ∧ GivesUp (t.switch e) a.address ∨ ∃ p, q = .other p ∧ Exhausted t.machine 1 p)
        (attempt e a) t fun _ _ => True := by
  obtain ⟨g', hran⟩ := hrun.ran h hlegal
  refine ⟨fun e => ?_, ?_, fun e a as next hroom => ?_⟩
  · obtain ⟨as, hsplit, hasked, hcount⟩ := hran.programs e
    have hahead := faultsAhead_le s.machine g e (P e)
    exact ⟨as, hsplit, hasked, by omega⟩
  · obtain ⟨m, m', hm, hxs, hm'⟩ := hran.views.explained
    exact ⟨g', m, m', hran.memories, hm, hxs, hm', hxs.own⟩
  · have ha := hran.legal _ _ (hlegal e a (hran.mem_of_mem (by rw [next]; exact List.mem_cons_self)))
    exact ((attempt_sat hran.memories ha fun _ => hroom).weaken fun q hq => hq.2).mono fun _ _ _ => trivial

/-- The bytes that were written come back from the page files. -/
theorem programs_own_memories_twoPrograms : ∃ s es t P' b c, Turns s twoPrograms es
    [.store (0, userHeapStart) 7, .load (0, userHeapStart + 4096) b, .store (1, userHeapStart + 1) 9,
      .load (1, userHeapStart + 4097) c, .load (0, userHeapStart) 7, .load (1, userHeapStart + 1) 9] t P' ∧
    P' 0 = [] ∧ P' 1 = [] := by
  obtain ⟨s, g, es, k, _, t, P', _, u, P'', h, hrun, -, hlast, h0, h1, ⟨b, c, d, rfl⟩, f, rfl⟩ := exists_twoPrograms_run
  obtain ⟨-, ⟨g', m, m', -, -, hxs, -, -⟩, -⟩ :=
    programs_own_memories h (legalAddress_twoPrograms s.machine g) (hrun.append hlast)
  simp only [List.cons_append, List.nil_append, explains_cons, Access.Answers, Access.apply] at hxs
  obtain ⟨-, -, -, -, hd, hf, -⟩ := hxs
  rw [Function.update_of_ne (by simp), Function.update_self] at hd
  rw [Function.update_self] at hf
  obtain rfl := hd
  obtain rfl := hf
  exact ⟨s, _, u, P'', b, c, hrun.append hlast, h0, h1⟩

theorem HoldsMapped.card_le (h : HoldsMapped s g e) :
    {p | UserAddress (pageSize * p) ∧ IsMapped s g (e, p)}.ncard ≤ (s.envs e).pageWSMaxSize := by
  classical
  have hsub : {p | UserAddress (pageSize * p) ∧ IsMapped s g (e, p)} ⊆ (((Finset.range (s.envs e).pageWSMaxSize).image
      fun i => pageNumber ((s.envs e).ptrPageWorkingSet i).virtualAddress : Finset ℕ) : Set ℕ) := by
    intro p hp
    obtain ⟨i, hi, -, rfl⟩ := (h.mapped p).mp hp
    exact Finset.mem_coe.mpr (Finset.mem_image_of_mem _ (Finset.mem_range.mpr hi))
  refine (Set.ncard_le_ncard hsub (Finset.finite_toSet _)).trans ?_
  rw [Set.ncard_coe_finset]
  exact Finset.card_image_le.trans (Finset.card_range _).le

theorem HoldsMapped.mapped_iff (h : HoldsMapped s g e) (p : ℕ) :
    (UserAddress (pageSize * p) ∧ IsMapped s g (e, p)) ↔ ∃! i, Holds (s.envs e) i p := by
  rw [h.mapped p]
  exact ⟨fun ⟨i, hi⟩ => ⟨i, hi, fun j hj => h.distinct j i p hj hi⟩, fun ⟨i, hi, _⟩ => ⟨i, hi⟩⟩

/-- No program ever has more pages in memory than its working set has slots, and each of them is in one slot. The next
instruction is performed if a slot has its page, and else it faults. -/
theorem workingSets_bound_memory {s t : FaultState} {P P' : ℕ → List Instruction} {es : List ℕ}
    {xs : List (Access (ℕ × ℕ) UInt8)} (h : PrivateMemories E A s.machine g)
    (hlegal : ∀ e, ∀ a ∈ P e, LegalAddress A s.machine g e a.address) (hrun : Turns s P es xs t P') :
    ∃ g', Stocked E t.machine g' ∧ ∀ e ∈ A,
      {p | UserAddress (pageSize * p) ∧ IsMapped t.machine g' (e, p)}.ncard ≤ (t.machine.envs e).pageWSMaxSize ∧
      (∀ p, (UserAddress (pageSize * p) ∧ IsMapped t.machine g' (e, p)) ↔ ∃! i, Holds (t.machine.envs e) i p) ∧
      ∀ a as r u, P' e = a :: as → (attempt e a).run t = .ok (r, u) →
        (r.isSome ↔ ∃! i, Holds (t.machine.envs e) i (pageNumber a.address)) := by
  obtain ⟨g', hran⟩ := hrun.ran h hlegal
  refine ⟨g', hran.memories.stocked, fun e he => ?_⟩
  have hset := hran.memories.sets e he
  refine ⟨hset.card_le, hset.mapped_iff, fun a as r u next hok => ?_⟩
  have ha := hran.legal _ _ (hlegal e a (hran.mem_of_mem (by rw [next]; exact List.mem_cons_self)))
  rw [attempt_isSome hran.memories ha hok, ← hset.mapped_iff]
  exact (and_iff_right ha.own.2).symm

/-- One instruction is left. -/
theorem workingSets_bound_memory_twoPrograms : ∃ s es xs t P', Turns s twoPrograms es xs t P' ∧
    P' 1 = [.load (userHeapStart + 1)] ∧ ∃ g', (∀ e ∈ ({0, 1} : Finset ℕ),
      {p | UserAddress (pageSize * p) ∧ IsMapped t.machine g' (e, p)}.ncard ≤ (t.machine.envs e).pageWSMaxSize) ∧
    ∃ r u, (attempt 1 (.load (userHeapStart + 1))).run t = .ok (r, u) ∧
      (r.isSome ↔ ∃! i, Holds (t.machine.envs 1) i (pageNumber (userHeapStart + 1))) := by
  obtain ⟨s, g, es, k, xs, t, P', y, u, P'', h, hrun, hnext, hlast, -, -, -, -⟩ := exists_twoPrograms_run
  obtain ⟨g', -, hsets⟩ := workingSets_bound_memory h (legalAddress_twoPrograms s.machine g) hrun
  refine ⟨s, es, xs, t, P', hrun, hnext, g', fun e he => (hsets e he).1, ?_⟩
  generalize hes : List.replicate k 1 = es' at hlast
  generalize hys : [y] = ys at hlast
  cases hlast with
  | nil => cases hys
  | @turn _ v _ _ _ e a as r _ _ next room run tail =>
    obtain rfl : e = 1 := List.eq_of_mem_replicate (hes ▸ List.mem_cons_self)
    obtain ⟨rfl, -⟩ := List.cons.inj (hnext.symm.trans next)
    exact ⟨r, v, run, (hsets 1 (by simp)).2.2 _ _ r v hnext run⟩

/-- A program that runs alone gets on as long as there are frames, disk frames and pages of the kernel heap: no fault is
repeated too often. -/
theorem runProgram_completes {s : FaultState} {P : ℕ → List Instruction} {as : List Instruction} (bs : List Instruction)
    (h : PrivateMemories E A s.machine g)
    (hlegal : ∀ e, ∀ a ∈ P e, LegalAddress A s.machine g e a.address) (hP : P e = as ++ bs) (hcalm : Settled A s g e as) :
    ∃ n ≤ 3 * as.length, ∃ xs t P', Turns s P (List.replicate n e) xs t P' ∧
      (∃ g' m m', PrivateMemories E A t.machine g' ∧ Extends m (view A s.machine g) ∧ Explains m xs m' ∧
        Extends m' (view A t.machine g')) ∧
      (P' e = bs ∧ List.Forall₂ (Instruction.Asks e) as xs ∨ Starved t e P') := by
  obtain ⟨n, hn, xs, t, P', g', hturns, hran, hend⟩ := exists_turns (3 * as.length) [] h hlegal hP
    (.inl (by rwa [List.append_nil])) (turnsLeft_le ..)
  obtain ⟨m, m', hm, hxs, hm'⟩ := hran.views.explained
  exact ⟨n, hn, xs, t, P', hturns, ⟨g', m, m', hran.memories, hm, hxs, hm'⟩,
    hend.imp_left fun hf => ⟨hf.rest, hran.asked (by rw [hf.rest]; exact hP)⟩⟩

theorem runProgram_completes_twoPrograms : ∃ s n t P' b, Turns s twoPrograms (List.replicate n 0)
    [.store (0, userHeapStart) 7, .load (0, userHeapStart + 4096) b, .load (0, userHeapStart) 7] t P' ∧
    n ≤ 9 ∧ P' 0 = [] := by
  obtain ⟨m, g, h, hlen, hroom, hdisk⟩ := exists_privateMemories
  have hlegal := legalAddress_twoPrograms m g
  obtain ⟨n, hn, xs, t, P', hturns, ⟨g', m₀, m', -, -, hxs, -⟩, hend⟩ := runProgram_completes (s := ⟨m, 0, 0, 0⟩) (e := 0)
    [] h hlegal (List.append_nil _).symm ⟨le_rfl, (by decide : (0 : ℤ) ≤ 2), .inl rfl⟩
  obtain ⟨g'', hran⟩ := hturns.ran h hlegal
  have htakes : Takes 9 m t.machine := hran.takes.mono (by rwa [List.length_replicate])
  have hs : HasSupplies t.machine 1 := htakes.hasSupplies ⟨(by decide : 1 + 9 ≤ 40).trans hlen, by omega, hroom.mono (by decide)⟩
  obtain ⟨hnil, hasked⟩ := hend.resolve_right hs.not_starved
  obtain - | ⟨rfl, - | ⟨⟨b, rfl⟩, - | ⟨⟨c, rfl⟩, - | _⟩⟩⟩ := hasked
  simp only [explains_cons, Access.Answers, Access.apply] at hxs
  obtain ⟨-, -, hc, -⟩ := hxs
  rw [Function.update_self] at hc
  obtain rfl := hc
  exact ⟨_, n, t, P', b, hturns, hn, hnil⟩

end FosKernel.Machine
