import FosKernel.DynamicAllocatorRuns

/-!
# The heap of a user program

`malloc`, `smalloc` and `sget` take their blocks from the same free list. What the
kernel answers to a system call is an argument: whether the placement strategy is
first fit, the size of the shared object, and whether it was created or mapped.
-/

namespace FosKernel.UserHeap
open IntervalLists DynamicAllocator

structure Uheap where
  firstTimeFlag : Bool
  dyn : DynamicAllocator.State

def initializeUHeap (s : Uheap) : Option Uheap :=
  if s.firstTimeFlag then do
    let dyn ← initializeDynBlockSystem userHeap s.dyn
    return ⟨false, dyn⟩
  else some s

def malloc (s : Uheap) (size : ℕ) (firstFit : Bool) : Option (Uheap × ℕ) := do
  let s ← initializeUHeap s
  if size = 0 then return (s, 0)
  let size := roundUp size pageSize
  if firstFit then
    match ← allocBlockFF s.dyn size with
    | (dyn, some myBlock) =>
      let dyn ← insertSortedAllocList dyn myBlock
      return ({ s with dyn := dyn }, dyn.sva myBlock)
    | (dyn, none) => return ({ s with dyn := dyn }, 0)
  else return (s, 0)

/-- The pointer from `find_block` is followed without a test. -/
def free (s : Uheap) (virtualAddress : ℕ) : Option Uheap := do
  let myBlock ← ← findBlock s.dyn virtualAddress
  let dyn ← insertSortedWithMergeFreeList (s.dyn.remove .alloc myBlock) myBlock
  return { s with dyn := dyn }

/-- What `smalloc` and `sget` do once they know the size. -/
def shareBlock (s : Uheap) (size : ℕ) (firstFit : Bool) (ret : ℤ) : Option (Uheap × ℕ) := do
  if firstFit then
    match ← allocBlockFF s.dyn size with
    | (dyn, none) => return ({ s with dyn := dyn }, 0)
    | (dyn, some v1) => return ({ s with dyn := dyn }, if 0 ≤ ret then dyn.sva v1 else 0)
  else return (s, 0)

/-- `ret` is the result of `sys_createSharedObject`. -/
def smalloc (s : Uheap) (size : ℕ) (firstFit : Bool) (ret : ℤ) : Option (Uheap × ℕ) := do
  let s ← initializeUHeap s
  if size = 0 then return (s, 0)
  shareBlock s (roundUp size pageSize) firstFit ret

/-- `ret` and `ret1` are the results of `sys_getSizeOfSharedObject` and
`sys_getSharedObject`. -/
def sget (s : Uheap) (firstFit : Bool) (ret ret1 : ℤ) : Option (Uheap × ℕ) := do
  let s ← initializeUHeap s
  if ret = 0 then return (s, 0)
  shareBlock s (unsigned ret) firstFit ret1

inductive Call
  | malloc (size : ℕ) (firstFit : Bool)
  | free (va : ℕ)
  | smalloc (size : ℕ) (firstFit : Bool) (ret : ℤ)
  | sget (firstFit : Bool) (ret ret1 : ℤ)

namespace Call

/-- The result is the address that is returned. -/
def run (s : Uheap) : Call → Option (Uheap × ℕ)
  | .malloc size firstFit => UserHeap.malloc s size firstFit
  | .free va => (UserHeap.free s va).map (·, 0)
  | .smalloc size firstFit ret => UserHeap.smalloc s size firstFit ret
  | .sget firstFit ret ret1 => UserHeap.sget s firstFit ret ret1

/-- The size of the range that a call is to return. -/
def size : Call → ℕ
  | .malloc size _ => roundUp size pageSize
  | .free _ => 0
  | .smalloc size _ _ => roundUp size pageSize
  | .sget _ ret _ => unsigned ret

/-- The ranges that are returned and not freed, after a call that returned `va`. -/
def returned (returned : List Interval) (va : ℕ) : Call → List Interval
  | .free va => returned.filter (·.start ≠ va)
  | c => if va = 0 then returned else ⟨va, c.size⟩ :: returned

def Legal (returned : List Interval) : Call → Prop
  | .malloc size _ => 1 ≤ size ∧ size ≤ userHeapMax - userHeapStart
  | .free va => ∃ b ∈ returned, b.start = va
  | .smalloc size _ _ => 1 ≤ size ∧ size ≤ userHeapMax - userHeapStart
  | .sget _ _ _ => True

def TakesBlock (s : Uheap) : Call → Prop
  | .smalloc size firstFit _ => firstFit = true ∧ ∃ b ∈ s.dyn.blocks .free, roundUp size pageSize ≤ b.length
  | .sget firstFit ret _ => firstFit = true ∧ ret ≠ 0 ∧ ∃ b ∈ s.dyn.blocks .free, unsigned ret ≤ b.length
  | _ => False

def Allocates : Call → Prop
  | .free _ => False
  | _ => True

end Call

/-- The blocks of the two lists partition the heap, and a returned range is an
allocated block. -/
structure Partitioned (s : DynamicAllocator.State) (returned : List Interval) : Prop where
  disjoint : (s.blocks .free ++ s.blocks .alloc).Pairwise fun b c => ∀ a, b.Contains a → ¬ c.Contains a
  cover : ∀ a, Covered (s.blocks .free ++ s.blocks .alloc) a ↔ userHeapStart ≤ a ∧ a < userHeapMax
  returned : ∀ b ∈ returned, b ∈ s.blocks .alloc
  nodes : ∀ n < numOfUHeapPages, ∃ k, n ∈ s.nodes k

/-- The call returns, keeps the partition, and returns NULL only if nothing changed. -/
def Keeps (s : Uheap) (returned : List Interval) (c : Call) : Prop :=
  ∃ s' va, c.run s = some (s', va) ∧ Partitioned s'.dyn (c.returned returned va) ∧
    (c.Allocates → va = 0 → s' = s)

/-- The states and returned ranges that calls reach, each of which is `ok`. -/
inductive Run (ok : Uheap → Call → Prop) : Uheap → List Interval → Prop
  | init {s₀ s : Uheap} : s₀.firstTimeFlag = true → initializeUHeap s₀ = some s → Run ok s []
  | call {s s' : Uheap} {returned : List Interval} {va : ℕ} (c : Call) : Run ok s returned →
    c.Legal returned → ok s c → c.run s = some (s', va) → Run ok s' (c.returned returned va)

/-- The flag is down, the lists are in order and hold what was returned. -/
structure Inv (s : Uheap) (returned : List Interval) : Prop where
  flag : s.firstTimeFlag = false
  lists : ∃ q, DynamicAllocator.Inv userHeap s.dyn q
  returned : ∀ b ∈ returned, b ∈ s.dyn.blocks .alloc

variable {s s' : Uheap} {returned : List Interval} {va size n : ℕ} {firstFit : Bool} {ret ret1 : ℤ}

theorem Inv.initializeUHeap_eq (h : Inv s returned) : initializeUHeap s = some s := by
  simp [initializeUHeap, h.flag]

theorem Inv.partitioned (h : Inv s returned) : Partitioned s.dyn returned := by
  obtain ⟨q, inv⟩ := h.lists
  have hwf := inv.wellFormed
  exact ⟨hwf.disjoint, hwf.cover, h.returned, fun n hn => (hwf.nodes n hn).exists⟩

theorem Inv.malloc_fits (h : Inv s returned) (hfit : Fits s.dyn (roundUp size pageSize)) (hsize : size ≠ 0) :
    ∃ s' va, malloc s size true = some (s', va) ∧ va ≠ 0 ∧
      Inv s' (⟨va, roundUp size pageSize⟩ :: returned) ∧ ∃ A B, s.dyn.blocks .alloc = A ++ B ∧
        s'.dyn.blocks .alloc = A ++ ⟨va, roundUp size pageSize⟩ :: B := by
  obtain ⟨q, inv⟩ := h.lists
  obtain ⟨-, d, va, hout⟩ := (inv.allocBlockFF_spec hfit.1 hfit.2.1).resolve_right fun hnot => hnot.1 hfit
  obtain ⟨d₁, b, hr, hins, hva⟩ := hout.result
  obtain ⟨q', inv'⟩ := hout.inv
  obtain ⟨A, B, hold, hnew⟩ := hout.blocks
  have hlo := (inv'.of_mem_blocks (b := ⟨va, roundUp size pageSize⟩) (by simp [hnew])).1
  have hstart : 0 < userHeap.lo := by decide
  refine ⟨{ s with dyn := d }, va, ?_, (hstart.trans_le hlo).ne', ⟨h.flag, ⟨q', inv'⟩, ?_⟩, A, B, hold, hnew⟩
  · simp [malloc, h.initializeUHeap_eq, hsize, hr, hins, hva]
  · intro b hb
    rcases List.mem_cons.mp hb with rfl | hb
    · simp [hnew]
    · have hmem := h.returned b hb
      rw [hold, List.mem_append] at hmem
      rw [hnew, List.mem_append, List.mem_cons]
      exact hmem.imp_right .inr

/-- `malloc` inserts a block or changes nothing. -/
theorem Inv.malloc_run (h : Inv s returned) (firstFit : Bool) (hpos : 0 < roundUp size pageSize) (hsize : size ≠ 0) :
    malloc s size firstFit = some (s, 0) ∨ ∃ s' va, malloc s size firstFit = some (s', va) ∧ va ≠ 0 ∧
      Inv s' (⟨va, roundUp size pageSize⟩ :: returned) ∧ ∃ A B, s.dyn.blocks .alloc = A ++ B ∧
        s'.dyn.blocks .alloc = A ++ ⟨va, roundUp size pageSize⟩ :: B := by
  obtain ⟨q, inv⟩ := h.lists
  cases firstFit with
  | false => exact .inl (by simp [malloc, h.initializeUHeap_eq, hsize])
  | true =>
    rcases inv.allocBlockFF_spec hpos (roundUp_dvd _ _) with ⟨hfit, -⟩ | ⟨-, hnone⟩
    · exact .inr (h.malloc_fits hfit hsize)
    · exact .inl (by simp [malloc, h.initializeUHeap_eq, hsize, hnone])

/-- `free` of a returned address takes its block and no other. -/
theorem Inv.free_run (h : Inv s returned) (hva : ∃ b ∈ returned, b.start = va) :
    ∃ s', free s va = some s' ∧ Inv s' (returned.filter (·.start ≠ va)) ∧
      ∃ n A B, s.dyn.blocks .alloc = A ++ ⟨va, n⟩ :: B ∧ s'.dyn.blocks .alloc = A ++ B := by
  obtain ⟨q, inv⟩ := h.lists
  obtain ⟨b₀, hb₀, rfl⟩ := hva
  rcases inv.findBlock_spec b₀.start with ⟨b, n, A, B, d, hfind, hn, hins, hinv', hold, hnew⟩ | ⟨hne, -⟩
  · refine ⟨{ s with dyn := d }, by simp [free, hfind, hins], ⟨h.flag, hinv', fun b hb => ?_⟩,
      n, A, B, hold, hnew⟩
    obtain ⟨hb, hstart⟩ := List.mem_filter.mp hb
    have hmem := h.returned b hb
    rw [hold, List.mem_append, List.mem_cons] at hmem
    rw [hnew, List.mem_append]
    rcases hmem with hA | rfl | hB
    · exact .inl hA
    · simp at hstart
    · exact .inr hB
  · exact absurd rfl (hne b₀ (h.returned b₀ hb₀))

private theorem Inv.exists_free_iff {q : BlockList → List ℕ} (inv : DynamicAllocator.Inv userHeap s.dyn q) :
    (∃ b ∈ s.dyn.blocks .free, n ≤ b.length) ↔ ∃ x ∈ q .free, n ≤ s.dyn.size x := by
  simp [inv.blocks_eq]

theorem Inv.shareBlock_taken (h : Inv s returned) (hfit : ∃ b ∈ s.dyn.blocks .free, n ≤ b.length)
    (hrun : shareBlock s n true ret = some (s', va)) : ∃ b < numOfUHeapPages, ∀ k, b ∉ s'.dyn.nodes k := by
  obtain ⟨q, inv⟩ := h.lists
  rcases allocBlockFF_eq inv.rep (inv.length_le _) (fun x hx => (inv.word (.inl hx)).le)
    ((exists_free_iff inv).mp hfit) with ⟨d, q₁, b, hr, hal⟩ | ⟨-, -, hr⟩
  · simp only [shareBlock, if_true, hr] at hrun
    obtain ⟨rfl, -⟩ := Prod.mk.inj (Option.some.inj hrun)
    exact ⟨b, inv.not_mem_nodes hal⟩
  · simp [shareBlock, hr] at hrun

/-- A request for whole pages gets its block although the kernel refuses then. -/
theorem Inv.shareBlock_refused (h : Inv s returned) (hn : 0 < n) (hp : pageSize ∣ n)
    (hfit : ∃ b ∈ s.dyn.blocks .free, n ≤ b.length) {r : ℤ} (hret : r < 0) :
    ∃ s', shareBlock s n true r = some (s', 0) := by
  obtain ⟨q, inv⟩ := h.lists
  rcases inv.allocBlockFF_spec hn hp with ⟨-, d, va, hout⟩ | ⟨hnot, -⟩
  · obtain ⟨d₁, b, hr, -⟩ := hout.result
    exact ⟨{ s with dyn := d₁ }, by simp [shareBlock, hr, hret.not_ge]⟩
  · exact absurd ⟨hn, hp, hfit⟩ hnot

theorem Inv.shareBlock_untaken (h : Inv s returned) (ret : ℤ)
    (hfit : ¬(firstFit = true ∧ ∃ b ∈ s.dyn.blocks .free, n ≤ b.length)) :
    shareBlock s n firstFit ret = some (s, 0) := by
  obtain ⟨q, inv⟩ := h.lists
  cases firstFit with
  | false => rfl
  | true =>
    rw [exists_free_iff inv] at hfit
    have hr := allocBlockFF_none inv.rep (inv.length_le _) (n := n) fun x hx => by
      by_contra hle
      exact hfit ⟨rfl, x, hx, not_lt.mp hle⟩
    simp [shareBlock, hr]

private theorem roundUp_pos (h : 1 ≤ size ∧ size ≤ userHeapMax - userHeapStart) :
    0 < roundUp size pageSize := by
  have hmax : userHeapMax - userHeapStart + pageSize ≤ 2 ^ 32 := by decide
  exact h.1.trans (le_roundUp (by decide) (by omega))

theorem Inv.call (h : Inv s returned) (c : Call) (hlegal : c.Legal returned) (hc : ¬c.TakesBlock s) :
    ∃ s' va, c.run s = some (s', va) ∧ Inv s' (c.returned returned va) ∧
      (c.Allocates → va = 0 → s' = s) := by
  cases c with
  | malloc size firstFit =>
    have hsize : size ≠ 0 := (Nat.lt_of_lt_of_le Nat.zero_lt_one hlegal.1).ne'
    rcases h.malloc_run firstFit (roundUp_pos hlegal) hsize with
      hrun | ⟨s', va, hrun, hva, hinv, -⟩
    · exact ⟨s, 0, hrun, by simpa [Call.returned] using h, fun _ _ => rfl⟩
    · exact ⟨s', va, hrun, by simpa [Call.returned, Call.size, hva] using hinv, fun _ h0 => absurd h0 hva⟩
  | free va =>
    obtain ⟨s', hrun, hinv, -⟩ := h.free_run hlegal
    exact ⟨s', 0, by simp [Call.run, hrun], hinv, False.elim⟩
  | smalloc size firstFit ret =>
    have hrun := h.shareBlock_untaken ret hc
    refine ⟨s, 0, ?_, by simpa [Call.returned] using h, fun _ _ => rfl⟩
    have hsize : size ≠ 0 := (Nat.lt_of_lt_of_le Nat.zero_lt_one hlegal.1).ne'
    simp [Call.run, smalloc, h.initializeUHeap_eq, hsize, hrun]
  | sget firstFit ret ret1 =>
    refine ⟨s, 0, ?_, by simpa [Call.returned] using h, fun _ _ => rfl⟩
    by_cases hret : ret = 0
    · simp [Call.run, sget, h.initializeUHeap_eq, hret]
    · have hrun := h.shareBlock_untaken ret1 fun hfit => hc ⟨hfit.1, hret, hfit.2⟩
      simp [Call.run, sget, h.initializeUHeap_eq, hret, hrun]

theorem Inv.not_keeps (h : Inv s returned) (c : Call) (hlegal : c.Legal returned) (hc : c.TakesBlock s) :
    ¬Keeps s returned c := by
  rintro ⟨s', va, hrun, hpart, -⟩
  have hlost : ∃ b < numOfUHeapPages, ∀ k, b ∉ s'.dyn.nodes k := by
    cases c with
    | malloc => exact hc.elim
    | free => exact hc.elim
    | smalloc size firstFit ret =>
      obtain ⟨rfl, hfit⟩ := hc
      have hsize : size ≠ 0 := (Nat.lt_of_lt_of_le Nat.zero_lt_one hlegal.1).ne'
      rw [Call.run, smalloc, h.initializeUHeap_eq] at hrun
      exact h.shareBlock_taken hfit (by simpa [hsize] using hrun)
    | sget firstFit ret ret1 =>
      obtain ⟨rfl, hret, hfit⟩ := hc
      rw [Call.run, sget, h.initializeUHeap_eq] at hrun
      exact h.shareBlock_taken hfit (by simpa [hret] using hrun)
  obtain ⟨b, hb, hnot⟩ := hlost
  obtain ⟨k, hk⟩ := hpart.nodes b hb
  exact hnot k hk

theorem Run.inv (hrun : Run (fun s c => ¬c.TakesBlock s) s returned) : Inv s returned := by
  induction hrun with
  | @init s₀ s hflag hinit =>
    obtain ⟨d, q, hd, inv, -⟩ := initialize_inv userHeap s₀.dyn
    simp only [initializeUHeap, hflag, if_true, hd] at hinit
    obtain rfl := Option.some.inj hinit
    exact ⟨rfl, ⟨q, inv⟩, by simp⟩
  | call c _ hlegal hc hcall ih =>
    obtain ⟨s'', va', hcall', hinv, -⟩ := ih.call c hlegal hc
    obtain ⟨rfl, rfl⟩ := Prod.mk.inj (Option.some.inj (hcall'.symm.trans hcall))
    exact hinv

/-- As long as no call takes a block for a shared object, the heap is partitioned. Such
a call returns and keeps the partition, and any other one breaks it. -/
theorem userHeap_partitioned (hrun : Run (fun s c => ¬c.TakesBlock s) s returned) :
    Partitioned s.dyn returned ∧
      ∀ c : Call, c.Legal returned → (Keeps s returned c ↔ ¬c.TakesBlock s) := by
  have h := hrun.inv
  refine ⟨h.partitioned, fun c hlegal => ⟨fun hkeeps hc => h.not_keeps c hlegal hc hkeeps, fun hc => ?_⟩⟩
  obtain ⟨s', va, hcall, hinv, hnull⟩ := h.call c hlegal hc
  exact ⟨s', va, hcall, hinv.partitioned, hnull⟩

theorem exists_init (ok : Uheap → Call → Prop) : ∃ s, Run ok s [] ∧ Inv s [] ∧
    s.dyn.blocks .free = [⟨userHeapStart, userHeapMax - userHeapStart⟩] := by
  obtain ⟨d, q, hd, inv, hfree, -⟩ := initialize_inv userHeap zeroed
  exact ⟨⟨false, d⟩, @Run.init ok ⟨true, zeroed⟩ _ rfl (by simp [initializeUHeap, hd]),
    ⟨rfl, ⟨q, inv⟩, by simp⟩, hfree⟩

private theorem takesBlock_init (hfree : s.dyn.blocks .free = [⟨userHeapStart, userHeapMax - userHeapStart⟩])
    (ret : ℤ) : (Call.smalloc pageSize true ret).TakesBlock s := by
  refine ⟨rfl, ⟨userHeapStart, userHeapMax - userHeapStart⟩, ?_, by decide⟩
  rw [hfree]
  exact List.mem_singleton_self _

theorem userHeap_partitioned_malloc : ∃ s, Run (fun s c => ¬c.TakesBlock s) s [] ∧
    Partitioned s.dyn [] ∧ Keeps s [] (.malloc 5000 true) ∧ ¬Keeps s [] (.smalloc pageSize true 0) := by
  obtain ⟨s, hrun, -, hfree⟩ := exists_init fun s c => ¬c.TakesBlock s
  obtain ⟨hpart, hkeeps⟩ := userHeap_partitioned hrun
  refine ⟨s, hrun, hpart, (hkeeps (.malloc 5000 true) ⟨by decide, by decide⟩).mpr id, fun h => ?_⟩
  exact (hkeeps (.smalloc pageSize true 0) ⟨by decide, by decide⟩).mp h (takesBlock_init hfree 0)

/-- The kernel refuses to create a shared object, and the block that was to hold it
is lost. -/
theorem smallocRefused_not_partitioned : ¬∀ s returned, Run (fun _ _ => True) s returned →
    Partitioned s.dyn returned := by
  intro hall
  obtain ⟨s, hrun, hinv, hfree⟩ := exists_init fun _ _ => True
  have hlegal : (Call.smalloc pageSize true (-15)).Legal [] := ⟨by decide, by decide⟩
  obtain ⟨-, hfit⟩ := takesBlock_init hfree (-15)
  obtain ⟨s', hshare⟩ := hinv.shareBlock_refused (n := pageSize) (by decide) dvd_rfl hfit
    (r := -15) (by decide)
  have hcall : (Call.smalloc pageSize true (-15)).run s = some (s', 0) := by
    rw [Call.run, smalloc, hinv.initializeUHeap_eq]
    exact hshare
  obtain ⟨b, hb, hlost⟩ := hinv.shareBlock_taken hfit hshare
  obtain ⟨k, hk⟩ := (hall s' _ (.call _ hrun hlegal trivial hcall)).nodes b hb
  exact hlost k hk

end FosKernel.UserHeap
