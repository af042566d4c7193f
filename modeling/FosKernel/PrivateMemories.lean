import FosKernel.ClockReplacement
import FosKernel.WriteBackCaches

/-!
# Private memories

Frames are a cache of the pages of environments over their page files. As long as no frame and no
disk frame holds two pages, what the memory manager does to one page leaves all others alone.
-/

namespace FosKernel.Machine
open FailingPrograms PageEntries WriteBackCaches LazyMemories

variable {s t u : Machine} {E A : Finset ℕ} {g g' g'' : Obj → ℕ} {e f i j k p va w w' w'' faultVa : ℕ} {v v' : Env}
    {x y : ℕ × ℕ}

/-- A page of one of the environments `A`, which is none of the copies of the kernel's entries. -/
def OwnPage (A : Finset ℕ) (x : ℕ × ℕ) : Prop := x.1 ∈ A ∧ UserAddress (pageSize * x.2)

/-- The entry for a page, and its disk frame. -/
noncomputable abbrev userEntry (s : Machine) (g : Obj → ℕ) (x : ℕ × ℕ) : ℕ := s.entries g (.user x.1, x.2)

noncomputable abbrev diskEntry (s : Machine) (g : Obj → ℕ) (x : ℕ × ℕ) : ℕ := s.entries g (.disk x.1, x.2)

def IsMapped (s : Machine) (g : Obj → ℕ) (x : ℕ × ℕ) : Prop := HasPerm (s.userEntry g x) permPresent

theorem inHeapOrStack_page (va : ℕ) : InHeapOrStack (pageSize * pageNumber va) ↔ InHeapOrStack va := by
  have hbottom : ustackBottom = pageSize * 655458 := by decide
  have htop : ustackTop = pageSize * 977918 := by decide
  simp only [InHeapOrStack, hbottom, htop, pageNumber, pageSize, userHeapStart, userHeapMax]
  omega

theorem userAddress_page (va : ℕ) : UserAddress (pageSize * pageNumber va) ↔ UserAddress va := by
  have hbottom : ustackBottom = pageSize * 655458 := by decide
  simp only [UserAddress, UserPagesWS, hbottom, pageNumber, pageSize, userTop, userHeapMax]
  omega

theorem OwnPage.lt (hx : OwnPage A x) : pageSize * x.2 < userTop := hx.2.1

open Classical in
/-- The frames are the copies, and the page files are the store. -/
noncomputable def caching (A : Finset ℕ) (s : Machine) (g : Obj → ℕ) : Cache (ℕ × ℕ) Page where
  front x :=
    if OwnPage A x ∧ IsMapped s g x then
      some (s.ram (frameNumber (s.userEntry g x)), decide (HasPerm (s.userEntry g x) permModified))
    else none
  back x := if OwnPage A x ∧ s.diskEntry g x ≠ 0 then some (s.disk (s.diskEntry g x)) else none

theorem caching_front (hx : OwnPage A x) (hm : IsMapped s g x) : (caching A s g).front x =
    some (s.ram (frameNumber (s.userEntry g x)), decide (HasPerm (s.userEntry g x) permModified)) := if_pos ⟨hx, hm⟩

theorem caching_front_none (h : ¬(OwnPage A x ∧ IsMapped s g x)) : (caching A s g).front x = none := if_neg h

theorem caching_back (hx : OwnPage A x) (h0 : s.diskEntry g x ≠ 0) :
    (caching A s g).back x = some (s.disk (s.diskEntry g x)) := if_pos ⟨hx, h0⟩

theorem caching_back_none (h : ¬(OwnPage A x ∧ s.diskEntry g x ≠ 0)) : (caching A s g).back x = none := if_neg h

theorem back_eq (hdisk : t.diskEntry g' x = s.diskEntry g x)
    (hstored : s.diskEntry g x ≠ 0 → t.disk (s.diskEntry g x) = s.disk (s.diskEntry g x)) :
    (caching A t g').back x = (caching A s g).back x := by
  by_cases hx : OwnPage A x ∧ s.diskEntry g x ≠ 0
  · rw [caching_back hx.1 hx.2, caching_back hx.1 (by rw [hdisk]; exact hx.2), hdisk, hstored hx.2]
  · rw [caching_back_none hx, caching_back_none (by rwa [hdisk])]

/-- A page that is mapped: the program may read and write it, and it is the only one in its frame. -/
structure PrivatePage (s : Machine) (g : Obj → ℕ) (x : ℕ × ℕ) : Prop where
  perms : ReadWrite (s.userEntry g x)
  inUse : InUse s (frameNumber (s.userEntry g x))
  references : (s.framesInfo (frameNumber (s.userEntry g x))).references = 1
  legal : s.diskEntry g x ≠ 0 ∨ InHeapOrStack (pageSize * x.2)

/-- No frame and no disk frame holds two pages of the environments `A`, and what is not modified is in the page file. -/
structure PrivatePages (E A : Finset ℕ) (s : Machine) (g : Obj → ℕ) : Prop where
  stocked : Stocked E s g
  trees : A ⊆ E
  roots : ∀ e ∈ A, g (.root (.user e)) ≠ 0 ∧ g (.root (.disk e)) ≠ 0
  mapped : ∀ x, OwnPage A x → IsMapped s g x → PrivatePage s g x
  frames : ∀ x y, OwnPage A x → OwnPage A y → IsMapped s g x → IsMapped s g y →
    frameNumber (s.userEntry g x) = frameNumber (s.userEntry g y) → x = y
  diskFrames : ∀ x y, OwnPage A x → OwnPage A y → s.diskEntry g x ≠ 0 → s.diskEntry g x = s.diskEntry g y → x = y
  diskFree : ∀ d ∈ s.diskFreeFrameList, d ≠ 0 ∧ d < 2 ^ 32 ∧ ∀ x, OwnPage A x → s.diskEntry g x ≠ d
  diskNodup : s.diskFreeFrameList.Nodup
  window : s.kernelPte userLimit = 0
  coherent : (caching A s g).Coherent

/-- The entries name the same frame and allow the same, and agree on whether the page was modified. -/
structure SameAccess (w w' : ℕ) : Prop where
  frame : frameNumber w' = frameNumber w
  bits : ∀ k, k < 3 ∨ k = 6 → w'.testBit k = w.testBit k

namespace SameAccess

theorem refl (w : ℕ) : SameAccess w w := ⟨rfl, fun _ _ => rfl⟩

theorem trans (h : SameAccess w w') (h' : SameAccess w' w'') : SameAccess w w'' :=
  ⟨h'.frame.trans h.frame, fun k hk => (h'.bits k hk).trans (h.bits k hk)⟩

theorem setUsed (w : ℕ) : SameAccess w (setPerm w permUsed) where
  frame := frameNumber_setPerm (by decide)
  bits k hk := by
    have hbit : permUsed.testBit k = false := by
      have hfive : permUsed = 2 ^ 5 := by decide
      rw [hfive, Nat.testBit_two_pow_of_ne (by omega)]
    rw [testBit_setPerm, hbit, Bool.or_false]

theorem clearUsed (hw : w < 2 ^ 32) : SameAccess w (clearPerm w permUsed) where
  frame := frameNumber_clearPerm hw (by decide)
  bits k hk := by
    have hbit : permUsed.testBit k = false := by
      have hfive : permUsed = 2 ^ 5 := by decide
      rw [hfive, Nat.testBit_two_pow_of_ne (by omega)]
    rw [testBit_clearPerm (by omega), hbit, Bool.not_false, Bool.and_true]

variable (h : SameAccess w w')
include h

theorem hasPerm (hk : k < 3 ∨ k = 6) : HasPerm w' (2 ^ k) ↔ HasPerm w (2 ^ k) := by
  rw [hasPerm_two_pow, hasPerm_two_pow, h.bits k hk]

theorem present : HasPerm w' permPresent ↔ HasPerm w permPresent := h.hasPerm (k := 0) (by decide)

theorem modified : HasPerm w' permModified ↔ HasPerm w permModified := h.hasPerm (k := 6) (by decide)

theorem readWrite (hw : ReadWrite w) : ReadWrite w' :=
  ⟨h.present.mpr hw.1, (h.hasPerm (k := 1) (by decide)).mpr hw.2.1, (h.hasPerm (k := 2) (by decide)).mpr hw.2.2⟩

end SameAccess

structure Alike (s : Machine) (g : Obj → ℕ) (t : Machine) (g' : Obj → ℕ) (x : ℕ × ℕ) : Prop where
  entry : SameAccess (s.userEntry g x) (t.userEntry g' x)
  disk : t.diskEntry g' x = s.diskEntry g x
  stored : s.diskEntry g x ≠ 0 → t.disk (s.diskEntry g x) = s.disk (s.diskEntry g x)
  inUse : IsMapped s g x → InUse t (frameNumber (s.userEntry g x))
  references : IsMapped s g x → (t.framesInfo (frameNumber (s.userEntry g x))).references =
    (s.framesInfo (frameNumber (s.userEntry g x))).references
  ram : IsMapped s g x → t.ram (frameNumber (s.userEntry g x)) = s.ram (frameNumber (s.userEntry g x))

namespace Alike

variable (h : Alike s g t g' x)
include h

theorem isMapped : IsMapped t g' x ↔ IsMapped s g x := h.entry.present

theorem page (hx : PrivatePage s g x) : PrivatePage t g' x where
  perms := h.entry.readWrite hx.perms
  inUse := by
    rw [h.entry.frame]
    exact h.inUse hx.perms.1
  references := by rw [h.entry.frame, h.references hx.perms.1, hx.references]
  legal := by
    rw [h.disk]
    exact hx.legal

theorem front_eq (A : Finset ℕ) : (caching A t g').front x = (caching A s g).front x := by
  by_cases hx : OwnPage A x ∧ IsMapped s g x
  · rw [caching_front hx.1 hx.2, caching_front hx.1 (h.isMapped.mpr hx.2), h.entry.frame, h.ram hx.2]
    simp only [h.entry.modified]
  · rw [caching_front_none hx, caching_front_none (by rwa [h.isMapped])]

end Alike

theorem PrivatePages.of_alike {X : Set (ℕ × ℕ)} (h : PrivatePages E A s g) (hst : Stocked E t g')
    (hroots : ∀ τ, g' (.root τ) = g (.root τ)) (hwindow : t.kernelPte userLimit = s.kernelPte userLimit)
    (halike : ∀ x, OwnPage A x → x ∉ X → Alike s g t g' x)
    (hmapped : ∀ x ∈ X, OwnPage A x → IsMapped t g' x → PrivatePage t g' x ∧ ∀ y, OwnPage A y → IsMapped t g' y →
      frameNumber (t.userEntry g' y) = frameNumber (t.userEntry g' x) → y = x)
    (hdisk : ∀ x ∈ X, OwnPage A x → t.diskEntry g' x ≠ 0 → ∀ y, OwnPage A y → t.diskEntry g' y = t.diskEntry g' x → y = x)
    (hfree : ∀ d ∈ t.diskFreeFrameList, d ∈ s.diskFreeFrameList ∧ ∀ x ∈ X, OwnPage A x → t.diskEntry g' x ≠ d)
    (hnodup : t.diskFreeFrameList.Nodup) (hcoherent : (caching A t g').Coherent) : PrivatePages E A t g' where
  stocked := hst
  trees := h.trees
  roots e he := by
    rw [hroots, hroots]
    exact h.roots e he
  mapped x hx hm := by
    by_cases hX : x ∈ X
    · exact (hmapped x hX hx hm).1
    · have ha := halike x hx hX
      exact ha.page (h.mapped x hx (ha.isMapped.mp hm))
  frames x y hx hy hmx hmy he := by
    by_cases hX : x ∈ X
    · exact ((hmapped x hX hx hmx).2 y hy hmy he.symm).symm
    by_cases hY : y ∈ X
    · exact (hmapped y hY hy hmy).2 x hx hmx he
    have hax := halike x hx hX
    have hay := halike y hy hY
    rw [hax.entry.frame, hay.entry.frame] at he
    exact h.frames x y hx hy (hax.isMapped.mp hmx) (hay.isMapped.mp hmy) he
  diskFrames x y hx hy h0 he := by
    by_cases hX : x ∈ X
    · exact (hdisk x hX hx h0 y hy he.symm).symm
    by_cases hY : y ∈ X
    · exact hdisk y hY hy (he ▸ h0) x hx he
    rw [(halike x hx hX).disk, (halike y hy hY).disk] at he
    exact h.diskFrames x y hx hy ((halike x hx hX).disk ▸ h0) he
  diskFree d hd := by
    obtain ⟨hmem, hX⟩ := hfree d hd
    obtain ⟨h0, hlt, hne⟩ := h.diskFree d hmem
    refine ⟨h0, hlt, fun x hx => ?_⟩
    by_cases hxX : x ∈ X
    · exact hX x hxX hx
    · rw [(halike x hx hxX).disk]
      exact hne x hx
  diskNodup := hnodup
  window := hwindow.trans h.window
  coherent := hcoherent

/-- Slot `i` holds the page `p`. -/
def Holds (v : Env) (i p : ℕ) : Prop :=
  i < v.pageWSMaxSize ∧ (v.ptrPageWorkingSet i).empty = false ∧ pageNumber (v.ptrPageWorkingSet i).virtualAddress = p

/-- The slots are filled one after the other, and the hand goes round only when all are. -/
structure Arranged (v : Env) : Prop where
  hand : v.pageLastWSIndex < v.pageWSMaxSize
  size : v.pageWSMaxSize < 2 ^ 32
  filled : ∃ n ≤ v.pageWSMaxSize, (∀ i < v.pageWSMaxSize, (v.ptrPageWorkingSet i).empty = decide (n ≤ i)) ∧
    (n < v.pageWSMaxSize → v.pageLastWSIndex = n)

/-- The slots hold the pages that are mapped, each in one slot. -/
structure HoldsMapped (s : Machine) (g : Obj → ℕ) (e : ℕ) : Prop where
  distinct : ∀ i j p, Holds (s.envs e) i p → Holds (s.envs e) j p → i = j
  mapped : ∀ p, (UserAddress (pageSize * p) ∧ IsMapped s g (e, p)) ↔ ∃ i, Holds (s.envs e) i p

/-- The environments `A` have their pages to themselves, and their working sets list those that are mapped. -/
structure HeldPages (E A : Finset ℕ) (s : Machine) (g : Obj → ℕ) : Prop extends PrivatePages E A s g where
  sets : ∀ e ∈ A, HoldsMapped s g e

structure PrivateMemories (E A : Finset ℕ) (s : Machine) (g : Obj → ℕ) : Prop extends HeldPages E A s g where
  arranged : ∀ e ∈ A, Arranged (s.envs e)

structure SameSet (v v' : Env) : Prop where
  set : v'.ptrPageWorkingSet = v.ptrPageWorkingSet
  size : v'.pageWSMaxSize = v.pageWSMaxSize
  hand : v'.pageLastWSIndex = v.pageLastWSIndex

namespace SameSet

theorem refl (v : Env) : SameSet v v := ⟨rfl, rfl, rfl⟩

variable (h : SameSet v v')
include h

theorem holds : Holds v' i p ↔ Holds v i p := by
  rw [Holds, h.set, h.size, Holds]

theorem arranged (hv : Arranged v) : Arranged v' where
  hand := by
    rw [h.hand, h.size]
    exact hv.hand
  size := by
    rw [h.size]
    exact hv.size
  filled := by
    rw [h.hand, h.size, h.set]
    exact hv.filled

end SameSet

theorem HoldsMapped.same (h : HoldsMapped s g e) (hset : SameSet (s.envs e) (t.envs e))
    (hm : ∀ p, UserAddress (pageSize * p) → (IsMapped t g' (e, p) ↔ IsMapped s g (e, p))) : HoldsMapped t g' e where
  distinct i j p hi hj := h.distinct i j p (hset.holds.mp hi) (hset.holds.mp hj)
  mapped p := by
    simp only [hset.holds, ← h.mapped]
    exact and_congr_right fun hp => hm p hp

/-- A slot is emptied, and the hand points to it. -/
def clearedSet (v : Env) (i : ℕ) : Env :=
  { v with ptrPageWorkingSet := Function.update v.ptrPageWorkingSet i ⟨0, true, 0⟩, pageLastWSIndex := i }

theorem holds_cleared : Holds (clearedSet v i) j p ↔ j ≠ i ∧ Holds v j p := by
  by_cases hj : j = i
  · subst hj
    simp [Holds, clearedSet]
  · simp [Holds, clearedSet, hj]

theorem holds_entered (hand : v.pageLastWSIndex < v.pageWSMaxSize) : Holds (enteredSet v va) j p ↔
    j = v.pageLastWSIndex ∧ p = pageNumber va ∨ j ≠ v.pageLastWSIndex ∧ Holds v j p := by
  by_cases hj : j = v.pageLastWSIndex
  · subst hj
    simp only [Holds, enteredSet, hand, Function.update_self, pageNumber_roundDown, true_and, ne_eq, not_true_eq_false,
      false_and, or_false]
    exact eq_comm
  · simp [Holds, enteredSet, hj]

theorem not_holds_of_empty (hempty : (v.ptrPageWorkingSet i).empty = true) : ¬Holds v i p := fun h => by
  rw [h.2.1] at hempty
  cases hempty

theorem arranged_of_full (hand : v.pageLastWSIndex < v.pageWSMaxSize) (hsize : v.pageWSMaxSize < 2 ^ 32)
    (hfull : ∀ i < v.pageWSMaxSize, (v.ptrPageWorkingSet i).empty = false) : Arranged v where
  hand := hand
  size := hsize
  filled := by
    refine ⟨v.pageWSMaxSize, le_rfl, fun i hi => ?_, fun h => absurd h (lt_irrefl _)⟩
    rw [hfull i hi, decide_eq_false (not_le.mpr hi)]

namespace Arranged

theorem full_or_empty (h : Arranged v) : (∀ i < v.pageWSMaxSize, (v.ptrPageWorkingSet i).empty = false) ∨
    (v.ptrPageWorkingSet v.pageLastWSIndex).empty = true := by
  obtain ⟨n, hn, hempty, hhand⟩ := h.filled
  cases hn.lt_or_eq with
  | inl hlt =>
    refine .inr ?_
    rw [hempty _ h.hand, hhand hlt, decide_eq_true le_rfl]
  | inr heq =>
    refine .inl fun i hi => ?_
    rw [hempty i hi, heq, decide_eq_false (not_le.mpr hi)]

theorem entered (h : Arranged v) (hempty : (v.ptrPageWorkingSet v.pageLastWSIndex).empty = true) (va : ℕ) :
    Arranged (enteredSet v va) where
  hand := Nat.mod_lt _ (Nat.zero_lt_of_lt h.hand)
  size := h.size
  filled := by
    obtain ⟨n, hn, hslots, hhand⟩ := h.filled
    have hle : n ≤ v.pageLastWSIndex := by
      rw [hslots _ h.hand] at hempty
      exact of_decide_eq_true hempty
    have hlt : n < v.pageWSMaxSize := hle.trans_lt h.hand
    refine ⟨n + 1, hlt, fun i hlt' => ?_, fun hnext => ?_⟩
    · by_cases hi' : i = n
      · simp [enteredSet, hhand hlt, hi']
      · have hi₀ : i < v.pageWSMaxSize := hlt'
        simp only [enteredSet, hhand hlt, Function.update_of_ne hi', hslots i hi₀]
        exact decide_eq_decide.mpr (by omega)
    · have hnext₀ : n + 1 < v.pageWSMaxSize := hnext
      simp only [enteredSet, hhand hlt, Nat.mod_eq_of_lt hnext₀]

theorem replaced (h : Arranged v) (hfull : ∀ i < v.pageWSMaxSize, (v.ptrPageWorkingSet i).empty = false)
    (i va : ℕ) : Arranged (enteredSet (clearedSet v i) va) := by
  refine arranged_of_full (Nat.mod_lt _ (Nat.zero_lt_of_lt h.hand)) h.size fun j hj => ?_
  by_cases hj' : j = i
  · simp [enteredSet, clearedSet, hj']
  · have hj₀ : j < v.pageWSMaxSize := hj
    simp [enteredSet, clearedSet, hj', hfull j hj₀]

end Arranged

theorem Alike.trans (h : Alike s g t g' x) (h' : Alike t g' u g'' x) : Alike s g u g'' x where
  entry := h.entry.trans h'.entry
  disk := h'.disk.trans h.disk
  stored h0 := by
    rw [← h.stored h0, ← h.disk]
    exact h'.stored (h.disk ▸ h0)
  inUse hm := by
    rw [← h.entry.frame]
    exact h'.inUse (h.isMapped.mpr hm)
  references hm := by
    rw [← h.references hm, ← h.entry.frame]
    exact h'.references (h.isMapped.mpr hm)
  ram hm := by
    rw [← h.ram hm, ← h.entry.frame]
    exact h'.ram (h.isMapped.mpr hm)

theorem Changes.alike {P : Set (Tree × ℕ)} {F : Set ℕ} (h : Changes E s g P F t)
    (hentry : SameAccess (s.userEntry g x) (t.userEntry g x)) (hdisk : t.diskEntry g x = s.diskEntry g x)
    (hstored : t.disk = s.disk) (hframe : IsMapped s g x → Ordinary s (frameNumber (s.userEntry g x)) ∧
      frameNumber (s.userEntry g x) ∉ F ∧ frameNumber (s.userEntry g x) ∉ t.freeFrameList) : Alike s g t g x where
  entry := hentry
  disk := hdisk
  stored _ := by rw [hstored]
  inUse hm := ⟨h.ordinary (hframe hm).1, (hframe hm).2.2⟩
  references hm := by rw [h.info _ (hframe hm).2.1]
  ram hm := h.ram _ (hframe hm).2.1 (hframe hm).1

theorem AddsTables.alike {τ : Tree} {I : Finset ℕ} {n : ℕ} (h : AddsTables τ I n s g t g')
    (hentries : t.entries g' = s.entries g) (hframe : IsMapped s g x → InUse s (frameNumber (s.userEntry g x))) :
    Alike s g t g' x where
  entry := by
    rw [userEntry, userEntry, hentries]
    exact .refl _
  disk := by rw [diskEntry, hentries]
  stored _ := by
    obtain ⟨d, hst⟩ := h.globals
    rw [hst.disk]
    rfl
  inUse hm := h.stays (hframe hm)
  references hm := by rw [h.info _ (hframe hm).not_free]
  ram hm := (h.inUse _ (hframe hm)).2

theorem Undisturbed.alike {I : Finset ℕ} (h : Undisturbed E s g e I p t g') (hx : x ≠ (e, p))
    (hstored : s.diskEntry g x ≠ 0 → t.disk (s.diskEntry g x) = s.disk (s.diskEntry g x))
    (hframe : IsMapped s g x → InUse s (frameNumber (s.userEntry g x))) : Alike s g t g' x where
  entry := by
    rw [userEntry, userEntry, h.entries _ (by simp) (by simpa [Prod.ext_iff] using hx)]
    exact .refl _
  disk := h.entries _ (by simpa [Prod.ext_iff] using hx) (by simp)
  stored := hstored
  inUse hm := (h.inUse (hframe hm)).1
  references hm := by
    rw [h.tables.info _ (hframe hm).not_free]
    rfl
  ram hm := (h.inUse (hframe hm)).2

theorem front_eq_of_alike (h : OwnPage A x → Alike s g t g' x) : (caching A t g').front x = (caching A s g).front x := by
  by_cases hx : OwnPage A x
  · exact (h hx).front_eq A
  · rw [caching_front_none fun hc => hx hc.1, caching_front_none fun hc => hx hc.1]

theorem back_eq_of_alike (h : OwnPage A x → Alike s g t g' x) : (caching A t g').back x = (caching A s g).back x := by
  by_cases hx : OwnPage A x
  · exact back_eq (h hx).disk (h hx).stored
  · rw [caching_back_none fun hc => hx hc.1, caching_back_none fun hc => hx hc.1]

theorem caching_of_alike (h : ∀ x, OwnPage A x → Alike s g t g' x) : caching A t g' = caching A s g :=
  Cache.ext (funext fun x => front_eq_of_alike (h x)) (funext fun x => back_eq_of_alike (h x))

theorem PrivateMemories.alike (h : PrivateMemories E A s g) (hst : Stocked E t g')
    (hroots : ∀ τ, g' (.root τ) = g (.root τ)) (hwindow : t.kernelPte userLimit = s.kernelPte userLimit)
    (halike : ∀ x, OwnPage A x → Alike s g t g' x) (hfree : t.diskFreeFrameList = s.diskFreeFrameList)
    (hsets : ∀ e ∈ A, SameSet (s.envs e) (t.envs e)) : PrivateMemories E A t g' where
  toPrivatePages := by
    refine h.of_alike (X := ∅) hst hroots hwindow (fun x hx _ => halike x hx) (fun x hx => absurd hx (Set.notMem_empty x))
      (fun x hx => absurd hx (Set.notMem_empty x)) (fun d hd => ⟨hfree ▸ hd, fun x hx => absurd hx (Set.notMem_empty x)⟩) ?_ ?_
    · rw [hfree]
      exact h.diskNodup
    · rw [caching_of_alike halike]
      exact h.coherent
  sets e he := (h.sets e he).same (hsets e he) fun p hp => (halike (e, p) ⟨he, hp⟩).isMapped
  arranged e he := (hsets e he).arranged (h.arranged e he)

namespace PrivateMemories

variable (h : PrivateMemories E A s g)
include h

theorem inUse (hx : OwnPage A x) (hm : IsMapped s g x) : InUse s (frameNumber (s.userEntry g x)) := (h.mapped x hx hm).inUse

theorem marked {P : Set (Tree × ℕ)} (hch : Changes E s g P ∅ t) (hrec : SameRecords s t)
    (hentry : ∀ x, SameAccess (s.userEntry g x) (t.userEntry g x)) (hdisk : ∀ x, t.diskEntry g x = s.diskEntry g x) :
    PrivateMemories E A t g ∧ caching A t g = caching A s g := by
  have halike (x : ℕ × ℕ) (hx : OwnPage A x) : Alike s g t g x :=
    hch.alike (hentry x) (hdisk x) hrec.disk fun hm =>
      ⟨(h.inUse hx hm).toOrdinary, Set.notMem_empty _, by rw [hrec.free]; exact (h.inUse hx hm).not_free⟩
  refine ⟨h.alike hch.stocked (fun _ => rfl) (hch.kernelPte (.inl rfl)) halike hrec.diskFreeFrameList fun e _ => ?_,
    caching_of_alike halike⟩
  rw [hrec.envs]
  exact .refl _

theorem newTable {τ : Tree} {pt : ℕ} (ht : NewTable E s g τ i pt f t) (hl : g (.leaf τ i) = 0) :
    PrivateMemories E A t (Function.update g (.leaf τ i) pt) ∧
      caching A t (Function.update g (.leaf τ i) pt) = caching A s g := by
  have hadds := ht.grows h.stocked.toReady hl
  have halike (x : ℕ × ℕ) (hx : OwnPage A x) : Alike s g t (Function.update g (.leaf τ i) pt) x :=
    hadds.alike ht.entries_eq fun hm => h.inUse hx hm
  obtain ⟨b, hst⟩ := ht.globals
  refine ⟨h.alike ht.stocked (fun _ => Function.update_of_ne (by simp) ..) ?_ halike hst.diskFreeFrameList fun e _ => ?_,
    caching_of_alike halike⟩
  · have hwindow : userLimit ≠ pt := fun he => absurd (he ▸ ht.page.start) (by decide)
    have hcell := congrFun ht.cell (.page userLimit)
    rwa [cellWord_page (.inl rfl), Function.update_of_ne (by simp), Function.update_of_ne (by simpa using hwindow),
      cellWord_page (.inl rfl)] at hcell
  · rw [hst.envs]
    exact .refl _

theorem load (he : e ∈ A) : PrivateMemories E A { s with cr3 := (s.envs e).envCr3 } g ∧
    caching A { s with cr3 := (s.envs e).envCr3 } g = caching A s g := by
  have halike (x : ℕ × ℕ) (hx : OwnPage A x) : Alike s g { s with cr3 := (s.envs e).envCr3 } g x :=
    ⟨.refl _, rfl, fun _ => rfl, fun hm => ⟨⟨(h.inUse hx hm).managed, (h.inUse hx hm).not_heap⟩, (h.inUse hx hm).not_free⟩,
      fun _ => rfl, fun _ => rfl⟩
  exact ⟨h.alike (h.stocked.load (h.trees he) (h.roots e he).1) (fun _ => rfl) rfl halike rfl fun _ _ => .refl _,
    caching_of_alike halike⟩

theorem setEnv (hdir : v.envPageDirectory = (s.envs e).envPageDirectory) (hdisk : v.diskEnvPgdir = (s.envs e).diskEnvPgdir)
    (hcr3 : v.envCr3 = (s.envs e).envCr3) (hset : SameSet (s.envs e) v) :
    PrivateMemories E A (s.setEnv e v) g ∧ caching A (s.setEnv e v) g = caching A s g := by
  obtain ⟨hch, -⟩ := h.stocked.changeEnv (F := ∅) hdir hdisk hcr3
  have halike (x : ℕ × ℕ) (hx : OwnPage A x) : Alike s g (s.setEnv e v) g x := by
    refine hch.alike ?_ (hch.entries _ (Set.notMem_empty _)) rfl fun hm =>
      ⟨(h.inUse hx hm).toOrdinary, Set.notMem_empty _, (h.inUse hx hm).not_free⟩
    rw [userEntry, userEntry, hch.entries _ (Set.notMem_empty _)]
    exact .refl _
  refine ⟨h.alike hch.stocked (fun _ => rfl) (hch.kernelPte (.inl rfl)) halike rfl fun e' _ => ?_, caching_of_alike halike⟩
  have henvs : (s.setEnv e v).envs = Function.update s.envs e v := rfl
  rw [henvs]
  by_cases he : e' = e
  · rw [he, Function.update_self]
    exact hset
  · rw [Function.update_of_ne he]
    exact .refl _

end PrivateMemories

theorem caching_of_others (h : ∀ y, OwnPage A y → y ≠ x → Alike s g t g' y) : caching A t g' =
    ⟨Function.update (caching A s g).front x ((caching A t g').front x),
      Function.update (caching A s g).back x ((caching A t g').back x)⟩ :=
  Cache.ext (Function.eq_update_iff.mpr ⟨rfl, fun y hy => front_eq_of_alike fun hown => h y hown hy⟩)
    (Function.eq_update_iff.mpr ⟨rfl, fun y hy => back_eq_of_alike fun hown => h y hown hy⟩)

namespace PrivatePages

variable (h : PrivatePages E A s g)
include h

theorem inUse (hx : OwnPage A x) (hm : IsMapped s g x) : InUse s (frameNumber (s.userEntry g x)) := (h.mapped x hx hm).inUse

theorem alone (hx : OwnPage A x) (hmx : IsMapped s g x) (halike : ∀ y, OwnPage A y → y ≠ x → Alike s g t g' y)
    (hframe : frameNumber (t.userEntry g' x) = frameNumber (s.userEntry g x)) : ∀ y, OwnPage A y → IsMapped t g' y →
      frameNumber (t.userEntry g' y) = frameNumber (t.userEntry g' x) → y = x := by
  intro y hy hm he
  by_contra hne
  have ha := halike y hy hne
  rw [ha.entry.frame, hframe] at he
  exact hne (h.frames y x hy hx (ha.isMapped.mp hm) hmx he)

theorem aloneOnDisk (hx : OwnPage A x) (halike : ∀ y, OwnPage A y → y ≠ x → Alike s g t g' y)
    (hdisk : t.diskEntry g' x = s.diskEntry g x) : t.diskEntry g' x ≠ 0 → ∀ y, OwnPage A y →
      t.diskEntry g' y = t.diskEntry g' x → y = x := by
  intro h0 y hy he
  by_contra hne
  rw [(halike y hy hne).disk, hdisk] at he
  exact hne (h.diskFrames x y hx hy (hdisk ▸ h0) he.symm).symm

theorem stored {pg : Page} (hx : OwnPage A x) (hmx : IsMapped s g x)
    (hch : Changes E s g {(.user x.1, x.2)} {frameNumber (s.userEntry g x)} t) (hrec : SameRecords s t)
    (hentry : t.userEntry g x = setPerm (s.userEntry g x) (permUsed ||| permModified))
    (hram : t.ram (frameNumber (s.userEntry g x)) = pg) :
    PrivatePages E A t g ∧ caching A t g = (caching A s g).write x pg ∧ ∀ y, IsMapped t g y ↔ IsMapped s g y := by
  have hpage := h.mapped x hx hmx
  have hframe : frameNumber (t.userEntry g x) = frameNumber (s.userEntry g x) := by
    rw [hentry]
    exact frameNumber_setPerm (by decide)
  have hperm (k : ℕ) (hk : HasPerm (s.userEntry g x) (2 ^ k)) : HasPerm (t.userEntry g x) (2 ^ k) := by
    rw [hasPerm_two_pow] at hk ⊢
    rw [hentry, testBit_setPerm, hk, Bool.true_or]
  have hmodified : HasPerm (t.userEntry g x) permModified := by
    rw [hasPerm_modified, hentry, testBit_setPerm, Nat.testBit_or, show permModified.testBit 6 = true by decide]
    simp
  have hdisk : t.diskEntry g x = s.diskEntry g x := hch.entries _ (by simp)
  have hmt : IsMapped t g x := hperm 0 hmx
  have halike (y : ℕ × ℕ) (hy : OwnPage A y) (hne : y ≠ x) : Alike s g t g y := by
    have hent : t.userEntry g y = s.userEntry g y := hch.entries _ (by simpa [Prod.ext_iff] using hne)
    refine hch.alike (by rw [hent]; exact .refl _) (hch.entries _ (by simp)) hrec.disk fun hm => ?_
    have huse := h.inUse hy hm
    exact ⟨huse.toOrdinary, fun hf => hne (h.frames y x hy hx hm hmx hf), by rw [hrec.free]; exact huse.not_free⟩
  have hcaching : caching A t g = (caching A s g).write x pg := by
    have hback : (caching A t g).back x = (caching A s g).back x := back_eq hdisk fun _ => by rw [hrec.disk]
    rw [caching_of_others halike, caching_front hx hmt, hframe, hram, decide_eq_true hmodified, hback,
      Function.update_eq_self]
    rfl
  refine ⟨?_, hcaching, fun y => ?_⟩
  · refine h.of_alike (X := {x}) hch.stocked (fun _ => rfl) (hch.kernelPte (.inl rfl)) (fun y hy hne => halike y hy hne) ?_ ?_
      (fun d hd => ?_) (hrec.diskFreeFrameList ▸ h.diskNodup) (hcaching ▸ h.coherent.write x pg)
    · rintro _ rfl _ _
      refine ⟨⟨⟨hmt, hperm 1 hpage.perms.2.1, hperm 2 hpage.perms.2.2⟩, ?_, ?_, ?_⟩, h.alone hx hmx halike hframe⟩
      · rw [hframe]
        exact ⟨hch.ordinary hpage.inUse.toOrdinary, hrec.free ▸ hpage.inUse.not_free⟩
      · rw [hframe, hrec.info, hpage.references]
      · rw [hdisk]
        exact hpage.legal
    · rintro _ rfl _
      exact h.aloneOnDisk hx halike hdisk
    · rw [hrec.diskFreeFrameList] at hd
      refine ⟨hd, ?_⟩
      rintro _ rfl _
      rw [hdisk]
      exact (h.diskFree d hd).2.2 _ hx
  · by_cases hne : y = x
    · rw [hne]
      exact iff_of_true hmt hmx
    · rw [IsMapped, userEntry, hch.entries _ (by simpa [Prod.ext_iff] using hne), IsMapped]

end PrivatePages

/-- The page may be dropped: the page file has it as it is. -/
structure Secured (A : Finset ℕ) (s : Machine) (g : Obj → ℕ) (x : ℕ × ℕ) (t : Machine) (g' : Obj → ℕ) : Prop where
  others : ∀ y, OwnPage A y → y ≠ x → Alike s g t g' y
  back : (caching A t g').back x = ((caching A s g).evict x).back x
  alone : t.diskEntry g' x ≠ 0 → ∀ y, OwnPage A y → t.diskEntry g' y = t.diskEntry g' x → y = x
  free : ∀ d ∈ t.diskFreeFrameList, d ∈ s.diskFreeFrameList ∧ t.diskEntry g' x ≠ d
  nodup : t.diskFreeFrameList.Nodup

namespace PrivatePages

variable {I : Finset ℕ} {pg : Page} (h : PrivatePages E A s g)
include h

theorem secured_refl (hx : OwnPage A x) (hmx : IsMapped s g x) (hm : ¬HasPerm (s.userEntry g x) permModified) :
    Secured A s g x s g where
  others y hy _ := ⟨.refl _, rfl, fun _ => rfl, fun hmy => h.inUse hy hmy, fun _ => rfl, fun _ => rfl⟩
  back := by rw [Cache.evict, caching_front hx hmx, decide_eq_false hm]
  alone h0 y hy he := (h.diskFrames x y hx hy h0 he.symm).symm
  free d hd := ⟨hd, (h.diskFree d hd).2.2 x hx⟩
  nodup := h.diskNodup

theorem secured (hx : OwnPage A (e, p)) (hmx : IsMapped s g (e, p)) (hm : HasPerm (s.userEntry g (e, p)) permModified)
    (hu : Undisturbed E s g e I p t g')
    (hw : SavesPage s g e p (s.ram (frameNumber (s.userEntry g (e, p)))) t g') : Secured A s g (e, p) t g' := by
  have hpresent : t.diskEntry g' (e, p) ≠ 0 := hw.present
  -- the disk frame is that of no other page
  have hne (y : ℕ × ℕ) (hy : OwnPage A y) (hyx : y ≠ (e, p)) : s.diskEntry g y ≠ t.diskEntry g' (e, p) := by
    intro he
    by_cases h0 : s.diskEntry g (e, p) = 0
    · have hmem : t.diskEntry g' (e, p) ∈ s.diskFreeFrameList := by simp [hw.taken h0]
      exact (h.diskFree _ hmem).2.2 y hy he
    · have hsame : t.diskEntry g' (e, p) = s.diskEntry g (e, p) := hw.same h0
      rw [hsame] at he
      exact hyx (h.diskFrames (e, p) y hx hy h0 he.symm).symm
  have hothers (y : ℕ × ℕ) (hy : OwnPage A y) (hyx : y ≠ (e, p)) : Alike s g t g' y := by
    refine hu.alike hyx (fun _ => ?_) fun hmy => h.inUse hy hmy
    rw [hw.disk, Function.update_of_ne (hne y hy hyx)]
  refine ⟨hothers, ?_, fun _ y hy he => ?_, fun d hd => ?_, ?_⟩
  · rw [caching_back hx hpresent, hw.disk, Function.update_self]
    simp [Cache.evict, caching_front hx hmx, hm]
  · by_contra hyx
    rw [(hothers y hy hyx).disk] at he
    exact hne y hy hyx he
  · by_cases h0 : s.diskEntry g (e, p) = 0
    · have hfree := hw.taken h0
      have hnodup := h.diskNodup
      rw [hfree] at hnodup
      refine ⟨by simp [hfree, hd], ?_⟩
      rintro rfl
      exact (List.nodup_cons.mp hnodup).1 hd
    · have hsame : t.diskEntry g' (e, p) = s.diskEntry g (e, p) := hw.same h0
      rw [hw.kept h0] at hd
      refine ⟨hd, ?_⟩
      rw [hsame]
      exact (h.diskFree d hd).2.2 _ hx
  · by_cases h0 : s.diskEntry g (e, p) = 0
    · have hnodup := h.diskNodup
      rw [hw.taken h0] at hnodup
      exact (List.nodup_cons.mp hnodup).2
    · rw [hw.kept h0]
      exact h.diskNodup

theorem evicted (hx : OwnPage A (e, pageNumber va)) (hmx : IsMapped s g (e, pageNumber va))
    (hs : Secured A s g (e, pageNumber va) t g') (hroots : ∀ τ, g' (.root τ) = g (.root τ))
    (hwindow : t.kernelPte userLimit = s.kernelPte userLimit) (hrefs : (t.framesInfo f).references = 1)
    (hframe : f = frameNumber (s.userEntry g (e, pageNumber va))) (hv : Evicted E t g' e i va f u) :
    PrivatePages E A u g' ∧ caching A u g' = (caching A s g).evict (e, pageNumber va) ∧
      ∀ y, OwnPage A y → (IsMapped u g' y ↔ y ≠ (e, pageNumber va) ∧ IsMapped s g y) := by
  have hunmapped : ¬IsMapped u g' (e, pageNumber va) := by
    rw [IsMapped, userEntry, hv.entry]
    decide
  have hdisk (y : ℕ × ℕ) : u.diskEntry g' y = t.diskEntry g' y := hv.changes.entries _ (by simp)
  have hothers (y : ℕ × ℕ) (hy : OwnPage A y) (hyx : y ≠ (e, pageNumber va)) : Alike s g u g' y := by
    have ha := hs.others y hy hyx
    refine ha.trans (hv.changes.alike ?_ (hdisk y) hv.disk fun hmy => ?_)
    · rw [userEntry, userEntry, hv.changes.entries _ (by simpa [Prod.ext_iff] using hyx)]
      exact .refl _
    · have hmy₀ := ha.isMapped.mp hmy
      rw [ha.entry.frame]
      have huse := ha.inUse hmy₀
      have hne : frameNumber (s.userEntry g y) ≠ f := fun he =>
        hyx (h.frames y _ hy hx hmy₀ hmx (he.trans hframe))
      refine ⟨huse.toOrdinary, hne, ?_⟩
      rw [hv.free, if_pos hrefs]
      simp [hne, huse.not_free]
  have hcaching : caching A u g' = (caching A s g).evict (e, pageNumber va) := by
    rw [caching_of_others hothers, caching_front_none fun hc => hunmapped hc.2,
      back_eq (hdisk _) fun _ => by rw [hv.disk], hs.back]
    exact (Cache.evict_eq _ _).symm
  refine ⟨?_, hcaching, fun y hy => ?_⟩
  · refine h.of_alike (X := {(e, pageNumber va)}) hv.changes.stocked hroots ((hv.changes.kernelPte (.inl rfl)).trans hwindow)
      (fun y hy hyx => hothers y hy hyx) ?_ ?_ (fun d hd => ?_) ?_ (hcaching ▸ h.coherent.evict _)
    · rintro _ rfl _ hm
      exact absurd hm hunmapped
    · rintro _ rfl _ h0 y hy he
      rw [hdisk] at h0
      rw [hdisk, hdisk] at he
      exact hs.alone h0 y hy he
    · rw [hv.diskFree] at hd
      refine ⟨(hs.free d hd).1, ?_⟩
      rintro _ rfl _
      rw [hdisk]
      exact (hs.free d hd).2
    · rw [hv.diskFree]
      exact hs.nodup
  · by_cases hyx : y = (e, pageNumber va)
    · rw [hyx]
      exact iff_of_false hunmapped fun hc => hc.1 rfl
    · rw [(hothers y hy hyx).isMapped]
      exact (and_iff_right hyx).symm

theorem placed (hx : OwnPage A (e, pageNumber faultVa)) (hmx : ¬IsMapped s g (e, pageNumber faultVa))
    (hlegal : s.diskEntry g (e, pageNumber faultVa) ≠ 0 ∨ InHeapOrStack faultVa) (ht : PlacesPage E s g e faultVa f t) :
    PrivatePages E A t g ∧ (∃ pg m, (caching A s g).Fetches (e, pageNumber faultVa) pg m ∧
      caching A t g = (caching A s g).fetch (e, pageNumber faultVa) pg m) ∧
      ∀ y, OwnPage A y → (IsMapped t g y ↔ y = (e, pageNumber faultVa) ∨ IsMapped s g y) := by
  have hmem : f ∈ s.freeFrameList := by simp [ht.free]
  have hnodup := h.stocked.nodup
  rw [ht.free] at hnodup
  have hmt : IsMapped t g (e, pageNumber faultVa) := ht.perms.1
  have hframe : frameNumber (t.userEntry g (e, pageNumber faultVa)) = f := ht.frame
  have hdisk (y : ℕ × ℕ) : t.diskEntry g y = s.diskEntry g y := ht.changes.entries _ (by simp)
  have hothers (y : ℕ × ℕ) (hy : OwnPage A y) (hyx : y ≠ (e, pageNumber faultVa)) : Alike s g t g y := by
    refine ht.changes.alike ?_ (hdisk y) ht.disk fun hmy => ?_
    · rw [userEntry, userEntry, ht.changes.entries _ (by simpa [Prod.ext_iff] using hyx)]
      exact .refl _
    · have huse := h.inUse hy hmy
      refine ⟨huse.toOrdinary, fun hc => huse.not_free (Set.mem_singleton_iff.mp hc ▸ hmem), fun hc => huse.not_free ?_⟩
      rw [ht.free]
      exact List.mem_cons_of_mem _ hc
  have hcaching : caching A t g = (caching A s g).fetch (e, pageNumber faultVa) (t.ram f)
      (decide (HasPerm (t.userEntry g (e, pageNumber faultVa)) permModified)) := by
    rw [caching_of_others hothers, caching_front hx hmt, hframe, back_eq (hdisk _) fun _ => by rw [ht.disk],
      Function.update_eq_self]
    rfl
  have hfetches : (caching A s g).Fetches (e, pageNumber faultVa) (t.ram f)
      (decide (HasPerm (t.userEntry g (e, pageNumber faultVa)) permModified)) := by
    refine ⟨caching_front_none fun hc => hmx hc.2, fun pg hpg => ?_, fun hnone => decide_eq_true (ht.fresh ?_)⟩
    · by_cases h0 : s.diskEntry g (e, pageNumber faultVa) = 0
      · rw [caching_back_none fun hc => hc.2 h0] at hpg
        cases hpg
      · rw [caching_back hx h0] at hpg
        exact (ht.contents h0).trans (Option.some.inj hpg)
    · by_contra h0
      rw [caching_back hx h0] at hnone
      cases hnone
  refine ⟨?_, ⟨_, _, hfetches, hcaching⟩, fun y hy => ?_⟩
  · refine h.of_alike (X := {(e, pageNumber faultVa)}) ht.changes.stocked (fun _ => rfl) (ht.changes.kernelPte (.inl rfl))
      (fun y hy hyx => hothers y hy hyx) ?_ ?_ (fun d hd => ?_) (ht.diskFree ▸ h.diskNodup)
      (hcaching ▸ hfetches.coherent h.coherent)
    · rintro _ rfl _ _
      refine ⟨⟨ht.perms, ?_, ?_, ?_⟩, fun y hy hmy he => ?_⟩
      · rw [hframe]
        exact ⟨ht.changes.ordinary (h.stocked.free f hmem).1, (List.nodup_cons.mp hnodup).1⟩
      · rw [hframe, ht.references]
      · rw [hdisk, inHeapOrStack_page]
        exact hlegal
      · by_contra hyx
        have ha := hothers y hy hyx
        rw [ha.entry.frame, hframe] at he
        exact (h.inUse hy (ha.isMapped.mp hmy)).not_free (he ▸ hmem)
    · rintro _ rfl _
      exact h.aloneOnDisk hx hothers (hdisk _)
    · rw [ht.diskFree] at hd
      refine ⟨hd, ?_⟩
      rintro _ rfl _
      rw [hdisk]
      exact (h.diskFree d hd).2.2 _ hx
  · by_cases hyx : y = (e, pageNumber faultVa)
    · rw [hyx]
      exact iff_of_true hmt (.inl rfl)
    · rw [(hothers y hy hyx).isMapped]
      exact (or_iff_right hyx).symm

end PrivatePages

end FosKernel.Machine
