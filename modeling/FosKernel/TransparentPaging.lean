import FosKernel.PrivateMemories
import FosKernel.RepeatedFaults

/-!
# Transparent paging

Programs that use their own pages cannot tell the machine, whose handlers bring pages in and write
them back, from one in which every environment has a byte for every address.
-/

namespace FosKernel.Machine
open FailingPrograms PageEntries WriteBackCaches LazyMemories

variable {s t u : Machine} {E A : Finset ℕ} {g g' : Obj → ℕ} {e f i j k p va w faultVa : ℕ} {v v' : Env} {x y : ℕ × ℕ}

/-- At most `k` frames, disk frames and pages of the kernel heap were taken. -/
structure Takes (k : ℕ) (s t : Machine) : Prop where
  frames : s.freeFrameList.length ≤ t.freeFrameList.length + k
  diskFrames : s.diskFreeFrameList.length ≤ t.diskFreeFrameList.length + k
  room : ∀ m, Room s (m + k) → Room t m

namespace Takes

theorem refl (s : Machine) : Takes 0 s s := ⟨le_rfl, le_rfl, fun _ h => h⟩

theorem mono (h : Takes j s t) (hjk : j ≤ k) : Takes k s t where
  frames := h.frames.trans (Nat.add_le_add_left hjk _)
  diskFrames := h.diskFrames.trans (Nat.add_le_add_left hjk _)
  room m hm := h.room m (hm.mono (Nat.add_le_add_left hjk m))

theorem trans (h : Takes j s t) (h' : Takes k t u) : Takes (j + k) s u where
  frames := by
    have h₁ := h.frames
    have h₂ := h'.frames
    omega
  diskFrames := by
    have h₁ := h.diskFrames
    have h₂ := h'.diskFrames
    omega
  room m hm := h'.room m (h.room _ (by rwa [Nat.add_assoc, Nat.add_comm k]))

theorem of_heap (hheap : t.heap = s.heap) (hstrategy : t.kHeapPlacementStrategy = s.kHeapPlacementStrategy)
    (hfree : s.freeFrameList.length ≤ t.freeFrameList.length + k)
    (hdisk : s.diskFreeFrameList.length ≤ t.diskFreeFrameList.length + k) : Takes k s t where
  frames := hfree
  diskFrames := hdisk
  room m hm := by
    rw [Room, hheap, hstrategy]
    exact hm.mono (Nat.le_add_right m k)

theorem of_records (h : SameRecords s t) : Takes 0 s t :=
  .of_heap h.heap h.strategy (by rw [h.free]; exact le_rfl) (by rw [h.diskFreeFrameList]; exact le_rfl)

end Takes

theorem HoldsMapped.entered (h : HoldsMapped s g e) (hand : (s.envs e).pageLastWSIndex < (s.envs e).pageWSMaxSize)
    (hempty : ∀ p, ¬Holds (s.envs e) (s.envs e).pageLastWSIndex p) (hva : UserAddress va)
    (hset : SameSet (enteredSet (s.envs e) va) (t.envs e)) (habsent : ¬IsMapped s g (e, pageNumber va))
    (hm : ∀ p, UserAddress (pageSize * p) → (IsMapped t g' (e, p) ↔ p = pageNumber va ∨ IsMapped s g (e, p))) :
    HoldsMapped t g' e where
  distinct i j p hi hj := by
    have hnew (k : ℕ) (hk : Holds (s.envs e) k (pageNumber va)) : False := habsent ((h.mapped _).mpr ⟨k, hk⟩).2
    rcases (holds_entered hand).mp (hset.holds.mp hi) with ⟨rfl, rfl⟩ | ⟨-, hi⟩
    · rcases (holds_entered hand).mp (hset.holds.mp hj) with ⟨rfl, -⟩ | ⟨-, hj⟩
      · rfl
      · exact (hnew j hj).elim
    · rcases (holds_entered hand).mp (hset.holds.mp hj) with ⟨-, rfl⟩ | ⟨-, hj⟩
      · exact (hnew i hi).elim
      · exact h.distinct i j p hi hj
  mapped p := by
    simp only [hset.holds, holds_entered hand]
    constructor
    · rintro ⟨hp, hmp⟩
      rcases (hm p hp).mp hmp with rfl | hold
      · exact ⟨_, .inl ⟨rfl, rfl⟩⟩
      · obtain ⟨i, hi⟩ := (h.mapped p).mp ⟨hp, hold⟩
        exact ⟨i, .inr ⟨fun hc => hempty p (hc ▸ hi), hi⟩⟩
    · rintro ⟨i, ⟨-, rfl⟩ | ⟨-, hi⟩⟩
      · have hp := (userAddress_page va).mpr hva
        exact ⟨hp, (hm _ hp).mpr (.inl rfl)⟩
      · obtain ⟨hp, hold⟩ := (h.mapped p).mpr ⟨i, hi⟩
        exact ⟨hp, (hm p hp).mpr (.inr hold)⟩

theorem HoldsMapped.cleared (h : HoldsMapped s g e) (hi : Holds (s.envs e) i p)
    (hset : SameSet (clearedSet (s.envs e) i) (t.envs e))
    (hm : ∀ q, UserAddress (pageSize * q) → (IsMapped t g' (e, q) ↔ q ≠ p ∧ IsMapped s g (e, q))) : HoldsMapped t g' e where
  distinct j k q hj hk :=
    h.distinct j k q (holds_cleared.mp (hset.holds.mp hj)).2 (holds_cleared.mp (hset.holds.mp hk)).2
  mapped q := by
    simp only [hset.holds, holds_cleared]
    constructor
    · rintro ⟨hq, hmq⟩
      obtain ⟨hne, hold⟩ := (hm q hq).mp hmq
      obtain ⟨j, hj⟩ := (h.mapped q).mp ⟨hq, hold⟩
      refine ⟨j, ?_, hj⟩
      rintro rfl
      exact hne (hj.2.2.symm.trans hi.2.2)
    · rintro ⟨j, hji, hj⟩
      obtain ⟨hq, hold⟩ := (h.mapped q).mpr ⟨j, hj⟩
      refine ⟨hq, (hm q hq).mpr ⟨?_, hold⟩⟩
      rintro rfl
      exact hji (h.distinct j i q hj hi)

namespace HeldPages

variable (h : HeldPages E A s g)
include h

theorem placed (hx : OwnPage A (e, pageNumber va)) (habsent : ¬IsMapped s g (e, pageNumber va))
    (hlegal : s.diskEntry g (e, pageNumber va) ≠ 0 ∨ InHeapOrStack va)
    (hand : (s.envs e).pageLastWSIndex < (s.envs e).pageWSMaxSize)
    (hempty : ((s.envs e).ptrPageWorkingSet (s.envs e).pageLastWSIndex).empty = true) (ht : PlacesPage E s g e va f t) :
    HeldPages E A t g ∧ Fills (caching A s g).value (caching A t g).value ∧
      ∀ y, OwnPage A y → (IsMapped t g y ↔ y = (e, pageNumber va) ∨ IsMapped s g y) := by
  obtain ⟨hpages, ⟨pg, m, hfetch, hcaching⟩, hmapped⟩ := h.toPrivatePages.placed hx habsent hlegal ht
  obtain ⟨n, henvs⟩ := ht.envs
  refine ⟨⟨hpages, fun e' he' => ?_⟩, hcaching ▸ hfetch.fills, hmapped⟩
  by_cases he : e' = e
  · subst he
    have hset : SameSet (enteredSet (s.envs e') va) (t.envs e') := by
      rw [henvs, Function.update_self]
      exact ⟨rfl, rfl, rfl⟩
    refine (h.sets e' he').entered hand (fun _ => not_holds_of_empty hempty) ((userAddress_page va).mp hx.2) hset habsent
      fun p hp => ?_
    rw [hmapped _ ⟨he', hp⟩]
    simp
  · have hset : SameSet (s.envs e') (t.envs e') := by
      rw [henvs, Function.update_of_ne he]
      exact .refl _
    refine (h.sets e' he').same hset fun p hp => ?_
    rw [hmapped _ ⟨he', hp⟩]
    simp [he]

theorem evicted (hx : OwnPage A (e, pageNumber va)) (hi : Holds (s.envs e) i (pageNumber va))
    (hs : Secured A s g (e, pageNumber va) t g') (hroots : ∀ τ, g' (.root τ) = g (.root τ))
    (hwindow : t.kernelPte userLimit = s.kernelPte userLimit) (hrefs : (t.framesInfo f).references = 1)
    (hframe : f = frameNumber (s.userEntry g (e, pageNumber va))) (hsets : ∀ e', SameSet (s.envs e') (t.envs e'))
    (hv : Evicted E t g' e i va f u) :
    HeldPages E A u g' ∧ caching A u g' = (caching A s g).evict (e, pageNumber va) ∧
      ∀ y, OwnPage A y → (IsMapped u g' y ↔ y ≠ (e, pageNumber va) ∧ IsMapped s g y) := by
  have hmx : IsMapped s g (e, pageNumber va) := (((h.sets e hx.1).mapped _).mpr ⟨i, hi⟩).2
  obtain ⟨hpages, hcaching, hmapped⟩ := h.toPrivatePages.evicted hx hmx hs hroots hwindow hrefs hframe hv
  refine ⟨⟨hpages, fun e' he' => ?_⟩, hcaching, hmapped⟩
  by_cases he : e' = e
  · subst he
    have hset : SameSet (clearedSet (s.envs e') i) (u.envs e') := by
      rw [hv.envs, Function.update_self]
      exact ⟨by rw [clearedSet, ← (hsets e').set], (hsets e').size, rfl⟩
    refine (h.sets e' he').cleared hi hset fun q hq => ?_
    rw [hmapped _ ⟨he', hq⟩]
    simp
  · have hset : SameSet (s.envs e') (u.envs e') := by
      rw [hv.envs, Function.update_of_ne he]
      exact hsets e'
    refine (h.sets e' he').same hset fun q hq => ?_
    rw [hmapped _ ⟨he', hq⟩]
    simp [he]

end HeldPages

/-- An address that the program may use, though its page may not be mapped. -/
structure LegalAddress (A : Finset ℕ) (s : Machine) (g : Obj → ℕ) (e va : ℕ) : Prop where
  running : e ∈ A
  address : UserAddress va
  lt : va < ustackTop
  legal : (caching A s g).value (e, pageNumber va) ≠ none ∨ InHeapOrStack va

/-- The environment runs, and its directory is loaded. -/
structure Running (E A : Finset ℕ) (s : Machine) (g : Obj → ℕ) (e va : ℕ) : Prop where
  memories : PrivateMemories E A s g
  reaches : Reaches E s g (.user e) va
  address : LegalAddress A s g e va

/-- What programs could see they can still see, and the other environments have the same pages in memory. -/
structure Resumes (E A : Finset ℕ) (s : Machine) (g : Obj → ℕ) (e va : ℕ) (t : Machine) (g' : Obj → ℕ) : Prop
    extends Running E A t g' e va where
  fills : Fills (caching A s g).value (caching A t g').value
  takes : Takes 1 s t
  others : ∀ x, OwnPage A x → x.1 ≠ e → (IsMapped t g' x ↔ IsMapped s g x)
  tables : ∀ o, g o ≠ 0 → g' o ≠ 0

theorem isMapped_iff (hx : OwnPage A x) : IsMapped s g x ↔ ((caching A s g).front x).isSome := by
  by_cases hm : IsMapped s g x
  · rw [caching_front hx hm]
    exact iff_of_true hm rfl
  · rw [caching_front_none fun hc => hm hc.2]
    exact iff_of_false hm Bool.false_ne_true

theorem LegalAddress.fills (h : LegalAddress A s g e va) (hf : Fills (caching A s g).value (caching A t g').value) :
    LegalAddress A t g' e va where
  running := h.running
  address := h.address
  lt := h.lt
  legal := by
    refine h.legal.imp_left fun hne hnone => ?_
    obtain ⟨b, hb⟩ := Option.ne_none_iff_exists'.mp hne
    rw [hf _ b hb] at hnone
    cases hnone

def Exhausted (s : Machine) (n : ℕ) (x : Panic) : Prop :=
  x = .noFreeFrame ∧ s.freeFrameList.length < n ∨ x = .pageFileSpace ∧ s.diskFreeFrameList.length < n

theorem Exhausted.before {n : ℕ} {q : Panic} (h : Exhausted t n q) (ht : Takes k s t) : Exhausted s (n + k) q := by
  have hframes := ht.frames
  have hdisk := ht.diskFrames
  rcases h with ⟨hq, hn⟩ | ⟨hq, hn⟩
  · exact .inl ⟨hq, by omega⟩
  · exact .inr ⟨hq, by omega⟩

theorem holds_slot (hi : i < (s.envs e).pageWSMaxSize) (hfull : ((s.envs e).ptrPageWorkingSet i).empty = false) :
    Holds (s.envs e) i (pageNumber (s.slotVa e i)) := ⟨hi, hfull, (pageNumber_roundDown _).symm⟩

namespace Running

variable (h : Running E A s g e va)
include h

theorem own : OwnPage A (e, pageNumber va) := ⟨h.address.running, (userAddress_page va).mpr h.address.address⟩

theorem legal (habsent : ¬IsMapped s g (e, pageNumber va)) :
    s.diskEntry g (e, pageNumber va) ≠ 0 ∨ InHeapOrStack va := by
  refine h.address.legal.imp_left fun hne h0 => hne ?_
  rw [Cache.value, caching_front_none fun hc => habsent hc.2]
  exact caching_back_none fun hc => hc.2 h0

theorem slot (hi : i < (s.envs e).pageWSMaxSize) (hfull : ((s.envs e).ptrPageWorkingSet i).empty = false) :
    OwnPage A (e, pageNumber (s.slotVa e i)) ∧ PrivatePage s g (e, pageNumber (s.slotVa e i)) := by
  have he := h.address.running
  obtain ⟨hp, hm⟩ := ((h.memories.sets e he).mapped _).mpr ⟨i, holds_slot hi hfull⟩
  exact ⟨⟨he, hp⟩, h.memories.mapped _ ⟨he, hp⟩ hm⟩

theorem resident (hfull : ∀ i < (s.envs e).pageWSMaxSize, ((s.envs e).ptrPageWorkingSet i).empty = false) :
    Resident E s g e := by
  have he := h.address.running
  have hslot (i : ℕ) (hi : i < (s.envs e).pageWSMaxSize) := h.slot hi (hfull i hi)
  have hinj (i j : ℕ) (hi : i < (s.envs e).pageWSMaxSize) (hj : j < (s.envs e).pageWSMaxSize)
      (hp : pageNumber (s.slotVa e i) = pageNumber (s.slotVa e j)) : i = j :=
    (h.memories.sets e he).distinct i j _ (holds_slot hi (hfull i hi)) (hp ▸ holds_slot hj (hfull j hj))
  refine ⟨h.memories.stocked, (h.memories.roots e he).1, (h.memories.arranged e he).hand, hfull, fun i hi => ?_,
    fun i hi => (hslot i hi).2.perms.1, fun i hi j hj hva => hinj i j hi hj (by rw [hva]), fun i hi => (hslot i hi).2.inUse,
    fun i hi => ?_, fun i hi j hj hij hf => ?_⟩
  · rw [slotVa_eq]
    exact (hslot i hi).1.lt
  · exact (hslot i hi).2.references.symm ▸ Nat.one_pos
  · have hx := h.memories.frames _ _ (hslot i hi).1 (hslot j hj).1 (hslot i hi).2.perms.1 (hslot j hj).2.perms.1 hf
    exact absurd (hinj i j hi hj (Prod.mk.inj hx).2) hij

theorem replaceable (hl : g (.leaf (.user e) (pdx va)) ≠ 0) (habsent : ¬IsMapped s g (e, pageNumber va))
    (hfull : ∀ i < (s.envs e).pageWSMaxSize, ((s.envs e).ptrPageWorkingSet i).empty = false) (hroom : Room s 1) :
    Replaceable E s g e va where
  toResident := h.resident hfull
  tree := h.memories.trees h.address.running
  loaded := h.reaches.loaded
  disk := (h.memories.roots e h.address.running).2
  size := (h.memories.arranged e h.address.running).size
  uint16 i hi := by
    have hrefs := (h.slot hi (hfull i hi)).2.references
    rw [slotEntry, hrefs]
    decide
  counter i hi _ _ := by
    have hrefs := (h.slot hi (hfull i hi)).2.references
    rw [slotEntry, hrefs]
    decide
  room _ _ _ _ := hroom
  window := h.memories.window
  diskFrames d hd := ⟨(h.memories.diskFree d hd).1, (h.memories.diskFree d hd).2.1⟩
  fault := h.reaches.user
  table := hl
  absent := habsent
  legal := h.legal habsent

theorem placement_resumes (hl : g (.leaf (.user e) (pdx va)) ≠ 0) (habsent : ¬IsMapped s g (e, pageNumber va))
    (hempty : ((s.envs e).ptrPageWorkingSet (s.envs e).pageLastWSIndex).empty = true) :
    Sat (fun q => q = .noFreeFrame ∧ s.freeFrameList = []) (placement e va) s fun _ t =>
      Resumes E A s g e va t g ∧ IsMapped t g (e, pageNumber va) := by
  have he := h.address.running
  have harranged := h.memories.arranged e he
  have hfaulted : Faulted E s g e va := ⟨h.memories.stocked, h.reaches, (h.memories.roots e he).2, hl, habsent, harranged.hand,
    harranged.size, envPageWsGetSize_lt harranged.hand hempty, h.legal habsent⟩
  refine hfaulted.placement_sat.mono fun _ t ⟨f, ht⟩ => ?_
  obtain ⟨hpages, hfills, hm⟩ := h.memories.placed h.own habsent (h.legal habsent) harranged.hand hempty ht
  obtain ⟨n, henvs⟩ := ht.envs
  refine ⟨⟨⟨⟨hpages, fun e' he' => ?_⟩, ht.changes.reaches h.reaches, h.address.fills hfills⟩, hfills, ?_, fun x hx hne => ?_,
    fun _ ho => ho⟩, (hm _ h.own).mpr (.inl rfl)⟩
  · rw [henvs]
    by_cases hee : e' = e
    · subst hee
      rw [Function.update_self]
      have hset : SameSet (enteredSet (s.envs e') va) { enteredSet (s.envs e') va with nPageIn := n } := ⟨rfl, rfl, rfl⟩
      exact hset.arranged (harranged.entered hempty va)
    · rw [Function.update_of_ne hee]
      exact h.memories.arranged e' he'
  · refine .of_heap ht.changes.heap ht.changes.strategy ?_ (by rw [ht.diskFree]; exact Nat.le_add_right _ _)
    rw [ht.free, List.length_cons]
  · rw [hm x hx]
    exact or_iff_right fun hxe => hne (congrArg Prod.fst hxe)

end Running

theorem Undisturbed.window {I : Finset ℕ} (h : Undisturbed E s g e I p t g') :
    t.kernelPte userLimit = s.kernelPte userLimit := by
  have hpage := h.tables.page userLimit fun i hi he => ?_
  · rwa [cellWord_page (.inl rfl), cellWord_page (.inl rfl)] at hpage
  · have hne := h.tables.table i (mem_absent.mp hi).1
    have hstart := (h.stocked.object _ (by simp) hne).heap.start
    rw [he] at hstart
    exact absurd hstart (by decide)

theorem SameButCounters.sameSet (h : SameButCounters e s t) (e' : ℕ) : SameSet (s.envs e') (t.envs e') := by
  obtain ⟨out, added, henvs⟩ := h
  rw [henvs]
  by_cases he : e' = e
  · subst he
    rw [Function.update_self]
    exact ⟨rfl, rfl, rfl⟩
  · rw [Function.update_of_ne he]
    exact .refl _

theorem SameSet.entered (h : SameSet v v') (va : ℕ) : SameSet (enteredSet v va) (enteredSet v' va) where
  set := by rw [enteredSet, enteredSet, h.set, h.hand]
  size := h.size
  hand := by rw [enteredSet, enteredSet, h.hand, h.size]

namespace Running

variable (h : Running E A s g e va)
include h

theorem exhausted_of_stops {q : Panic} (hi : i < (s.envs e).pageWSMaxSize)
    (hfull : ((s.envs e).ptrPageWorkingSet i).empty = false) (hs : Stops s g e i q) : Exhausted s 1 q := by
  obtain ⟨-, hpage⟩ := h.slot hi hfull
  rcases hs with ⟨-, ⟨h0, -, hno⟩ | ⟨-, -, rfl, hnil⟩ | ⟨-, -, rfl, -, hnil⟩⟩ | ⟨-, hmany, -⟩
  · have hlegal := hpage.legal.resolve_left fun hne => hne h0
    exact absurd ((inHeapOrStack_page _).mp hlegal) hno
  · exact .inr ⟨rfl, by rw [hnil]; exact Nat.one_pos⟩
  · exact .inl ⟨rfl, by rw [hnil]; exact Nat.one_pos⟩
  · have hrefs := hpage.references
    rw [slotEntry, hrefs] at hmany
    exact absurd hmany (lt_irrefl 1)

theorem clockEntry_resumes (hl : g (.leaf (.user e) (pdx va)) ≠ 0) (habsent : ¬IsMapped s g (e, pageNumber va))
    (hfull : ∀ i < (s.envs e).pageWSMaxSize, ((s.envs e).ptrPageWorkingSet i).empty = false) (hroom : Room s 1)
    (hi : i < (s.envs e).pageWSMaxSize) (hunused : ¬HasPerm (s.slotEntry g e i) permUsed) :
    Sat (Exhausted s 1) (clockEntry e va i) s fun _ t => ∃ g', Resumes E A s g e va t g' ∧
      IsMapped t g' (e, pageNumber va) := by
  have hr := h.replaceable hl habsent hfull hroom
  refine ((hr.clockEntry_steps hi hunused).weaken fun q hq => h.exhausted_of_stops hi (hfull i hi) hq).mono ?_
  rintro _ t ⟨I, u, g', w, f', hI, hu, hw, hn, hv, ht⟩
  obtain ⟨hx, hpage⟩ := h.slot hi (hfull i hi)
  have hmx := hpage.perms.1
  have hrefs : (u.framesInfo (frameNumber (s.slotEntry g e i))).references = 1 := by
    have hinUse : InUse s (frameNumber (s.slotEntry g e i)) := hpage.inUse
    rw [hu.tables.info _ hinUse.not_free]
    exact hpage.references
  -- the page is written if it was modified
  have hsecured : Secured A s g (e, pageNumber (s.slotVa e i)) u g' ∧
      s.diskFreeFrameList.length ≤ u.diskFreeFrameList.length + 1 := by
    by_cases hm : HasPerm (s.slotEntry g e i) permModified
    · refine ⟨h.memories.secured hx hmx hm hu (hw hm), ?_⟩
      by_cases h0 : s.entries g (.disk e, pageNumber (s.slotVa e i)) = 0
      · rw [(hw hm).taken h0, List.length_cons]
      · rw [(hw hm).kept h0]
        exact Nat.le_succ _
    · obtain ⟨rfl, rfl⟩ := hn hm
      exact ⟨h.memories.secured_refl hx hmx hm, Nat.le_succ _⟩
  obtain ⟨hpages, hcaching, hmapped⟩ := h.memories.toHeldPages.evicted hx (holds_slot hi (hfull i hi)) hsecured.1
    hu.tables.rootTable hu.window hrefs rfl hu.envs.sameSet hv
  have hset : SameSet (clearedSet (s.envs e) i) (w.envs e) := by
    rw [hv.envs, Function.update_self]
    have hcounters := hu.envs.sameSet e
    exact ⟨by rw [clearedSet, ← hcounters.set], hcounters.size, rfl⟩
  -- the page that faulted takes the slot
  have hne := hr.fault_ne hi
  have hdisk : w.diskEntry g' (e, pageNumber va) = s.diskEntry g (e, pageNumber va) := by
    rw [diskEntry, hv.changes.entries _ (by simp), hu.entries _ (by simpa using hne) (by simp)]
  obtain ⟨hpages', hfills, hm'⟩ := hpages.placed h.own (fun hc => habsent ((hmapped _ h.own).mp hc).2)
    (by rw [hdisk]; exact h.legal habsent) (by rw [hset.hand, hset.size]; exact hi)
    (by rw [hset.set, hset.hand]; simp [clearedSet]) ht
  have hfills' : Fills (caching A s g).value (caching A t g').value := by
    rwa [hcaching, h.memories.coherent.value_evict] at hfills
  obtain ⟨n, henvs⟩ := ht.envs
  refine ⟨g', ⟨⟨⟨hpages', fun e' he' => ?_⟩, ht.changes.reaches (hv.changes.reaches (hu.reaches h.memories.stocked h.reaches)),
    h.address.fills hfills'⟩, hfills', ?_, fun x hx hxe => ?_, fun o ho => hu.tables.objects o ho ▸ ho⟩,
    (hm' _ h.own).mpr (.inl rfl)⟩
  · rw [henvs]
    by_cases hee : e' = e
    · subst hee
      rw [Function.update_self]
      have hentered : SameSet (enteredSet (w.envs e') va) { enteredSet (w.envs e') va with nPageIn := n } := ⟨rfl, rfl, rfl⟩
      exact hentered.arranged ((hset.entered va).arranged ((h.memories.arranged e' he').replaced hfull i va))
    · rw [Function.update_of_ne hee, hv.envs, Function.update_of_ne hee]
      exact (hu.envs.sameSet e').arranged (h.memories.arranged e' he')
  · have hspent := hu.tables.spent
    have hcard : (Machine.absent g (.disk e) I).card ≤ 1 := (Finset.card_filter_le _ _).trans hI
    have hfree := hv.free
    rw [if_pos hrefs, ht.free] at hfree
    have hsame : t.freeFrameList = u.freeFrameList := (List.cons.inj hfree).2
    refine ⟨?_, ?_, fun m hm => ?_⟩
    · rw [hsame]
      have hframes : s.freeFrameList.length ≤ _ := hspent.frames
      omega
    · rw [ht.diskFree, hv.diskFree]
      exact hsecured.2
    · rw [Room, ht.changes.heap, ht.changes.strategy, hv.changes.heap, hv.changes.strategy]
      have hm' : Room (s.withDevices u) (m + 1) := hm
      exact hspent.room m (hm'.mono (Nat.add_le_add_left hcard m))
  · rw [hm' x hx, hmapped x hx]
    have hother (p : ℕ) : x ≠ (e, p) := fun hc => hxe (congrArg Prod.fst hc)
    simp [hother]

end Running

/-- The first of `n` things that fails, if one does. -/
theorem exists_first_failure (P : ℕ → Prop) (n : ℕ) : ∃ j ≤ n, (∀ k < j, P k) ∧ (j < n → ¬P j) := by
  induction n with
  | zero => exact ⟨0, le_rfl, fun k hk => absurd hk (Nat.not_lt_zero k), fun h => absurd h (lt_irrefl 0)⟩
  | succ n ih =>
    obtain ⟨j, hj, hall, hfail⟩ := ih
    cases hj.lt_or_eq with
    | inl hlt => exact ⟨j, hj.trans (Nat.le_succ n), hall, fun _ => hfail hlt⟩
    | inr heq =>
      subst heq
      by_cases hP : P j
      · refine ⟨j + 1, le_rfl, fun k hk => ?_, fun h => absurd h (lt_irrefl _)⟩
        rcases Nat.lt_succ_iff_lt_or_eq.mp hk with hlt | rfl
        · exact hall k hlt
        · exact hP
      · exact ⟨j, Nat.le_succ j, hall, fun _ => hP⟩

theorem Passed.sameAccess (ht : Passed E s g e j t) (x : ℕ × ℕ) : SameAccess (s.userEntry g x) (t.userEntry g x) := by
  by_cases hx : (Tree.user x.1, x.2) ∈ passedPages s e j
  · obtain ⟨k, hk, heq⟩ := hx
    have hentry := ht.entry k hk
    rw [slotEntry, slotVa_congr ht.records.envs, slotEntry, ← heq] at hentry
    rw [userEntry, userEntry, hentry]
    exact .clearUsed (entries_lt ..)
  · rw [userEntry, userEntry, ht.changes.entries _ hx]
    exact .refl _

theorem Resumes.after (h : Resumes E A t g e va u g') (hcaching : caching A t g = caching A s g) (htakes : Takes 0 s t) :
    Resumes E A s g e va u g' where
  toRunning := h.toRunning
  fills := hcaching ▸ h.fills
  takes := (htakes.trans h.takes).mono (by decide)
  others x hx hxe := by rw [h.others x hx hxe, isMapped_iff hx, hcaching, isMapped_iff hx]
  tables := h.tables

namespace Running

variable (h : Running E A s g e va)
include h

theorem passed (ht : Passed E s g e j t) : Running E A t g e va ∧ caching A t g = caching A s g := by
  obtain ⟨hmem, hcaching⟩ := h.memories.marked ht.changes ht.records ht.sameAccess fun x =>
    ht.changes.entries _ fun hx => by
      obtain ⟨k, -, heq⟩ := hx
      cases (Prod.mk.inj heq).1
  refine ⟨⟨hmem, ht.changes.reaches h.reaches, h.address.fills ?_⟩, hcaching⟩
  rw [hcaching]
  exact .refl _

/-- `page_fault_handler` brings the page in. -/
theorem pageFaultHandler_resumes (hl : g (.leaf (.user e) (pdx va)) ≠ 0) (habsent : ¬IsMapped s g (e, pageNumber va))
    (hroom : Room s 1) : Sat (Exhausted s 1) (pageFaultHandler e va) s fun _ t => ∃ g', Resumes E A s g e va t g' ∧
      IsMapped t g' (e, pageNumber va) := by
  have harranged := h.memories.arranged e h.address.running
  rcases harranged.full_or_empty with hfull | hempty
  · have hr := h.replaceable hl habsent hfull hroom
    obtain ⟨j, hj, hused, hlast⟩ := exists_first_failure
      (fun k => HasPerm (s.slotEntry g e (slotFrom (s.envs e) k)) permUsed) (s.envs e).pageWSMaxSize
    obtain ⟨t, -, ht, hrest, hrun⟩ := hr.pageFaultHandler_run va hj hused hlast
    obtain ⟨hrunning, hcaching⟩ := h.passed ht
    have henvs := ht.records.envs
    have htakes := Takes.of_records ht.records
    have hpresent : ¬IsMapped t g (e, pageNumber va) := fun hc => habsent ((ht.sameAccess (e, pageNumber va)).present.mp hc)
    have hroom' : Room t 1 := htakes.room 1 hroom
    refine .of_run hrun (((hrunning.clockEntry_resumes hl hpresent (by rwa [henvs]) hroom'
      (by rw [henvs]; exact slotFrom_lt harranged.hand j) hrest).weaken fun q hq => hq.before htakes).bind ?_)
    rintro _ u ⟨g', hu, hm⟩
    exact .pure ⟨g', hu.after hcaching htakes, hm⟩
  · refine .bind_ok run_get (.ite (fun _ => ?_) fun hsize =>
      absurd (envPageWsGetSize_lt harranged.hand hempty) hsize)
    refine ((h.placement_resumes hl habsent hempty).weaken fun q hq => .inl ⟨hq.1, ?_⟩).mono fun _ t ht => ⟨g, ht⟩
    rw [hq.2]
    exact Nat.one_pos

/-- `table_fault_handler` creates a table. -/
theorem tableFaultHandler_resumes (hl : g (.leaf (.user e) (pdx va)) = 0) (hroom : Room s 1) :
    Sat (Exhausted s 1) (tableFaultHandler e va) s fun _ t => ∃ g', Resumes E A s g e va t g' ∧
      g' (.leaf (.user e) (pdx va)) ≠ 0 ∧ ¬IsMapped t g' (e, pageNumber va) := by
  have he := h.address.running
  have hdir := (h.memories.stocked.roots e).1
  refine .bind_ok run_get ?_
  rw [hdir]
  refine ((h.memories.stocked.createPageTable_sat (h.memories.roots e he).1 rfl h.reaches.user hl).weaken ?_).bind ?_
  · rintro q (hq | ⟨-, hno⟩)
    · exact .inl hq
    · exact absurd hroom hno
  · rintro pt t ⟨f, ht⟩
    obtain ⟨hmem, hcaching⟩ := h.memories.newTable ht hl
    have hadds := ht.grows h.memories.stocked.toReady hl
    have hfills : Fills (caching A s g).value (caching A t (Function.update g (.leaf (.user e) (pdx va)) pt)).value := by
      rw [hcaching]
      exact .refl _
    obtain ⟨b, hst⟩ := ht.globals
    have hreaches : Reaches E t (Function.update g (.leaf (.user e) (pdx va)) pt) (.user e) va := by
      refine ⟨ht.stocked.toLayout, h.reaches.tree, ?_, ?_, h.reaches.user⟩
      · rw [hadds.rootTable]
        exact h.reaches.root
      · rw [hadds.pageFrame h.memories.stocked.toLayout ht.stocked.toLayout h.reaches.root, hadds.places.cr3]
        exact h.reaches.loaded
    have hsame (x : ℕ × ℕ) : IsMapped t (Function.update g (.leaf (.user e) (pdx va)) pt) x ↔ IsMapped s g x := by
      rw [IsMapped, userEntry, ht.entries_eq, IsMapped, userEntry]
    refine .pure ⟨_, ⟨⟨hmem, hreaches, h.address.fills hfills⟩, hfills, ⟨ht.spent.frames, ?_, ht.spent.room⟩,
      fun x _ _ => hsame x, fun o ho => hadds.objects o ho ▸ ho⟩, ht.table, ?_⟩
    · rw [hst.diskFreeFrameList]
      exact Nat.le_succ _
    · rw [IsMapped, userEntry, ht.entries_eq, entries_absent h.reaches.user hl]
      decide

theorem handleFault_resumes (habsent : ¬IsMapped s g (e, pageNumber va)) (hroom : Room s 1) :
    Sat (Exhausted s 1) (handleFault e va) s fun _ t => ∃ g', Resumes E A s g e va t g' ∧
      (g (.leaf (.user e) (pdx va)) = 0 → g' (.leaf (.user e) (pdx va)) ≠ 0 ∧ ¬IsMapped t g' (e, pageNumber va)) ∧
      (g (.leaf (.user e) (pdx va)) ≠ 0 → IsMapped t g' (e, pageNumber va)) := by
  have he := h.address.running
  have hlay := h.memories.stocked.toLayout
  have hroot := (h.memories.roots e he).1
  have hva := h.reaches.user
  have hread := readEntry_run (s := s) (j := pdx va) (hlay.translate_object hroot (by decide))
  have hword := hlay.pde (.user e) _ (pdx_lt_userTop hva) hroot
  rw [cellWord_word hroot (pdx_lt va)] at hword
  -- the counters of the environment
  have hcount (v : Env) (hdir : v.envPageDirectory = (s.envs e).envPageDirectory)
    (hdisk : v.diskEnvPgdir = (s.envs e).diskEnvPgdir)
      (hcr3 : v.envCr3 = (s.envs e).envCr3) (hset : SameSet (s.envs e) v) : Running E A (s.setEnv e v) g e va ∧
        caching A (s.setEnv e v) g = caching A s g ∧ Takes 0 s (s.setEnv e v) ∧
        ¬IsMapped (s.setEnv e v) g (e, pageNumber va) := by
    obtain ⟨hmem, hcaching⟩ := h.memories.setEnv hdir hdisk hcr3 hset
    obtain ⟨hch, -⟩ := h.memories.stocked.changeEnv (F := ∅) hdir hdisk hcr3
    refine ⟨⟨hmem, hch.reaches h.reaches, h.address.fills ?_⟩, hcaching, .of_heap rfl rfl le_rfl le_rfl, ?_⟩
    · rw [hcaching]
      exact .refl _
    · rw [IsMapped, userEntry, hch.entries _ (Set.notMem_empty _)]
      exact habsent
  refine .bind_ok run_get ?_
  rw [(h.memories.stocked.roots e).1]
  refine .bind_ok hread ?_
  by_cases hl : g (.leaf (.user e) (pdx va)) = 0
  · rw [if_pos hl] at hword
    rw [hword, if_pos (by decide)]
    obtain ⟨hrunning, hcaching, htakes, -⟩ := hcount
      { s.envs e with tableFaultsCounter := u32 ((s.envs e).tableFaultsCounter + 1) } rfl rfl rfl ⟨rfl, rfl, rfl⟩
    refine .bind_ok (run_modify _) (((hrunning.tableFaultHandler_resumes hl (htakes.room 1 hroom)).weaken
      fun q hq => hq.before htakes).mono ?_)
    rintro _ t ⟨g', ht, htable⟩
    exact ⟨g', ht.after hcaching htakes, fun _ => htable, fun hc => absurd hl hc⟩
  · rw [if_neg hl] at hword
    have hpresent : HasPerm (wordAt (s.ram (s.pageFrame (g (.root (.user e))))) (pdx va)) permPresent := by
      rw [hword]
      exact HasPerm.or_left (Tree.user e).perm_present
    have hperms := (hlay.hasTable hva hl).ptGetPagePermissions_run
    rw [hlay.word_entry hva hl] at hperms
    rw [if_neg (not_not_intro hpresent)]
    refine .bind_ok hperms ?_
    rw [Option.getD_some, if_neg ((hasPerm_mod (by decide)).not.mpr habsent)]
    obtain ⟨hrunning, hcaching, htakes, habsent'⟩ := hcount
      { s.envs e with pageFaultsCounter := u32 ((s.envs e).pageFaultsCounter + 1) } rfl rfl rfl ⟨rfl, rfl, rfl⟩
    refine .bind_ok (run_modify _) (((hrunning.pageFaultHandler_resumes hl habsent'
      (htakes.room 1 hroom)).weaken fun q hq => hq.before htakes).mono ?_)
    rintro _ t ⟨g', ht, hm⟩
    exact ⟨g', ht.after hcaching htakes, fun hc => absurd hc hl, fun _ => hm⟩

end Running

end FosKernel.Machine
