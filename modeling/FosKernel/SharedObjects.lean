import FosKernel.EnvironmentDirectories
import FosKernel.SharedMappings

/-!
# Shared objects in a run

Environments take turns and call `createSharedObject` and `getSharedObject`. Beside the
machine a run keeps what its successful calls were; `Objects` relates the two.
-/

namespace FosKernel.SharedMemory
open FailingPrograms PageEntries Machine

/-- The successful calls for one object. The pairs are environments, with the address
that they gave. -/
structure SharedObject where
  ownerID : ℤ
  name : String
  size : ℕ
  isWritable : ℕ
  creator : ℕ × ℕ
  getters : List (ℕ × ℕ)

def pagesOf (size : ℕ) : ℕ := (size + (pageSize - 1)) / pageSize

/-- The permissions that a user's accesses need. -/
def readPerm : ℕ := permPresent ||| permUser
def writePerm : ℕ := permPresent ||| permUser ||| permWriteable

/-- The frame that an environment finds at an address when it needs the permissions. -/
def State.lookup (s : State) (e need va : ℕ) : Option ℕ :=
  { s.machine with cr3 := (s.machine.envs e).envCr3 }.translate need va

def State.switch (s : State) (e : ℕ) : State :=
  { s with curenv := e, machine := { s.machine with cr3 := (s.machine.envs e).envCr3 } }

/-- A page-aligned range of the user heap in which the running environment has no page. -/
structure Target (s : State) (va size : ℕ) : Prop where
  aligned : pageSize ∣ va
  start : userHeapStart ≤ va
  max : va + size ≤ userHeapMax
  unmapped : ∀ k < pagesOf size, s.lookup s.curenv permPresent (va + pageSize * k) = none

structure CreateArgs (s : State) (name : String) (size isWritable va : ℕ) : Prop extends Target s va size where
  short : name.utf8ByteSize < 64
  pos : 0 < size
  writable : isWritable ≤ 1

structure GetArgs (s : State) (ownerID : ℤ) (name : String) (va : ℕ) : Prop where
  short : name.utf8ByteSize < 64
  target : ∀ size : ℕ, getSizeOfSharedObject s ownerID name = size → Target s va size

/-- The environments in `E` have directories, and there is no object yet. -/
structure Started (E : Finset ℕ) (s : State) : Prop where
  system : ∃ g, System E s.machine g ∅ ∧ (∀ e ∈ E, g (.root (.user e)) ≠ 0) ∧
    ∀ i, g (.root (.storage i)) = 0
  curenv : s.curenv ∈ E
  shares : ∀ i < s.maxShares, (s.shares i).empty = true

/-- The states of a run, with the objects. -/
inductive ShareRun (E : Finset ℕ) : State → (ℕ → Option SharedObject) → Prop
  | start {s : State} : Started E s → ShareRun E s fun _ => none
  | switch {s : State} {R : ℕ → Option SharedObject} (e : ℕ) : ShareRun E s R → e ∈ E →
    ShareRun E (s.switch e) R
  | create {s t : State} {R : ℕ → Option SharedObject} {r : ℤ} (ownerID : ℤ) (name : String)
    (size isWritable va : ℕ) : ShareRun E s R → CreateArgs s name size isWritable va →
    (createSharedObject ownerID name size isWritable va).run s = .ok (r, t) →
    ShareRun E t (if 0 ≤ r then
      Function.update R r.toNat (some ⟨ownerID, name, size, isWritable, (s.curenv, va), []⟩) else R)
  | get {s t : State} {R : ℕ → Option SharedObject} {r : ℤ} (ownerID : ℤ) (name : String) (va : ℕ) :
    ShareRun E s R → GetArgs s ownerID name va →
    (getSharedObject ownerID name va).run s = .ok (r, t) →
    ShareRun E t (if 0 ≤ r then
      Function.update R r.toNat
        ((R r.toNat).map fun o => { o with getters := (s.curenv, va) :: o.getters }) else R)

variable {E : Finset ℕ} {s t : State} {m m' u : Machine} {R : ℕ → Option SharedObject} {g g' g'' : Obj → ℕ}
  {F : ℕ → ℕ → ℕ} {o : SharedObject} {ownerID : ℤ} {name : String}
  {e f i j k n w va perm size need isWritable : ℕ} {tol : Panic → Prop} {α : Type}

theorem onMachine_run {x : Kernel α} {a : α} (h : x.run s.machine = .ok (a, m)) :
    (onMachine x).run s = .ok (a, { s with machine := m }) := by
  rw [onMachine, run_bind_ok run_get, h]
  rfl

theorem onMachine_sat {x : Kernel α} {Q : α → Machine → Prop} (hm : s.machine = m) (h : Sat tol x m Q) :
    Sat tol (onMachine x) s fun a t => ∃ m, Q a m ∧ t = { s with machine := m } := by
  subst hm
  rcases hx : x.run s.machine with e | ⟨a, m⟩
  · refine .of_error ?_ (h.error hx)
    rw [onMachine, run_bind_ok run_get, hx]
    rfl
  · exact .of_ok (onMachine_run hx) ⟨m, h.ok hx, rfl⟩

theorem pagesBetween_size (va size : ℕ) : pagesBetween va (va + size) = pagesOf size := by
  rw [pagesBetween, pagesOf, Nat.add_sub_cancel_left]

theorem pagesOf_mul (n : ℕ) : pagesOf (pageSize * n) = n := by
  simp only [pagesOf, pageSize]
  omega

theorem bmod_size (h : size ≤ userHeapMax - userHeapStart) : (size : ℤ).bmod (2 ^ 32) = size := by
  have hle : userHeapMax - userHeapStart = 2 ^ 29 := rfl
  rw [hle] at h
  exact Int.bmod_eq_of_le (by norm_num) (by norm_num; omega)

theorem roundUp_size (h : size ≤ userTop) : roundUp size pageSize = pageSize * pagesOf size := by
  rw [roundUp, u32_of_lt, roundDown]
  · simp only [pagesOf, pageSize]
    omega
  · simp only [userTop, pageSize] at *
    omega

namespace Target

theorem page_lt (h : Target s va size) (hk : k < pagesOf size) : va + pageSize * k < userHeapMax := by
  have hmax := h.max
  have hd := h.aligned
  simp only [pagesOf, userHeapMax, pageSize] at *
  omega

theorem pages_le (h : Target s va size) : va + pageSize * pagesOf size ≤ userHeapMax := by
  have hmax := h.max
  have hd := h.aligned
  simp only [pagesOf, userHeapMax, pageSize] at *
  omega

theorem size_le (h : Target s va size) : size ≤ userHeapMax - userHeapStart := by
  have := h.start
  have := h.max
  omega

end Target

theorem hasPerm_pageEntry_create : HasPerm (pageEntry createPerm f) writePerm :=
  HasPerm.or_left (by decide)

theorem hasPerm_pageEntry_get (n f : ℕ) : HasPerm (pageEntry (getPerm n) f) readPerm := by
  refine HasPerm.or_left ?_
  unfold getPerm
  split <;> decide

/-- A getter's page is writable exactly when the object is. -/
theorem hasPerm_pageEntry_write : HasPerm (pageEntry (getPerm n) f) writePerm ↔ n = 1 := by
  constructor
  · intro h
    by_contra hn
    have hw : HasPerm (pageEntry (getPerm n) f) permWriteable := h.trans (by decide)
    rw [getPerm, if_neg hn, hasPerm_writeable, pageEntry, toPhysicalAddress, pageSize,
      testBit_constructEntry (by decide)] at hw
    exact absurd hw (by decide)
  · rintro rfl
    exact HasPerm.or_left (by decide)

theorem frameNumber_pageEntry (hperm : perm < 4096) : frameNumber (pageEntry perm f) = f :=
  (nameOf_eq_some.mp (nameOf_pageEntry hperm)).2

theorem pageEntry_ne_zero (hperm : perm < 4096) : pageEntry perm f ≠ 0 :=
  (nameOf_eq_some.mp (nameOf_pageEntry hperm)).1

theorem lookup_eq (h : System E s.machine g ∅) (he : e ∈ E) (ho : g (.root (.user e)) ≠ 0) (hva : va < userTop)
    (hneed : HasPerm (permPresent ||| permUser ||| permWriteable) need) (hpos : need ≠ 0) :
    s.lookup e need va =
      if HasPerm (s.machine.entries g (.user e, pageNumber va)) need then
        some (frameNumber (s.machine.entries g (.user e, pageNumber va))) else none :=
  h.translate_entries he ho hva hneed hpos

theorem entry_eq_zero (h : System E s.machine g ∅) (he : e ∈ E) (ho : g (.root (.user e)) ≠ 0)
    (hd : pageSize ∣ va) (hva : va < userHeapMax) (hnone : s.lookup e permPresent va = none) :
    s.machine.entries g (.user e, pageNumber va) = 0 := by
  by_contra hne
  have hpage : pageSize * pageNumber va = va := Nat.mul_div_cancel' hd
  have hslot : Cell.word (.leaf (.user e) (pageNumber va / 1024)) (pageNumber va % 1024) ∈ slots E :=
    entry_mem_slots (user_mem_mmuTrees.mpr he) (hpage.symm ▸ .heap hva)
  have hperm : HasPerm (s.machine.entries g (.user e, pageNumber va)) permPresent := h.present _ hslot hne
  rw [lookup_eq h he ho (hva.trans userHeapMax_lt) (by decide) (by decide), if_pos hperm] at hnone
  exact Option.some_ne_none _ hnone

open Classical in
noncomputable def mapped (E : Finset ℕ) (m : Machine) (g : Obj → ℕ) : Finset Cell :=
  (slots E).filter fun x => m.cellWord g x ≠ 0

structure Grows (m : Machine) (g : Obj → ℕ) (m' : Machine) (g' : Obj → ℕ) : Prop where
  keeps : Keeps m g m' g'
  entries : ∀ x, m.entries g x ≠ 0 → m'.entries g' x = m.entries g x

namespace Grows

theorem cellWord {x : Cell} (h : Grows m g m' g') (hx : x ∈ slots E) (h0 : m.cellWord g x ≠ 0) :
    m'.cellWord g' x = m.cellWord g x :=
  h.keeps.slot (fun _ _ _ => h.entries _) hx h0

theorem mapped_subset (h : Grows m g m' g') : mapped E m g ⊆ mapped E m' g' := fun x hx => by
  obtain ⟨hs, h0⟩ := Finset.mem_filter.mp hx
  exact Finset.mem_filter.mpr ⟨hs, by rwa [h.cellWord hs h0]⟩

theorem mapped_lt (h : Grows m g m' g') (he : e ∈ E) (hn : UserAddress (pageSize * n))
    (h0 : m.entries g (.user e, n) = 0) (h1 : m'.entries g' (.user e, n) ≠ 0) :
    (mapped E m g).card < (mapped E m' g').card := by
  refine Finset.card_lt_card ⟨h.mapped_subset, fun hsub => ?_⟩
  have hslot : Cell.word (.leaf (.user e) (n / 1024)) (n % 1024) ∈ slots E :=
    entry_mem_slots (user_mem_mmuTrees.mpr he) hn
  exact (Finset.mem_filter.mp (hsub (Finset.mem_filter.mpr ⟨hslot, h1⟩))).2 h0

theorem root_ne {τ : Tree} (h : Grows m g m' g') (ho : g (.root τ) ≠ 0) : g' (.root τ) ≠ 0 :=
  (h.keeps.objects _ ho).symm ▸ ho

end Grows

/-- A number for each entry: the page of the kernel, or one more than the address of the table,
counted in words. -/
private def cellNumber (g : Obj → ℕ) : Cell → ℕ
  | .page p => p
  | .word o j => g o + j + 1

private theorem cellNumber_bounds (h : Layout E m g) {x : Cell} (hx : x ∈ mapped E m g) :
    0 < cellNumber g x ∧ cellNumber g x < 2 ^ 32 ∧ ∀ y ∈ mapped E m g,
      cellNumber g x = cellNumber g y → x = y := by
  have htable {o : Obj} {j : ℕ} (hx : Cell.word o j ∈ mapped E m g) :
      g o ≠ 0 ∧ j < 1024 ∧ pageSize ∣ g o ∧ g o + pageSize ≤ 2 ^ 32 := by
    obtain ⟨hs, h0⟩ := Finset.mem_filter.mp hx
    have hzero : ¬(g o = 0 ∨ 1024 ≤ j) := fun hz => h0 (by simp [cellWord, hz])
    push Not at hzero
    obtain ⟨hg, hj⟩ := hzero
    have hk : o ≠ .root .kernel := by
      rintro rfl
      exact root_notMem_slots hs
    have hp := (h.object o hk hg).heap
    have := hp.lt
    have := hp.dvd
    exact ⟨hg, hj, hp.dvd, by simp only [pageSize] at *; omega⟩
  have hpage {p : ℕ} (hx : Cell.page p ∈ mapped E m g) : SharedPage p :=
    page_mem_slots.mp (Finset.mem_filter.mp hx).1
  cases x with
  | page p =>
    have hp := hpage hx
    have hle := hp.userTop_le
    refine ⟨hle.trans_lt' (by decide), hp.lt, fun y hy he => ?_⟩
    cases y with
    | page q => exact congrArg _ he
    | word o j =>
      obtain ⟨-, hj, hd, -⟩ := htable hy
      have hpd := hp.dvd
      simp only [cellNumber, pageSize] at *
      omega
  | word o j =>
    obtain ⟨hg, hj, hd, hlt⟩ := htable hx
    refine ⟨Nat.succ_pos _, ?_, fun y hy he => ?_⟩
    · simp only [cellNumber, pageSize] at *
      omega
    · cases y with
      | page q =>
        have hqd := (hpage hy).dvd
        simp only [cellNumber, pageSize] at *
        omega
      | word o' j' =>
        obtain ⟨hg', hj', hd', -⟩ := htable hy
        have hgg : g o = g o' := by
          simp only [cellNumber, pageSize] at *
          omega
        have hjj : j = j' := by
          simp only [cellNumber, hgg] at he
          omega
        rw [h.inj o o' hg hgg, hjj]

/-- There are fewer than `2 ^ 32` entries. -/
theorem card_mapped_lt (h : Layout E m g) : (mapped E m g).card < 2 ^ 32 := by
  have hsub : (mapped E m g).image (cellNumber g) ⊆ Finset.Ico 1 (2 ^ 32) := fun n hn => by
    obtain ⟨x, hx, rfl⟩ := Finset.mem_image.mp hn
    obtain ⟨hpos, hlt, -⟩ := cellNumber_bounds h hx
    exact Finset.mem_Ico.mpr ⟨hpos, hlt⟩
  have hcard := Finset.card_le_card hsub
  rw [Finset.card_image_of_injOn fun x hx y hy => (cellNumber_bounds h hx).2.2 y hy, Nat.card_Ico] at hcard
  exact hcard.trans_lt (by decide)

theorem hit_iff : s.hit ownerID name i = true ↔
    (s.shares i).empty = false ∧ (s.shares i).ownerID = ownerID ∧ (s.shares i).name = name := by
  simp only [State.hit, Bool.and_eq_true, Bool.not_eq_true', beq_iff_eq, and_assoc]
  rw [eq_comm (a := name)]

theorem getShareObjectID_cases (s : State) (ownerID : ℤ) (name : String) :
    (∃ i < s.maxShares, s.hit ownerID name i = true ∧ getShareObjectID s ownerID name = i) ∨
      (∀ i < s.maxShares, s.hit ownerID name i ≠ true) ∧
        getShareObjectID s ownerID name = eSharedMemNotExists := by
  rw [getShareObjectID]
  cases hfind : (List.range s.maxShares).find? (s.hit ownerID name) with
  | some i =>
    have hi := List.mem_of_find?_eq_some hfind
    exact .inl ⟨i, List.mem_range.mp hi, List.find?_some hfind, rfl⟩
  | none => exact .inr ⟨fun i hi => List.find?_eq_none.mp hfind i (List.mem_range.mpr hi), rfl⟩

theorem natCast_ne_notExists (i : ℕ) : (i : ℤ) ≠ eSharedMemNotExists := by
  simp only [eSharedMemNotExists]
  omega

theorem natCast_ne_noShare (i : ℕ) : (i : ℤ) ≠ eNoShare := by
  simp only [eNoShare]
  omega

theorem getShareObjectID_ne : getShareObjectID s ownerID name ≠ eSharedMemNotExists ↔
    ∃ i < s.maxShares, s.hit ownerID name i = true := by
  rcases getShareObjectID_cases s ownerID name with ⟨i, hi, hit, he⟩ | ⟨hno, he⟩
  · exact ⟨fun _ => ⟨i, hi, hit⟩, fun _ => he ▸ natCast_ne_notExists i⟩
  · exact ⟨fun h => absurd he h, fun ⟨i, hi, hit⟩ => absurd hit (hno i hi)⟩

theorem allocateShareObject_sat (hs : System E s.machine g ∅) (hr : g (.root (.storage i)) = 0)
    (hi : ((List.range s.maxShares).find? fun i : ℕ => (s.shares i).empty) = some i) :
    Sat (Short s.machine 1 1) allocateShareObject s fun r t => r = i ∧ ∃ p m,
      Created E s.machine g ∅ (.root (.storage i)) p m ∧ t = { s with machine := m }.setShare i
        { s.shares i with empty := false, framesStorage := p } := by
  rw [allocateShareObject]
  refine .bind_ok run_get ?_
  simp only [hi]
  refine .bind_ok (run_modify _) (.bind (onMachine_sat (by rfl) (createFramesStorage_sat hs)) ?_)
  rintro p _ ⟨m, ⟨f, hnew⟩, rfl⟩
  obtain ⟨u, hrun, hcreated⟩ := clearStorage_run hnew hs hr
  refine .bind_ok (run_modify _) (.bind_ok (onMachine_run hrun) (.pure ⟨rfl, p, u, hcreated, ?_⟩))
  simp only [State.setShare, Function.update_self, Function.update_idem]

/-- An environment has pages in the frames `f` from an address on. -/
structure Shows (E : Finset ℕ) (m : Machine) (g : Obj → ℕ) (x : ℕ × ℕ) (perm : ℕ) (f : ℕ → ℕ) (n : ℕ) :
    Prop where
  env : x.1 ∈ E
  max : x.2 + pageSize * n ≤ userHeapMax
  entry : ∀ k < n, m.entries g (.user x.1, pageNumber x.2 + k) = pageEntry perm (f k)

theorem Shows.grow {x : ℕ × ℕ} {f : ℕ → ℕ} (h : Shows E m g x perm f n) (hg : Grows m g m' g')
    (hperm : perm < 4096) : Shows E m' g' x perm f n where
  env := h.env
  max := h.max
  entry k hk := by
    rw [hg.entries _ (by rw [h.entry k hk]; exact pageEntry_ne_zero hperm), h.entry k hk]

theorem Shows.load {x : ℕ × ℕ} {f : ℕ → ℕ} {c : ℕ} (h : Shows E m g x perm f n) :
    Shows E { m with cr3 := c } g x perm f n := ⟨h.env, h.max, h.entry⟩

/-- Entry `i` of the table holds the object `o`, which lies in the frames `f`. -/
structure Holds (E : Finset ℕ) (s : State) (g : Obj → ℕ) (i : ℕ) (o : SharedObject) (f : ℕ → ℕ) : Prop where
  lt : i < s.maxShares
  share : s.shares i = ⟨o.ownerID, o.name, o.size, 1 + o.getters.length, o.isWritable, false,
    g (.root (.storage i))⟩
  root : g (.root (.storage i)) ≠ 0
  pos : 0 < o.size
  size_le : o.size ≤ userHeapMax - userHeapStart
  storage : ∀ k < pagesOf o.size, s.machine.entries g (.storage i, k) = storageEntry (f k)
  creator : Shows E s.machine g o.creator createPerm f (pagesOf o.size)
  getters : ∀ x ∈ o.getters, Shows E s.machine g x (getPerm o.isWritable) f (pagesOf o.size)
  references : 1 + o.getters.length ≤ (mapped E s.machine g).card

/-- The table and the machine hold the objects `R`, in the frames `F`. -/
structure Objects (E : Finset ℕ) (s : State) (R : ℕ → Option SharedObject) (g : Obj → ℕ) (F : ℕ → ℕ → ℕ) :
    Prop where
  system : System E s.machine g ∅
  curenv : s.curenv ∈ E
  dirs : ∀ e ∈ E, g (.root (.user e)) ≠ 0
  empty : ∀ i, R i = none → g (.root (.storage i)) = 0 ∧ (i < s.maxShares → (s.shares i).empty = true)
  holds : ∀ i o, R i = some o → Holds E s g i o (F i)
  keys : ∀ i j o o', R i = some o → R j = some o' → o.ownerID = o'.ownerID → o.name = o'.name → i = j
  inj : ∀ i j o o', R i = some o → R j = some o' → ∀ k < pagesOf o.size, ∀ l < pagesOf o'.size,
    F i k = F j l → i = j ∧ k = l

namespace Holds

variable {f : ℕ → ℕ}

theorem grow (h : Holds E s g i o f) (hg : Grows s.machine g t.machine g') (hmax : t.maxShares = s.maxShares)
    (hi : t.shares i = s.shares i) : Holds E t g' i o f where
  lt := hmax ▸ h.lt
  share := by rw [hi, h.share, hg.keeps.objects _ h.root]
  root := hg.root_ne h.root
  pos := h.pos
  size_le := h.size_le
  storage k hk := by
    rw [hg.entries _ (by rw [h.storage k hk]; exact storageEntry_ne_zero), h.storage k hk]
  creator := h.creator.grow hg createPerm_lt
  getters x hx := (h.getters x hx).grow hg (getPerm_lt _)
  references := h.references.trans (Finset.card_le_card hg.mapped_subset)

theorem pages_pos (h : Holds E s g i o f) : 0 < pagesOf o.size := by
  have := h.pos
  simp only [pagesOf, pageSize]
  omega

end Holds

namespace Objects

theorem hit_iff (h : Objects E s R g F) (hi : i < s.maxShares) : s.hit ownerID name i = true ↔
    ∃ o, R i = some o ∧ o.ownerID = ownerID ∧ o.name = name := by
  rw [SharedMemory.hit_iff]
  cases hR : R i with
  | none => simp [(h.empty i hR).2 hi]
  | some o => simp [(h.holds i o hR).share]

theorem getShareObjectID_eq (h : Objects E s R g F) (hR : R i = some o) :
    getShareObjectID s o.ownerID o.name = i := by
  rcases getShareObjectID_cases s o.ownerID o.name with ⟨j, hj, hit, he⟩ | ⟨hno, -⟩
  · obtain ⟨o', hR', howner, hname⟩ := (h.hit_iff hj).mp hit
    rw [he, h.keys j i o' o hR' hR howner hname]
  · exact absurd ((h.hit_iff (h.holds i o hR).lt).mpr ⟨o, hR, rfl, rfl⟩) (hno i (h.holds i o hR).lt)

theorem none_of_empty (h : Objects E s R g F) (hi : (s.shares i).empty = true) : R i = none := by
  cases hR : R i with
  | none => rfl
  | some o => simp [(h.holds i o hR).share] at hi

theorem entries_target (h : Objects E s R g F) (hv : Target s va size) :
    ∀ k < pagesOf size, s.machine.entries g (.user s.curenv, pageNumber va + k) = 0 := fun k hk => by
  rw [← pageNumber_add]
  exact entry_eq_zero h.system h.curenv (h.dirs _ h.curenv) (Nat.dvd_add hv.aligned (Nat.dvd_mul_right _ _))
    (hv.page_lt hk) (hv.unmapped k hk)

/-- An entry of the table without an object has no frames storage. -/
theorem entries_storage (h : Objects E s R g F) (hR : R i = none) (k : ℕ) :
    s.machine.entries g (.storage i, k) = 0 := by
  refine cellWord_absent ?_
  by_contra hl
  exact (h.system.leaf _ _ hl).2 (h.empty i hR).1

theorem frame_named (h : Objects E s R g F) (hR : R i = some o) (hk : k < pagesOf o.size) :
    ∃ τ j j', Cell.word (.leaf τ j) j' ∈ slots E ∧
      nameOf (s.machine.cellWord g (.word (.leaf τ j) j')) = some (F i k) := by
  have hc := (h.holds i o hR).creator
  refine ⟨_, _, _, entry_mem_slots (user_mem_mmuTrees.mpr hc.env) (.heap ?_),
    (congrArg nameOf (hc.entry k hk)).trans (nameOf_pageEntry createPerm_lt)⟩
  have := hc.max
  simp only [pageNumber, pageSize] at *
  omega

/-- What the loop of `createSharedObject` leaves is one more object. -/
theorem add (h : Objects E s R g F) (ha : CreateArgs s name size isWritable va) (hi : i < s.maxShares)
    (hR : R i = none) (hnew : ∀ i < s.maxShares, s.hit ownerID name i ≠ true) {p : ℕ}
    (hc : Created E s.machine g ∅ (.root (.storage i)) p m)
    {f : ℕ → ℕ} (hp : SharesPages E m (Function.update g (.root (.storage i)) p) s.curenv (pageNumber va) i f
      (pagesOf size) m' g') :
    Objects E ({ s with machine := m' }.setShare i ⟨ownerID, name, size, 1, isWritable, false, p⟩)
      (Function.update R i (some ⟨ownerID, name, size, isWritable, (s.curenv, va), []⟩)) g'
      (Function.update F i f) := by
  have hv := ha.toTarget
  have hent : m.entries (Function.update g (.root (.storage i)) p) = s.machine.entries g := entries_congr hc.leaf
  have h0 := h.entries_target hv
  have hg : Grows s.machine g m' g' := by
    refine ⟨hc.keeps.trans hp.keeps, fun x hx => ?_⟩
    rw [hp.others x fun j hj => ⟨?_, ?_⟩, hent]
    · rintro rfl
      exact hx (h0 j hj)
    · rintro rfl
      exact hx (h.entries_storage hR j)
  have hroot {j : ℕ} (hj : j ≠ i) : g' (.root (.storage j)) = g (.root (.storage j)) := by
    rw [hp.roots, Function.update_of_ne (by simpa using hj)]
  have hself : g' (.root (.storage i)) = p := by rw [hp.roots, Function.update_self]
  have hshare {j : ℕ} (hj : j ≠ i) (v : Share) :
      ({ s with machine := m' }.setShare i v).shares j = s.shares j :=
    Function.update_of_ne (by exact_mod_cast hj) ..
  have hpages : 0 < pagesOf size := by
    have := ha.pos
    simp only [pagesOf, pageSize]
    omega
  -- the new frames were not mapped, those of the other objects were
  have hfresh {j : ℕ} {o : SharedObject} (hj : R j = some o) {k l : ℕ} (hk : k < pagesOf o.size)
      (hl : l < pagesOf size) : F j k ≠ f l := fun he => by
    obtain ⟨τ, a, b, hx, hn⟩ := h.frame_named hj hk
    exact hp.unused l hl _ hx (by rw [hc.leaf, hn, he])
  refine ⟨hp.system, h.curenv, fun e he => hg.root_ne (h.dirs e he), fun j hj => ?_, fun j o hj => ?_,
    fun j j' o o' hj hj' howner hname => ?_, fun j j' o o' hj hj' k hk l hl he => ?_⟩
  · have hne : j ≠ i := by
      rintro rfl
      simp at hj
    rw [Function.update_of_ne hne] at hj
    rw [hroot hne, hshare hne]
    exact h.empty j hj
  · by_cases hne : j = i
    · subst hne
      rw [Function.update_self, Option.some.injEq] at hj
      subst hj
      have hcard := hg.mapped_lt h.curenv (n := pageNumber va + 0) (.heap ?_) (h0 0 hpages) (by
        rw [hp.user 0 hpages]
        exact pageEntry_ne_zero createPerm_lt)
      · rw [Function.update_self]
        refine ⟨hi, ?_, hself ▸ hc.ne, ha.pos, hv.size_le, hp.storage, ⟨h.curenv, hv.pages_le, hp.user⟩,
          by simp, ?_⟩
        · rw [hself]
          exact Function.update_self ..
        · exact Nat.succ_le_of_lt (hcard.trans_le' (Nat.zero_le _))
      · have := hv.page_lt hpages
        simp only [pageNumber, pageSize] at *
        omega
    · rw [Function.update_of_ne hne] at hj ⊢
      exact (h.holds j o hj).grow hg rfl (hshare hne _)
  · by_cases hne : j = i <;> by_cases hne' : j' = i
    · rw [hne, hne']
    · subst hne
      rw [Function.update_self, Option.some.injEq] at hj
      rw [Function.update_of_ne hne'] at hj'
      subst hj
      exact absurd ((h.hit_iff (h.holds j' o' hj').lt).mpr ⟨o', hj', howner.symm, hname.symm⟩)
        (hnew j' (h.holds j' o' hj').lt)
    · subst hne'
      rw [Function.update_self, Option.some.injEq] at hj'
      rw [Function.update_of_ne hne] at hj
      subst hj'
      exact absurd ((h.hit_iff (h.holds j o hj).lt).mpr ⟨o, hj, howner, hname⟩) (hnew j (h.holds j o hj).lt)
    · rw [Function.update_of_ne hne] at hj
      rw [Function.update_of_ne hne'] at hj'
      exact h.keys j j' o o' hj hj' howner hname
  · by_cases hne : j = i <;> by_cases hne' : j' = i
    · subst hne hne'
      rw [Function.update_self, Option.some.injEq] at hj hj'
      subst hj hj'
      rw [Function.update_self] at he
      exact ⟨rfl, hp.inj k hk l hl he⟩
    · subst hne
      rw [Function.update_self, Option.some.injEq] at hj
      rw [Function.update_of_ne hne'] at hj'
      subst hj
      rw [Function.update_self, Function.update_of_ne hne'] at he
      exact absurd he.symm (hfresh hj' hl hk)
    · subst hne'
      rw [Function.update_self, Option.some.injEq] at hj'
      rw [Function.update_of_ne hne] at hj
      subst hj'
      rw [Function.update_self, Function.update_of_ne hne] at he
      exact absurd he (hfresh hj hk hl)
    · rw [Function.update_of_ne hne] at hj he
      rw [Function.update_of_ne hne'] at hj' he
      exact h.inj j j' o o' hj hj' k hk l hl he

/-- A legal call to `createSharedObject` adds an object, unless memory runs out. -/
theorem create_sat (h : Objects E s R g F) (ha : CreateArgs s name size isWritable va)
    (hnew : ∀ i < s.maxShares, s.hit ownerID name i ≠ true)
    (hi : ((List.range s.maxShares).find? fun i : ℕ => (s.shares i).empty) = some i) :
    let n := pagesOf size
    let a := regions (pageNumber va) n + regions 0 n
    Sat (Short s.machine (1 + (n + a)) (1 + a)) (createSharedObject ownerID name size isWritable va) s
      fun r t => r = i ∧ Spent s.machine t.machine (1 + (n + a)) (1 + a) ∧ ∃ g' F', Objects E t
        (Function.update R i (some ⟨ownerID, name, size, isWritable, (s.curenv, va), []⟩)) g' F' ∧
        ∀ e ≠ s.curenv, ∀ k, t.machine.entries g' (.user e, k) = s.machine.entries g (.user e, k) := by
  intro n a
  have hlt := List.mem_range.mp (List.mem_of_find?_eq_some hi)
  have hempty := List.find?_some hi
  have hR : R i = none := h.none_of_empty hempty
  have hID : getShareObjectID s ownerID name = eSharedMemNotExists := by
    by_contra hne
    obtain ⟨j, hj, hit⟩ := getShareObjectID_ne.mp hne
    exact hnew j hj hit
  rw [createSharedObject]
  refine .bind_ok run_get (.bind_ok run_get ?_)
  rw [if_neg (not_not.mpr hID)]
  refine .bind ((allocateShareObject_sat h.system (h.empty i hR).1 hi).weaken fun _ hx =>
    hx.mono (by omega) (by omega)) ?_
  rintro r t ⟨rfl, p, m, hc, rfl⟩
  have hv := ha.toTarget
  have hstop := hv.max
  have hspent := hc.spent
  have hroot : Function.update g (.root (.storage i)) p (.root (.user s.curenv)) = g (.root (.user s.curenv)) :=
    Function.update_of_ne (by simp) ..
  have hself : Function.update g (.root (.storage i)) p (.root (.storage i)) = p := Function.update_self ..
  have hloop := createSharedPages_sat hc.system h.curenv (hroot.symm ▸ h.dirs _ h.curenv)
    (hself.symm ▸ hc.ne) hv.aligned (hstop.trans userHeapMax_lt.le)
    (fun j hj => .heap (hv.page_lt (by rwa [pagesBetween_size] at hj))) (by
      rw [pagesBetween_size, entries_congr hc.leaf]
      exact h.entries_target hv)
  rw [pagesBetween_size, hself, ← (hc.system.roots s.curenv).1] at hloop
  rw [if_pos (natCast_ne_noShare i)]
  refine .bind_ok run_get ?_
  rw [u32_of_lt (hstop.trans_lt (by decide)), show (State.setShare _ i _).shares i = _ from Function.update_self ..]
  refine .bind (onMachine_sat (by rfl) (hloop.weaken fun _ hx => hspent.short hx)) ?_
  rintro _ _ ⟨m', ⟨⟨f, g', hp⟩, hspent'⟩, rfl⟩
  refine .bind_ok (run_modify _) (.pure ⟨rfl, hspent.trans hspent', g', Function.update F i f, ?_, fun e he k => ?_⟩)
  case refine_2 =>
    rw [← entries_congr hc.leaf]
    exact hp.others _ fun j _ => ⟨by simp [he], by simp⟩
  have hadd := h.add ha hlt hR hnew hc hp
  have hsize := bmod_size hv.size_le
  have hw : isWritable % 2 ^ 8 = isWritable := Nat.mod_eq_of_lt (ha.writable.trans_lt (by decide))
  simp only [State.setShare, Function.update_self, Function.update_idem, hsize, hw] at hadd ⊢
  exact hadd

/-- What the loop of `getSharedObject` leaves is one more getter. -/
theorem addGetter (h : Objects E s R g F) (hR : R i = some o) (hv : Target s va o.size)
    (hp : GetsPages E s.machine g s.curenv (pageNumber va) (F i) (getPerm o.isWritable) (pagesOf o.size) m' g') :
    Objects E ({ s with machine := m' }.setShare i
        { s.shares i with references := u32 ((s.shares i).references + 1) })
      (Function.update R i (some { o with getters := (s.curenv, va) :: o.getters })) g' F := by
  have h0 := h.entries_target hv
  have hi := h.holds i o hR
  have hpages := hi.pages_pos
  have hg : Grows s.machine g m' g' := by
    refine ⟨hp.keeps, fun x hx => hp.others x fun j hj => ?_⟩
    rintro rfl
    exact hx (h0 j hj)
  have hcard : (mapped E s.machine g).card < (mapped E m' g').card := by
    refine hg.mapped_lt h.curenv (n := pageNumber va + 0) (.heap ?_) (h0 0 hpages) ?_
    · have := hv.page_lt hpages
      simp only [pageNumber, pageSize] at *
      omega
    · rw [hp.user 0 hpages]
      exact pageEntry_ne_zero (getPerm_lt _)
  have hlt := card_mapped_lt hp.system.toLayout
  have href := hi.references
  have hshare {j : ℕ} (hj : j ≠ i) (v : Share) :
      ({ s with machine := m' }.setShare i v).shares j = s.shares j :=
    Function.update_of_ne (by exact_mod_cast hj) ..
  -- owner, name and size of the objects are what they were
  have hsame {j : ℕ} {o' : SharedObject}
      (hj : Function.update R i (some { o with getters := (s.curenv, va) :: o.getters }) j = some o') :
      ∃ p, R j = some p ∧ p.ownerID = o'.ownerID ∧ p.name = o'.name ∧ p.size = o'.size := by
    by_cases hne : j = i
    · subst hne
      rw [Function.update_self, Option.some.injEq] at hj
      subst hj
      exact ⟨o, hR, rfl, rfl, rfl⟩
    · rw [Function.update_of_ne hne] at hj
      exact ⟨o', hj, rfl, rfl, rfl⟩
  refine ⟨hp.system, h.curenv, fun e he => hg.root_ne (h.dirs e he), fun j hj => ?_, fun j o' hj => ?_,
    fun j j' o₁ o₂ hj hj' howner hname => ?_, fun j j' o₁ o₂ hj hj' k hk l hl he => ?_⟩
  · have hne : j ≠ i := by
      rintro rfl
      simp at hj
    rw [Function.update_of_ne hne] at hj
    rw [hp.roots, hshare hne]
    exact h.empty j hj
  · by_cases hne : j = i
    · subst hne
      rw [Function.update_self, Option.some.injEq] at hj
      subst hj
      have hu : u32 (1 + o.getters.length + 1) = 1 + (o.getters.length + 1) := by
        rw [u32_of_lt] <;> omega
      have hgrown : Holds E { s with machine := m' } g' j o (F j) := hi.grow hg rfl rfl
      refine ⟨hi.lt, ?_, hgrown.root, hi.pos, hi.size_le, hgrown.storage, hgrown.creator, ?_, ?_⟩
      · refine (Function.update_self ..).trans ?_
        rw [hi.share, hp.roots]
        simp only [hu, List.length_cons]
      · intro x hx
        rcases List.mem_cons.mp hx with rfl | hx
        · exact ⟨h.curenv, hv.pages_le, hp.user⟩
        · exact hgrown.getters x hx
      · simp only [List.length_cons]
        exact (Nat.add_le_add_right href 1).trans hcard
    · rw [Function.update_of_ne hne] at hj
      exact (h.holds j o' hj).grow hg rfl (hshare hne _)
  · obtain ⟨p₁, h₁, ho₁, hn₁, -⟩ := hsame hj
    obtain ⟨p₂, h₂, ho₂, hn₂, -⟩ := hsame hj'
    exact h.keys j j' p₁ p₂ h₁ h₂ (ho₁.trans (howner.trans ho₂.symm)) (hn₁.trans (hname.trans hn₂.symm))
  · obtain ⟨p₁, h₁, -, -, hs₁⟩ := hsame hj
    obtain ⟨p₂, h₂, -, -, hs₂⟩ := hsame hj'
    exact h.inj j j' p₁ p₂ h₁ h₂ k (hs₁ ▸ hk) l (hs₂ ▸ hl) he

/-- A legal call to `getSharedObject` adds a getter, unless memory runs out. -/
theorem get_sat (h : Objects E s R g F) (hR : R i = some o) (hv : Target s va o.size) :
    let a := regions (pageNumber va) (pagesOf o.size)
    Sat (Short s.machine a a) (getSharedObject o.ownerID o.name va) s fun r t => r = i ∧ ∃ g', Objects E t
      (Function.update R i (some { o with getters := (s.curenv, va) :: o.getters })) g' F := by
  have hi := h.holds i o hR
  have hstop := hv.pages_le
  have hbetween : pagesBetween va (va + pageSize * pagesOf o.size) = pagesOf o.size := by
    rw [pagesBetween_size, pagesOf_mul]
  have hsize : o.size ≤ userHeapMax := hi.size_le.trans (Nat.sub_le _ _)
  have hend : u32 (roundUp (unsigned o.size) pageSize + va) = va + pageSize * pagesOf o.size := by
    rw [unsigned_natCast (hsize.trans_lt (by decide)), roundUp_size (hsize.trans userHeapMax_lt.le), Nat.add_comm,
      u32_of_lt (hstop.trans_lt (by decide))]
  have hloop := getSharedPages_sat h.system h.curenv (h.dirs _ h.curenv) (hstop.trans userHeapMax_lt.le)
    (fun j hj => .heap (hv.page_lt (by rwa [hbetween] at hj))) (getPerm_lt o.isWritable) (by
      rw [hbetween]
      exact h.entries_target hv) (by
      rw [hbetween]
      exact hi.storage) (by
      rw [hbetween]
      exact fun j hj => h.frame_named hR hj)
  rw [hbetween, ← (h.system.roots s.curenv).1] at hloop
  rw [getSharedObject]
  refine .bind_ok run_get ?_
  rw [h.getShareObjectID_eq hR, if_pos (natCast_ne_notExists i), hi.share, hend]
  refine .bind (onMachine_sat rfl hloop) ?_
  rintro _ _ ⟨m', ⟨⟨g', hp⟩, -⟩, rfl⟩
  have hadd := h.addGetter hR hv hp
  exact .bind_ok (run_modify _) (.pure ⟨rfl, g', hadd⟩)

end Objects

/-- A used entry of the table has the owner and the name. -/
def InUse (s : State) (ownerID : ℤ) (name : String) : Prop := ∃ i < s.maxShares,
  (s.shares i).empty = false ∧ (s.shares i).ownerID = ownerID ∧ (s.shares i).name = name

def Full (s : State) : Prop := ∀ i < s.maxShares, (s.shares i).empty = false

theorem getShareObjectID_inUse :
    getShareObjectID s ownerID name ≠ eSharedMemNotExists ↔ InUse s ownerID name := by
  simp only [getShareObjectID_ne, hit_iff, InUse]

theorem createSharedObject_inUse (h : InUse s ownerID name) (size isWritable va : ℕ) :
    (createSharedObject ownerID name size isWritable va).run s = .ok (eSharedMemExists, s) := by
  rw [createSharedObject, run_bind_ok run_get, run_bind_ok run_get, if_pos (getShareObjectID_inUse.mpr h), run_pure]

theorem createSharedObject_full (hn : ¬InUse s ownerID name) (h : Full s) (size isWritable va : ℕ) :
    (createSharedObject ownerID name size isWritable va).run s = .ok (eNoShare, s) := by
  have hnone : ((List.range s.maxShares).find? fun i : ℕ => (s.shares i).empty) = none :=
    List.find?_eq_none.mpr fun i hi => by simp [h i (List.mem_range.mp hi)]
  have halloc : allocateShareObject.run s = .ok (eNoShare, s) := by
    rw [allocateShareObject, run_bind_ok run_get]
    simp only [hnone]
    rfl
  rw [createSharedObject, run_bind_ok run_get, run_bind_ok run_get,
    if_neg fun hne => hn (getShareObjectID_inUse.mp hne), run_bind_ok halloc, if_neg (by simp), run_pure]

theorem getSharedObject_missing (h : ¬InUse s ownerID name) (va : ℕ) :
    (getSharedObject ownerID name va).run s = .ok (eSharedMemNotExists, s) := by
  rw [getSharedObject, run_bind_ok run_get, if_neg fun hne => h (getShareObjectID_inUse.mp hne), run_pure]

theorem exists_empty (h : ¬Full s) :
    ∃ i, ((List.range s.maxShares).find? fun i : ℕ => (s.shares i).empty) = some i := by
  rw [← Option.isSome_iff_exists, List.find?_isSome]
  simp only [Full, not_forall, Bool.not_eq_false] at h
  obtain ⟨i, hi, he⟩ := h
  exact ⟨i, List.mem_range.mpr hi, he⟩

namespace Objects

theorem start (h : Started E s) : ∃ g F, Objects E s (fun _ => none) g F := by
  obtain ⟨⟨g, hsys, hdirs, hstorage⟩, hcur, hshares⟩ := h
  exact ⟨g, fun _ _ => 0, hsys, hcur, hdirs, fun i _ => ⟨hstorage i, hshares i⟩, nofun, nofun, nofun⟩

theorem switch (h : Objects E s R g F) (he : e ∈ E) : Objects E (s.switch e) R g F where
  system := h.system.load he (h.dirs e he)
  curenv := he
  dirs := h.dirs
  empty := h.empty
  holds i o hR :=
    have hi := h.holds i o hR
    ⟨hi.lt, hi.share, hi.root, hi.pos, hi.size_le, hi.storage, hi.creator.load,
      fun x hx => (hi.getters x hx).load, hi.references⟩
  keys := h.keys
  inj := h.inj

theorem inUse_iff (h : Objects E s R g F) :
    InUse s ownerID name ↔ ∃ i o, R i = some o ∧ o.ownerID = ownerID ∧ o.name = name := by
  constructor
  · rintro ⟨i, hi, hit⟩
    exact ⟨i, (h.hit_iff hi).mp (SharedMemory.hit_iff.mpr hit)⟩
  · rintro ⟨i, o, hR, hkey⟩
    have hlt := (h.holds i o hR).lt
    exact ⟨i, hlt, SharedMemory.hit_iff.mp ((h.hit_iff hlt).mpr ⟨o, hR, hkey⟩)⟩

theorem getSizeOfSharedObject_eq (h : Objects E s R g F) (hR : R i = some o) :
    getSizeOfSharedObject s o.ownerID o.name = o.size := by
  simp only [getSizeOfSharedObject, h.getShareObjectID_eq hR, if_neg (natCast_ne_notExists i),
    (h.holds i o hR).share]

end Objects

theorem ShareRun.objects (h : ShareRun E s R) : ∃ g F, Objects E s R g F := by
  induction h with
  | start h => exact Objects.start h
  | switch e _ he ih =>
    obtain ⟨g, F, hobj⟩ := ih
    exact ⟨g, F, hobj.switch he⟩
  | @create s t R r ownerID name size isWritable va _ ha hrun ih =>
    obtain ⟨g, F, hobj⟩ := ih
    by_cases huse : InUse s ownerID name
    · obtain ⟨rfl, rfl⟩ := Prod.mk.inj (Except.ok.inj ((createSharedObject_inUse huse ..).symm.trans hrun))
      exact ⟨g, F, hobj⟩
    · by_cases hfull : Full s
      · obtain ⟨rfl, rfl⟩ := Prod.mk.inj (Except.ok.inj ((createSharedObject_full huse hfull ..).symm.trans hrun))
        exact ⟨g, F, hobj⟩
      · obtain ⟨i, hi⟩ := exists_empty hfull
        obtain ⟨rfl, -, g', F', hobj', -⟩ := (hobj.create_sat ha
          (fun j hj hit => huse ⟨j, hj, hit_iff.mp hit⟩) hi).ok hrun
        exact ⟨g', F', hobj'⟩
  | @get s t R r ownerID name va _ ha hrun ih =>
    obtain ⟨g, F, hobj⟩ := ih
    by_cases huse : InUse s ownerID name
    · obtain ⟨i, o, hR, rfl, rfl⟩ := hobj.inUse_iff.mp huse
      obtain ⟨rfl, g', hobj'⟩ := (hobj.get_sat hR (ha.target _ (hobj.getSizeOfSharedObject_eq hR))).ok hrun
      refine ⟨g', F, ?_⟩
      rw [if_pos (Int.natCast_nonneg i), Int.toNat_natCast, hR]
      exact hobj'
    · obtain ⟨rfl, rfl⟩ := Prod.mk.inj (Except.ok.inj ((getSharedObject_missing huse va).symm.trans hrun))
      exact ⟨g, F, hobj⟩

/-- No two used entries of the table have the same owner and name. -/
def UniqueKeys (s : State) : Prop := ∀ i < s.maxShares, ∀ j < s.maxShares, (s.shares i).empty = false →
  (s.shares j).empty = false → (s.shares i).ownerID = (s.shares j).ownerID →
  (s.shares i).name = (s.shares j).name → i = j

/-- What the environments find of the objects, whose pages lie in the frames `F`. -/
structure Agreement (s : State) (R : ℕ → Option SharedObject) (F : ℕ → ℕ → ℕ) : Prop where
  creator : ∀ i o, R i = some o → ∀ k < pagesOf o.size,
    s.lookup o.creator.1 readPerm (o.creator.2 + pageSize * k) = some (F i k) ∧
      s.lookup o.creator.1 writePerm (o.creator.2 + pageSize * k) = some (F i k)
  getters : ∀ i o, R i = some o → ∀ x ∈ o.getters, ∀ k < pagesOf o.size,
    s.lookup x.1 readPerm (x.2 + pageSize * k) = some (F i k) ∧
      s.lookup x.1 writePerm (x.2 + pageSize * k) = if o.isWritable = 1 then some (F i k) else none
  distinct : ∀ i j o o', R i = some o → R j = some o' → ∀ k < pagesOf o.size, ∀ l < pagesOf o'.size,
    F i k = F j l → i = j ∧ k = l
  size : ∀ i o, R i = some o → getSizeOfSharedObject s o.ownerID o.name = o.size
  references : ∀ i o, R i = some o → i < s.maxShares ∧ (s.shares i).empty = false ∧
    (s.shares i).references = 1 + o.getters.length

/-- Calls to `createSharedObject` that return an error change nothing. -/
def Refuses (s : State) : Prop := ∀ (ownerID : ℤ) (name : String) (size isWritable va : ℕ),
  (InUse s ownerID name →
    (createSharedObject ownerID name size isWritable va).run s = .ok (eSharedMemExists, s)) ∧
  (¬InUse s ownerID name → Full s →
    (createSharedObject ownerID name size isWritable va).run s = .ok (eNoShare, s))

/-- The frames and kernel heap pages with which a call surely succeeds: the pages of the
object, a table for each 4 MB region, and the frames storage with its tables. -/
def Enough (s : State) (frames pages : ℕ) : Prop :=
  frames + pages ≤ s.machine.freeFrameList.length ∧ Room s.machine pages

theorem Enough.not_short {a b : ℕ} (h : Enough s a b) (e : Panic) : ¬Short s.machine (a + b) b e := by
  rintro (⟨-, hlt⟩ | ⟨-, hroom⟩)
  · exact absurd h.1 (not_le.mpr hlt)
  · exact hroom h.2

/-- Calls succeed when the memory suffices. -/
structure Serves (s : State) (R : ℕ → Option SharedObject) : Prop where
  create : ∀ ownerID name size isWritable va, CreateArgs s name size isWritable va → ¬InUse s ownerID name →
    ¬Full s → Enough s (pagesOf size) (1 + (regions (pageNumber va) (pagesOf size) + regions 0 (pagesOf size))) →
      ∃ (i : ℕ) (t : State), (createSharedObject ownerID name size isWritable va).run s = .ok ((i : ℤ), t) ∧
        R i = none
  get : ∀ i o va, R i = some o → Target s va o.size →
    Enough s 0 (regions (pageNumber va) (pagesOf o.size)) →
      ∃ t, (getSharedObject o.ownerID o.name va).run s = .ok ((i : ℤ), t)

namespace Objects

theorem uniqueKeys (h : Objects E s R g F) : UniqueKeys s := by
  intro i hi j hj hei hej howner hname
  have hused {i : ℕ} (hi : i < s.maxShares) (he : (s.shares i).empty = false) :
      ∃ o, R i = some o ∧ o.ownerID = (s.shares i).ownerID ∧ o.name = (s.shares i).name :=
    (h.hit_iff hi).mp (SharedMemory.hit_iff.mpr ⟨he, rfl, rfl⟩)
  obtain ⟨o, hR, ho, hn⟩ := hused hi hei
  obtain ⟨o', hR', ho', hn'⟩ := hused hj hej
  exact h.keys i j o o' hR hR' (ho.trans (howner.trans ho'.symm)) (hn.trans (hname.trans hn'.symm))

theorem lookup_eq {x : ℕ × ℕ} {f : ℕ → ℕ} (h : Objects E s R g F) (hx : Shows E s.machine g x perm f n)
    (hk : k < n) (hneed : HasPerm (permPresent ||| permUser ||| permWriteable) need) (hpos : need ≠ 0)
    (hperm : perm < 4096) :
    s.lookup x.1 need (x.2 + pageSize * k) = if HasPerm (pageEntry perm (f k)) need then some (f k) else none := by
  have hlt : x.2 + pageSize * k < userTop := by
    have := hx.max
    have := userHeapMax_lt
    simp only [pageSize] at *
    omega
  rw [SharedMemory.lookup_eq h.system hx.env (h.dirs _ hx.env) hlt hneed hpos, pageNumber_add, hx.entry k hk,
    frameNumber_pageEntry hperm]

theorem agreement (h : Objects E s R g F) : Agreement s R F where
  creator i o hR k hk := by
    have hc := (h.holds i o hR).creator
    rw [h.lookup_eq hc hk (by decide) (by decide) createPerm_lt, h.lookup_eq hc hk (by decide) (by decide)
      createPerm_lt, if_pos hasPerm_pageEntry_create, if_pos (hasPerm_pageEntry_create.trans (by decide))]
    exact ⟨rfl, rfl⟩
  getters i o hR x hx k hk := by
    have hg := (h.holds i o hR).getters x hx
    rw [h.lookup_eq hg hk (by decide) (by decide) (getPerm_lt _), h.lookup_eq hg hk (by decide) (by decide)
      (getPerm_lt _), if_pos (hasPerm_pageEntry_get ..)]
    simp only [hasPerm_pageEntry_write, true_and]
  distinct := h.inj
  size i o hR := h.getSizeOfSharedObject_eq hR
  references i o hR := by
    have hi := h.holds i o hR
    rw [hi.share]
    exact ⟨hi.lt, rfl, rfl⟩

theorem serves (h : Objects E s R g F) : Serves s R where
  create ownerID name size isWritable va ha hn hfull hmem := by
    obtain ⟨i, hi⟩ := exists_empty hfull
    have hsat := h.create_sat ha (fun j hj hit => hn ⟨j, hj, SharedMemory.hit_iff.mp hit⟩) hi
    have hempty := List.find?_some hi
    obtain ⟨r, t, hrun, rfl, -⟩ := (hsat.weaken fun e he => hmem.not_short e (he.mono (by omega) le_rfl)).exists_ok
    exact ⟨i, t, hrun, h.none_of_empty hempty⟩
  get i o va hR hv hmem := by
    obtain ⟨r, t, hrun, rfl, -⟩ := ((h.get_sat hR hv).weaken fun e he =>
      hmem.not_short e (he.mono (by omega) le_rfl)).exists_ok
    exact ⟨t, hrun⟩

end Objects

/-- In every run the environments agree on the objects. -/
theorem sharedObjects_agree (h : ShareRun E s R) :
    UniqueKeys s ∧ (∃ F, Agreement s R F) ∧ Refuses s ∧ Serves s R := by
  obtain ⟨g, F, hobj⟩ := h.objects
  exact ⟨hobj.uniqueKeys, ⟨F, hobj.agreement⟩, fun ownerID name size isWritable va =>
    ⟨fun hin => createSharedObject_inUse hin .., fun hn hfull => createSharedObject_full hn hfull ..⟩,
    hobj.serves⟩

theorem target_empty {t : State} {g' : Obj → ℕ} (ht : System E t.machine g' ∅) (he : t.curenv ∈ E)
    (ho : g' (.root (.user t.curenv)) ≠ 0) (hent : ∀ n, t.machine.entries g' (.user t.curenv, n) = 0) (hd : pageSize ∣ va)
    (hstart : userHeapStart ≤ va) (hmax : va + pageSize * pagesOf size ≤ userHeapMax) : Target t va size := by
  refine ⟨hd, hstart, le_trans ?_ hmax, fun k hk => ?_⟩
  · simp only [pagesOf, pageSize]
    omega
  · have hlt : va + pageSize * k < userTop := by
      have := userHeapMax_lt
      simp only [pageSize] at *
      omega
    rw [lookup_eq ht he ho hlt (by decide) (by decide), hent, if_neg (by decide)]

/-- One of two environments without pages creates the first object. -/
theorem exists_created (size : ℕ) (hpos : 0 < size) (hsize : pagesOf size ≤ 2) : ∃ s t g g' F, Started {0, 1} s ∧
    System {0, 1} s.machine g ∅ ∧ (∀ x, s.machine.entries g x = 0) ∧ CreateArgs s "x" size 1 userHeapStart ∧
    (createSharedObject 7 "x" size 1 userHeapStart).run s = .ok (((0 : ℕ) : ℤ), t) ∧ Objects {0, 1} (t.switch 1)
      (Function.update (fun _ => none) 0 (some ⟨7, "x", size, 1, (0, userHeapStart), []⟩)) g' F ∧
    (∀ n, t.machine.entries g' (.user 1, n) = 0) ∧ 90 ≤ t.machine.freeFrameList.length ∧ Room t.machine 90 := by
  obtain ⟨m, g, hsys, hdir₀, hdir₁, hstorage, hleaf, hframes, hroom⟩ := exists_twoDirectories
  set s : State := ⟨m, 0, fun _ => .cleared, 1⟩
  have hstart : Started {0, 1} s := ⟨⟨g, hsys, by simp [hdir₀, hdir₁], hstorage⟩, by simp [s], fun _ _ => rfl⟩
  have hobj : Objects {0, 1} s (fun _ => none) g fun _ _ => 0 :=
    ⟨hsys, by simp [s], by simp [hdir₀, hdir₁], fun i _ => ⟨hstorage i, fun _ => rfl⟩, nofun, nofun, nofun⟩
  have hempty (x : Tree × ℕ) : m.entries g x = 0 := cellWord_absent (hleaf _ _)
  have hmax : userHeapStart + pageSize * pagesOf size ≤ userHeapMax := by
    simp only [userHeapStart, userHeapMax, pageSize]
    omega
  have hargs : CreateArgs s "x" size 1 userHeapStart :=
    ⟨target_empty hsys (by simp [s]) hdir₀ (fun _ => hempty _) (by decide) le_rfl hmax, by decide, hpos, le_rfl⟩
  have hnew : ∀ i < s.maxShares, s.hit 7 "x" i ≠ true := fun i _ hit => by simp [State.hit, s, Share.cleared] at hit
  have hregions (n : ℕ) : regions n (pagesOf size) ≤ 2 := by
    rw [regions]
    split <;> omega
  have h₁ := hregions (pageNumber userHeapStart)
  have h₂ := hregions 0
  have henough : Enough s 2 5 := ⟨le_trans (by omega) hframes, hroom.mono (by omega)⟩
  obtain ⟨_, t, hrun, rfl, hspent, g', F', hobj', hothers⟩ := ((hobj.create_sat hargs hnew (i := 0) rfl).weaken fun e he =>
    henough.not_short e (he.mono (by omega) (by omega))).exists_ok
  refine ⟨s, t, g, g', F', hstart, hsys, hempty, hargs, hrun, hobj'.switch (by simp), fun n => ?_, ?_, ?_⟩
  · exact (hothers 1 Nat.one_ne_zero n).trans (hempty _)
  · have hlen : m.freeFrameList.length ≤ t.machine.freeFrameList.length + _ := hspent.frames
    omega
  · exact hspent.room 90 (hroom.mono (by omega))

/-- One environment creates an object of two pages, and another one gets it. -/
theorem sharedObjects_agree_twoEnvironments : ∃ s R o, ShareRun {0, 1} s R ∧ R 0 = some o ∧
    o.getters = [(1, userHeapStart)] ∧ UniqueKeys s ∧ (∃ F, Agreement s R F) ∧ Refuses s ∧ Serves s R := by
  obtain ⟨s, t, g, g', F, hstart, -, -, hargs, hrun, hobj, hempty, hframes, hroom⟩ :=
    exists_created 5000 (by decide) (by decide)
  have hshare := ShareRun.create 7 "x" 5000 1 userHeapStart (.start hstart) hargs hrun
  rw [if_pos (by decide)] at hshare
  set o : SharedObject := ⟨7, "x", 5000, 1, (0, userHeapStart), []⟩
  have hR : Function.update (fun _ => none) 0 (some o) 0 = some o := Function.update_self ..
  have htarget : Target (t.switch 1) userHeapStart 5000 :=
    target_empty hobj.system (by simp [State.switch]) (hobj.dirs 1 (by simp)) hempty (by decide) le_rfl (by decide)
  have henough : Enough (t.switch 1) 0 1 :=
    ⟨show 0 + 1 ≤ t.machine.freeFrameList.length by omega, hroom.mono (by omega)⟩
  obtain ⟨u, hget⟩ := hobj.serves.get 0 o userHeapStart hR htarget
    (show Enough (t.switch 1) 0 (regions (pageNumber userHeapStart) (pagesOf 5000)) from henough)
  have hgetArgs : GetArgs (t.switch 1) 7 "x" userHeapStart := ⟨by decide, fun size hsize => by
    have := hobj.getSizeOfSharedObject_eq hR
    rw [show o.ownerID = 7 from rfl, show o.name = "x" from rfl, hsize] at this
    rw [Int.natCast_inj.mp this]
    exact htarget⟩
  have hshare' := ShareRun.get 7 "x" userHeapStart (hshare.switch 1 (by simp)) hgetArgs hget
  rw [if_pos (by decide)] at hshare'
  exact ⟨u, _, _, hshare', Function.update_self .., rfl, sharedObjects_agree hshare'⟩

end FosKernel.SharedMemory
