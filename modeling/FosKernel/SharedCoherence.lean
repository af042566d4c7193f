import FosKernel.ProgramMemories
import FosKernel.SharedObjects

/-!
# What is stored in shared objects

Environments store to the pages of an object and load from them, each at the addresses where it has
the object. The processor marks the entries of the pages that are used.
-/

namespace FosKernel.Machine
open FailingPrograms PageEntries LazyMemories

variable {s t : Machine} {E : Finset ℕ} {g g' : Obj → ℕ} {L : Set ℕ} {τ : Tree} {f m n va w w' w'' : ℕ} {pg : Page} {b : UInt8}

namespace Marked

theorem trans (h : Marked w w') (h' : Marked w' w'') : Marked w w'' := by
  obtain ⟨m, hm, h0, rfl⟩ := h'
  exact h.setPerm hm h0

theorem ne_zero (h : Marked w w') (h0 : w ≠ 0) : w' ≠ 0 := by
  obtain ⟨m, -, -, rfl⟩ := h
  intro hz
  exact h0 (Nat.or_eq_zero_iff.mp hz).1

theorem nameOf_eq (h : Marked w w') (h0 : w ≠ 0) : nameOf w' = nameOf w := by
  rw [nameOf_eq_some.mpr ⟨h0, rfl⟩]
  exact nameOf_eq_some.mpr ⟨h.ne_zero h0, h.frameNumber_eq⟩

theorem accessPerm (h : Marked w w') (write : Bool) : HasPerm w' (accessPerm write) ↔ HasPerm w (accessPerm write) := by
  cases write with
  | false => simp only [Machine.accessPerm, hasPerm_or, h.present, h.user, Bool.false_eq_true, if_false]
  | true => simp only [Machine.accessPerm, hasPerm_or, h.present, h.user, h.writeable, if_true]

end Marked

namespace System

theorem inUse (h : System E s g L) (hτ : τ ∈ mmuTrees E) (hua : UserAddress (pageSize * n))
    (hn : nameOf (s.entries g (τ, n)) = some f) :
    InUse s f := by
  have hslot := entry_mem_slots hτ hua
  refine ⟨⟨(h.frame_managed hslot hn).1, ?_⟩, h.pool.not_free hslot hn⟩
  rintro ⟨p, hp, hname⟩
  rw [← cellWord_page hp.shared g] at hname
  have hcell := h.apart p hp _ hslot f hname hn
  simp at hcell

theorem keeps_ram (h : System E s g L) (hk : Keeps s g t g') (hf : InUse s f) : t.ram f = s.ram f := by
  refine hk.ram f (fun i hi he => ?_) (fun o ho => h.ordinary_ne hf.toOrdinary ho) hf.not_free
  exact h.reserved.2 i (heapTables_subset hi) (he ▸ hf.managed)

theorem storeFrame (h : System E s g L) (hf : Ordinary s f) (pg : Page) :
    System E (s.setFrame f pg) g L ∧ (s.setFrame f pg).entries g = s.entries g ∧
      (s.setFrame f pg).cellWord g = s.cellWord g := by
  have hst : SameGlobals s (s.setFrame f pg) := by constructor <;> rfl
  have hcell : (s.setFrame f pg).cellWord g = s.cellWord g :=
    h.cellWord_setData hf.managed (fun o _ ho => h.ordinary_ne hf ho) hst.places.toSameBoot rfl
  have happart : Apart E (s.setFrame f pg) g := by
    rw [Apart, hcell]
    exact h.apart
  exact ⟨h.of_core (h.toCore.congr hst.places hcell rfl rfl) happart rfl (fun p _ => congrFun hcell _) rfl fun _ _ _ _ => rfl,
    entries_congr fun _ _ _ => congrFun hcell _, hcell⟩

end System

structure MarksEntry (E : Finset ℕ) (s : Machine) (g : Obj → ℕ) (x : Tree × ℕ) (t : Machine) : Prop where
  system : System E t g ∅
  nonzero : s.entries g x ≠ 0
  entries : ∃ w, Marked (s.entries g x) w ∧ t.entries g = Function.update (s.entries g) x w
  page : ∀ p, t.cellWord g (.page p) = s.cellWord g (.page p)

namespace System

theorem touch (h : System E s g ∅) (hr : Reaches E s g τ va) (hp : HasPerm (s.entries g (τ, pageNumber va)) permPresent)
    (hm : m < 4096) (h0 : m &&& 7 = 0) :
    MarksEntry E s g (τ, pageNumber va) (s.touch va m) ∧ ∀ f, Ordinary s f → (s.touch va m).ram f = s.ram f := by
  have hl := hr.table hp
  have hne := ne_zero_of_hasPerm_present hp
  have hw : setPerm (s.entries g (τ, pageNumber va)) m < 2 ^ 32 := setPerm_lt (entries_lt ..) hm
  have hst := sameGlobals_setEntry s (s.entryFrame g τ va) (ptx va) (setPerm (s.entries g (τ, pageNumber va)) m)
  have hmarked : Marked (s.entries g (τ, pageNumber va)) (setPerm (s.entries g (τ, pageNumber va)) m) :=
    (Marked.refl _).setPerm hm h0
  have hcell := h.setEntry_cells (SameGlobals.refl s).places rfl hr.user hl hw
  rw [hr.touch_eq hl]
  have hname : nameOf (setPerm (s.entries g (τ, pageNumber va)) m) = nameOf (s.cellWord g (cellAt τ va)) := by
    rw [hmarked.nameOf_eq hne, entries_cellAt hr.user]
  have hcore : Core E (s.setEntry (s.entryFrame g τ va) (ptx va) (setPerm (s.entries g (τ, pageNumber va)) m)) g ∅ Set.univ :=
    h.retag hst.places (fun o _ _ => by simp [cellAt_user hr.user]) (fun _ _ => cellAt_ne_root)
      (fun _ => ⟨hname, fun _ => hmarked.present.mpr hp⟩) hcell rfl rfl
  have hpage (q : ℕ) :
    (s.setEntry (s.entryFrame g τ va) (ptx va) (setPerm (s.entries g (τ, pageNumber va)) m)).cellWord g (.page q) =
      s.cellWord g (.page q) := by
    rw [hcell, cellAt_user hr.user, Function.update_of_ne (by simp)]
  refine ⟨⟨h.of_core hcore (fun q hq x hx f' hn hn' => ?_) rfl (fun q _ => hpage q) rfl fun _ _ _ _ => rfl, hne,
    ⟨_, hmarked, entries_update hr.user hcell⟩, hpage⟩, fun f hf => setFrame_ram_of_ne (h.ordinary_ne hf hl).symm⟩
  rw [hpage] at hn
  by_cases hxa : x = cellAt τ va
  · rw [hcell, hxa, Function.update_self, hname, ← hxa] at hn'
    exact h.apart q hq x hx f' hn hn'
  · rw [hcell, Function.update_of_ne hxa] at hn'
    exact h.apart q hq x hx f' hn hn'

theorem userLoad_run (h : System E s g ∅) (hr : Reaches E s g τ va)
    (hp : HasPerm (s.entries g (τ, pageNumber va)) (accessPerm false)) (hf : Ordinary s (s.backing g τ va)) :
    ∃ t, (userLoad va).run s = .ok (byteAt (s.ram (s.backing g τ va)) va, t) ∧ MarksEntry E s g (τ, pageNumber va) t ∧
      ∀ f, Ordinary s f → t.ram f = s.ram f := by
  have htr : s.translate (accessPerm false) va = some (s.backing g τ va) := by
    rw [hr.translate (by decide) (by decide), if_pos hp]
  obtain ⟨ht, hram⟩ := h.touch hr (hasPerm_or.mp hp).1 (m := accessMarks false) (by decide) (by decide)
  refine ⟨_, ?_, ht, hram⟩
  rw [userLoad, run_bind_ok (frameAt_run htr), run_bind_ok (run_modify _), run_bind_ok run_get, run_pure, hram _ hf]

theorem userStore_run (h : System E s g ∅) (hr : Reaches E s g τ va)
    (hp : HasPerm (s.entries g (τ, pageNumber va)) (accessPerm true)) (hf : Ordinary s (s.backing g τ va)) (b : UInt8) :
    ∃ t, (userStore va b).run s = .ok ((), t) ∧ MarksEntry E s g (τ, pageNumber va) t ∧ ∀ f, Ordinary s f →
      t.ram f = if f = s.backing g τ va then setByte (s.ram f) va b else s.ram f := by
  have htr : s.translate (accessPerm true) va = some (s.backing g τ va) := by
    rw [hr.translate (by decide) (by decide), if_pos hp]
  set u := s.setFrame (s.backing g τ va) (setByte (s.ram (s.backing g τ va)) va b)
  obtain ⟨hu, hent, hcell⟩ := h.storeFrame hf (setByte (s.ram (s.backing g τ va)) va b)
  have hmarks : MarksOnly E s g τ u := h.toLayout.storeFrame hf _
  obtain ⟨⟨hsys, h0, hentries, hpage⟩, hram⟩ :=
    hu.touch (hr.marked hmarks) (by rw [hent]; exact (hasPerm_or.mp (hasPerm_or.mp hp).1).1)
    (m := accessMarks true) (by decide) (by decide)
  rw [hent] at h0 hentries
  refine ⟨_, (run_bind_ok (frameAt_run htr)).trans rfl,
    ⟨hsys, h0, hentries, fun p => (hpage p).trans (congrFun hcell _)⟩, fun f hf' => ?_⟩
  rw [hram f (hmarks.ordinary hf')]
  split
  · rename_i he
    rw [he]
    exact setFrame_ram_self ..
  · rename_i hne
    exact setFrame_ram_of_ne hne

end System

end FosKernel.Machine

namespace FosKernel.SharedMemory
open FailingPrograms PageEntries Machine LazyMemories

variable {E : Finset ℕ} {s t : State} {m m' : Machine} {R : ℕ → Option SharedObject} {g g' : Obj → ℕ} {F : ℕ → ℕ → ℕ}
  {f : ℕ → ℕ} {o : SharedObject} {ownerID : ℤ} {name : String} {e i k n p va off perm size isWritable : ℕ} {x : ℕ × ℕ}
  {b : UInt8}

/-- An environment has pages in the frames `f` from an address on. Accesses may have marked the entries. -/
structure Sees (E : Finset ℕ) (m : Machine) (g : Obj → ℕ) (x : ℕ × ℕ) (perm : ℕ) (f : ℕ → ℕ) (n : ℕ) : Prop where
  env : x.1 ∈ E
  aligned : pageSize ∣ x.2
  max : x.2 + pageSize * n ≤ userHeapMax
  entry : ∀ k < n, Marked (pageEntry perm (f k)) (m.entries g (.user x.1, pageNumber x.2 + k))

/-- Objects and entries stay, up to marks. -/
structure Evolves (m : Machine) (g : Obj → ℕ) (m' : Machine) (g' : Obj → ℕ) : Prop where
  objects : ∀ o, g o ≠ 0 → g' o = g o
  entries : ∀ x, m.entries g x ≠ 0 → Marked (m.entries g x) (m'.entries g' x)
  storage : ∀ i k, m.entries g (.storage i, k) ≠ 0 → m'.entries g' (.storage i, k) = m.entries g (.storage i, k)

theorem Grows.evolves (h : Grows m g m' g') : Evolves m g m' g' where
  objects := h.keeps.objects
  entries x hx := by
    rw [h.entries x hx]
    exact .refl _
  storage _ _ := h.entries _

theorem evolves_of_marksEntry (h : MarksEntry E m g (.user e, n) m') : Evolves m g m' g := by
  obtain ⟨w, hw, he⟩ := h.entries
  refine ⟨fun _ _ => rfl, fun x _ => ?_, fun i k _ => by rw [he, Function.update_of_ne (by simp)]⟩
  rw [he]
  by_cases hx : x = (.user e, n)
  · rw [hx, Function.update_self]
    exact hw
  · rw [Function.update_of_ne hx]
    exact .refl _

namespace Sees

theorem of_entries (he : e ∈ E) (hd : pageSize ∣ va) (hmax : va + pageSize * n ≤ userHeapMax)
    (h : ∀ k < n, m.entries g (.user e, pageNumber va + k) = pageEntry perm (f k)) : Sees E m g (e, va) perm f n where
  env := he
  aligned := hd
  max := hmax
  entry k hk := by
    rw [h k hk]
    exact .refl _

theorem evolve (h : Sees E m g x perm f n) (hg : Evolves m g m' g') (hperm : perm < 4096) : Sees E m' g' x perm f n where
  env := h.env
  aligned := h.aligned
  max := h.max
  entry k hk := (h.entry k hk).trans (hg.entries _ ((h.entry k hk).ne_zero (pageEntry_ne_zero hperm)))

theorem lt (h : Sees E m g x perm f n) (ho : off < pageSize * n) : x.2 + off < userTop :=
  (Nat.add_lt_add_left ho _).trans_le (h.max.trans userHeapMax_lt.le)

theorem entry_at (h : Sees E m g x perm f n) (ho : off < pageSize * n) :
    Marked (pageEntry perm (f (off / pageSize))) (m.entries g (.user x.1, pageNumber (x.2 + off))) := by
  have hpage : pageNumber (x.2 + off) = pageNumber x.2 + off / pageSize := Nat.add_div_of_dvd_right h.aligned
  rw [hpage]
  exact h.entry _ (Nat.div_lt_of_lt_mul ho)

theorem offset (h : Sees E m g x perm f n) (off : ℕ) : Fin.ofNat 4096 (x.2 + off) = Fin.ofNat 4096 off := by
  apply Fin.ext
  have := h.aligned
  simp only [Fin.val_ofNat, pageSize] at *
  omega

theorem slot (h : Sees E m g x perm f n) (hk : k < n) : UserAddress (pageSize * (pageNumber x.2 + k)) := by
  refine .heap ?_
  have := h.max
  simp only [pageNumber, pageSize] at *
  omega

theorem nameOf_entry (h : Sees E m g x perm f n) (hperm : perm < 4096) (hk : k < n) :
    nameOf (m.entries g (.user x.1, pageNumber x.2 + k)) = some (f k) :=
  ((h.entry k hk).nameOf_eq (pageEntry_ne_zero hperm)).trans (nameOf_pageEntry hperm)

theorem inUse (h : Sees E m g x perm f n) (hs : System E m g ∅) (hperm : perm < 4096) (hk : k < n) : Machine.InUse m (f k) :=
  hs.inUse (user_mem_mmuTrees.mpr h.env) (h.slot hk) (h.nameOf_entry hperm hk)

end Sees

/-- Entry `i` of the table holds the object `o`, which lies in the frames `f`. -/
structure Backs (E : Finset ℕ) (s : State) (g : Obj → ℕ) (i : ℕ) (o : SharedObject) (f : ℕ → ℕ) : Prop where
  used : (s.shares i).empty = false
  size : (s.shares i).size = o.size
  isWritable : (s.shares i).isWritable = o.isWritable
  framesStorage : (s.shares i).framesStorage = g (.root (.storage i))
  root : g (.root (.storage i)) ≠ 0
  size_le : o.size ≤ userHeapMax - userHeapStart
  storage : ∀ k < pagesOf o.size, s.machine.entries g (.storage i, k) = storageEntry (f k)
  creator : Sees E s.machine g o.creator createPerm f (pagesOf o.size)
  getters : ∀ x ∈ o.getters, Sees E s.machine g x (getPerm o.isWritable) f (pagesOf o.size)

/-- The table and the machine hold the objects `R`, in the frames `F`. -/
structure Backed (E : Finset ℕ) (s : State) (R : ℕ → Option SharedObject) (g : Obj → ℕ) (F : ℕ → ℕ → ℕ) : Prop where
  system : System E s.machine g ∅
  curenv : s.curenv ∈ E
  dirs : ∀ e ∈ E, g (.root (.user e)) ≠ 0
  empty : ∀ i, R i = none → g (.root (.storage i)) = 0 ∧ (i < s.maxShares → (s.shares i).empty = true)
  backs : ∀ i o, R i = some o → Backs E s g i o (F i)
  inj : ∀ i j o o', R i = some o → R j = some o' → ∀ k < pagesOf o.size, ∀ l < pagesOf o'.size,
    F i k = F j l → i = j ∧ k = l

theorem Backs.evolve (h : Backs E s g i o f) (hg : Evolves s.machine g t.machine g') (hi : t.shares i = s.shares i) :
    Backs E t g' i o f where
  used := hi ▸ h.used
  size := hi ▸ h.size
  isWritable := hi ▸ h.isWritable
  framesStorage := by rw [hi, h.framesStorage, hg.objects _ h.root]
  root := by
    rw [hg.objects _ h.root]
    exact h.root
  size_le := h.size_le
  storage k hk := by
    rw [hg.storage i k (by rw [h.storage k hk]; exact storageEntry_ne_zero), h.storage k hk]
  creator := h.creator.evolve hg createPerm_lt
  getters x hx := (h.getters x hx).evolve hg (getPerm_lt _)

namespace SharedObject

/-- The environments that have the object, with the addresses. -/
def holders (o : SharedObject) : List (ℕ × ℕ) := o.creator :: o.getters

def permsOf (o : SharedObject) (x : ℕ × ℕ) : ℕ := if x = o.creator then createPerm else getPerm o.isWritable

theorem permsOf_lt (o : SharedObject) (x : ℕ × ℕ) : o.permsOf x < 4096 := by
  rw [permsOf]
  split
  · exact createPerm_lt
  · exact getPerm_lt _

theorem hasPerm_read (o : SharedObject) (x : ℕ × ℕ) (f : ℕ) : HasPerm (pageEntry (o.permsOf x) f) (accessPerm false) := by
  rw [permsOf]
  split
  · exact HasPerm.or_left (by decide)
  · exact hasPerm_pageEntry_get ..

theorem hasPerm_write : HasPerm (pageEntry (o.permsOf x) n) (accessPerm true) ↔ x = o.creator ∨ o.isWritable = 1 := by
  rw [permsOf]
  split
  · exact iff_of_true (HasPerm.or_left (by decide)) (.inl ‹_›)
  · rename_i hx
    rw [or_iff_right hx]
    exact hasPerm_pageEntry_write

end SharedObject

theorem Backs.holder (h : Backs E s g i o f) (hx : x ∈ o.holders) : Sees E s.machine g x (o.permsOf x) f (pagesOf o.size) := by
  rw [SharedObject.permsOf]
  split
  · rename_i he
    exact he ▸ h.creator
  · rename_i hne
    exact h.getters x ((List.mem_cons.mp hx).resolve_left hne)

def contents (s : State) (R : ℕ → Option SharedObject) (F : ℕ → ℕ → ℕ) (a : ℕ × ℕ) : Option UInt8 :=
  (R a.1).bind fun o =>
    if a.2 < pageSize * pagesOf o.size then some (byteAt (s.machine.ram (F a.1 (a.2 / pageSize))) a.2) else none

theorem fills_contents {R' : ℕ → Option SharedObject} {F' : ℕ → ℕ → ℕ} (h : ∀ i o, R i = some o → ∃ o', R' i = some o' ∧
    o'.size = o.size ∧ ∀ k < pagesOf o.size, t.machine.ram (F' i k) = s.machine.ram (F i k)) :
    Fills (contents s R F) (contents t R' F') := by
  intro a b hb
  obtain ⟨i, off⟩ := a
  cases hR : R i with
  | none => simp [contents, hR] at hb
  | some o =>
    obtain ⟨o', hR', hsize, hram⟩ := h i o hR
    simp only [contents, hR, hR', hsize, Option.bind_some] at hb ⊢
    split at hb
    · rename_i hlt
      rw [if_pos hlt, hram _ (Nat.div_lt_of_lt_mul hlt)]
      exact hb
    · cases hb

theorem grows_of_shares {u : Machine} (hc : Created E m g ∅ (.root (.storage i)) p u)
    (hp : SharesPages E u (Function.update g (.root (.storage i)) p) e n i f k m' g')
    (h0 : ∀ j < k, m.entries g (.user e, n + j) = 0) (hs : ∀ j, m.entries g (.storage i, j) = 0) : Grows m g m' g' := by
  refine ⟨hc.keeps.trans hp.keeps, fun x hx => ?_⟩
  rw [hp.others x fun j hj => ⟨?_, ?_⟩, entries_congr hc.leaf]
  · intro he
    exact hx (he ▸ h0 j hj)
  · intro he
    exact hx (he ▸ hs j)

theorem grows_of_gets (hp : GetsPages E m g e n f perm k m' g') (h0 : ∀ j < k, m.entries g (.user e, n + j) = 0) :
    Grows m g m' g' := by
  refine ⟨hp.keeps, fun x hx => hp.others x fun j hj he => ?_⟩
  exact hx (he ▸ h0 j hj)

namespace Backed

theorem entries_target (h : Backed E s R g F) (hv : Target s va size) :
    ∀ k < pagesOf size, s.machine.entries g (.user s.curenv, pageNumber va + k) = 0 := fun k hk => by
  rw [← pageNumber_add]
  exact entry_eq_zero h.system h.curenv (h.dirs _ h.curenv) (Nat.dvd_add hv.aligned (Nat.dvd_mul_right _ _))
    (hv.page_lt hk) (hv.unmapped k hk)

/-- An entry of the table without an object has no frames storage. -/
theorem entries_storage (h : Backed E s R g F) (hR : R i = none) (k : ℕ) : s.machine.entries g (.storage i, k) = 0 := by
  apply cellWord_absent
  by_contra hl
  exact (h.system.leaf _ _ hl).2 (h.empty i hR).1

theorem none_of_empty (h : Backed E s R g F) (hi : (s.shares i).empty = true) : R i = none := by
  cases hR : R i with
  | none => rfl
  | some o => simp [(h.backs i o hR).used] at hi

theorem exists_of_used (h : Backed E s R g F) (hi : i < s.maxShares) (hu : (s.shares i).empty = false) :
    ∃ o, R i = some o := by
  cases hR : R i with
  | none => simp [(h.empty i hR).2 hi] at hu
  | some o => exact ⟨o, rfl⟩

theorem ram_eq (h : Backed E s R g F) (hR : R i = some o) (hk : k < pagesOf o.size) (hg : Keeps s.machine g m' g') :
    m'.ram (F i k) = s.machine.ram (F i k) :=
  h.system.keeps_ram hg ((h.backs i o hR).creator.inUse h.system createPerm_lt hk)

theorem frame_named (h : Backed E s R g F) (hR : R i = some o) (hk : k < pagesOf o.size) :
    ∃ τ j j', Cell.word (.leaf τ j) j' ∈ slots E ∧ nameOf (s.machine.cellWord g (.word (.leaf τ j) j')) = some (F i k) :=
  have hc := (h.backs i o hR).creator
  ⟨_, _, _, entry_mem_slots (user_mem_mmuTrees.mpr hc.env) (hc.slot hk), hc.nameOf_entry createPerm_lt hk⟩

/-- What the loop of `createSharedObject` leaves is one more object. -/
theorem add {u : Machine} (h : Backed E s R g F) (ha : CreateArgs s name size isWritable va) (hR : R i = none)
    (hc : Created E s.machine g ∅ (.root (.storage i)) p u)
    (hp : SharesPages E u (Function.update g (.root (.storage i)) p) s.curenv (pageNumber va) i f (pagesOf size) m' g') :
    Backed E ({ s with machine := m' }.setShare i ⟨ownerID, name, size, 1, isWritable, false, p⟩)
      (Function.update R i (some ⟨ownerID, name, size, isWritable, (s.curenv, va), []⟩)) g' (Function.update F i f) := by
  have hv := ha.toTarget
  have hg := grows_of_shares hc hp (h.entries_target hv) (h.entries_storage hR)
  have hself : g' (.root (.storage i)) = p := by rw [hp.roots, Function.update_self]
  have hroot {j : ℕ} (hj : j ≠ i) : g' (.root (.storage j)) = g (.root (.storage j)) := by
    rw [hp.roots, Function.update_of_ne (by simpa using hj)]
  have hshare {j : ℕ} (hj : j ≠ i) (v : Share) : ({ s with machine := m' }.setShare i v).shares j = s.shares j :=
    Function.update_of_ne (by exact_mod_cast hj) ..
  -- the new frames were not mapped, those of the other objects were
  have hfresh {j : ℕ} {o : SharedObject} (hj : R j = some o) {k l : ℕ} (hk : k < pagesOf o.size) (hl : l < pagesOf size) :
      F j k ≠ f l := fun he => by
    obtain ⟨τ, a, b, hx, hn⟩ := h.frame_named hj hk
    exact hp.unused l hl _ hx (by rw [hc.leaf, hn, he])
  refine ⟨hp.system, h.curenv, fun e he => hg.root_ne (h.dirs e he), fun j hj => ?_, fun j o hj => ?_,
    fun j j' o o' hj hj' k hk l hl he => ?_⟩
  · have hne : j ≠ i := by
      rintro rfl
      simp at hj
    rw [Function.update_of_ne hne] at hj
    rw [hroot hne, hshare hne]
    exact h.empty j hj
  · by_cases hne : j = i
    · subst hne
      rw [Function.update_self, Option.some.injEq] at hj
      subst hj
      rw [Function.update_self]
      have hnew (v : Share) : ({ s with machine := m' }.setShare j v).shares j = v := Function.update_self ..
      refine ⟨by rw [hnew], by rw [hnew], by rw [hnew], by rw [hnew, hself], hself ▸ hc.ne, hv.size_le, hp.storage,
        .of_entries h.curenv hv.aligned hv.pages_le hp.user, by simp⟩
    · rw [Function.update_of_ne hne] at hj ⊢
      exact (h.backs j o hj).evolve hg.evolves (hshare hne _)
  · by_cases hne : j = i <;> by_cases hne' : j' = i
    · subst hne hne'
      rw [Function.update_self, Option.some.injEq] at hj hj'
      subst hj hj'
      rw [Function.update_self] at he
      exact ⟨rfl, hp.inj k hk l hl he⟩
    · subst hne
      rw [Function.update_self, Option.some.injEq] at hj
      rw [Function.update_of_ne hne'] at hj'
      subst hj
      rw [Function.update_self, Function.update_of_ne hne'] at he
      exact absurd he.symm (hfresh hj' hl hk)
    · subst hne'
      rw [Function.update_self, Option.some.injEq] at hj'
      rw [Function.update_of_ne hne] at hj
      subst hj'
      rw [Function.update_self, Function.update_of_ne hne] at he
      exact absurd he (hfresh hj hk hl)
    · rw [Function.update_of_ne hne] at hj he
      rw [Function.update_of_ne hne'] at hj' he
      exact h.inj j j' o o' hj hj' k hk l hl he

/-- A call to `createSharedObject` that finds a free entry adds an object. -/
theorem create (h : Backed E s R g F) (ha : CreateArgs s name size isWritable va) (hnew : ¬InUse s ownerID name)
    (hi : ((List.range s.maxShares).find? fun i : ℕ => (s.shares i).empty) = some i) {r : ℤ}
    (hrun : (createSharedObject ownerID name size isWritable va).run s = .ok (r, t)) :
    r = i ∧ ∃ g' F', Backed E t (Function.update R i (some ⟨ownerID, name, size, isWritable, (s.curenv, va), []⟩)) g' F' ∧
      Fills (contents s R F)
        (contents t (Function.update R i (some ⟨ownerID, name, size, isWritable, (s.curenv, va), []⟩)) F') := by
  have hempty := List.find?_some hi
  have hR := h.none_of_empty hempty
  have hv := ha.toTarget
  have hlt : va + size < 2 ^ 32 := hv.max.trans_lt (by decide)
  suffices hsat : Sat (fun _ => True) (createSharedObject ownerID name size isWritable va) s fun r t => r = i ∧ ∃ p u m' f g',
      Created E s.machine g ∅ (.root (.storage i)) p u ∧
      SharesPages E u (Function.update g (.root (.storage i)) p) s.curenv (pageNumber va) i f (pagesOf size) m' g' ∧
      t = { s with machine := m' }.setShare i ⟨ownerID, name, size, 1, isWritable, false, p⟩ by
    obtain ⟨rfl, p, u, m', f, g', hc, hp, rfl⟩ := hsat.ok hrun
    have hg := grows_of_shares hc hp (h.entries_target hv) (h.entries_storage hR)
    refine ⟨rfl, g', _, h.add ha hR hc hp, fills_contents fun j o hj => ?_⟩
    have hne : j ≠ i := by
      rintro rfl
      exact Option.some_ne_none o (hj.symm.trans hR)
    rw [Function.update_of_ne hne, Function.update_of_ne hne]
    exact ⟨o, hj, rfl, fun k hk => h.ram_eq hj hk hg.keeps⟩
  rw [createSharedObject]
  refine .bind_ok run_get (.bind_ok run_get ?_)
  rw [if_neg fun hne => hnew (getShareObjectID_inUse.mp hne)]
  refine .bind ((allocateShareObject_sat h.system (h.empty i hR).1 hi).weaken fun _ _ => trivial) ?_
  rintro r t ⟨rfl, p, u, hc, rfl⟩
  have hroot : Function.update g (.root (.storage i)) p (.root (.user s.curenv)) = g (.root (.user s.curenv)) :=
    Function.update_of_ne (by simp) ..
  have hself : Function.update g (.root (.storage i)) p (.root (.storage i)) = p := Function.update_self ..
  have hloop := createSharedPages_sat hc.system h.curenv (hroot.symm ▸ h.dirs _ h.curenv) (hself.symm ▸ hc.ne) hv.aligned
    (hv.max.trans userHeapMax_lt.le) (fun j hj => .heap (hv.page_lt (by rwa [pagesBetween_size] at hj))) (by
      rw [pagesBetween_size, entries_congr hc.leaf]
      exact h.entries_target hv)
  rw [pagesBetween_size, hself, ← (hc.system.roots s.curenv).1] at hloop
  rw [if_pos (natCast_ne_noShare i)]
  refine .bind_ok run_get ?_
  rw [u32_of_lt hlt, show (State.setShare _ i _).shares i = _ from Function.update_self ..]
  refine .bind (onMachine_sat (by rfl) (hloop.weaken fun _ _ => trivial)) ?_
  rintro _ _ ⟨m', ⟨⟨f, g', hp⟩, -⟩, rfl⟩
  refine .bind_ok (run_modify _) (.pure ⟨rfl, p, u, m', f, g', hc, hp, ?_⟩)
  have hsize := bmod_size hv.size_le
  have hw : isWritable % 2 ^ 8 = isWritable := Nat.mod_eq_of_lt (ha.writable.trans_lt (by decide))
  simp only [State.setShare, Function.update_self, Function.update_idem, hsize, hw]

/-- What the loop of `getSharedObject` leaves is one more getter. -/
theorem addGetter (h : Backed E s R g F) (hR : R i = some o) (hv : Target s va o.size)
    (hp : GetsPages E s.machine g s.curenv (pageNumber va) (F i) (getPerm o.isWritable) (pagesOf o.size) m' g') :
    Backed E ({ s with machine := m' }.setShare i { s.shares i with references := u32 ((s.shares i).references + 1) })
      (Function.update R i (some { o with getters := (s.curenv, va) :: o.getters })) g' F := by
  have hg := grows_of_gets hp (h.entries_target hv)
  have hshare {j : ℕ} (hj : j ≠ i) (v : Share) : ({ s with machine := m' }.setShare i v).shares j = s.shares j :=
    Function.update_of_ne (by exact_mod_cast hj) ..
  -- the objects are as long as they were
  have hsame {j : ℕ} {o' : SharedObject}
      (hj : Function.update R i (some { o with getters := (s.curenv, va) :: o.getters }) j = some o') :
      ∃ o₀, R j = some o₀ ∧ o₀.size = o'.size := by
    by_cases hne : j = i
    · subst hne
      rw [Function.update_self, Option.some.injEq] at hj
      subst hj
      exact ⟨o, hR, rfl⟩
    · rw [Function.update_of_ne hne] at hj
      exact ⟨o', hj, rfl⟩
  refine ⟨hp.system, h.curenv, fun e he => hg.root_ne (h.dirs e he), fun j hj => ?_, fun j o' hj => ?_,
    fun j j' o₁ o₂ hj hj' k hk l hl he => ?_⟩
  · have hne : j ≠ i := by
      rintro rfl
      simp at hj
    rw [Function.update_of_ne hne] at hj
    rw [hp.roots, hshare hne]
    exact h.empty j hj
  · by_cases hne : j = i
    · subst hne
      rw [Function.update_self, Option.some.injEq] at hj
      subst hj
      have hi : Backs E { s with machine := m' } g' j o (F j) := (h.backs j o hR).evolve hg.evolves rfl
      have hnew (v : Share) : ({ s with machine := m' }.setShare j v).shares j = v := Function.update_self ..
      refine ⟨by rw [hnew]; exact hi.used, by rw [hnew]; exact hi.size, by rw [hnew]; exact hi.isWritable,
        by rw [hnew]; exact hi.framesStorage, hi.root, hi.size_le, hi.storage, hi.creator, fun x hx => ?_⟩
      rcases List.mem_cons.mp hx with rfl | hx
      · exact .of_entries h.curenv hv.aligned hv.pages_le hp.user
      · exact hi.getters x hx
    · rw [Function.update_of_ne hne] at hj
      exact (h.backs j o' hj).evolve hg.evolves (hshare hne _)
  · obtain ⟨p₁, h₁, hs₁⟩ := hsame hj
    obtain ⟨p₂, h₂, hs₂⟩ := hsame hj'
    exact h.inj j j' p₁ p₂ h₁ h₂ k (hs₁ ▸ hk) l (hs₂ ▸ hl) he

/-- A call to `getSharedObject` that finds the object adds a getter. -/
theorem getObject (h : Backed E s R g F) (ha : GetArgs s ownerID name va) (hi : i < s.maxShares)
    (hfind : getShareObjectID s ownerID name = i) (hit : s.hit ownerID name i = true) {r : ℤ}
    (hrun : (getSharedObject ownerID name va).run s = .ok (r, t)) :
    r = i ∧ ∃ o g', R i = some o ∧
    Backed E t (Function.update R i (some { o with getters := (s.curenv, va) :: o.getters })) g' F ∧
      Fills (contents s R F)
      (contents t (Function.update R i (some { o with getters := (s.curenv, va) :: o.getters })) F) := by
  obtain ⟨o, hR⟩ := h.exists_of_used hi (SharedMemory.hit_iff.mp hit).1
  have hb := h.backs i o hR
  have hv : Target s va o.size := ha.target _ (by
    simp only [getSizeOfSharedObject, hfind, if_neg (natCast_ne_notExists i), hb.size])
  have hstop := hv.pages_le
  have hbetween : pagesBetween va (va + pageSize * pagesOf o.size) = pagesOf o.size := by
    rw [pagesBetween_size, pagesOf_mul]
  have hsize : o.size ≤ userHeapMax := hb.size_le.trans (Nat.sub_le _ _)
  have hend : u32 (roundUp (unsigned o.size) pageSize + va) = va + pageSize * pagesOf o.size := by
    rw [unsigned_natCast (hsize.trans_lt (by decide)), roundUp_size (hsize.trans userHeapMax_lt.le), Nat.add_comm,
      u32_of_lt (hstop.trans_lt (by decide))]
  have hloop := getSharedPages_sat h.system h.curenv (h.dirs _ h.curenv) (hstop.trans userHeapMax_lt.le)
    (fun j hj => .heap (hv.page_lt (by rwa [hbetween] at hj))) (getPerm_lt o.isWritable) (by
      rw [hbetween]
      exact h.entries_target hv) (by
      rw [hbetween]
      exact hb.storage) (by
      rw [hbetween]
      exact fun j hj => h.frame_named hR hj)
  rw [hbetween, ← (h.system.roots s.curenv).1] at hloop
  suffices hsat : Sat (fun _ => True) (getSharedObject ownerID name va) s fun r t => r = i ∧ ∃ m' g',
      GetsPages E s.machine g s.curenv (pageNumber va) (F i) (getPerm o.isWritable) (pagesOf o.size) m' g' ∧
      t = { s with machine := m' }.setShare i { s.shares i with references := u32 ((s.shares i).references + 1) } by
    obtain ⟨rfl, m', g', hp, rfl⟩ := hsat.ok hrun
    refine ⟨rfl, o, g', hR, h.addGetter hR hv hp, fills_contents fun j o' hj => ?_⟩
    have hkeeps {k : ℕ} (hk : k < pagesOf o'.size) := h.ram_eq hj hk (grows_of_gets hp (h.entries_target hv)).keeps
    by_cases hne : j = i
    · subst hne
      obtain rfl : o = o' := Option.some.inj (hR.symm.trans hj)
      rw [Function.update_self]
      exact ⟨_, rfl, rfl, fun k hk => hkeeps hk⟩
    · rw [Function.update_of_ne hne]
      exact ⟨o', hj, rfl, fun k hk => hkeeps hk⟩
  rw [getSharedObject]
  refine .bind_ok run_get ?_
  rw [hfind, if_pos (natCast_ne_notExists i), hb.size, hend, hb.isWritable, hb.framesStorage]
  refine .bind (onMachine_sat rfl (hloop.weaken fun _ _ => trivial)) ?_
  rintro _ _ ⟨m', ⟨⟨g', hp⟩, -⟩, rfl⟩
  exact .bind_ok (run_modify _) (.pure ⟨rfl, m', g', hp, rfl⟩)

theorem start (h : Started E s) : ∃ g F, Backed E s (fun _ => none) g F := by
  obtain ⟨⟨g, hsys, hdirs, hstorage⟩, hcur, hshares⟩ := h
  exact ⟨g, fun _ _ => 0, hsys, hcur, hdirs, fun i _ => ⟨hstorage i, hshares i⟩, nofun, nofun⟩

theorem switch (h : Backed E s R g F) (he : e ∈ E) : Backed E (s.switch e) R g F where
  system := h.system.load he (h.dirs e he)
  curenv := he
  dirs := h.dirs
  empty := h.empty
  backs i o hR :=
    have hi := h.backs i o hR
    ⟨hi.used, hi.size, hi.isWritable, hi.framesStorage, hi.root, hi.size_le, hi.storage,
      ⟨hi.creator.env, hi.creator.aligned, hi.creator.max, hi.creator.entry⟩, fun x hx =>
        have hg := hi.getters x hx
        ⟨hg.env, hg.aligned, hg.max, hg.entry⟩⟩
  inj := h.inj

theorem mark (h : Backed E s R g F) (hm : MarksEntry E s.machine g (.user e, n) m) :
    Backed E { s with machine := m } R g F where
  system := hm.system
  curenv := h.curenv
  dirs := h.dirs
  empty := h.empty
  backs i o hR := (h.backs i o hR).evolve (evolves_of_marksEntry hm) rfl
  inj := h.inj

theorem finds (h : Backed E s R g F) (hR : R i = some o) (hx : x ∈ o.holders) (ho : off < pageSize * pagesOf o.size) :
    Reaches E (s.switch x.1).machine g (.user x.1) (x.2 + off) ∧
      (s.switch x.1).machine.backing g (.user x.1) (x.2 + off) = F i (off / pageSize) ∧
      ∀ write, HasPerm ((s.switch x.1).machine.entries g (.user x.1, pageNumber (x.2 + off))) (accessPerm write) ↔
        HasPerm (pageEntry (o.permsOf x) (F i (off / pageSize))) (accessPerm write) := by
  have hsees := (h.backs i o hR).holder hx
  have hroot := h.dirs _ hsees.env
  have hmark := hsees.entry_at ho
  exact ⟨⟨(h.switch hsees.env).system.toLayout, user_mem_mmuTrees.mpr hsees.env, hroot,
    h.system.frameNumber_envCr3 hroot, hsees.lt ho⟩,
    hmark.frameNumber_eq.trans (frameNumber_pageEntry (o.permsOf_lt x)), hmark.accessPerm⟩

theorem contents_eq (hR : R i = some o) (ho : off < pageSize * pagesOf o.size) :
    contents s R F (i, off) = some (byteAt (s.machine.ram (F i (off / pageSize))) off) := by
  simp only [contents, hR, Option.bind_some, if_pos ho]

theorem ordinary (h : Backed E s R g F) (hR : R i = some o) (hk : k < pagesOf o.size) : Ordinary s.machine (F i k) :=
  ((h.backs i o hR).creator.inUse h.system createPerm_lt hk).toOrdinary

theorem load_run (h : Backed E s R g F) (hR : R i = some o) (hx : x ∈ o.holders) (ho : off < pageSize * pagesOf o.size) :
    ∃ b t, (onMachine (userLoad (x.2 + off))).run (s.switch x.1) = .ok (b, t) ∧ contents s R F (i, off) = some b ∧
      Backed E t R g F ∧ LazyMemories.Serves (contents s R F) (.load (i, off) b) (contents t R F) := by
  have hsees := (h.backs i o hR).holder hx
  have hu := h.switch hsees.env
  have hk : off / pageSize < pagesOf o.size := Nat.div_lt_of_lt_mul ho
  obtain ⟨hr, hframe, hperm⟩ := h.finds hR hx ho
  obtain ⟨m, hrun, hm, hram⟩ := hu.system.userLoad_run hr ((hperm false).mpr (o.hasPerm_read x _)) (hframe ▸ hu.ordinary hR hk)
  have hbyte : byteAt ((s.switch x.1).machine.ram (F i (off / pageSize))) (x.2 + off) =
      byteAt (s.machine.ram (F i (off / pageSize))) off := by
    simp only [byteAt, hsees.offset]
    rfl
  have hfills : Fills (contents s R F) (contents { s.switch x.1 with machine := m } R F) :=
    fills_contents fun j o' hj => ⟨o', hj, rfl, fun k hk => hram _ (hu.ordinary hj hk)⟩
  rw [hframe, hbyte] at hrun
  exact ⟨_, _, onMachine_run hrun, contents_eq hR ho, hu.mark hm, .load hfills (hfills _ _ (contents_eq hR ho))⟩

theorem store_run (h : Backed E s R g F) (hR : R i = some o) (hx : x ∈ o.holders) (ho : off < pageSize * pagesOf o.size)
    (hw : x = o.creator ∨ o.isWritable = 1) (b : UInt8) :
    ∃ t, (onMachine (userStore (x.2 + off) b)).run (s.switch x.1) = .ok ((), t) ∧ Backed E t R g F ∧
      LazyMemories.Serves (contents s R F) (.store (i, off) b) (contents t R F) := by
  have hsees := (h.backs i o hR).holder hx
  have hu := h.switch hsees.env
  have hk : off / pageSize < pagesOf o.size := Nat.div_lt_of_lt_mul ho
  obtain ⟨hr, hframe, hperm⟩ := h.finds hR hx ho
  obtain ⟨m, hrun, hm, hram⟩ := hu.system.userStore_run hr ((hperm true).mpr (SharedObject.hasPerm_write.mpr hw))
    (hframe ▸ hu.ordinary hR hk) b
  have hbyte (pg : Page) : setByte pg (x.2 + off) b = setByte pg off b := by
    simp only [setByte, hsees.offset]
  simp only [hframe, hbyte] at hram
  refine ⟨_, onMachine_run hrun, hu.mark hm, .store (fun a hne b' hb' => ?_) ?_⟩
  · obtain ⟨j, off'⟩ := a
    cases hj : R j with
    | none => simp [contents, hj] at hb'
    | some o' =>
      by_cases ho' : off' < pageSize * pagesOf o'.size
      · have hk' : off' / pageSize < pagesOf o'.size := Nat.div_lt_of_lt_mul ho'
        rw [contents_eq hj ho'] at hb' ⊢
        rw [← hb', hram _ (hu.ordinary hj hk')]
        split
        · rename_i he
          -- another byte of the same page
          obtain ⟨rfl, hpage⟩ := h.inj j i o' o hj hR _ hk' _ hk he
          have hoff : off' ≠ off := fun hoff => hne (hoff ▸ rfl)
          have hmod : off' % 4096 ≠ off % 4096 := by
            simp only [pageSize] at hpage
            omega
          rw [byteAt_setByte_of_ne hmod]
          rfl
        · rfl
      · simp [contents, hj, ho'] at hb'
  · rw [contents_eq hR ho, hram _ (hu.ordinary hR hk), if_pos rfl, byteAt_setByte]

theorem store_error (h : Backed E s R g F) (hR : R i = some o) (hx : x ∈ o.holders) (ho : off < pageSize * pagesOf o.size)
    (hw : ¬(x = o.creator ∨ o.isWritable = 1)) (b : UInt8) :
    (onMachine (userStore (x.2 + off) b)).run (s.switch x.1) = .error (.pageFault (x.2 + off)) := by
  obtain ⟨hr, -, hperm⟩ := h.finds hR hx ho
  have htr : (s.switch x.1).machine.translate (accessPerm true) (x.2 + off) = none := by
    rw [hr.translate (by decide) (by decide), if_neg fun hp => hw (SharedObject.hasPerm_write.mp ((hperm true).mp hp))]
  have hrun : (userStore (x.2 + off) b).run (s.switch x.1).machine = .error (.pageFault (x.2 + off)) := by
    have herr : (frameAt (accessPerm true) (x.2 + off)).run (s.switch x.1).machine = .error (.pageFault (x.2 + off)) := by
      rw [frameAt, run_bind_ok run_get, htr]
      rfl
    rw [userStore, run_bind_error herr]
  rw [onMachine, run_bind_ok run_get, hrun]
  rfl

end Backed

/-- The states of a run with the objects, and the accesses to bytes of objects in their order. -/
inductive AccessRun (E : Finset ℕ) : State → (ℕ → Option SharedObject) → List (Access (ℕ × ℕ) UInt8) → Prop
  | start {s : State} : Started E s → AccessRun E s (fun _ => none) []
  | switch {s : State} {R : ℕ → Option SharedObject} {xs : List (Access (ℕ × ℕ) UInt8)} (e : ℕ) : AccessRun E s R xs →
    e ∈ E → AccessRun E (s.switch e) R xs
  | create {s t : State} {R : ℕ → Option SharedObject} {xs : List (Access (ℕ × ℕ) UInt8)} {r : ℤ} (ownerID : ℤ)
    (name : String) (size isWritable va : ℕ) : AccessRun E s R xs → CreateArgs s name size isWritable va →
    (createSharedObject ownerID name size isWritable va).run s = .ok (r, t) →
    AccessRun E t (if 0 ≤ r then
      Function.update R r.toNat (some ⟨ownerID, name, size, isWritable, (s.curenv, va), []⟩) else R) xs
  | get {s t : State} {R : ℕ → Option SharedObject} {xs : List (Access (ℕ × ℕ) UInt8)} {r : ℤ} (ownerID : ℤ)
    (name : String) (va : ℕ) : AccessRun E s R xs → GetArgs s ownerID name va →
    (getSharedObject ownerID name va).run s = .ok (r, t) →
    AccessRun E t (if 0 ≤ r then
      Function.update R r.toNat ((R r.toNat).map fun o => { o with getters := (s.curenv, va) :: o.getters }) else R) xs
  | load {s t : State} {R : ℕ → Option SharedObject} {xs : List (Access (ℕ × ℕ) UInt8)} {i off : ℕ} {o : SharedObject}
    {x : ℕ × ℕ} {b : UInt8} : AccessRun E s R xs → R i = some o → x ∈ o.holders → off < pageSize * pagesOf o.size →
    (onMachine (userLoad (x.2 + off))).run (s.switch x.1) = .ok (b, t) → AccessRun E t R (xs ++ [.load (i, off) b])
  | store {s t : State} {R : ℕ → Option SharedObject} {xs : List (Access (ℕ × ℕ) UInt8)} {i off : ℕ} {o : SharedObject}
    {x : ℕ × ℕ} {b : UInt8} : AccessRun E s R xs → R i = some o → x ∈ o.holders → off < pageSize * pagesOf o.size →
    (onMachine (userStore (x.2 + off) b)).run (s.switch x.1) = .ok ((), t) → AccessRun E t R (xs ++ [.store (i, off) b])

/-- The accesses are those of the objects, whose bytes they have shown. -/
structure Observed (E : Finset ℕ) (s : State) (R : ℕ → Option SharedObject) (xs : List (Access (ℕ × ℕ) UInt8)) (g : Obj → ℕ)
    (F : ℕ → ℕ → ℕ) : Prop where
  backed : Backed E s R g F
  views : Views (fun _ => none) xs (contents s R F)

theorem AccessRun.observed {xs : List (Access (ℕ × ℕ) UInt8)} (h : AccessRun E s R xs) : ∃ g F, Observed E s R xs g F := by
  induction h with
  | start h =>
    obtain ⟨g, F, hb⟩ := Backed.start h
    exact ⟨g, F, hb, .nil _⟩
  | switch e _ he ih =>
    obtain ⟨g, F, hb, hv⟩ := ih
    exact ⟨g, F, hb.switch he, hv⟩
  | @create s t R xs r ownerID name size isWritable va _ ha hrun ih =>
    obtain ⟨g, F, hb, hv⟩ := ih
    by_cases huse : InUse s ownerID name
    · obtain ⟨rfl, rfl⟩ := Prod.mk.inj (Except.ok.inj ((createSharedObject_inUse huse ..).symm.trans hrun))
      exact ⟨g, F, hb, hv⟩
    · by_cases hfull : Full s
      · obtain ⟨rfl, rfl⟩ := Prod.mk.inj (Except.ok.inj ((createSharedObject_full huse hfull ..).symm.trans hrun))
        exact ⟨g, F, hb, hv⟩
      · obtain ⟨i, hi⟩ := exists_empty hfull
        obtain ⟨rfl, g', F', hb', hfills⟩ := hb.create ha huse hi hrun
        exact ⟨g', F', hb', hv.filled hfills⟩
  | @get s t R xs r ownerID name va _ ha hrun ih =>
    obtain ⟨g, F, hb, hv⟩ := ih
    rcases getShareObjectID_cases s ownerID name with ⟨i, hi, hit, hfind⟩ | ⟨hno, hfind⟩
    · obtain ⟨rfl, o, g', hR, hb', hfills⟩ := hb.getObject ha hi hfind hit hrun
      rw [if_pos (Int.natCast_nonneg i), Int.toNat_natCast, hR]
      exact ⟨g', F, hb', hv.filled hfills⟩
    · have hmiss : ¬InUse s ownerID name := fun hin => getShareObjectID_inUse.mpr hin hfind
      obtain ⟨rfl, rfl⟩ := Prod.mk.inj (Except.ok.inj ((getSharedObject_missing hmiss va).symm.trans hrun))
      exact ⟨g, F, hb, hv⟩
  | load _ hR hx ho hrun ih =>
    obtain ⟨g, F, hb, hv⟩ := ih
    obtain ⟨b, t, hrun', -, hb', hserves⟩ := hb.load_run hR hx ho
    obtain ⟨rfl, rfl⟩ := Prod.mk.inj (Except.ok.inj (hrun'.symm.trans hrun))
    exact ⟨g, F, hb', hv.append (.access hserves (.nil _))⟩
  | @store s t R xs i off o x b _ hR hx ho hrun ih =>
    obtain ⟨g, F, hb, hv⟩ := ih
    by_cases hw : x = o.creator ∨ o.isWritable = 1
    · obtain ⟨t, hrun', hb', hserves⟩ := hb.store_run hR hx ho hw b
      obtain ⟨-, rfl⟩ := Prod.mk.inj (Except.ok.inj (hrun'.symm.trans hrun))
      exact ⟨g, F, hb', hv.append (.access hserves (.nil _))⟩
    · rw [hb.store_error hR hx ho hw b] at hrun
      cases hrun

/-- One memory explains all that the holders of objects have read and written, wherever they have the objects. They read
what is in it, and only getters of an object that is not writable cannot write. -/
theorem sharedObjects_coherent {xs : List (Access (ℕ × ℕ) UInt8)} (h : AccessRun E s R xs) : ∃ before after,
    Explains before xs after ∧ ∀ i o x off, R i = some o → x ∈ o.holders → off < pageSize * pagesOf o.size →
      (∃ t, (onMachine (userLoad (x.2 + off))).run (s.switch x.1) = .ok (after (i, off), t)) ∧
      ∀ b, (x = o.creator ∨ o.isWritable = 1 → ∃ t, (onMachine (userStore (x.2 + off) b)).run (s.switch x.1) = .ok ((), t)) ∧
        (¬(x = o.creator ∨ o.isWritable = 1) →
          (onMachine (userStore (x.2 + off) b)).run (s.switch x.1) = .error (.pageFault (x.2 + off))) := by
  obtain ⟨g, F, hb, hv⟩ := h.observed
  obtain ⟨before, after, -, hexplains, hafter⟩ := hv.explained
  refine ⟨before, after, hexplains,
    fun i o x off hR hx ho => ⟨?_, fun b => ⟨fun hw => ?_, fun hw => hb.store_error hR hx ho hw b⟩⟩⟩
  · obtain ⟨b, t, hrun, hbyte, -⟩ := hb.load_run hR hx ho
    rw [hafter _ _ hbyte]
    exact ⟨t, hrun⟩
  · obtain ⟨t, hrun, -⟩ := hb.store_run hR hx ho hw b
    exact ⟨t, hrun⟩

/-- What the creator of an object writes, another environment reads at another address. -/
theorem sharedObjects_coherent_twoEnvironments : ∃ s R o e before after,
    AccessRun {0, 1} s R [.store (0, 4999) 7, .load (0, 4999) 7] ∧ R 0 = some o ∧
      o.holders = [(e, userHeapStart), (1, userHeapStart + pageSize)] ∧
      Explains before [.store (0, 4999) 7, .load (0, 4999) 7] after ∧
      ∀ x ∈ o.holders, ∃ t, (onMachine (userLoad (x.2 + 4999))).run (s.switch x.1) = .ok (after (0, 4999), t) := by
  obtain ⟨s, t, g, g', F, hstart, -, -, hargs, hrun, hobj, hempty, hframes, hroom⟩ :=
    exists_created 5000 (by decide) (by decide)
  have hcreate := AccessRun.create 7 "x" 5000 1 userHeapStart (.start hstart) hargs hrun
  rw [if_pos (by decide)] at hcreate
  set o : SharedObject := ⟨7, "x", 5000, 1, (0, userHeapStart), []⟩
  have hR : Function.update (fun _ => none) 0 (some o) 0 = some o := Function.update_self ..
  have htarget : Target (t.switch 1) (userHeapStart + pageSize) 5000 :=
    target_empty hobj.system (by simp [State.switch]) (hobj.dirs 1 (by simp)) hempty (by decide) (by decide) (by decide)
  have henough : Enough (t.switch 1) 0 1 := ⟨show 0 + 1 ≤ t.machine.freeFrameList.length by omega, hroom.mono (by omega)⟩
  obtain ⟨u, hget⟩ := hobj.serves.get 0 o (userHeapStart + pageSize) hR htarget
    (show Enough (t.switch 1) 0 (regions (pageNumber (userHeapStart + pageSize)) (pagesOf 5000)) from henough)
  have hgetArgs : GetArgs (t.switch 1) 7 "x" (userHeapStart + pageSize) := ⟨by decide, fun size hsize => by
    have := hobj.getSizeOfSharedObject_eq hR
    rw [show o.ownerID = 7 from rfl, show o.name = "x" from rfl, hsize] at this
    rw [Int.natCast_inj.mp this]
    exact htarget⟩
  have hgot := AccessRun.get 7 "x" (userHeapStart + pageSize) (hcreate.switch 1 (by simp)) hgetArgs hget
  rw [if_pos (by decide)] at hgot
  set o' : SharedObject := ⟨7, "x", 5000, 1, (s.curenv, userHeapStart), [(1, userHeapStart + pageSize)]⟩
  have hx : (s.curenv, userHeapStart) ∈ o'.holders := List.mem_cons_self ..
  have hy : (1, userHeapStart + pageSize) ∈ o'.holders := List.mem_cons_of_mem _ (List.mem_cons_self ..)
  have hlt : 4999 < pageSize * pagesOf 5000 := by decide
  -- the creator writes
  obtain ⟨_, _, -, hserve⟩ := sharedObjects_coherent hgot
  obtain ⟨v, hwrite⟩ := (hserve 0 o' _ 4999 (Function.update_self ..) hx hlt).2 7 |>.1 (.inl rfl)
  have hstored := AccessRun.store hgot (Function.update_self ..) hx hlt hwrite
  -- the getter reads
  obtain ⟨before, after, hexplains, hserve'⟩ := sharedObjects_coherent hstored
  obtain ⟨w, hread⟩ := (hserve' 0 o' _ 4999 (Function.update_self ..) hy hlt).1
  have hseven : after (0, 4999) = 7 := by
    cases hexplains with
    | cons _ htail =>
      cases htail
      exact Function.update_self (0, 4999) 7 before
  rw [hseven] at hread
  have hloaded := AccessRun.load hstored (Function.update_self ..) hy hlt hread
  obtain ⟨before', after', hexplains', hserve''⟩ := sharedObjects_coherent hloaded
  exact ⟨w, _, o', s.curenv, before', after', hloaded, Function.update_self .., rfl, hexplains',
    fun x hx => (hserve'' 0 o' x 4999 (Function.update_self ..) hx hlt).1⟩

end FosKernel.SharedMemory
