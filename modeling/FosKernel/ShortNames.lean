import Mathlib.Data.List.Find
import FosKernel.ObjectNames

/-!
# Tables with short names

As long as every name fits into its field, the tables made of bytes do what the tables whose
names are strings do.
-/

namespace FosKernel.ObjectNames
open FailingPrograms Machine CStrings

def bytesOf (name : String) : List UInt8 := name.toByteArray.data.toList

structure ShortName where
  name : String
  nonzero : ∀ c ∈ bytesOf name, c ≠ 0
  short : name.utf8ByteSize < 64

def ShortName.cstring (n : ShortName) : CString := ⟨bytesOf n.name, n.nonzero⟩

theorem ShortName.length_cstring (n : ShortName) : n.cstring.1.length < 64 := n.short

theorem bytesOf_inj {m n : String} : bytesOf m = bytesOf n ↔ m = n := by
  rw [bytesOf, bytesOf, ← String.toByteArray_inj, ByteArray.ext_iff, Array.toList_inj]

/-- The owner is an `int`. -/
theorem unsigned_inj {a b : ℤ} (ha : Scheduler.int32 a = a) (hb : Scheduler.int32 b = b) :
    unsigned a = unsigned b ↔ a = b := by
  refine ⟨fun h => ?_, fun h => h ▸ rfl⟩
  rw [← ha, ← hb, ← Scheduler.int32_unsigned a, h, Scheduler.int32_unsigned]

theorem unsigned_natCast_mod (n : ℕ) : unsigned (n : ℤ) = u32 n := by
  simp only [unsigned, u32]
  omega

theorem holdsString_iff {mem : Memory} {p : ℕ} {m : String} (h : HoldsString mem p (bytesOf m)) (n : ShortName) :
    HoldsString mem p n.cstring.1 ↔ m = n.name :=
  ⟨fun h' => bytesOf_inj.mp (h.unique h'), fun heq => by subst heq; exact h⟩

/-- A name in an entry of `w` bytes whose byte at `k` is zero. -/
theorem holdsString_entry {mem mem' : Memory} {p o k w : ℕ} {l : List UInt8} (h : HoldsString mem (p + o) l)
    (hzero : mem (p + k) = 0) (ho : o ≤ k) (hk : k < w) (hmem : ∀ i < w, mem' (p + i) = mem (p + i)) :
    HoldsString mem' (p + o) l := by
  have hlen := h.length_le (k := k - o) (by rw [Nat.add_assoc, Nat.add_sub_cancel' ho]; exact hzero)
  exact h.congr fun i hi => by rw [Nat.add_assoc, hmem _ (by omega)]

section Semaphores

variable {u t : Semaphores} {s s' : Scheduler.State} {ownerID : ℤ} {v : Scheduler.Semaphore} {initialValue i n p : ℕ}
  {mem mem' : Memory}

structure SemaphoreFields (mem : Memory) (p : ℕ) (v : Scheduler.Semaphore) : Prop where
  ownerID : word mem (p + SemaphoreOffset.ownerID) = unsigned v.ownerID
  int : Scheduler.int32 v.ownerID = v.ownerID
  name : HoldsString mem (p + SemaphoreOffset.name) (bytesOf v.name)
  value : word mem (p + SemaphoreOffset.value) = unsigned v.value

/-- The bytes of the table show the semaphores in use. -/
structure ShowsSemaphores (u : Semaphores) (s : Scheduler.State) : Prop where
  maxSemaphores : u.maxSemaphores = s.maxSemaphores
  empty : ∀ i < u.maxSemaphores, u.mem (u.semaphore i + SemaphoreOffset.empty) = 0 ↔ (s.semaphores i).empty = false
  used : ∀ i < u.maxSemaphores, (s.semaphores i).empty = false → SemaphoreFields u.mem (u.semaphore i) (s.semaphores i)

theorem empty_clearSemaphore (mem : Memory) (p : ℕ) : clearSemaphore mem p (p + SemaphoreOffset.empty) = 1 := by
  simp (disch := omega) only [clearSemaphore, listInit, SemaphoreOffset.empty, SemaphoreOffset.envQueue,
    QueueOffset.lhFirst, QueueOffset.lhLast, QueueOffset.size, storeWord_of_not, storeByte_self]

theorem SemaphoreFields.congr (h : SemaphoreFields mem p v) (hzero : mem (p + SemaphoreOffset.empty) = 0)
    (hmem : ∀ k < sizeofSemaphore, mem' (p + k) = mem (p + k)) : SemaphoreFields mem' p v := by
  have hword (o : ℕ) (ho : o + 4 ≤ sizeofSemaphore) : word mem' (p + o) = word mem (p + o) :=
    word_congr fun k hk => by rw [Nat.add_assoc, hmem _ (by omega)]
  exact ⟨(hword _ (by decide)).trans h.ownerID, h.int, holdsString_entry h.name hzero (by decide) (by decide) hmem,
    (hword _ (by decide)).trans h.value⟩

namespace ShowsSemaphores

variable (h : ShowsSemaphores u s)
include h

theorem hit_eq (n : ShortName) (hid : Scheduler.int32 ownerID = ownerID) (hi : i < u.maxSemaphores) :
    u.hit ownerID n.cstring i =
      (!(s.semaphores i).empty && (s.semaphores i).ownerID == ownerID && (s.semaphores i).name == n.name) := by
  rw [Bool.eq_iff_iff]
  simp only [Semaphores.hit, Bool.and_eq_true, beq_iff_eq, Bool.not_eq_true', strcmp_eq_zero n.cstring.2, h.empty i hi,
    and_assoc]
  refine and_congr_right fun hused => ?_
  have hf := h.used i hi hused
  rw [hf.ownerID, unsigned_inj hf.int hid, holdsString_iff hf.name]

theorem getSemaphoreObjectID_eq (n : ShortName) (hid : Scheduler.int32 ownerID = ownerID) :
    getSemaphoreObjectID u ownerID n.cstring = Scheduler.semaphoreCode (Scheduler.getSemaphoreObjectID s ownerID n.name) := by
  rw [getSemaphoreObjectID, Scheduler.getSemaphoreObjectID, ← h.maxSemaphores,
    List.find?_congr fun i hi => h.hit_eq n hid (List.mem_range.mp hi)]
  split <;> simp only [*, Scheduler.semaphoreCode]

theorem find_empty : (List.range u.maxSemaphores).find? (fun i => u.mem (u.semaphore i + SemaphoreOffset.empty) ≠ 0) =
    (List.range s.maxSemaphores).find? fun i => (s.semaphores i).empty := by
  rw [← h.maxSemaphores]
  refine List.find?_congr fun i hi => ?_
  rw [Bool.eq_iff_iff]
  simp only [ne_eq, h.empty i (List.mem_range.mp hi), Bool.not_eq_false, decide_eq_true_eq]

/-- Entry `i` has the fields of `v`, and the others are as they were. -/
theorem set (hi : i < u.maxSemaphores) (hmax : t.maxSemaphores = u.maxSemaphores) (hp : t.semaphores = u.semaphores)
    (hempty : t.mem (u.semaphore i + SemaphoreOffset.empty) = 0 ↔ v.empty = false)
    (hused : v.empty = false → SemaphoreFields t.mem (u.semaphore i) v)
    (hothers : ∀ j < u.maxSemaphores, j ≠ i → ∀ k < sizeofSemaphore, t.mem (u.semaphore j + k) = u.mem (u.semaphore j + k)) :
    ShowsSemaphores t (s.setSemaphore i v) := by
  have hsem (j : ℕ) : t.semaphore j = u.semaphore j := by rw [Semaphores.semaphore, Semaphores.semaphore, hp]
  refine ⟨hmax.trans h.maxSemaphores, fun j hj => ?_, fun j hj hfull => ?_⟩
  all_goals
    rw [hmax] at hj
    rw [hsem]
    simp only [Scheduler.State.setSemaphore] at *
    by_cases hji : j = i
  · rw [hji, Function.update_self, hempty]
  · rw [Function.update_of_ne hji, hothers j hj hji _ (by decide)]
    exact h.empty j hj
  · subst hji
    rw [Function.update_self] at hfull ⊢
    exact hused hfull
  · rw [Function.update_of_ne hji] at hfull ⊢
    exact (h.used j hj hfull).congr ((h.empty j hj).mpr hfull) (hothers j hj hji)

end ShowsSemaphores

theorem CreatedAt.fields {n : ShortName} (h : CreatedAt u t ownerID n.cstring initialValue i)
    (hid : Scheduler.int32 ownerID = ownerID) : t.mem (u.semaphore i + SemaphoreOffset.empty) = 0 ∧
      SemaphoreFields t.mem (u.semaphore i) ⟨ownerID, n.name, Scheduler.int32 initialValue, false⟩ := by
  have hlen := n.cstring.length_bytes
  have hshort := n.length_cstring
  have hcopy {a : ℕ} (mem : Memory) (ha : a < u.semaphore i + 4 ∨ u.semaphore i + 68 ≤ a) :
      strcpy mem (u.semaphore i + SemaphoreOffset.name) n.cstring a = mem a :=
    store_of_not (by simp only [SemaphoreOffset.name]; omega)
  rw [h.result]
  refine ⟨?_, ?_, hid, ?_, ?_⟩
  · simp (disch := omega) only [assignSemaphore, SemaphoreOffset.ownerID, SemaphoreOffset.value, SemaphoreOffset.empty,
      storeWord_of_not]
    rw [hcopy _ (by omega)]
    simp (disch := omega) only [storeWord_of_not, storeByte_self]
  · simp (disch := omega) only [assignSemaphore, SemaphoreOffset.ownerID, SemaphoreOffset.value, word_storeWord_of_not]
    rw [word_congr fun k hk => hcopy _ (by omega), Nat.add_zero, word_store_self,
      Nat.mod_eq_of_lt (unsigned_lt ownerID)]
  · refine (holdsString_strcpy _ _ _).congr fun k hk => storeWord_of_not ?_
    simp only [SemaphoreOffset.name, SemaphoreOffset.value]
    omega
  · rw [assignSemaphore, word_store_self, Scheduler.unsigned_int32, unsigned_natCast_mod, u32]

theorem ShowsSemaphores.createSemaphore (h : ShowsSemaphores u s) (n : ShortName) (hid : Scheduler.int32 ownerID = ownerID)
    (initialValue : ℕ) : Option.Rel (fun x y => x.2 = y.2 ∧ ShowsSemaphores x.1 y.1)
      (ObjectNames.createSemaphore u ownerID n.cstring initialValue)
      (Scheduler.createSemaphore s ownerID n.name initialValue) := by
  have hcode : getSemaphoreObjectID u ownerID n.cstring ≠ Scheduler.eSemaphoreExists := by
    rw [h.getSemaphoreObjectID_eq n hid]
    exact Scheduler.semaphoreCode_ne _
  have hfind := h.find_empty
  rcases hi : (List.range s.maxSemaphores).find? fun i => (s.semaphores i).empty with _ | i
  · rw [hi] at hfind
    simp only [ObjectNames.createSemaphore, if_neg hcode, allocateSemaphoreObject, hfind, Scheduler.createSemaphore,
      if_neg (Scheduler.semaphoreCode_ne _), Scheduler.allocateSemaphoreObject, hi]
    exact .none
  · rw [hi] at hfind
    have hne : (i : ℤ) ≠ Scheduler.eNoSemaphore := by
      simp only [Scheduler.eNoSemaphore]
      omega
    have hcall : ∃ t, ObjectNames.createSemaphore u ownerID n.cstring initialValue = some (t, (i : ℤ)) := by
      simp only [ObjectNames.createSemaphore, if_neg hcode, allocateSemaphoreObject, hfind, Option.bind_eq_bind,
        Option.bind_some, if_neg hne]
      exact ⟨_, rfl⟩
    obtain ⟨t, ht⟩ := hcall
    have hcall' : Scheduler.createSemaphore s ownerID n.name initialValue =
        some (s.setSemaphore i ⟨ownerID, n.name, Scheduler.int32 initialValue, false⟩, (i : ℤ)) := by
      simp [Scheduler.createSemaphore, Scheduler.semaphoreCode_ne, Scheduler.allocateSemaphoreObject, hi, hne,
        Scheduler.State.setSemaphore]
    obtain ⟨j, hj, hc⟩ := createSemaphore_cases ht (by omega)
    obtain rfl : i = j := by exact_mod_cast hj
    obtain ⟨hempty, hfields⟩ := hc.fields hid
    rw [ht, hcall']
    refine .some ⟨rfl, h.set hc.lt (by rw [hc.result]) (by rw [hc.result]) (by simpa using hempty) (fun _ => hfields) ?_⟩
    intro k _ hki o ho
    have hapart := u.semaphore_apart hki ho
    exact hc.mem_of_short n.length_cstring.le (by omega)

theorem ShowsSemaphores.freeSemaphoreObject (h : ShowsSemaphores u s) (i : ℕ) :
    (ObjectNames.freeSemaphoreObject u i).2 = (Scheduler.freeSemaphoreObject s i).2 ∧
      ShowsSemaphores (ObjectNames.freeSemaphoreObject u i).1 (Scheduler.freeSemaphoreObject s i).1 := by
  rw [ObjectNames.freeSemaphoreObject, Scheduler.freeSemaphoreObject, ← h.maxSemaphores]
  split
  · exact ⟨rfl, h⟩
  · rename_i hlt
    refine ⟨rfl, ?_⟩
    have hset : ShowsSemaphores { u with mem := clearSemaphore u.mem (u.semaphore i) } (s.setSemaphore i .cleared) := by
      refine h.set (by omega) rfl rfl ?_ (fun hfalse => absurd hfalse (by decide)) ?_
      · exact iff_of_false ((empty_clearSemaphore _ _).trans_ne (by decide)) (by decide)
      · exact fun j _ hji k hk => clearSemaphore_of_not (u.semaphore_apart hji hk)
    exact ⟨hset.maxSemaphores, hset.empty, hset.used⟩

theorem empty_createSemaphoresArray (mem : Memory) (p : ℕ) (hi : i < n) :
    (createSemaphoresArray mem p n).mem (p + sizeofSemaphore * i + SemaphoreOffset.empty) = 1 := by
  simp only [createSemaphoresArray]
  induction n with
  | zero => omega
  | succ n ih =>
    rw [List.range_succ, List.foldl_append, List.foldl_cons, List.foldl_nil]
    by_cases heq : i = n
    · rw [heq]
      exact empty_clearSemaphore _ _
    · rw [clearSemaphore_of_not (by simp only [sizeofSemaphore, SemaphoreOffset.empty]; omega)]
      exact ih (by omega)

theorem showsSemaphores_create (mem : Memory) (p n : ℕ) (s : Scheduler.State) :
    ShowsSemaphores (createSemaphoresArray mem p n) (Scheduler.createSemaphoresArray s n) := by
  obtain ⟨hmax, hclear⟩ := Scheduler.createSemaphoresArray_cleared s n
  refine ⟨hmax.symm, fun i hi => ?_, fun i hi hfull => ?_⟩
  · exact iff_of_false ((empty_createSemaphoresArray mem p hi).trans_ne (by decide))
      (by simp [(hclear i hi).1, Scheduler.Semaphore.cleared])
  · rw [(hclear i hi).1] at hfull
    exact absurd hfull (by decide)

/-- Each run with short names and owners that are `int`s is a run of the table of bytes, which
shows the semaphores at its end. -/
theorem TableRun.shows {ok : Scheduler.State → ℤ → String → Prop} {s₀ : Scheduler.State}
    (hok : ∀ s ownerID name, ok s ownerID name → Scheduler.int32 ownerID = ownerID ∧ ∀ c ∈ bytesOf name, c ≠ 0)
    (h : Scheduler.TableRun ok s₀ n s) (mem : Memory) (p : ℕ) : ∃ u calls, SemaphoreRun u calls ∧ ShowsSemaphores u s := by
  induction h with
  | start => exact ⟨_, _, .start mem p n, showsSemaphores_create mem p n s₀⟩
  | @create s s' ownerID name initialValue r _ hshort hcond hcall ih =>
    obtain ⟨u, calls, hrun, hshows⟩ := ih
    obtain ⟨hid, hnonzero⟩ := hok _ _ _ hcond
    have hrel := hshows.createSemaphore ⟨name, hnonzero, hshort⟩ hid initialValue
    rw [hcall] at hrel
    obtain ⟨t, r', ht, hr, hnext⟩ : ∃ t r', ObjectNames.createSemaphore u ownerID ⟨bytesOf name, hnonzero⟩ initialValue =
        some (t, r') ∧ r' = r ∧ ShowsSemaphores t s' := by
      generalize hx : ObjectNames.createSemaphore u ownerID _ initialValue = x at hrel
      cases hrel with
      | some hr => exact ⟨_, _, hx, hr.1, hr.2⟩
    have hpos : 0 ≤ r' := hr ▸ Scheduler.createSemaphore_pos hcall
    exact ⟨t, _, hrun.create ownerID _ initialValue ht hpos, hnext⟩
  | free i _ ih =>
    obtain ⟨u, calls, hrun, hshows⟩ := ih
    exact ⟨_, calls, hrun.free i, (hshows.freeSemaphoreObject i).2⟩

end Semaphores

section SharedObjects

variable {s s' : State} {t t' : SharedMemory.State} {ownerID : ℤ} {n : ShortName} {v : SharedMemory.Share}
  {size isWritable va i j k p : ℕ} {mem mem' : Memory}

structure ShareFields (mem : Memory) (p : ℕ) (v : SharedMemory.Share) : Prop where
  ownerID : word mem (p + ShareOffset.ownerID) = unsigned v.ownerID
  intOwner : Scheduler.int32 v.ownerID = v.ownerID
  name : HoldsString mem (p + ShareOffset.name) (bytesOf v.name)
  size : word mem (p + ShareOffset.size) = unsigned v.size
  intSize : Scheduler.int32 v.size = v.size
  references : word mem (p + ShareOffset.references) = v.references
  isWritable : mem (p + ShareOffset.isWritable) = UInt8.ofNat v.isWritable
  framesStorage : word mem (p + ShareOffset.framesStorage) = v.framesStorage

/-- The bytes of the table show the objects in use, on one machine. -/
structure ShowsShares (s : State) (t : SharedMemory.State) : Prop where
  machine : s.machine = t.machine
  curenv : s.curenv = t.curenv
  maxShares : s.maxShares = t.maxShares
  empty : ∀ i < s.maxShares, s.mem (s.share i + ShareOffset.empty) = 0 ↔ (t.shares i).empty = false
  used : ∀ i < s.maxShares, (t.shares i).empty = false → ShareFields s.mem (s.share i) (t.shares i)

theorem ShareFields.congr (h : ShareFields mem p v) (hzero : mem (p + ShareOffset.empty) = 0)
    (hmem : ∀ k < sizeofShare, mem' (p + k) = mem (p + k)) : ShareFields mem' p v := by
  have hword (o : ℕ) (ho : o + 4 ≤ sizeofShare) : word mem' (p + o) = word mem (p + o) :=
    word_congr fun k hk => by rw [Nat.add_assoc, hmem _ (by omega)]
  exact ⟨(hword _ (by decide)).trans h.ownerID, h.intOwner, holdsString_entry h.name hzero (by decide) (by decide) hmem,
    (hword _ (by decide)).trans h.size, h.intSize, (hword _ (by decide)).trans h.references,
    (hmem _ (by decide)).trans h.isWritable, (hword _ (by decide)).trans h.framesStorage⟩

namespace ShowsShares

variable (h : ShowsShares s t)
include h

theorem hit_eq (n : ShortName) (hid : Scheduler.int32 ownerID = ownerID) (hi : i < s.maxShares) :
    s.hit ownerID n.cstring i = t.hit ownerID n.name i := by
  rw [Bool.eq_iff_iff, hit_iff]
  simp only [SharedMemory.State.hit, Bool.and_eq_true, beq_iff_eq, Bool.not_eq_true', h.empty i hi, and_assoc]
  refine and_congr_right fun hused => ?_
  have hf := h.used i hi hused
  rw [hf.ownerID, unsigned_inj hf.intOwner hid, holdsString_iff hf.name, eq_comm (a := n.name)]

theorem getShareObjectID_eq (n : ShortName) (hid : Scheduler.int32 ownerID = ownerID) :
    getShareObjectID s ownerID n.cstring = SharedMemory.getShareObjectID t ownerID n.name := by
  have hfind : (List.range s.maxShares).find? (s.hit ownerID n.cstring) =
      (List.range t.maxShares).find? (t.hit ownerID n.name) := by
    rw [← h.maxShares]
    exact List.find?_congr fun i hi => h.hit_eq n hid (List.mem_range.mp hi)
  rcases hi : (List.range t.maxShares).find? (t.hit ownerID n.name) with _ | i <;>
    simp only [getShareObjectID, SharedMemory.getShareObjectID, hfind, hi]

theorem find_empty : (List.range s.maxShares).find? (fun i => s.mem (s.share i + ShareOffset.empty) ≠ 0) =
    (List.range t.maxShares).find? fun i : ℕ => (t.shares i).empty := by
  rw [← h.maxShares]
  refine List.find?_congr fun i hi => ?_
  rw [Bool.eq_iff_iff]
  simp only [ne_eq, h.empty i (List.mem_range.mp hi), Bool.not_eq_false, decide_eq_true_eq]

theorem getSizeOfSharedObject_eq (n : ShortName) (hid : Scheduler.int32 ownerID = ownerID) :
    getSizeOfSharedObject s ownerID n.cstring = SharedMemory.getSizeOfSharedObject t ownerID n.name := by
  rw [getSizeOfSharedObject, SharedMemory.getSizeOfSharedObject, h.getShareObjectID_eq n hid]
  split
  · rfl
  · rename_i hfound
    rcases hfind : (List.range t.maxShares).find? (t.hit ownerID n.name) with _ | i <;>
      simp only [SharedMemory.getShareObjectID, hfind, not_true_eq_false] at hfound ⊢
    · have hi : i < s.maxShares := h.maxShares ▸ List.mem_range.mp (List.mem_of_find?_eq_some hfind)
      have hhit := List.find?_some hfind
      simp only [SharedMemory.State.hit, Bool.and_eq_true, Bool.not_eq_true'] at hhit
      have hf := h.used i hi hhit.1.1
      rw [Int.toNat_natCast, hf.size, Scheduler.int32_unsigned, hf.intSize]

/-- Entry `i` has the fields of `v`, and the others are as they were. -/
theorem set (hi : i < s.maxShares) (hmax : s'.maxShares = s.maxShares) (hp : s'.shares = s.shares)
    (hmachine : s'.machine = t'.machine) (hcurenv : s'.curenv = t'.curenv) (hmax' : t'.maxShares = t.maxShares)
    (hshares : t'.shares = Function.update t.shares i v) (hempty : v.empty = false)
    (hzero : s'.mem (s.share i + ShareOffset.empty) = 0) (hfields : ShareFields s'.mem (s.share i) v)
    (hothers : ∀ j < s.maxShares, j ≠ i → ∀ k < sizeofShare, s'.mem (s.share j + k) = s.mem (s.share j + k)) :
    ShowsShares s' t' := by
  have hshare (j : ℕ) : s'.share j = s.share j := by rw [State.share, State.share, hp]
  refine ⟨hmachine, hcurenv, hmax.trans (h.maxShares.trans hmax'.symm), fun j hj => ?_, fun j hj hfull => ?_⟩
  all_goals
    rw [hmax] at hj
    rw [hshare]
    rw [hshares] at *
    by_cases hji : j = i
  · subst hji
    rw [Function.update_self, hzero, hempty]
    exact iff_of_true rfl rfl
  · rw [Function.update_of_ne (by exact_mod_cast hji), hothers j hj hji _ (by decide)]
    exact h.empty j hj
  · subst hji
    rwa [Function.update_self]
  · rw [Function.update_of_ne (by exact_mod_cast hji)] at hfull ⊢
    exact (h.used j hj hfull).congr ((h.empty j hj).mpr hfull) (hothers j hj hji)

end ShowsShares

theorem onMachine_runsAs {α : Type} (x : Kernel α) (h : s.machine = t.machine) :
    RunsAs (fun a s' t' => ∃ m, x.run s.machine = .ok (a, m) ∧ s' = { s with machine := m } ∧ t' = { t with machine := m })
      (onMachine x) s (SharedMemory.onMachine x) t := by
  rcases hx : x.run s.machine with e | ⟨a, m⟩
  · refine .of_error (e := e) ?_ ?_
    · rw [onMachine, run_bind_ok run_get, hx]
      rfl
    · rw [SharedMemory.onMachine, run_bind_ok run_get, ← h, hx]
      rfl
  · exact .of_ok (onMachine_run hx) (SharedMemory.onMachine_run (h ▸ hx)) ⟨m, rfl, rfl, rfl⟩

theorem createFramesStorage_lt {E : Finset ℕ} {g : Obj → ℕ} {L : Set ℕ} {m m' : Machine} (h : System E m g L)
    (hrun : SharedMemory.createFramesStorage.run m = .ok (p, m')) : p < 2 ^ 32 := by
  obtain ⟨f, hnew⟩ := (SharedMemory.createFramesStorage_sat h).ok hrun
  exact hnew.heap.lt

/-- The entry that was taken, on one machine. -/
structure Takes (s : State) (t : SharedMemory.State) (s' : State) (t' : SharedMemory.State) (i : ℕ) : Prop where
  allocated : ∃ framesStorage < 2 ^ 32, Allocated s s' i framesStorage ∧
    t'.shares = Function.update t.shares i { t.shares i with empty := false, framesStorage := framesStorage }
  machine : s'.machine = t'.machine
  curenv : s'.curenv = t'.curenv
  maxShares : t'.maxShares = t.maxShares

theorem ShowsShares.allocateShareObject {E : Finset ℕ} {g : Obj → ℕ} {L : Set ℕ} (h : ShowsShares s t)
    (hsys : System E s.machine g L) :
    RunsAs (fun r s' t' => r = SharedMemory.eNoShare ∧ ShowsShares s' t' ∨ ∃ i : ℕ, r = i ∧ Takes s t s' t' i)
      ObjectNames.allocateShareObject s SharedMemory.allocateShareObject t := by
  have hfind := h.find_empty
  rw [ObjectNames.allocateShareObject, SharedMemory.allocateShareObject]
  refine .bind_ok run_get run_get ?_
  rcases hi : (List.range t.maxShares).find? fun i : ℕ => (t.shares i).empty with _ | i
  · simp only [hi, hfind]
    exact .pure (.inl ⟨rfl, h⟩)
  · rw [hi] at hfind
    simp only [hfind]
    have hlt := List.mem_range.mp (List.mem_of_find?_eq_some hfind)
    have hempty := List.find?_some hfind
    refine .bind_ok (run_modify _) (run_modify _) (.bind (onMachine_runsAs _ h.machine) ?_)
    rintro p _ _ ⟨m, hp, rfl, rfl⟩
    refine .bind_ok (run_modify _) (run_modify _) (.bind (onMachine_runsAs _ rfl) ?_)
    rintro _ _ _ ⟨m', -, rfl, rfl⟩
    refine .pure (.inr ⟨i, rfl,
      ⟨p, createFramesStorage_lt hsys hp, ⟨hlt, ⟨m, hp⟩, rfl, rfl, rfl, by simpa using hempty⟩, ?_⟩, rfl, h.curenv,
      rfl⟩)
    simp [SharedMemory.State.setShare]

theorem Allocated.fields {u : State} {framesStorage : ℕ} (h : Allocated s u i framesStorage) (hp : framesStorage < 2 ^ 32)
    (hid : Scheduler.int32 ownerID = ownerID) (n : ShortName) (size isWritable : ℕ) :
    let mem := strcpy (assignShare u.mem (s.share i) ownerID size isWritable) (s.share i + ShareOffset.name) n.cstring
    mem (s.share i + ShareOffset.empty) = 0 ∧ ShareFields mem (s.share i)
      ⟨ownerID, n.name, Scheduler.int32 size, 1, isWritable % 2 ^ 8, false, framesStorage⟩ := by
  intro mem
  have hlen := n.cstring.length_bytes
  have hshort := n.length_cstring
  have hread := readShare_assignShare h ownerID size isWritable
  simp only [readShare, Share.mk.injEq] at hread
  obtain ⟨howner, hsize, hrefs, hwritable, hempty, hstorage⟩ := hread
  have hkeep {a : ℕ} (ha : a < s.share i + 4 ∨ s.share i + 68 ≤ a) :
      mem a = assignShare u.mem (s.share i) ownerID size isWritable a :=
    store_of_not (by simp only [ShareOffset.name]; omega)
  have hword (o : ℕ) (ho : o + 4 ≤ 4 ∨ 68 ≤ o) : word mem (s.share i + o) =
      word (assignShare u.mem (s.share i) ownerID size isWritable) (s.share i + o) :=
    word_congr fun k hk => hkeep (by omega)
  refine ⟨?_, ?_, hid, holdsString_strcpy _ _ _, ?_, ?_, ?_, ?_, ?_⟩
  · rw [hkeep (by simp only [ShareOffset.empty]; omega), hempty]
  · rw [hword _ (by decide), howner, u32_of_lt (unsigned_lt ownerID)]
  · rw [hword _ (by decide), hsize, Scheduler.unsigned_int32, unsigned_natCast_mod]
  · rw [Scheduler.int32, Scheduler.int32, Int.bmod_bmod]
  · rw [hword _ (by decide), hrefs]
    rfl
  · rw [hkeep (by simp only [ShareOffset.isWritable]; omega), hwritable]
    exact UInt8.toNat_inj.mp (by simp)
  · rw [hword _ (by decide), hstorage, u32_of_lt hp]

/-- A creation with a short name panics in both tables, or returns the same and leaves both with
the same objects, on the same machine. -/
theorem ShowsShares.createSharedObject {E : Finset ℕ} {g : Obj → ℕ} {L : Set ℕ} (h : ShowsShares s t)
    (hsys : System E s.machine g L) (n : ShortName) (hid : Scheduler.int32 ownerID = ownerID) (size isWritable va : ℕ) :
    RunsAs (fun _ => ShowsShares) (ObjectNames.createSharedObject ownerID n.cstring size isWritable va) s
      (SharedMemory.createSharedObject ownerID n.name size isWritable va) t := by
  rw [ObjectNames.createSharedObject, SharedMemory.createSharedObject]
  refine .bind_ok run_get run_get (.bind_ok run_get run_get ?_)
  rw [h.getShareObjectID_eq n hid]
  split
  · exact .pure h
  refine .bind (h.allocateShareObject hsys) ?_
  rintro r s' t' (⟨rfl, hsame⟩ | ⟨i, rfl, htaken⟩)
  · exact .pure hsame
  have hne : (i : ℤ) ≠ SharedMemory.eNoShare := by
    simp only [SharedMemory.eNoShare]
    omega
  obtain ⟨p, hp, hu, hshares⟩ := htaken.allocated
  have hshare : s'.share i = s.share i := by rw [State.share, State.share, hu.shares]
  have hfields := hu.fields hp hid n size isWritable
  have hpage : word s'.mem (s.share i + ShareOffset.framesStorage) = (t'.shares i).framesStorage := by
    rw [hshares, Function.update_self, hu.mem, word_store_self, Nat.mod_eq_of_lt hp]
  rw [if_pos hne, if_pos hne]
  refine .bind_ok run_get run_get ?_
  dsimp only
  rw [Int.toNat_natCast, hshare, hpage, h.curenv, htaken.machine]
  refine .bind (onMachine_runsAs _ htaken.machine) ?_
  rintro _ _ _ ⟨m, -, rfl, rfl⟩
  rw [RunsAs, run_bind_ok (run_modify _), run_bind_ok (run_modify _), run_bind_ok (run_modify _)]
  refine ⟨rfl, h.set hu.lt hu.maxShares hu.shares rfl htaken.curenv htaken.maxShares
    (v := ⟨ownerID, n.name, Scheduler.int32 size, 1, isWritable % 2 ^ 8, false, p⟩) ?_ rfl hfields.1 hfields.2 ?_⟩
  · simp only [SharedMemory.State.setShare, hshares, Function.update_self, Function.update_idem]
    rfl
  · intro j _ hji k hk
    have hapart := s.share_apart hji hk
    have hlen := n.cstring.length_bytes
    have hshort := n.length_cstring
    simp only [sizeofShare] at hapart
    have hcopy : s.share j + k < s.share i + 4 ∨ s.share i + 4 + n.cstring.bytes.length ≤ s.share j + k := by omega
    exact (store_of_not hcopy).trans (assignShare_of_not hu hapart)

end SharedObjects

end FosKernel.ObjectNames
