import Mathlib.Data.Int.Basic
import Mathlib.Algebra.Group.Nat.Defs
import Mathlib.Logic.Function.Basic
import Mathlib.Tactic.Common

/-!
# Strings in memory

A string is the list of its characters; in memory a zero byte ends it.
-/

namespace FosKernel.CStrings

abbrev Memory := ℕ → UInt8

/-- The characters `l` stand from `p` on, and a zero byte behind them. -/
def HoldsString (mem : Memory) : ℕ → List UInt8 → Prop
  | p, [] => mem p = 0
  | p, c :: l => mem p = c ∧ c ≠ 0 ∧ HoldsString mem (p + 1) l

/-- Writes the bytes of `l` from `p` on. -/
def store (mem : Memory) : ℕ → List UInt8 → Memory
  | _, [] => mem
  | p, c :: l => store (Function.update mem p c) (p + 1) l

/-- The characters before the zero byte. -/
abbrev CString := {l : List UInt8 // ∀ c ∈ l, c ≠ 0}

def CString.bytes (s : CString) : List UInt8 := s.1 ++ [0]

def strcpy (mem : Memory) (dst : ℕ) (src : CString) : Memory := store mem dst src.bytes

def memset (mem : Memory) (p : ℕ) (c : UInt8) (len : ℕ) : Memory := store mem p (List.replicate len c)

/-- The characters `p` are compared with those in memory. -/
def strcmp (mem : Memory) : List UInt8 → ℕ → ℤ
  | [], q => 0 - (mem q).toNat
  | c :: p, q => if c = mem q then strcmp mem p (q + 1) else c.toNat - (mem q).toNat

variable {mem mem' : Memory} {p q i n w a k : ℕ} {l l' : List UInt8} {c : UInt8} {s : CString}

theorem holdsString_nil : HoldsString mem p [] ↔ mem p = 0 := Iff.rfl

theorem holdsString_cons : HoldsString mem p (c :: l) ↔ mem p = c ∧ c ≠ 0 ∧ HoldsString mem (p + 1) l := Iff.rfl

theorem HoldsString.unique (h : HoldsString mem p l) (h' : HoldsString mem p l') : l = l' := by
  induction l generalizing p l' with
  | nil =>
    cases l' with
    | nil => rfl
    | cons c' l' => exact absurd (h'.1.symm.trans h) h'.2.1
  | cons c l ih =>
    cases l' with
    | nil => exact absurd (h.1.symm.trans h') h.2.1
    | cons c' l' => rw [h.1.symm.trans h'.1, ih h.2.2 h'.2.2]

theorem HoldsString.congr (h : HoldsString mem p l) (hmem : ∀ i ≤ l.length, mem' (p + i) = mem (p + i)) :
    HoldsString mem' p l := by
  induction l generalizing p with
  | nil => exact (hmem 0 (Nat.le_refl _)).trans h
  | cons c l ih =>
    refine ⟨(hmem 0 (Nat.zero_le _)).trans h.1, h.2.1, ih h.2.2 fun i hi => ?_⟩
    have := hmem (i + 1) (by simpa using hi)
    rwa [show p + 1 + i = p + (i + 1) by omega]

theorem HoldsString.nonzero (h : HoldsString mem p l) : ∀ c ∈ l, c ≠ 0 := by
  induction l generalizing p with
  | nil => simp
  | cons c l ih => exact List.forall_mem_cons.mpr ⟨h.2.1, ih h.2.2⟩

theorem HoldsString.end (h : HoldsString mem p l) : mem (p + l.length) = 0 := by
  induction l generalizing p with
  | nil => exact h
  | cons c l ih =>
    rw [List.length_cons, show p + (l.length + 1) = p + 1 + l.length by omega]
    exact ih h.2.2

theorem HoldsString.getElem (h : HoldsString mem p l) (hi : i < l.length) : mem (p + i) = l[i] := by
  induction l generalizing p i with
  | nil => exact absurd hi (Nat.not_lt_zero i)
  | cons c l ih =>
    cases i with
    | zero => exact h.1
    | succ i =>
      rw [show p + (i + 1) = p + 1 + i by omega, ih h.2.2 (by simpa using hi), List.getElem_cons_succ]

theorem holdsString_of_getElem (h : ∀ i (hi : i < l.length), mem (p + i) = l[i]) (hl : ∀ c ∈ l, c ≠ 0)
    (hend : mem (p + l.length) = 0) : HoldsString mem p l := by
  induction l generalizing p with
  | nil => exact hend
  | cons c l ih =>
    refine ⟨h 0 (by simp), hl c (by simp), ih (fun i hi => ?_) (fun c hc => hl c (by simp [hc])) ?_⟩
    · rw [show p + 1 + i = p + (i + 1) by omega, h (i + 1) (by simpa using hi), List.getElem_cons_succ]
    · rwa [List.length_cons, show p + (l.length + 1) = p + 1 + l.length by omega] at hend

theorem store_of_not (h : i < p ∨ p + l.length ≤ i) : store mem p l i = mem i := by
  induction l generalizing p mem with
  | nil => rfl
  | cons c l ih =>
    rw [List.length_cons] at h
    rw [store, ih (by omega), Function.update_of_ne (by omega)]

theorem store_getElem (hi : i < l.length) : store mem p l (p + i) = l[i] := by
  induction l generalizing p i mem with
  | nil => exact absurd hi (Nat.not_lt_zero i)
  | cons c l ih =>
    cases i with
    | zero => rw [store, store_of_not (by omega)]; simp
    | succ i =>
      rw [store, show p + (i + 1) = p + 1 + i by omega, ih (by simpa using hi), List.getElem_cons_succ]

/-- `strchr`; the result is an index. -/
def strchr : List UInt8 → UInt8 → Option ℕ
  | [], _ => none
  | d :: s, c => if d = c then some 0 else (strchr s c).map (· + 1)

theorem strchr_isSome : (strchr l c).isSome = true ↔ c ∈ l := by
  induction l with
  | nil => simp [strchr]
  | cons d l ih =>
    rw [strchr]
    split_ifs with h
    · simp [h]
    · rw [Option.isSome_map, ih, List.mem_cons]
      exact ⟨.inr, fun h' => h'.resolve_left (Ne.symm h)⟩

theorem HoldsString.drop (h : HoldsString mem p (l ++ l')) : HoldsString mem (p + l.length) l' := by
  induction l generalizing p with
  | nil => exact h
  | cons c l ih =>
    rw [List.length_cons, show p + (l.length + 1) = p + 1 + l.length by omega]
    exact ih h.2.2

theorem CString.length_bytes (s : CString) : s.bytes.length = s.1.length + 1 := by simp [CString.bytes]

theorem CString.bytes_ne (hk : k < s.1.length) (hk' : k < s.bytes.length) : s.bytes[k] ≠ 0 := by
  simp only [CString.bytes]
  rw [List.getElem_append_left hk]
  exact s.2 _ (List.getElem_mem hk)

theorem strcmp_eq_zero (hl : ∀ c ∈ l, c ≠ 0) : strcmp mem l q = 0 ↔ HoldsString mem q l := by
  induction l generalizing q with
  | nil =>
    rw [strcmp, holdsString_nil, ← UInt8.toNat_inj]
    simp
  | cons c l ih =>
    have hc := hl c (by simp)
    rw [strcmp, holdsString_cons]
    split_ifs with h
    · rw [ih fun d hd => hl d (by simp [hd])]
      exact ⟨fun hholds => ⟨h.symm, hc, hholds⟩, fun hholds => hholds.2.2⟩
    · have hne : c.toNat ≠ (mem q).toNat := mt UInt8.toNat_inj.mp h
      refine ⟨fun hzero => absurd hzero (by omega), fun hholds => absurd hholds.1.symm h⟩

theorem holdsString_strcpy (mem : Memory) (p : ℕ) (s : CString) : HoldsString (strcpy mem p s) p s.1 := by
  refine holdsString_of_getElem (fun i hi => ?_) s.2 ?_
  · rw [strcpy, store_getElem (by rw [s.length_bytes]; omega)]
    simp only [CString.bytes]
    exact List.getElem_append_left hi
  · rw [strcpy, store_getElem (by rw [s.length_bytes]; omega)]
    simp [CString.bytes]

theorem HoldsString.length_le (h : HoldsString mem q l) (hzero : mem (q + k) = 0) : l.length ≤ k := by
  by_contra hlt
  exact h.nonzero _ (List.getElem_mem (by omega)) ((h.getElem (by omega)).symm.trans hzero)

/-- Nothing from `q + w` on changes. -/
theorem store_eq_of (h : ∀ k (hk : k < l.length), w ≤ k → mem (q + k) = l[k]) (ha : q + w ≤ a) :
    store mem q l a = mem a := by
  by_cases hlt : a < q + l.length
  · obtain ⟨k, rfl⟩ : ∃ k, a = q + k := ⟨a - q, by omega⟩
    rw [store_getElem (by omega), h k (by omega) (by omega)]
  · exact store_of_not (.inr (by omega))

def wordBytes (n : ℕ) : List UInt8 :=
  [UInt8.ofNat n, UInt8.ofNat (n / 2 ^ 8), UInt8.ofNat (n / 2 ^ 16), UInt8.ofNat (n / 2 ^ 24)]

def word (mem : Memory) (p : ℕ) : ℕ :=
  (mem p).toNat + 2 ^ 8 * (mem (p + 1)).toNat + 2 ^ 16 * (mem (p + 2)).toNat + 2 ^ 24 * (mem (p + 3)).toNat

theorem word_eq_iff : word mem p = n % 2 ^ 32 ↔ mem p = UInt8.ofNat n ∧ mem (p + 1) = UInt8.ofNat (n / 2 ^ 8) ∧
    mem (p + 2) = UInt8.ofNat (n / 2 ^ 16) ∧ mem (p + 3) = UInt8.ofNat (n / 2 ^ 24) := by
  have h0 := (mem p).toNat_lt
  have h1 := (mem (p + 1)).toNat_lt
  have h2 := (mem (p + 2)).toNat_lt
  have h3 := (mem (p + 3)).toNat_lt
  simp only [← UInt8.toNat_inj, UInt8.toNat_ofNat', word]
  omega

theorem word_eq_getElem : word mem p = n % 2 ^ 32 ↔
    ∀ k (hk : k < (wordBytes n).length), mem (p + k) = (wordBytes n)[k] := by
  rw [word_eq_iff]
  refine ⟨fun ⟨h0, h1, h2, h3⟩ k hk => ?_, fun h => ⟨h 0 (by simp [wordBytes]), h 1 (by simp [wordBytes]),
    h 2 (by simp [wordBytes]), h 3 (by simp [wordBytes])⟩⟩
  match k, hk with
  | 0, _ => exact h0
  | 1, _ => exact h1
  | 2, _ => exact h2
  | 3, _ => exact h3

theorem words_getElem {n' : ℕ} (h : word mem p = n % 2 ^ 32) (h' : word mem (p + 4) = n' % 2 ^ 32)
    (hk : k < (wordBytes n ++ wordBytes n').length) : mem (p + k) = (wordBytes n ++ wordBytes n')[k] := by
  have hlen : (wordBytes n).length = 4 := rfl
  rw [List.length_append] at hk
  by_cases hlt : k < (wordBytes n).length
  · rw [List.getElem_append_left hlt]
    exact word_eq_getElem.mp h k hlt
  · rw [List.getElem_append_right (by omega)]
    have := word_eq_getElem.mp h' (k - 4) (by omega)
    rwa [show p + 4 + (k - 4) = p + k by omega] at this

theorem word_eq_zero : word mem p = 0 ↔ ∀ k < 4, mem (p + k) = 0 := by
  refine (word_eq_getElem (n := 0)).trans ⟨fun h k hk => ?_, fun h k hk => ?_⟩
  · rw [h k hk]
    match k, hk with
    | 0, _ | 1, _ | 2, _ | 3, _ => rfl
  · rw [h k hk]
    match k, hk with
    | 0, _ | 1, _ | 2, _ | 3, _ => rfl

theorem word_congr (h : ∀ k < 4, mem' (p + k) = mem (p + k)) : word mem' p = word mem p := by
  have h0 := h 0 (by omega)
  rw [Nat.add_zero] at h0
  rw [word, word, h0, h 1 (by omega), h 2 (by omega), h 3 (by omega)]

theorem word_store_self (mem : Memory) (p n : ℕ) : word (store mem p (wordBytes n)) p = n % 2 ^ 32 :=
  word_eq_getElem.mpr fun _ hk => store_getElem hk

theorem word_store_of_not (h : p + 4 ≤ q ∨ q + l.length ≤ p) : word (store mem q l) p = word mem p :=
  word_congr fun k hk => store_of_not (by omega)

theorem word_storeWord_of_not (h : p + 4 ≤ q ∨ q + 4 ≤ p) : word (store mem q (wordBytes n)) p = word mem p :=
  word_store_of_not h

theorem word_storeByte_of_not (h : p + 4 ≤ q ∨ q < p) : word (store mem q [c]) p = word mem p :=
  word_store_of_not h

theorem storeWord_of_not (h : a < q ∨ q + 4 ≤ a) : store mem q (wordBytes n) a = mem a := store_of_not h

theorem storeByte_of_not (h : a < q ∨ q < a) : store mem q [c] a = mem a := store_of_not h

theorem storeByte_self (mem : Memory) (p : ℕ) (c : UInt8) : store mem p [c] p = c := Function.update_self ..

end FosKernel.CStrings
