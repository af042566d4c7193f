import FosKernel.CStrings
import FosKernel.Scheduler
import Mathlib.Data.Nat.Digits.Defs

/-!
# Numbers as strings

`ltostr` writes the digits from the last one on and turns them around. It goes on as
long as the next digit is not 0.
-/

namespace FosKernel.DecimalStrings
open CStrings Scheduler

/-- `mod + '0'` as a `char` -/
def digitChar (mod : ℤ) : UInt8 := UInt8.ofNat (unsigned (mod + 48))

theorem natAbs_tdiv_lt {v : ℤ} (h : (v.tdiv 10).tmod 10 ≠ 0) : (v.tdiv 10).natAbs < v.natAbs := by
  have hv : v ≠ 0 := by
    rintro rfl
    exact h rfl
  rw [Int.natAbs_tdiv]
  exact Nat.div_lt_self (Int.natAbs_pos.mpr hv) (by decide)

/-- The `do` loop, which goes on from `str[s]`. -/
def digitLoop (str : ℕ) (value : ℤ) (mem : Memory) (s : ℕ) : Memory × ℕ :=
  let mem := Function.update mem (str + s) (digitChar (value.tmod 10))
  if (value.tdiv 10).tmod 10 ≠ 0 then digitLoop str (value.tdiv 10) mem (s + 1)
  else (mem, s + 1)
termination_by value.natAbs
decreasing_by exact natAbs_tdiv_lt ‹_›

/-- `while(start<end)` -/
def reverseLoop (str : ℕ) (mem : Memory) (start stop : ℕ) : Memory :=
  if start < stop then
    let tmp := mem (str + start)
    let mem := Function.update mem (str + start) (mem (str + stop))
    reverseLoop str (Function.update mem (str + stop) tmp) (start + 1) (stop - 1)
  else mem
termination_by stop - start

def ltostr (value : ℤ) (str : ℕ) (mem : Memory) : Memory :=
  let neg := value < 0
  let mem := if neg then Function.update mem str 45 else mem
  let value := if neg then int32 (value * -1) else value
  let s := if neg then 1 else 0
  let (mem, s) := digitLoop str value mem s
  let mem := reverseLoop str mem (if neg then 1 else 0) (s - 1)
  Function.update mem (str + s) 0

/-- `while (*s == ' ' || *s == '\t')` -/
def skipBlanks : List UInt8 → List UInt8
  | [] => []
  | c :: s => if c = 32 ∨ c = 9 then skipBlanks s else c :: s

def readSign : List UInt8 → Bool × List UInt8
  | 43 :: s => (false, s)
  | 45 :: s => (true, s)
  | s => (false, s)

def readPrefix (base : ℤ) (s : List UInt8) : ℤ × List UInt8 :=
  if (base = 0 ∨ base = 16) ∧ s.take 2 = [48, 120] then (16, s.drop 2)
  else if base = 0 ∧ s.head? = some 48 then (8, s.drop 1)
  else if base = 0 then (10, s)
  else (base, s)

def digitValue (c : UInt8) : Option ℤ :=
  if 48 ≤ c ∧ c ≤ 57 then some (c.toNat - 48)
  else if 97 ≤ c ∧ c ≤ 122 then some (c.toNat - 97 + 10)
  else if 65 ≤ c ∧ c ≤ 90 then some (c.toNat - 65 + 10)
  else none

def readDigits (base val : ℤ) : List UInt8 → ℤ × List UInt8
  | [] => (val, [])
  | c :: s =>
    match digitValue c with
    | none => (val, c :: s)
    | some dig => if base ≤ dig then (val, c :: s) else readDigits base (int32 (val * base + dig)) s

/-- The value, and the characters from `*endptr` on. -/
def strtol (s : List UInt8) (base : ℤ) : ℤ × List UInt8 :=
  let s := skipBlanks s
  let (neg, s) := readSign s
  let (base, s) := readPrefix base s
  let (val, endptr) := readDigits base 0 s
  (if neg then int32 (-val) else val, endptr)

/-- The decimal digits of a number, the last one first. -/
def decimalDigits (n : ℕ) : List ℕ := if n = 0 then [0] else Nat.digits 10 n

def signOf (v : ℤ) : List UInt8 := if v < 0 then [45] else []

def canonical (v : ℤ) : List UInt8 :=
  signOf v ++ (decimalDigits v.natAbs).reverse.map fun d : ℕ => digitChar d

/-- The string that `ltostr` leaves is the canonical one, and `strtol` reads the
number in it. -/
structure Printed (str : ℕ) (mem : Memory) (v : ℤ) : Prop where
  text : HoldsString (ltostr v str mem) str (canonical v)
  read : ∀ l, HoldsString (ltostr v str mem) str l → (strtol l 10).1 = v

def NoInnerZero (v : ℤ) : Prop := v ≠ -2 ^ 31 ∧ ∀ d ∈ (Nat.digits 10 v.natAbs).tail, d ≠ 0

variable {str start stop s n : ℕ} {mem : Memory} {v value : ℤ}

/-- The remainders that the `do` loop writes. -/
def written (value : ℤ) : List ℤ :=
  value.tmod 10 :: if (value.tdiv 10).tmod 10 ≠ 0 then written (value.tdiv 10) else []
termination_by value.natAbs
decreasing_by exact natAbs_tdiv_lt ‹_›

theorem digitLoop_eq (value : ℤ) (mem : Memory) (s : ℕ) : digitLoop str value mem s =
    (store mem (str + s) ((written value).map digitChar), s + (written value).length) := by
  induction value, mem, s using digitLoop.induct str with
  | case1 value mem s mem' h ih =>
    have hw : written value = value.tmod 10 :: written (value.tdiv 10) := by rw [written, if_pos h]
    rw [digitLoop, if_pos h, ih, hw, List.map_cons, store, List.length_cons, ← Nat.add_assoc, Nat.add_assoc s,
      Nat.add_comm 1, ← Nat.add_assoc]
  | case2 value mem s h =>
    rw [digitLoop, if_neg h, written, if_neg h, List.map_singleton, store, store, List.length_singleton]

theorem reverseLoop_eq (mem : Memory) (h : start ≤ stop + 1) : reverseLoop str mem start stop =
    fun i => if str + start ≤ i ∧ i ≤ str + stop then mem (str + start + (str + stop) - i) else mem i := by
  induction mem, start, stop using reverseLoop.induct str with
  | case1 mem start stop hlt tmp mem' ih =>
    rw [reverseLoop, if_pos hlt, ih (by omega)]
    simp only [tmp, mem']
    funext i
    by_cases hin : str + (start + 1) ≤ i ∧ i ≤ str + (stop - 1)
    · -- between the two bytes that are exchanged
      rw [if_pos hin, if_pos (by omega), Function.update_of_ne (by omega), Function.update_of_ne (by omega)]
      congr 1
      omega
    · rw [if_neg hin]
      by_cases hstop : i = str + stop
      · subst hstop
        rw [Function.update_self, if_pos (by omega)]
        congr 1
        omega
      · rw [Function.update_of_ne hstop]
        by_cases hstart : i = str + start
        · subst hstart
          rw [Function.update_self, if_pos (by omega)]
          congr 1
          omega
        · rw [Function.update_of_ne hstart, if_neg (by omega)]
  | case2 mem start stop hnot =>
    rw [reverseLoop, if_neg hnot]
    funext i
    split_ifs with hin
    · congr 1
      omega
    · rfl

def absolute (v : ℤ) : ℤ := if v < 0 then int32 (v * -1) else v

/-- The string that `ltostr` leaves. -/
def text (v : ℤ) : List UInt8 := signOf v ++ (written (absolute v)).reverse.map digitChar

theorem tmod_bounds (v : ℤ) : -10 < v.tmod 10 ∧ v.tmod 10 < 10 := by
  have h := Int.natAbs_tmod v 10
  have := Nat.mod_lt v.natAbs (show 0 < (10 : ℤ).natAbs by decide)
  omega

theorem written_bounds {d : ℤ} (h : d ∈ written value) : -10 < d ∧ d < 10 := by
  induction value using written.induct with
  | case1 value ih =>
    rw [written, List.mem_cons] at h
    rcases h with rfl | h
    · exact tmod_bounds value
    · by_cases hz : (value.tdiv 10).tmod 10 ≠ 0
      · rw [if_pos hz] at h
        exact ih hz h
      · rw [if_neg hz] at h
        exact absurd h (List.not_mem_nil)

theorem digitChar_ne_zero {d : ℤ} (h : -10 < d ∧ d < 10) : digitChar d ≠ 0 := by
  intro hz
  have := congrArg UInt8.toNat hz
  simp only [digitChar, unsigned, UInt8.toNat_ofNat'] at this
  rw [show (0 : UInt8).toNat = 0 from rfl] at this
  omega

theorem written_ne_nil (v : ℤ) : written v ≠ [] := by
  rw [written]
  exact List.cons_ne_nil _ _

theorem ltostr_holds (v : ℤ) (str : ℕ) (mem : Memory) : HoldsString (ltostr v str mem) str (text v) := by
  obtain ⟨chars, hchars⟩ : ∃ chars, chars = (written (absolute v)).map digitChar := ⟨_, rfl⟩
  have hpos : 0 < chars.length := by
    rw [hchars, List.length_map]
    exact List.length_pos_of_ne_nil (written_ne_nil _)
  obtain ⟨k, hk⟩ : ∃ k, k = (signOf v).length := ⟨_, rfl⟩
  obtain ⟨mem₁, hmem₁⟩ : ∃ mem₁, mem₁ = if v < 0 then Function.update mem str 45 else mem := ⟨_, rfl⟩
  have hk' : (if v < 0 then 1 else 0) = k := by
    rw [hk, signOf]
    split_ifs <;> rfl
  have hrun : ltostr v str mem = Function.update (reverseLoop str (store mem₁ (str + k) chars) k (k + chars.length - 1))
      (str + (k + chars.length)) 0 := by
    simp only [ltostr, digitLoop_eq, hk']
    rw [hchars, List.length_map, hmem₁, absolute]
  have htext : text v = signOf v ++ chars.reverse := by rw [text, List.map_reverse, hchars]
  rw [hrun, htext, reverseLoop_eq _ (by omega)]
  refine holdsString_of_getElem (fun i hi => ?_) (fun c hc => ?_) ?_
  · rw [List.length_append, ← hk, List.length_reverse] at hi
    rw [Function.update_of_ne (by omega)]
    by_cases hik : i < k
    · rw [if_neg (by omega), store_of_not (.inl (by omega)), List.getElem_append_left (by omega)]
      rw [hk, signOf] at hik
      split_ifs at hik with hneg
      · obtain rfl : i = 0 := by simpa using hik
        simp [hmem₁, signOf, hneg]
      · exact absurd hik (Nat.not_lt_zero i)
    · rw [if_pos (by omega), List.getElem_append_right (by omega), List.getElem_reverse,
        show str + k + (str + (k + chars.length - 1)) - (str + i) = str + k + (chars.length - 1 - (i - k)) by omega]
      rw [store_getElem (by omega)]
      simp only [hk]
  · rw [List.mem_append, List.mem_reverse, hchars] at hc
    rcases hc with hc | hc
    · rw [signOf] at hc
      split_ifs at hc
      · rw [List.mem_singleton.mp hc]
        decide
      · exact absurd hc List.not_mem_nil
    · obtain ⟨d, hd, rfl⟩ := List.mem_map.mp hc
      exact digitChar_ne_zero (written_bounds hd)
  · rw [List.length_append, List.length_reverse, ← hk, Function.update_self]

theorem written_natCast (n : ℕ) : written n =
    (n % 10 :: (Nat.digits 10 (n / 10)).takeWhile (· ≠ 0)).map Nat.cast := by
  induction n using Nat.strongRecOn with
  | ind n ih =>
    have hdiv : (n : ℤ).tdiv 10 = ((n / 10 : ℕ) : ℤ) := by rw [Int.tdiv_eq_ediv_of_nonneg (by omega)]; rfl
    have hmod (m : ℕ) : (m : ℤ).tmod 10 = ((m % 10 : ℕ) : ℤ) := by rw [Int.tmod_eq_emod_of_nonneg (by omega)]; rfl
    rw [written, hdiv, hmod, hmod, List.map_cons]
    congr 1
    by_cases hz : n / 10 % 10 = 0
    · rw [if_neg (by omega)]
      rcases Nat.eq_zero_or_pos (n / 10) with h0 | hpos
      · simp [h0]
      · rw [Nat.digits_def' (by decide) hpos, List.takeWhile_cons_of_neg (by simp [hz]), List.map_nil]
    · rw [if_pos (by omega), ih (n / 10) (by omega), Nat.digits_def' (n := n / 10) (by decide) (by omega),
        List.takeWhile_cons_of_pos (by simp [hz])]

theorem decimalDigits_eq (n : ℕ) : decimalDigits n = n % 10 :: Nat.digits 10 (n / 10) := by
  rcases Nat.eq_zero_or_pos n with rfl | hpos
  · simp [decimalDigits]
  · rw [decimalDigits, if_neg (by omega), Nat.digits_def' (by decide) hpos]

theorem takeWhile_eq_self_iff {α : Type} {p : α → Bool} {l : List α} : l.takeWhile p = l ↔ ∀ a ∈ l, p a = true := by
  induction l with
  | nil => simp
  | cons a l ih =>
    by_cases ha : p a = true
    · simp [ha, ih]
    · simp [ha]

theorem tail_digits (n : ℕ) : (Nat.digits 10 n).tail = Nat.digits 10 (n / 10) := by
  rcases Nat.eq_zero_or_pos n with rfl | hpos
  · simp
  · rw [Nat.digits_def' (by decide) hpos, List.tail_cons]

theorem written_eq (h : ∀ d ∈ (Nat.digits 10 n).tail, d ≠ 0) : written n = (decimalDigits n).map Nat.cast := by
  rw [tail_digits] at h
  rw [written_natCast, decimalDigits_eq, takeWhile_eq_self_iff.mpr (by simpa using h)]

/-- Without its inner zeros a number has fewer digits. -/
theorem nonzero_of_length (h : (written n).length = (decimalDigits n).length) :
    ∀ d ∈ (Nat.digits 10 n).tail, d ≠ 0 := by
  rw [written_natCast, decimalDigits_eq, List.length_map, List.length_cons, List.length_cons,
    Nat.add_right_cancel_iff] at h
  have := takeWhile_eq_self_iff.mp ((List.takeWhile_prefix _).eq_of_length h)
  rw [tail_digits]
  simpa using this

section Range

variable (hlo : -2 ^ 31 ≤ v) (hhi : v < 2 ^ 31)
include hlo hhi

theorem absolute_eq (hmin : v ≠ -2 ^ 31) : absolute v = v.natAbs := by
  rw [absolute]
  split_ifs with h
  · rw [int32_eq (by omega) (by omega)]
    omega
  · omega

theorem text_eq_iff : text v = canonical v ↔ NoInnerZero v := by
  by_cases hmin : v = -2 ^ 31
  · -- the remainders of the most negative number are negative
    subst hmin
    refine iff_of_false (fun h => ?_) (fun h => h.1 rfl)
    have habs : absolute (-2 ^ 31) = -2 ^ 31 := by decide
    rw [text, canonical, List.append_cancel_left_eq, habs, written, decimalDigits_eq, List.reverse_cons,
      List.reverse_cons, List.map_append, List.map_append] at h
    have hlast := congrArg List.getLast? h
    rw [List.map_singleton, List.map_singleton, List.getLast?_concat, List.getLast?_concat] at hlast
    exact absurd hlast (by decide)
  · rw [text, canonical, absolute_eq hlo hhi hmin, List.append_cancel_left_eq]
    refine ⟨fun h => ⟨hmin, nonzero_of_length ?_⟩, fun h => ?_⟩
    · simpa using congrArg List.length h
    · rw [written_eq h.2, ← List.map_reverse, List.map_map]
      rfl

end Range

theorem digitValue_digitChar : ∀ d < 10, digitValue (digitChar (d : ℕ)) = some (d : ℤ) := by decide

theorem le_foldl (ds : List ℕ) (a : ℕ) : a ≤ ds.foldl (fun a d => a * 10 + d) a := by
  induction ds generalizing a with
  | nil => exact Nat.le_refl a
  | cons d ds ih => exact (show a ≤ a * 10 + d by omega).trans (ih _)

theorem readDigits_map {ds : List ℕ} (hds : ∀ d ∈ ds, d < 10) (a : ℕ)
    (h : ds.foldl (fun a d => a * 10 + d) a < 2 ^ 31) :
    readDigits 10 a (ds.map fun d : ℕ => digitChar d) = (((ds.foldl (fun a d => a * 10 + d) a : ℕ) : ℤ), []) := by
  induction ds generalizing a with
  | nil => rfl
  | cons d ds ih =>
    have hd := hds d (by simp)
    have hle := le_foldl ds (a * 10 + d)
    rw [List.foldl_cons] at h ⊢
    rw [List.map_cons, readDigits, digitValue_digitChar d hd]
    simp only
    rw [if_neg (by omega), int32_eq (by omega) (by omega), ← ih (fun d hd => hds d (by simp [hd])) _ h]
    push_cast
    rfl

theorem foldr_eq (ds : List ℕ) : ds.foldr (fun d a => a * 10 + d) 0 = Nat.ofDigits 10 ds := by
  induction ds with
  | nil => rfl
  | cons d ds ih =>
    rw [List.foldr_cons, ih, Nat.ofDigits_cons, Nat.mul_comm, Nat.add_comm]

theorem foldl_decimalDigits (n : ℕ) : (decimalDigits n).reverse.foldl (fun a d => a * 10 + d) 0 = n := by
  rw [List.foldl_reverse, foldr_eq, decimalDigits]
  split_ifs with h
  · subst h
    rfl
  · exact Nat.ofDigits_digits 10 n

theorem decimalDigits_lt (n : ℕ) : ∀ d ∈ decimalDigits n, d < 10 := by
  intro d hd
  rw [decimalDigits_eq, List.mem_cons] at hd
  rcases hd with rfl | hd
  · omega
  · exact Nat.digits_lt_base (by decide) hd

theorem digitChar_facts : ∀ d < 10, digitChar (d : ℕ) ≠ 32 ∧ digitChar (d : ℕ) ≠ 9 ∧ digitChar (d : ℕ) ≠ 43 ∧
    digitChar (d : ℕ) ≠ 45 := by decide

theorem skipBlanks_of_ne {c : UInt8} {l : List UInt8} (h : c ≠ 32) (h' : c ≠ 9) : skipBlanks (c :: l) = c :: l := by
  rw [skipBlanks, if_neg (by simp [h, h'])]

theorem readSign_of_ne {c : UInt8} {l : List UInt8} (h : c ≠ 43) (h' : c ≠ 45) :
    readSign (c :: l) = (false, c :: l) := by
  unfold readSign
  split
  · rename_i heq
    exact absurd (List.cons.inj heq).1 h
  · rename_i heq
    exact absurd (List.cons.inj heq).1 h'
  · rfl

theorem digits_skipped (n : ℕ) :
    ∃ c l, ((decimalDigits n).reverse.map fun d : ℕ => digitChar d) = c :: l ∧ c ≠ 32 ∧ c ≠ 9 ∧ c ≠ 43 ∧ c ≠ 45 := by
  have hne : (decimalDigits n).reverse ≠ [] := by
    rw [decimalDigits_eq]
    simp
  obtain ⟨d, ds, hds⟩ := List.exists_cons_of_ne_nil hne
  have hd : d < 10 := decimalDigits_lt n d (List.mem_reverse.mp (hds ▸ List.mem_cons_self))
  exact ⟨_, _, by rw [hds, List.map_cons], digitChar_facts d hd⟩

theorem strtol_canonical (hlo : -2 ^ 31 < v) (hhi : v < 2 ^ 31) : (strtol (canonical v) 10).1 = v := by
  obtain ⟨c, l, hcl, h32, h9, h43, h45⟩ := digits_skipped v.natAbs
  have hprefix : readPrefix 10 (c :: l) = (10, c :: l) := by simp [readPrefix]
  have hread : readDigits 10 0 (c :: l) = ((v.natAbs : ℤ), []) := by
    have hds : ∀ d ∈ (decimalDigits v.natAbs).reverse, d < 10 :=
      fun d hd => decimalDigits_lt _ d (List.mem_reverse.mp hd)
    have h := readDigits_map hds 0 (by rw [foldl_decimalDigits]; omega)
    rw [foldl_decimalDigits, hcl] at h
    exact h
  rw [canonical, hcl, signOf]
  split_ifs with hneg
  · have hskip : skipBlanks ([45] ++ c :: l) = 45 :: c :: l := skipBlanks_of_ne (by decide) (by decide)
    have hsign : readSign (45 :: c :: l) = (true, c :: l) := rfl
    simp only [strtol, hskip, hsign, hprefix, hread, if_true]
    rw [int32_eq (by omega) (by omega)]
    omega
  · simp only [strtol, List.nil_append, skipBlanks_of_ne h32 h9, readSign_of_ne h43 h45, hprefix, hread]
    simp only [Bool.false_eq_true, if_false]
    omega

theorem printed_iff (hlo : -2 ^ 31 ≤ v) (hhi : v < 2 ^ 31) : Printed str mem v ↔ NoInnerZero v := by
  have hholds := ltostr_holds v str mem
  rw [← text_eq_iff hlo hhi]
  constructor
  · rintro ⟨htext, -⟩
    exact hholds.unique htext
  · intro h
    refine ⟨h ▸ hholds, fun l hl => ?_⟩
    rw [hl.unique hholds, h]
    have hmin := ((text_eq_iff hlo hhi).mp h).1
    exact strtol_canonical (by omega) hhi

/-- Numbers are printed right, each with a string of its own, if and only if none has a
zero inside. -/
theorem ltostr_iff (str : ℕ) (mem : Memory) (vs : Set ℤ) (hvs : ∀ v ∈ vs, -2 ^ 31 ≤ v ∧ v < 2 ^ 31) :
    ((∀ v ∈ vs, Printed str mem v) ∧
      ∀ v ∈ vs, ∀ w ∈ vs, v ≠ w → ∀ l, HoldsString (ltostr v str mem) str l →
        ¬HoldsString (ltostr w str mem) str l) ↔ ∀ v ∈ vs, NoInnerZero v := by
  constructor
  · rintro ⟨hall, -⟩ v hv
    exact (printed_iff (hvs v hv).1 (hvs v hv).2).mp (hall v hv)
  · intro hall
    have hprinted (v : ℤ) (hv : v ∈ vs) : Printed str mem v :=
      (printed_iff (hvs v hv).1 (hvs v hv).2).mpr (hall v hv)
    refine ⟨hprinted, fun v hv w hw hne l hl hl' => hne ?_⟩
    rw [← (hprinted v hv).read l hl, ← (hprinted w hw).read l hl']

theorem ltostr_iff_witness : Printed 0 (fun _ => 0) (-120) ∧ Printed 0 (fun _ => 0) 0 := by
  have h := (ltostr_iff 0 (fun _ => 0) {-120, 0} (by simp)).mpr (by
    rintro v (rfl | rfl)
    · exact ⟨by decide, by norm_num⟩
    · exact ⟨by decide, by simp⟩)
  exact ⟨h.1 _ (.inl rfl), h.1 _ (.inr rfl)⟩

/-- 105 and 5 are printed alike. -/
theorem ltostr_inner_zero : ¬∀ str mem v, -2 ^ 31 ≤ v → v < 2 ^ 31 → Printed str mem v := by
  intro hall
  have h := (printed_iff (by decide) (by decide)).mp (hall 0 (fun _ => 0) 105 (by decide) (by decide))
  have hdigits : Nat.digits 10 (105 : ℤ).natAbs = [5, 0, 1] := by norm_num
  exact h.2 0 (by rw [hdigits]; simp) rfl

end FosKernel.DecimalStrings
