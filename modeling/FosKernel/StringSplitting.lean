import FosKernel.CStrings
import Mathlib.Data.List.TakeWhile

/-!
# Splitting a command line

`strsplit` cuts a string into the maximal runs of characters that are not separators,
in place. The first sections are about runs in lists.
-/

namespace FosKernel.StringSplitting
open CStrings

section Runs

variable {α : Type} {p : α → Bool} {l : List α} {i j o : ℕ}

theorem length_dropWhile_lt {c : α} {r : List α} (h : l.dropWhile p = c :: r) :
    ((c :: r).dropWhile fun c => !p c).length < l.length := by
  have hp : p c = false := by
    have := List.head?_dropWhile_not p l
    rw [h] at this
    simpa using this
  have hle : (c :: r).length ≤ l.length := h ▸ (List.dropWhile_sublist p).length_le
  have hle' := (List.dropWhile_sublist (l := r) fun c => !p c).length_le
  rw [List.dropWhile_cons_of_pos (by simp [hp])]
  simp only [List.length_cons] at hle ⊢
  omega

/-- Start and end of the runs of elements that do not meet `p`, counted from `o`. -/
def tokens (p : α → Bool) (o : ℕ) (l : List α) : List (ℕ × ℕ) :=
  match _h : l.dropWhile p with
  | [] => []
  | c :: r =>
    let start := o + (l.takeWhile p).length
    let stop := start + ((c :: r).takeWhile fun c => !p c).length
    (start, stop) :: tokens p stop ((c :: r).dropWhile fun c => !p c)
termination_by l.length
decreasing_by exact length_dropWhile_lt _h

/-- The elements from `i` up to `j` do not meet `p`, and no more of them can be added. -/
structure MaximalRun (p : α → Bool) (l : List α) (i j : ℕ) : Prop where
  lt : i < j
  le : j ≤ l.length
  inside : ∀ k, i ≤ k → k < j → ∀ c ∈ l[k]?, p c = false
  before : i = 0 ∨ ∃ c ∈ l[i - 1]?, p c = true
  after : j = l.length ∨ ∃ c ∈ l[j]?, p c = true

/-- `ts` are the maximal runs of `l`, in order. -/
structure IsTokens (p : α → Bool) (l : List α) (ts : List (ℕ × ℕ)) : Prop where
  ordered : ts.Pairwise fun s t => s.2 < t.1
  mem_iff : ∀ i j, (i, j) ∈ ts ↔ MaximalRun p l i j

theorem tokens_of_all (h : ∀ c ∈ l, p c = true) : tokens p o l = [] := by
  rw [tokens]
  split
  · rfl
  · rename_i c r hd
    rw [List.dropWhile_eq_nil_iff.mpr h] at hd
    cases hd

theorem tokens_append {a t r : List α} (ha : ∀ c ∈ a, p c = true) (ht : t ≠ []) (ht' : ∀ c ∈ t, p c = false)
    (hr : ∀ c ∈ r.head?, p c = true) :
    tokens p o (a ++ t ++ r) = (o + a.length, o + a.length + t.length) :: tokens p (o + a.length + t.length) r := by
  obtain ⟨c, t', rfl⟩ := List.exists_cons_of_ne_nil ht
  have hc := ht' c (by simp)
  have htake : (a ++ (c :: t') ++ r).takeWhile p = a := by
    rw [List.append_assoc, List.takeWhile_append_of_pos ha, List.cons_append,
      List.takeWhile_cons_of_neg (by simp [hc]), List.append_nil]
  have hdrop : (a ++ (c :: t') ++ r).dropWhile p = c :: (t' ++ r) := by
    rw [List.append_assoc, List.dropWhile_append_of_pos ha, List.cons_append,
      List.dropWhile_cons_of_neg (by simp [hc])]
  have hneg : ∀ c' ∈ c :: t', (!p c') = true := fun c' hc' => by simp [ht' c' hc']
  have hrun : (c :: (t' ++ r)).takeWhile (fun c => !p c) = c :: t' ∧
      (c :: (t' ++ r)).dropWhile (fun c => !p c) = r := by
    rw [← List.cons_append, List.takeWhile_append_of_pos hneg, List.dropWhile_append_of_pos hneg]
    cases r with
    | nil => simp
    | cons d r => simp [hr d (by simp)]
  rw [tokens]
  split
  · rename_i hd
    rw [hdrop] at hd
    cases hd
  · rename_i c₁ r₁ hd
    rw [hdrop] at hd
    cases hd
    simp only [htake, hrun.1, hrun.2]

theorem exists_run (p : α → Bool) (l : List α) : (∀ c ∈ l, p c = true) ∨
    ∃ a t r, l = a ++ t ++ r ∧ (∀ c ∈ a, p c = true) ∧ t ≠ [] ∧ (∀ c ∈ t, p c = false) ∧
      ∀ c ∈ r.head?, p c = true := by
  by_cases h : ∀ c ∈ l, p c = true
  · exact .inl h
  · right
    obtain ⟨c, r, hd⟩ := List.exists_cons_of_ne_nil (mt List.dropWhile_eq_nil_iff.mp h)
    have hc : p c = false := by
      have := List.head?_dropWhile_not p l
      rw [hd] at this
      simpa using this
    refine ⟨l.takeWhile p, (c :: r).takeWhile fun c => !p c, (c :: r).dropWhile fun c => !p c, ?_,
      fun d hd => List.mem_takeWhile_imp hd, ?_, fun d hc' => ?_, fun d hd' => ?_⟩
    · rw [List.append_assoc, List.takeWhile_append_dropWhile, ← hd, List.takeWhile_append_dropWhile]
    · rw [List.takeWhile_cons_of_pos (by simp [hc])]
      exact List.cons_ne_nil _ _
    · simpa using List.mem_takeWhile_imp hc'
    · have := List.head?_dropWhile_not (fun c => !p c) (c :: r)
      rw [hd'] at this
      simpa using this

theorem not_maximalRun_of_all (h : ∀ c ∈ l, p c = true) : ¬MaximalRun p l i j := by
  intro hrun
  have hi : i < l.length := hrun.lt.trans_le hrun.le
  have := hrun.inside i (Nat.le_refl i) hrun.lt l[i] (List.getElem?_eq_getElem hi)
  rw [h _ (List.getElem_mem hi)] at this
  cases this

section Append

variable {a t r : List α} (ha : ∀ c ∈ a, p c = true) (ht' : ∀ c ∈ t, p c = false)
  (hr : ∀ c ∈ r.head?, p c = true)

include hr in
theorem MaximalRun.pos (h : MaximalRun p r i j) : 0 < i := by
  rcases Nat.eq_zero_or_pos i with rfl | hpos
  · have hlen : 0 < r.length := h.lt.trans_le h.le
    have hmem : r[0] ∈ r.head? := by rw [List.head?_eq_getElem?, List.getElem?_eq_getElem hlen]; rfl
    have hfalse := h.inside 0 (Nat.le_refl 0) h.lt r[0] (List.getElem?_eq_getElem hlen)
    rw [hr _ hmem] at hfalse
    cases hfalse
  · exact hpos

theorem getElem?_append_right (k : ℕ) : (a ++ t ++ r)[a.length + t.length + k]? = r[k]? := by
  rw [List.getElem?_append_right (by simp), List.length_append, Nat.add_sub_cancel_left]

theorem getElem?_append_middle (h : i < t.length) : (a ++ t ++ r)[a.length + i]? = some t[i] := by
  rw [List.append_assoc, List.getElem?_append_right (by simp), Nat.add_sub_cancel_left,
    List.getElem?_append_left h, List.getElem?_eq_getElem h]

include ha ht' hr

theorem maximalRun_first (ht : t ≠ []) : MaximalRun p (a ++ t ++ r) a.length (a.length + t.length) := by
  have hpos := List.length_pos_iff.mpr ht
  refine ⟨by omega, by simp, fun k hk hkj c hc => ?_, ?_, ?_⟩
  · obtain ⟨m, rfl⟩ := Nat.exists_eq_add_of_le hk
    rw [getElem?_append_middle (by omega)] at hc
    cases hc
    exact ht' _ (List.getElem_mem _)
  · rcases Nat.eq_zero_or_pos a.length with h0 | hapos
    · exact .inl h0
    · refine .inr ⟨a[a.length - 1], ?_, ha _ (List.getElem_mem _)⟩
      rw [List.append_assoc, List.getElem?_append_left (by omega), List.getElem?_eq_getElem (by omega)]
      rfl
  · cases r with
    | nil => exact .inl (by simp)
    | cons d r =>
      refine .inr ⟨d, ?_, hr d rfl⟩
      have := getElem?_append_right (a := a) (t := t) (r := d :: r) 0
      rw [Nat.add_zero] at this
      rw [this]
      rfl

theorem maximalRun_append_iff (ht : t ≠ []) : MaximalRun p (a ++ t ++ r) i j ↔
    i = a.length ∧ j = a.length + t.length ∨
      ∃ i' j', i = a.length + t.length + i' ∧ j = a.length + t.length + j' ∧ MaximalRun p r i' j' := by
  have hpos := List.length_pos_iff.mpr ht
  have hlen : (a ++ t ++ r).length = a.length + t.length + r.length := by simp [Nat.add_assoc]
  constructor
  · intro h
    have hle := hlen ▸ h.le
    have hlt := h.lt
    -- the elements of `a` belong to no run
    have hai : a.length ≤ i := by
      by_contra hia
      have hi : i < a.length := by omega
      have := h.inside i (Nat.le_refl i) h.lt a[i] (by
        rw [List.append_assoc, List.getElem?_append_left hi, List.getElem?_eq_getElem hi]; rfl)
      rw [ha _ (List.getElem_mem hi)] at this
      cases this
    -- an element of `t` ends no run and has no run end before it
    have hmid (m : ℕ) (hm : m < t.length) : ¬∃ c ∈ (a ++ t ++ r)[a.length + m]?, p c = true := by
      rintro ⟨c, hc, hpc⟩
      rw [getElem?_append_middle hm] at hc
      cases hc
      rw [ht' _ (List.getElem_mem _)] at hpc
      cases hpc
    rcases Nat.lt_or_ge i (a.length + t.length) with hit | hit
    · left
      have hi : i = a.length := by
        rcases h.before with h0 | hex
        · omega
        · by_contra hne
          refine hmid (i - 1 - a.length) (by omega) ?_
          rwa [show a.length + (i - 1 - a.length) = i - 1 by omega]
      subst hi
      refine ⟨rfl, ?_⟩
      rcases Nat.lt_trichotomy j (a.length + t.length) with hj | hj | hj
      · rcases h.after with heq | hex
        · omega
        · refine absurd ?_ (hmid (j - a.length) (by omega))
          rwa [show a.length + (j - a.length) = j by omega]
      · exact hj
      · -- the run would go on behind the separator after `t`
        have hrlen : 0 < r.length := by omega
        have hfalse := h.inside (a.length + t.length) (by omega) hj r[0] (by
          have := getElem?_append_right (a := a) (t := t) (r := r) 0
          rw [Nat.add_zero] at this
          rw [this, List.getElem?_eq_getElem hrlen]
          rfl)
        rw [hr r[0] (by rw [List.head?_eq_getElem?, List.getElem?_eq_getElem hrlen]; rfl)] at hfalse
        cases hfalse
    · right
      obtain ⟨i', rfl⟩ := Nat.exists_eq_add_of_le hit
      obtain ⟨j', rfl⟩ := Nat.exists_eq_add_of_le (hit.trans hlt.le)
      refine ⟨i', j', rfl, rfl, by omega, by omega, fun k hk hkj c hc => ?_, ?_, ?_⟩
      · refine h.inside (a.length + t.length + k) (by omega) (by omega) c ?_
        rwa [getElem?_append_right]
      · rcases Nat.eq_zero_or_pos i' with h0 | hipos
        · exact .inl h0
        · rcases h.before with h0 | hex
          · omega
          · right
            rwa [show a.length + t.length + i' - 1 = a.length + t.length + (i' - 1) by omega,
              getElem?_append_right] at hex
      · rcases h.after with heq | hex
        · exact .inl (by omega)
        · exact .inr (by rwa [getElem?_append_right] at hex)
  · rintro (⟨rfl, rfl⟩ | ⟨i', j', rfl, rfl, h⟩)
    · exact maximalRun_first ha ht' hr ht
    · have hi := h.pos hr
      have hlt := h.lt
      have hle := h.le
      refine ⟨by omega, by omega, fun k hk hkj c hc => ?_, .inr ?_, ?_⟩
      · obtain ⟨m, rfl⟩ := Nat.exists_eq_add_of_le (show a.length + t.length ≤ k by omega)
        rw [getElem?_append_right] at hc
        exact h.inside m (by omega) (by omega) c hc
      · rcases h.before with h0 | hex
        · omega
        · rwa [show a.length + t.length + i' - 1 = a.length + t.length + (i' - 1) by omega, getElem?_append_right]
      · rcases h.after with heq | hex
        · exact .inl (by omega)
        · exact .inr (by rwa [getElem?_append_right])

end Append

theorem mem_tokens_iff (l : List α) (o : ℕ) (x : ℕ × ℕ) :
    x ∈ tokens p o l ↔ ∃ i j, x = (o + i, o + j) ∧ MaximalRun p l i j := by
  induction hn : l.length using Nat.strongRecOn generalizing l o with
  | ind n ih =>
    rcases exists_run p l with hall | ⟨a, t, r, rfl, ha, ht, ht', hr⟩
    · rw [tokens_of_all hall]
      refine iff_of_false List.not_mem_nil ?_
      rintro ⟨i, j, -, h⟩
      exact not_maximalRun_of_all hall h
    · have hpos := List.length_pos_iff.mpr ht
      simp only [List.length_append] at hn
      rw [tokens_append ha ht ht' hr, List.mem_cons, ih r.length (by omega) r _ rfl]
      constructor
      · rintro (rfl | ⟨i, j, rfl, h⟩)
        · exact ⟨a.length, a.length + t.length, by rw [Nat.add_assoc], maximalRun_first ha ht' hr ht⟩
        · exact ⟨a.length + t.length + i, a.length + t.length + j, by simp only [Nat.add_assoc],
            (maximalRun_append_iff ha ht' hr ht).mpr (.inr ⟨i, j, rfl, rfl, h⟩)⟩
      · rintro ⟨i, j, rfl, h⟩
        rcases (maximalRun_append_iff ha ht' hr ht).mp h with ⟨rfl, rfl⟩ | ⟨i', j', rfl, rfl, h'⟩
        · exact .inl (by rw [Nat.add_assoc])
        · exact .inr ⟨i', j', by simp only [Nat.add_assoc], h'⟩

theorem isTokens_tokens (p : α → Bool) (l : List α) : IsTokens p l (tokens p 0 l) := by
  refine ⟨?_, fun i j => ?_⟩
  · suffices h : ∀ o, (tokens p o l).Pairwise fun s t => s.2 < t.1 from h 0
    induction hn : l.length using Nat.strongRecOn generalizing l with
    | ind n ih =>
      intro o
      rcases exists_run p l with hall | ⟨a, t, r, rfl, ha, ht, ht', hr⟩
      · rw [tokens_of_all hall]
        exact .nil
      · have hpos := List.length_pos_iff.mpr ht
        simp only [List.length_append] at hn
        rw [tokens_append ha ht ht' hr]
        refine .cons (fun x hx => ?_) (ih r.length (by omega) r rfl _)
        obtain ⟨i, j, rfl, h⟩ := (mem_tokens_iff r _ x).mp hx
        have := h.pos hr
        simp only
        omega
  · simp only [mem_tokens_iff, Nat.zero_add, Prod.mk.injEq]
    exact ⟨fun ⟨_, _, ⟨hi, hj⟩, h⟩ => hi ▸ hj ▸ h, fun h => ⟨i, j, ⟨rfl, rfl⟩, h⟩⟩

theorem tokens_shift (p : α → Bool) (o : ℕ) (l : List α) :
    tokens p o l = (tokens p 0 l).map fun x => (o + x.1, o + x.2) := by
  suffices h : ∀ o', tokens p (o + o') l = (tokens p o' l).map fun x => (o + x.1, o + x.2) from h 0
  induction hn : l.length using Nat.strongRecOn generalizing l with
  | ind n ih =>
    intro o'
    rcases exists_run p l with hall | ⟨a, t, r, rfl, ha, ht, ht', hr⟩
    · rw [tokens_of_all hall, tokens_of_all hall]
      rfl
    · have hpos := List.length_pos_iff.mpr ht
      simp only [List.length_append] at hn
      rw [tokens_append ha ht ht' hr, tokens_append ha ht ht' hr, List.map_cons, ← ih r.length (by omega) r rfl]
      simp only [Nat.add_assoc]

end Runs

def maxArguments : ℕ := 16

/-- The buffer of the string, `argv` and `*argc`. -/
structure Split where
  mem : Memory
  argv : ℕ → ℕ
  argc : ℕ

/-- `*c && strchr(SPLIT_CHARS, *c)`, for a character that is not the last. -/
def isSplitChar (splitChars : List UInt8) (c : UInt8) : Bool := (strchr splitChars c).isSome

/-- `*string++ = 0`, as long as there are separators. The loops stop without a result
when they have not ended by themselves after a number of rounds. -/
def trimLoop (splitChars : List UInt8) : ℕ → Memory → ℕ → Option (Memory × ℕ)
  | 0, _, _ => none
  | n + 1, mem, string =>
    if mem string ≠ 0 ∧ isSplitChar splitChars (mem string) then
      trimLoop splitChars n (Function.update mem string 0) (string + 1)
    else some (mem, string)

def scanLoop (splitChars : List UInt8) (mem : Memory) : ℕ → ℕ → Option ℕ
  | 0, _ => none
  | n + 1, string =>
    if mem string ≠ 0 ∧ ¬isSplitChar splitChars (mem string) then scanLoop splitChars mem n (string + 1)
    else some string

/-- `while (1)`; the result is what `strsplit` returns. -/
def splitLoop (splitChars : List UInt8) (rounds : ℕ) : ℕ → Split → ℕ → Option (Split × ℕ)
  | 0, _, _ => none
  | n + 1, s, string => do
    let (mem, string) ← trimLoop splitChars rounds s.mem string
    if mem string = 0 then
      return ({ s with mem := mem, argv := Function.update s.argv s.argc 0 }, 1)
    if s.argc = maxArguments - 1 then
      return ({ s with mem := mem }, 0)
    let next ← scanLoop splitChars mem rounds string
    splitLoop splitChars rounds n ⟨mem, Function.update s.argv s.argc string, s.argc + 1⟩ next

def strsplit (splitChars : List UInt8) (rounds string : ℕ) (mem : Memory) (argv : ℕ → ℕ) : Option (Split × ℕ) :=
  splitLoop splitChars rounds rounds ⟨mem, Function.update argv 0 0, 0⟩ string

variable {seps r : List UInt8} {rounds n string c : ℕ} {mem : Memory} {argv : ℕ → ℕ} {s : Split}

theorem trimLoop_eq (seps : List UInt8) (h : HoldsString mem string r) (hn : r.length < n) :
    trimLoop seps n mem string =
      some (store mem string ((r.takeWhile (isSplitChar seps)).map fun _ => 0),
        string + (r.takeWhile (isSplitChar seps)).length) := by
  induction r generalizing mem string n with
  | nil =>
    obtain ⟨n, rfl⟩ := Nat.exists_eq_add_of_lt hn
    rw [trimLoop, if_neg (by simp [holdsString_nil.mp h])]
    rfl
  | cons c r ih =>
    obtain ⟨n, rfl⟩ : ∃ m, n = m + 1 := ⟨n - 1, by omega⟩
    obtain ⟨hc, hne, hrest⟩ := h
    rw [trimLoop, hc]
    by_cases hsep : isSplitChar seps c = true
    · have hrest' : HoldsString (Function.update mem string 0) (string + 1) r :=
        hrest.congr fun i _ => Function.update_of_ne (by omega) _ _
      rw [if_pos ⟨hne, hsep⟩, ih hrest' (by simpa using hn), List.takeWhile_cons_of_pos hsep, List.map_cons,
        List.length_cons, store, show string + 1 + _ = string + (_ + 1) by rw [Nat.add_assoc, Nat.add_comm 1]]
    · rw [if_neg (by simp [hsep]), List.takeWhile_cons_of_neg hsep]
      rfl

theorem scanLoop_eq (h : HoldsString mem string r) (hn : r.length < n) :
    scanLoop seps mem n string = some (string + (r.takeWhile fun c => !isSplitChar seps c).length) := by
  induction r generalizing string n with
  | nil =>
    obtain ⟨n, rfl⟩ := Nat.exists_eq_add_of_lt hn
    rw [scanLoop, if_neg (by simp [holdsString_nil.mp h])]
    rfl
  | cons c r ih =>
    obtain ⟨n, rfl⟩ : ∃ m, n = m + 1 := ⟨n - 1, by omega⟩
    obtain ⟨hc, hne, hrest⟩ := h
    rw [scanLoop, hc]
    by_cases hsep : isSplitChar seps c = true
    · rw [if_neg (by simp [hsep]), List.takeWhile_cons_of_neg (by simp [hsep])]
      rfl
    · rw [if_pos ⟨hne, hsep⟩, ih hrest (by simpa using hn), List.takeWhile_cons_of_pos (by simpa using hsep),
        List.length_cons, Nat.add_assoc, Nat.add_comm 1]

theorem store_zeros (mem : Memory) (string : ℕ) (l : List UInt8) (a : ℕ) :
    store mem string (l.map fun _ => 0) a = if string ≤ a ∧ a < string + l.length then 0 else mem a := by
  split_ifs with h
  · obtain ⟨k, rfl⟩ := Nat.exists_eq_add_of_le h.1
    rw [store_getElem (by simp; omega), List.getElem_map]
  · rw [store_of_not (by rw [List.length_map]; omega)]

/-- What the loop does from `string` on, where `r` is left and `ts` are its tokens. -/
structure Delivered (seps : List UInt8) (ts : List (ℕ × ℕ)) (r : List UInt8) (string : ℕ) (s : Split)
    (out : Split × ℕ) : Prop where
  argc : out.1.argc = min (s.argc + ts.length) 15
  returned : out.2 = if s.argc + ts.length ≤ 15 then 1 else 0
  args : ∀ i x, ts[i]? = some x → s.argc + i < 15 → out.1.argv (s.argc + i) = x.1 ∧ out.1.mem x.2 = 0
  old : ∀ i < s.argc, out.1.argv i = s.argv i
  null : s.argc + ts.length ≤ 15 → out.1.argv (s.argc + ts.length) = 0
  beyond : ∀ i, 16 ≤ i → out.1.argv i = s.argv i
  mem : ∀ a, out.1.mem a = s.mem a ∨
    out.1.mem a = 0 ∧ string ≤ a ∧ a < string + r.length ∧ isSplitChar seps (s.mem a) = true
  lead : ∀ c ∈ r.head?, isSplitChar seps c = true → out.1.mem string = 0

section Loop

variable {a t r₂ : List UInt8} {out : Split × ℕ} (hs : HoldsString s.mem string (a ++ t ++ r₂))
  (ha : ∀ c ∈ a, isSplitChar seps c = true)
include hs ha

theorem trimmed_mem (k : ℕ) : store s.mem string (a.map fun _ => 0) k = s.mem k ∨
    store s.mem string (a.map fun _ => 0) k = 0 ∧ string ≤ k ∧ k < string + a.length ∧
      isSplitChar seps (s.mem k) = true := by
  rw [store_zeros]
  by_cases hk : string ≤ k ∧ k < string + a.length
  · obtain ⟨i, rfl⟩ := Nat.exists_eq_add_of_le hk.1
    have hi : i < a.length := by omega
    have hmem : s.mem (string + i) = a[i] := by
      rw [hs.getElem (i := i) (by simp; omega), List.getElem_append_left (by simp; omega),
        List.getElem_append_left hi]
    rw [if_pos hk, hmem]
    exact .inr ⟨rfl, hk.1, hk.2, ha _ (List.getElem_mem hi)⟩
  · exact .inl (if_neg hk)

theorem trimmed_lead (hmem : ∀ k, out.1.mem k = store s.mem string (a.map fun _ => 0) k ∨ out.1.mem k = 0)
    (hne : t ≠ [] ∨ r₂ = []) (ht' : ∀ c ∈ t, isSplitChar seps c = false) :
    ∀ c ∈ (a ++ t ++ r₂).head?, isSplitChar seps c = true → out.1.mem string = 0 := by
  intro c hc hsep
  have hapos : 0 < a.length := by
    by_contra h0
    obtain rfl : a = [] := List.eq_nil_of_length_eq_zero (by omega)
    cases t with
    | nil =>
      obtain rfl := hne.resolve_left (fun h => h rfl)
      cases hc
    | cons d t =>
      obtain rfl : d = c := by simpa using hc
      rw [ht' d (by simp)] at hsep
      cases hsep
  rcases hmem string with h | h
  · rw [h, store_zeros, if_pos (by omega)]
  · exact h

theorem delivered_end (ht : t = []) (hr : r₂ = []) (hc : s.argc ≤ 15) :
    Delivered seps [] (a ++ t ++ r₂) string s
      ({ s with mem := store s.mem string (a.map fun _ => 0), argv := Function.update s.argv s.argc 0 }, 1) := by
  have hlen : (a ++ t ++ r₂).length = a.length := by simp [ht, hr]
  refine ⟨(Nat.min_eq_left hc).symm, (if_pos hc).symm, fun i x hx => absurd hx (by simp),
    fun i hi => Function.update_of_ne (by omega) _ _, fun _ => Function.update_self _ _ _,
    fun i hi => Function.update_of_ne (by omega) _ _, fun k => ?_,
    trimmed_lead hs ha (fun _ => .inl rfl) (.inr hr) (by simp [ht])⟩
  rw [hlen]
  exact trimmed_mem hs ha k

theorem delivered_full {x : ℕ × ℕ} {ts : List (ℕ × ℕ)} (ht : t ≠ [])
    (ht' : ∀ c ∈ t, isSplitChar seps c = false) (hc : s.argc = 15) :
    Delivered seps (x :: ts) (a ++ t ++ r₂) string s ({ s with mem := store s.mem string (a.map fun _ => 0) }, 0) := by
  refine ⟨?_, ?_, fun i y _ hi => by omega, fun i _ => rfl, fun h => ?_, fun i _ => rfl, fun k => ?_,
    trimmed_lead hs ha (fun _ => .inl rfl) (.inl ht) ht'⟩
  · rw [hc, Nat.min_eq_right (by omega)]
  · rw [if_neg (by rw [List.length_cons]; omega)]
  · rw [List.length_cons] at h
    omega
  · refine (trimmed_mem hs ha k).imp id fun h => ⟨h.1, h.2.1, ?_, h.2.2.2⟩
    simp only [List.length_append]
    omega

theorem delivered_step {ts : List (ℕ × ℕ)} (ht : t ≠ []) (ht' : ∀ c ∈ t, isSplitChar seps c = false)
    (hr : ∀ c ∈ r₂.head?, isSplitChar seps c = true) (hc : s.argc < 15)
    (h : Delivered seps ts r₂ (string + a.length + t.length)
      ⟨store s.mem string (a.map fun _ => 0), Function.update s.argv s.argc (string + a.length), s.argc + 1⟩ out) :
    Delivered seps ((string + a.length, string + a.length + t.length) :: ts) (a ++ t ++ r₂) string s out := by
  obtain ⟨hargc, hret, hargs, hold, hnull, hbeyond, hmem, hlead⟩ := h
  simp only at hargc hret hargs hold hnull hbeyond hmem
  have hlen : s.argc + (ts.length + 1) = s.argc + 1 + ts.length := by omega
  have hstop : out.1.mem (string + a.length + t.length) = 0 := by
    cases r₂ with
    | cons d r₂ => exact hlead d rfl (hr d rfl)
    | nil =>
      have hend := hs.end
      simp only [List.length_append, List.length_nil, Nat.add_zero, ← Nat.add_assoc] at hend
      rcases hmem (string + a.length + t.length) with h | h
      · rw [h, store_zeros, if_neg (by omega), hend]
      · exact h.1
  refine ⟨?_, ?_, fun i x hx hi => ?_, fun i hi => ?_, fun hle => ?_, fun i hi => ?_, fun k => ?_, ?_⟩
  · rw [List.length_cons, hlen, hargc]
  · rw [List.length_cons, hlen, hret]
  · cases i with
    | zero =>
      obtain rfl : (string + a.length, string + a.length + t.length) = x := by simpa using hx
      exact ⟨(hold s.argc (by omega)).trans (Function.update_self _ _ _), hstop⟩
    | succ i =>
      rw [show s.argc + (i + 1) = s.argc + 1 + i by omega]
      exact hargs i x (by simpa using hx) (by omega)
  · rw [hold i (by omega), Function.update_of_ne (by omega)]
  · rw [List.length_cons, hlen] at hle ⊢
    exact hnull hle
  · rw [hbeyond i hi, Function.update_of_ne (by omega)]
  · simp only [List.length_append]
    rcases hmem k with h | ⟨h0, hlo, hhi, hsep⟩
    · rw [h]
      exact (trimmed_mem hs ha k).imp id fun h' => ⟨h'.1, h'.2.1, by omega, h'.2.2.2⟩
    · rw [store_zeros, if_neg (by omega)] at hsep
      exact .inr ⟨h0, by omega, by omega, hsep⟩
  · refine trimmed_lead hs ha (fun k => ?_) (.inl ht) ht'
    exact (hmem k).imp id And.left

end Loop

theorem splitLoop_delivers (h : HoldsString s.mem string r) (hn : r.length < n) (hrounds : r.length < rounds)
    (hc : s.argc ≤ 15) : ∃ out, splitLoop seps rounds n s string = some out ∧
      Delivered seps (tokens (isSplitChar seps) string r) r string s out := by
  induction n generalizing s string r with
  | zero => omega
  | succ n ih =>
    have htrim := trimLoop_eq seps h hrounds
    rcases exists_run (isSplitChar seps) r with hall | ⟨a, t, r₂, rfl, ha, ht, ht', hr⟩
    · have hall' : ∀ c ∈ r, isSplitChar seps c = true := hall
      rw [List.takeWhile_eq_self_iff.mpr hall'] at htrim
      have hend : store s.mem string (r.map fun _ => 0) (string + r.length) = 0 := by
        rw [store_zeros, if_neg (by omega), h.end]
      have h' : HoldsString s.mem string (r ++ [] ++ []) := by simpa using h
      have hd := delivered_end h' hall rfl rfl hc
      rw [List.append_nil, List.append_nil] at hd
      rw [tokens_of_all hall]
      refine ⟨_, ?_, hd⟩
      rw [splitLoop, htrim]
      simp only [Option.bind_eq_bind, Option.bind_some, if_pos hend]
      rfl
    · obtain ⟨c, t', rfl⟩ := List.exists_cons_of_ne_nil ht
      have hne : ∀ d ∈ c :: t', (!isSplitChar seps d) = true := fun d hd => by simp [ht' d hd]
      have htake : (a ++ (c :: t') ++ r₂).takeWhile (isSplitChar seps) = a := by
        rw [List.append_assoc, List.takeWhile_append_of_pos ha, List.cons_append,
          List.takeWhile_cons_of_neg (by simp [ht' c (by simp)]), List.append_nil]
      rw [htake] at htrim
      have hrest : HoldsString (store s.mem string (a.map fun _ => 0)) (string + a.length) (c :: t' ++ r₂) := by
        rw [List.append_assoc] at h
        refine h.drop.congr fun i _ => ?_
        rw [store_zeros, if_neg (by omega)]
      have hhead : store s.mem string (a.map fun _ => 0) (string + a.length) ≠ 0 := by
        rw [hrest.1]
        exact hrest.2.1
      rw [tokens_append ha ht ht' hr]
      simp only [List.length_append] at hn hrounds
      by_cases hfull : s.argc = 15
      · refine ⟨_, ?_, delivered_full h ha ht ht' hfull⟩
        rw [splitLoop, htrim]
        simp only [Option.bind_eq_bind, Option.bind_some, if_neg hhead, hfull]
        rfl
      · have hscan : scanLoop seps (store s.mem string (a.map fun _ => 0)) rounds (string + a.length) =
            some (string + a.length + (c :: t').length) := by
          rw [scanLoop_eq hrest (by simp only [List.length_append]; omega), List.takeWhile_append_of_pos hne]
          cases r₂ with
          | nil => simp
          | cons d r₂ => simp [hr d rfl]
        obtain ⟨out, hout, hd⟩ := ih (s := ⟨store s.mem string (a.map fun _ => 0),
          Function.update s.argv s.argc (string + a.length), s.argc + 1⟩) hrest.drop (by simp at hn; omega)
          (by omega) (by simp only; omega)
        refine ⟨out, ?_, delivered_step h ha ht ht' hr (by omega) hd⟩
        rw [splitLoop, htrim]
        simp only [Option.bind_eq_bind, Option.bind_some, if_neg hhead, hscan]
        rw [if_neg (by simpa [maxArguments] using hfull)]
        exact hout

/-- What `strsplit` is to do to the string `l`, whose tokens are `ts`: the addresses are
those of the buffer. -/
structure SplitInto (seps l : List UInt8) (ts : List (ℕ × ℕ)) (string : ℕ) (mem : Memory) (argv : ℕ → ℕ)
    (out : Split × ℕ) : Prop where
  returned : out.2 = if ts.length ≤ maxArguments - 1 then 1 else 0
  argc : out.1.argc = min ts.length (maxArguments - 1)
  pointers : ∀ i < out.1.argc, ∀ x, ts[i]? = some x → out.1.argv i = string + x.1
  terminated : ∀ i < out.1.argc, ∀ x, ts[i]? = some x →
    HoldsString out.1.mem (string + x.1) ((l.take x.2).drop x.1)
  null : ts.length ≤ maxArguments - 1 → out.1.argv ts.length = 0
  bounds : ∀ i, maxArguments ≤ i → out.1.argv i = argv i
  changed : ∀ a, out.1.mem a ≠ mem a → out.1.mem a = 0 ∧ ∃ k c, a = string + k ∧ l[k]? = some c ∧ c ∈ seps

theorem MaximalRun.holdsString {l : List UInt8} {i j : ℕ} {mem' : Memory} (h : MaximalRun (isSplitChar seps) l i j)
    (hl : HoldsString mem string l) (hsame : ∀ k, i ≤ k → k < j → mem' (string + k) = mem (string + k))
    (hstop : mem' (string + j) = 0) : HoldsString mem' (string + i) ((l.take j).drop i) := by
  have hlt := h.lt
  have hle := h.le
  have hlen : ((l.take j).drop i).length = j - i := by simp; omega
  refine holdsString_of_getElem (fun k hk => ?_) (fun c hc => ?_) ?_
  · rw [hlen] at hk
    rw [List.getElem_drop, List.getElem_take, Nat.add_assoc, hsame _ (by omega) (by omega), hl.getElem (by omega)]
  · exact hl.nonzero c (List.mem_of_mem_take (List.mem_of_mem_drop hc))
  · rwa [hlen, show string + i + (j - i) = string + j by omega]

/-- `strsplit` ends after as many rounds as the string has characters, and delivers
its tokens. -/
theorem strsplit_splits (seps l : List UInt8) (string : ℕ) (mem : Memory) (argv : ℕ → ℕ)
    (h : HoldsString mem string l) : ∃ ts, IsTokens (isSplitChar seps) l ts ∧
      ∀ rounds, l.length < rounds → ∃ out, strsplit seps rounds string mem argv = some out ∧
        SplitInto seps l ts string mem argv out := by
  have hts := isTokens_tokens (isSplitChar seps) l
  refine ⟨_, hts, fun rounds hrounds => ?_⟩
  obtain ⟨out, hout, hd⟩ := splitLoop_delivers (s := ⟨mem, Function.update argv 0 0, 0⟩) h hrounds hrounds (Nat.zero_le _)
  refine ⟨out, hout, ?_⟩
  rw [tokens_shift] at hd
  generalize tokens (isSplitChar seps) 0 l = ts at hd hts
  have hlen : (ts.map fun x => (string + x.1, string + x.2)).length = ts.length := List.length_map ..
  obtain ⟨hargc, hret, hargs, -, hnull, hbeyond, hmem, -⟩ := hd
  simp only [Nat.zero_add, hlen] at hargc hret hargs hnull hbeyond hmem
  have hget (i : ℕ) (x : ℕ × ℕ) (hx : ts[i]? = some x) :
      (ts.map fun x => (string + x.1, string + x.2))[i]? = some (string + x.1, string + x.2) := by
    rw [List.getElem?_map, hx]
    rfl
  have hsep (k : ℕ) (hk : k < l.length) (hs : isSplitChar seps (mem (string + k)) = true) :
      ∃ c, l[k]? = some c ∧ isSplitChar seps c = true :=
    ⟨l[k], List.getElem?_eq_getElem hk, by rwa [h.getElem hk] at hs⟩
  refine ⟨hret, hargc, fun i hi x hx => (hargs i _ (hget i x hx) (by omega)).1, fun i hi x hx => ?_, hnull,
    fun i hi => (hbeyond i hi).trans (Function.update_of_ne (by simp only [maxArguments] at hi; omega) _ _),
    fun a ha => ?_⟩
  · have hrun := (hts.mem_iff x.1 x.2).mp (List.mem_of_getElem? hx)
    refine hrun.holdsString h (fun k hk hkj => ?_) (hargs i _ (hget i x hx) (by omega)).2
    rcases hmem (string + k) with heq | ⟨-, -, hhi, hs⟩
    · exact heq
    · -- the elements of a run are not separators
      obtain ⟨c, hc, hpc⟩ := hsep k (by omega) hs
      rw [hrun.inside k hk hkj c hc] at hpc
      cases hpc
  · rcases hmem a with heq | ⟨h0, hlo, hhi, hs⟩
    · exact absurd heq ha
    · obtain ⟨k, rfl⟩ := Nat.exists_eq_add_of_le hlo
      obtain ⟨c, hc, hpc⟩ := hsep k (by omega) hs
      exact ⟨h0, k, c, rfl, hc, strchr_isSome.mp hpc⟩

/-- The command line `a b `. -/
def commandLine : Memory := store (fun _ => 0) 100 [97, 32, 98, 32]

theorem strsplit_splits_commandLine : ∃ ts, IsTokens (isSplitChar [32]) [97, 32, 98, 32] ts ∧
    ∀ rounds, 4 < rounds → ∃ out, strsplit [32] rounds 100 commandLine (fun _ => 7) = some out ∧
      SplitInto [32] [97, 32, 98, 32] ts 100 commandLine (fun _ => 7) out :=
  strsplit_splits [32] [97, 32, 98, 32] 100 commandLine (fun _ => 7)
    ⟨by decide, by decide, by decide, by decide, by decide, by decide, by decide, by decide,
      show commandLine 104 = 0 by decide⟩

end FosKernel.StringSplitting
