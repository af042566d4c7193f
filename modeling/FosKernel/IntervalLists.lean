import Mathlib.Data.List.Basic
import Mathlib.Data.List.Pairwise
import Mathlib.Data.Finset.Card
import Mathlib.Order.Interval.Finset.Nat
import Mathlib.Tactic.Linarith

/-!
# Sorted lists of half-open intervals

A range that is shared out between free and live blocks, as two sorted lists of
intervals. A coalesced list is determined by the points it covers, so the free
list of such a partition is the list of maximal gaps between the live blocks.
-/

namespace FosKernel.IntervalLists

/-- `[start, start + length)` -/
structure Interval where
  start : ℕ
  length : ℕ
  deriving DecidableEq, Repr

namespace Interval

def stop (b : Interval) : ℕ := b.start + b.length

def Contains (b : Interval) (a : ℕ) : Prop := b.start ≤ a ∧ a < b.stop

/-- Both ends are multiples of `d`. -/
def Aligned (d : ℕ) (b : Interval) : Prop := d ∣ b.start ∧ d ∣ b.length

@[simp] theorem stop_mk (s n : ℕ) : (⟨s, n⟩ : Interval).stop = s + n := rfl

@[simp] theorem contains_mk (s n a : ℕ) : (⟨s, n⟩ : Interval).Contains a ↔ s ≤ a ∧ a < s + n :=
  Iff.rfl

theorem stop_le_start {b c : Interval} (h : b.start ≤ c.start) (hc : 0 < c.length)
    (hd : ∀ a, b.Contains a → ¬ c.Contains a) : b.stop ≤ c.start := by
  by_contra hlt
  exact hd c.start ⟨h, not_le.mp hlt⟩ ⟨le_rfl, Nat.lt_add_of_pos_right hc⟩

end Interval

/-- Some interval of the list contains the point. -/
def Covered (xs : List Interval) (a : ℕ) : Prop := ∃ b ∈ xs, b.Contains a

@[simp] theorem covered_nil (a : ℕ) : ¬ Covered [] a := by simp [Covered]

@[simp] theorem covered_cons (b : Interval) (xs : List Interval) (a : ℕ) :
    Covered (b :: xs) a ↔ b.Contains a ∨ Covered xs a := by simp [Covered]

@[simp] theorem covered_append (xs ys : List Interval) (a : ℕ) :
    Covered (xs ++ ys) a ↔ Covered xs a ∨ Covered ys a := by
  simp only [Covered, List.mem_append, or_and_right, exists_or]

/-- Non-empty intervals in order, the end of each related to the start of every later one. -/
structure Spaced (R : ℕ → ℕ → Prop) (xs : List Interval) : Prop where
  pos : ∀ b ∈ xs, 0 < b.length
  sorted : xs.Pairwise (fun b c => R b.stop c.start)

/-- In order, and two neighbours may touch. -/
abbrev Ordered : List Interval → Prop := Spaced (· ≤ ·)

/-- In order, and no two neighbours touch. -/
abbrev Coalesced : List Interval → Prop := Spaced (· < ·)

namespace Spaced

variable {R : ℕ → ℕ → Prop} {L M xs : List Interval} {b : Interval}

@[simp] theorem nil : Spaced R [] := ⟨by simp, .nil⟩

theorem cons_iff : Spaced R (b :: xs) ↔
    0 < b.length ∧ (∀ c ∈ xs, R b.stop c.start) ∧ Spaced R xs := by
  constructor
  · rintro ⟨hp, hs⟩
    rw [List.pairwise_cons] at hs
    exact ⟨hp b (by simp), hs.1, fun c hc => hp c (by simp [hc]), hs.2⟩
  · rintro ⟨hb, hc, hp, hs⟩
    exact ⟨by simpa [hb] using hp, List.pairwise_cons.mpr ⟨hc, hs⟩⟩

theorem append_iff : Spaced R (L ++ M) ↔
    Spaced R L ∧ Spaced R M ∧ ∀ l ∈ L, ∀ m ∈ M, R l.stop m.start := by
  constructor
  · rintro ⟨hp, hs⟩
    rw [List.pairwise_append] at hs
    exact ⟨⟨fun c hc => hp c (by simp [hc]), hs.1⟩,
      ⟨fun c hc => hp c (by simp [hc]), hs.2.1⟩, hs.2.2⟩
  · rintro ⟨hl, hm, hlm⟩
    refine ⟨fun c hc => ?_, List.pairwise_append.mpr ⟨hl.sorted, hm.sorted, hlm⟩⟩
    exact (List.mem_append.mp hc).elim (hl.pos c) (hm.pos c)

theorem append_cons_iff : Spaced R (L ++ b :: M) ↔ Spaced R (L ++ M) ∧ 0 < b.length ∧
    (∀ l ∈ L, R l.stop b.start) ∧ ∀ m ∈ M, R b.stop m.start := by
  simp only [append_iff, cons_iff, List.mem_cons, forall_eq_or_imp]
  constructor
  · rintro ⟨hl, ⟨hb, hbm, hm⟩, hlm⟩
    exact ⟨⟨hl, hm, fun l hl m hm => (hlm l hl).2 m hm⟩, hb, fun l hl => (hlm l hl).1, hbm⟩
  · rintro ⟨⟨hl, hm, hlm⟩, hb, hlb, hbm⟩
    exact ⟨hl, ⟨hb, hbm, hm⟩, fun l hl => ⟨hlb l hl, hlm l hl⟩⟩

theorem weaken (h : Coalesced xs) : Ordered xs := ⟨h.pos, h.sorted.imp fun hb => hb.le⟩

end Spaced

theorem Ordered.start_le {b : Interval} {xs : List Interval} (h : Ordered (b :: xs)) {a : ℕ}
    (ha : Covered (b :: xs) a) : b.start ≤ a := by
  obtain ⟨-, hbc, -⟩ := Spaced.cons_iff.mp h
  rw [covered_cons] at ha
  rcases ha with ha | ⟨c, hc, ha⟩
  · exact ha.1
  · have := hbc c hc
    simp only [Interval.stop] at this
    exact (by omega : b.start ≤ c.start).trans ha.1

theorem Ordered.not_covered {A B : List Interval} {b : Interval} (h : Ordered (A ++ b :: B)) {a : ℕ}
    (ha : b.Contains a) : ¬ Covered (A ++ B) a := by
  obtain ⟨-, hbB, hAb⟩ := List.pairwise_append.mp h.sorted
  have hb := (List.pairwise_cons.mp hbB).1
  rw [covered_append]
  rintro (⟨c, hc, hca⟩ | ⟨c, hc, hca⟩)
  · exact absurd (hca.2.trans_le ((hAb c hc b (by simp)).trans ha.1)) (lt_irrefl _)
  · exact absurd (ha.2.trans_le ((hb c hc).trans hca.1)) (lt_irrefl _)

theorem Ordered.stop_le_or {b c : Interval} {xs : List Interval} (h : Ordered xs) (hb : b ∈ xs)
    (hc : c ∈ xs) (hne : b.start ≠ c.start) : b.stop ≤ c.start ∨ c.stop ≤ b.start := by
  obtain ⟨A, B, rfl⟩ := List.append_of_mem hb
  have hsorted := List.pairwise_append.mp h.sorted
  rcases List.mem_append.mp hc with hA | hB
  · exact .inr (hsorted.2.2 c hA b (by simp))
  · rcases List.mem_cons.mp hB with rfl | hB
    · exact absurd rfl hne
    · exact .inl ((List.pairwise_cons.mp hsorted.2.1).1 c hB)

theorem Ordered.append_cons_inj {xs A A' B B' : List Interval} {b c : Interval} (h : Ordered xs)
    (hA : xs = A ++ b :: B) (hA' : xs = A' ++ c :: B') (hbc : b.start = c.start) :
    A = A' ∧ b = c ∧ B = B' := by
  have hsub {L R L' R' : List Interval} {b c : Interval} (hx : xs = L ++ b :: R)
      (hx' : xs = L' ++ c :: R') (hbc : b.start = c.start) : ¬ L.length < L'.length := by
    intro hlt
    have hb : b ∈ L' := by
      have : (L ++ b :: R)[L.length]? = (L' ++ c :: R')[L.length]? := by rw [← hx, ← hx']
      rw [List.getElem?_append_right le_rfl, List.getElem?_append_left hlt] at this
      exact List.mem_of_getElem? (by simpa using this.symm)
    obtain ⟨-, -, hLc⟩ := List.pairwise_append.mp (hx' ▸ h.sorted)
    have hstop := hLc b hb c (by simp)
    have hpos := h.pos b (by simp [hx])
    simp only [Interval.stop] at hstop
    omega
  have hlen : A.length = A'.length :=
    le_antisymm (not_lt.mp (hsub hA' hA hbc.symm)) (not_lt.mp (hsub hA hA' hbc))
  obtain ⟨hAA, hcons⟩ := List.append_inj (hA.symm.trans hA') hlen
  exact ⟨hAA, List.cons.inj hcons⟩

theorem Coalesced.stop_not_covered {b : Interval} {xs : List Interval}
    (h : Coalesced (b :: xs)) : ¬ Covered (b :: xs) b.stop := by
  obtain ⟨-, hbc, -⟩ := Spaced.cons_iff.mp h
  rw [covered_cons]
  rintro (ha | ⟨c, hc, ha⟩)
  · exact absurd ha.2 (lt_irrefl _)
  · exact absurd (hbc c hc) (not_lt.mpr ha.1)

/-- The first interval of one coalesced list ends no later than that of another
that covers the same points. -/
private theorem stop_le_stop {b c : Interval} {xs ys : List Interval}
    (hc : Coalesced (c :: ys)) (hbc : b.start = c.start)
    (h : ∀ a, Covered (b :: xs) a → Covered (c :: ys) a) : b.stop ≤ c.stop := by
  by_contra hlt
  have hcs : b.Contains c.stop := ⟨by rw [hbc]; simp [Interval.stop], not_le.mp hlt⟩
  exact Coalesced.stop_not_covered hc (h c.stop ((covered_cons _ _ _).mpr (.inl hcs)))

theorem Interval.ext_stop {b c : Interval} (h : b.start = c.start) (h' : b.stop = c.stop) :
    b = c := by
  cases b; cases c
  simp only [Interval.stop] at h'
  simp_all

theorem Coalesced.ext {xs ys : List Interval} (hx : Coalesced xs) (hy : Coalesced ys)
    (h : ∀ a, Covered xs a ↔ Covered ys a) : xs = ys := by
  induction xs generalizing ys with
  | nil =>
    cases ys with
    | nil => rfl
    | cons c ys =>
      have hc := (Spaced.cons_iff.mp hy).1
      have := (h c.start).mpr ((covered_cons _ _ _).mpr (.inl ⟨le_rfl, by simp [Interval.stop, hc]⟩))
      simp at this
  | cons b xs ih =>
    have hb := (Spaced.cons_iff.mp hx).1
    have hbs : Covered (b :: xs) b.start :=
      (covered_cons _ _ _).mpr (.inl ⟨le_rfl, by simp [Interval.stop, hb]⟩)
    cases ys with
    | nil => exact absurd ((h b.start).mp hbs) (covered_nil _)
    | cons c ys =>
      have hc := (Spaced.cons_iff.mp hy).1
      have hcs : Covered (c :: ys) c.start :=
        (covered_cons _ _ _).mpr (.inl ⟨le_rfl, by simp [Interval.stop, hc]⟩)
      have hstart : b.start = c.start :=
        le_antisymm (Ordered.start_le hx.weaken ((h _).mpr hcs))
          (Ordered.start_le hy.weaken ((h _).mp hbs))
      have hstop : b.stop = c.stop :=
        le_antisymm (stop_le_stop hy hstart fun a => (h a).mp)
          (stop_le_stop hx hstart.symm fun a => (h a).mpr)
      obtain rfl := Interval.ext_stop hstart hstop
      congr 1
      obtain ⟨-, hbx, hx'⟩ := Spaced.cons_iff.mp hx
      obtain ⟨-, hby, hy'⟩ := Spaced.cons_iff.mp hy
      refine ih hx' hy' fun a => ?_
      have hout : ∀ zs : List Interval, (∀ z ∈ zs, b.stop < z.start) → Covered zs a →
          ¬ b.Contains a := by
        rintro zs hz ⟨z, hm, ha⟩ hba
        exact absurd ((hba.2.trans (hz z hm)).trans_le ha.1) (lt_irrefl _)
      have := h a
      simp only [covered_cons] at this
      constructor
      · exact fun ha => (this.mp (.inr ha)).resolve_left (hout xs hbx ha)
      · exact fun ha => (this.mpr (.inr ha)).resolve_left (hout ys hby ha)

/-- The maximal stretches of `[lo, hi)` that the ordered list leaves uncovered. -/
def gaps (lo hi : ℕ) : List Interval → List Interval
  | [] => if lo < hi then [⟨lo, hi - lo⟩] else []
  | b :: bs => if lo < b.start then ⟨lo, b.start - lo⟩ :: gaps b.stop hi bs
      else gaps b.stop hi bs

theorem gaps_start {lo hi : ℕ} {xs : List Interval} (h : Ordered xs)
    (hlo : ∀ b ∈ xs, lo ≤ b.start) : ∀ g ∈ gaps lo hi xs, lo ≤ g.start := by
  induction xs generalizing lo with
  | nil =>
    intro g hg
    unfold gaps at hg
    split at hg <;> simp_all
  | cons b bs ih =>
    obtain ⟨-, hbc, hbs⟩ := Spaced.cons_iff.mp h
    have hb : lo ≤ b.stop := (hlo b (by simp)).trans (by simp [Interval.stop])
    intro g hg
    unfold gaps at hg
    split at hg
    · rcases List.mem_cons.mp hg with rfl | hg
      · exact le_rfl
      · exact hb.trans (ih hbs hbc g hg)
    · exact hb.trans (ih hbs hbc g hg)

theorem gaps_coalesced {lo hi : ℕ} {xs : List Interval} (h : Ordered xs)
    (hlo : ∀ b ∈ xs, lo ≤ b.start) : Coalesced (gaps lo hi xs) := by
  induction xs generalizing lo with
  | nil =>
    unfold gaps
    split
    · exact Spaced.cons_iff.mpr ⟨by simp; omega, by simp, Spaced.nil⟩
    · exact Spaced.nil
  | cons b bs ih =>
    obtain ⟨hb, hbc, hbs⟩ := Spaced.cons_iff.mp h
    have hrest := ih hbs hbc
    unfold gaps
    split
    · refine Spaced.cons_iff.mpr ⟨by simp; omega, fun g hg => ?_, hrest⟩
      have hg := gaps_start hbs hbc g hg
      simp only [Interval.stop] at hg ⊢
      omega
    · exact hrest

theorem gaps_covered {lo hi : ℕ} {xs : List Interval} (h : Ordered xs)
    (hlo : ∀ b ∈ xs, lo ≤ b.start) (hhi : ∀ b ∈ xs, b.stop ≤ hi) (a : ℕ) :
    Covered (gaps lo hi xs) a ↔ lo ≤ a ∧ a < hi ∧ ¬ Covered xs a := by
  induction xs generalizing lo with
  | nil =>
    unfold gaps
    split
    · simp only [covered_cons, Interval.contains_mk, covered_nil, or_false, not_false_eq_true,
        and_true]
      omega
    · simp only [covered_nil, false_iff, not_and, not_false_eq_true]
      omega
  | cons b bs ih =>
    obtain ⟨hb, hbc, hbs⟩ := Spaced.cons_iff.mp h
    have hrest := ih hbs hbc (fun c hc => hhi c (by simp [hc]))
    have hbl := hlo b (by simp)
    have hbh := hhi b (by simp)
    have hout : a < b.stop → ¬ Covered bs a := by
      rintro ha ⟨c, hc, hca⟩
      exact absurd (ha.trans_le ((hbc c hc).trans hca.1)) (lt_irrefl _)
    unfold gaps
    simp only [Interval.stop] at hbh hout hrest ⊢
    split
    · simp only [covered_cons, hrest, Interval.Contains, Interval.stop]
      by_cases hc : Covered bs a
      · have hge : b.start + b.length ≤ a := not_lt.mp fun ha => hout ha hc
        simp only [hc, not_true_eq_false, and_false, or_true, or_false, iff_false]
        omega
      · simp only [hc, not_false_eq_true, and_true, or_false]
        omega
    · simp only [covered_cons, hrest, Interval.Contains, Interval.stop]
      by_cases hc : Covered bs a
      · simp only [hc, not_true_eq_false, and_false, or_true]
      · simp only [hc, not_false_eq_true, and_true, or_false]
        omega

def total (xs : List Interval) : ℕ := (xs.map Interval.length).sum

@[simp] theorem total_nil : total [] = 0 := rfl

@[simp] theorem total_cons (b : Interval) (xs : List Interval) :
    total (b :: xs) = b.length + total xs := by simp [total]

@[simp] theorem total_append (xs ys : List Interval) : total (xs ++ ys) = total xs + total ys := by
  simp [total]

theorem gaps_total {lo hi : ℕ} {xs : List Interval} (h : Ordered xs) (hle : lo ≤ hi)
    (hlo : ∀ b ∈ xs, lo ≤ b.start) (hhi : ∀ b ∈ xs, b.stop ≤ hi) :
    total (gaps lo hi xs) + total xs = hi - lo := by
  induction xs generalizing lo with
  | nil =>
    unfold gaps
    split
    · simp
    · simp only [total_nil]
      omega
  | cons b bs ih =>
    obtain ⟨-, hbc, hbs⟩ := Spaced.cons_iff.mp h
    have hbh := hhi b (by simp)
    have hbl := hlo b (by simp)
    have hrest := ih hbs hbh hbc (fun c hc => hhi c (by simp [hc]))
    unfold gaps
    simp only [Interval.stop] at hbh hrest ⊢
    split <;> simp only [total_cons] <;> omega

theorem mul_length_le_total {page : ℕ} {xs : List Interval} (h : ∀ b ∈ xs, page ≤ b.length) :
    page * xs.length ≤ total xs := by
  induction xs with
  | nil => simp
  | cons b xs ih =>
    have hb := h b (by simp)
    have hxs := ih fun c hc => h c (by simp [hc])
    rw [List.length_cons, total_cons, Nat.mul_succ]
    omega

theorem mul_length_add_le_total {page : ℕ} {xs : List Interval} {b : Interval}
    (h : ∀ c ∈ xs, page ≤ c.length) (hb : b ∈ xs) :
    page * xs.length + (b.length - page) ≤ total xs := by
  obtain ⟨L, R, rfl⟩ := List.append_of_mem hb
  have hrest : page * (L ++ R).length ≤ total (L ++ R) := by
    refine mul_length_le_total fun c hc => h c ?_
    simp only [List.mem_append, List.mem_cons] at hc ⊢
    tauto
  have hbp := h b hb
  simp only [total, List.length_append, List.length_cons, List.map_append, List.map_cons,
    List.sum_append, List.sum_cons, Nat.mul_add, Nat.mul_one] at hrest ⊢
  omega

/-- `[lo, hi)` is shared out between a coalesced free list and an ordered live list. -/
structure Partition (lo hi : ℕ) (free live : List Interval) : Prop where
  coalesced : Coalesced free
  ordered : Ordered live
  cover : ∀ a, lo ≤ a ∧ a < hi ↔ Covered free a ∨ Covered live a
  disjoint : ∀ a, Covered free a → ¬ Covered live a

namespace Partition

variable {lo hi : ℕ} {free live : List Interval}

theorem bounds (h : Partition lo hi free live) {b : Interval} (hb : b ∈ free ∨ b ∈ live) :
    lo ≤ b.start ∧ b.stop ≤ hi := by
  have hpos : 0 < b.length := hb.elim (h.coalesced.pos b) (h.ordered.pos b)
  have hin : ∀ a, b.Contains a → lo ≤ a ∧ a < hi := fun a ha =>
    (h.cover a).mpr (hb.elim (fun hb => .inl ⟨b, hb, ha⟩) (fun hb => .inr ⟨b, hb, ha⟩))
  have h₁ := hin b.start ⟨le_rfl, by simp [Interval.stop, hpos]⟩
  have h₂ := hin (b.stop - 1) (by simp only [Interval.Contains, Interval.stop]; omega)
  omega

theorem free_eq_gaps (h : Partition lo hi free live) : free = gaps lo hi live := by
  have hlo : ∀ b ∈ live, lo ≤ b.start := fun b hb => (h.bounds (.inr hb)).1
  have hhi : ∀ b ∈ live, b.stop ≤ hi := fun b hb => (h.bounds (.inr hb)).2
  refine h.coalesced.ext (gaps_coalesced h.ordered hlo) fun a => ?_
  rw [gaps_covered h.ordered hlo hhi]
  have hc := h.cover a
  have hd := h.disjoint a
  tauto

theorem total_eq (h : Partition lo hi free live) (hle : lo ≤ hi) :
    total free + total live = hi - lo := by
  rw [h.free_eq_gaps]
  exact gaps_total h.ordered hle (fun b hb => (h.bounds (.inr hb)).1)
    (fun b hb => (h.bounds (.inr hb)).2)

theorem disjoint_blocks (h : Partition lo hi free live) {f b : Interval} (hf : f ∈ free)
    (hb : b ∈ live) : f.stop ≤ b.start ∨ b.stop ≤ f.start := by
  have hfp := h.coalesced.pos f hf
  have hbp := h.ordered.pos b hb
  by_contra hc
  have hd : ∀ a, f.Contains a → ¬ b.Contains a := fun a hfa hba =>
    h.disjoint a ⟨f, hf, hfa⟩ ⟨b, hb, hba⟩
  have h₁ := hd f.start
  have h₂ := hd b.start
  simp only [Interval.Contains, Interval.stop] at *
  omega

theorem initial (h : lo < hi) : Partition lo hi [⟨lo, hi - lo⟩] [] := by
  refine ⟨Spaced.cons_iff.mpr ⟨by simp; omega, by simp, Spaced.nil⟩, Spaced.nil, fun a => ?_, by simp⟩
  simp only [covered_cons, Interval.contains_mk, covered_nil, or_false]
  omega

section Moves

variable {L R A B : List Interval} {b c : Interval}

private theorem ordered_insert (h : Partition lo hi free (A ++ B)) (hb : 0 < b.length)
    (hd : ∀ x ∈ A ++ B, b.stop ≤ x.start ∨ x.stop ≤ b.start)
    (hA : ∀ x ∈ A, x.start < b.start) (hB : ∀ x ∈ B, b.start < x.start) :
    Ordered (A ++ b :: B) := by
  refine Spaced.append_cons_iff.mpr ⟨h.ordered, hb, fun x hx => ?_, fun x hx => ?_⟩
  · have h₁ := hd x (by simp [hx])
    have h₂ := hA x hx
    simp only [Interval.stop] at h₁ ⊢
    omega
  · have h₁ := hd x (by simp [hx])
    have h₂ := hB x hx
    have h₃ := h.ordered.pos x (by simp [hx])
    simp only [Interval.stop] at h₁ ⊢
    omega

theorem take (h : Partition lo hi (L ++ b :: R) (A ++ B))
    (hA : ∀ x ∈ A, x.start < b.start) (hB : ∀ x ∈ B, b.start < x.start) :
    Partition lo hi (L ++ R) (A ++ b :: B) := by
  obtain ⟨hLR, hb, hl, hr⟩ := Spaced.append_cons_iff.mp h.coalesced
  refine ⟨hLR, ordered_insert h hb (fun x hx => h.disjoint_blocks (by simp) hx) hA hB,
    fun a => ?_, fun a ha => ?_⟩
  · have hc := h.cover a
    simp only [covered_append, covered_cons] at hc ⊢
    rw [hc]
    grind only
  · have hd := h.disjoint a
    have hba : ¬ b.Contains a := by
      intro hba
      rw [covered_append] at ha
      rcases ha with ⟨l, hm, hla⟩ | ⟨r, hm, hra⟩
      · exact absurd ((hla.2.trans (hl l hm)).trans_le hba.1) (lt_irrefl _)
      · exact absurd ((hba.2.trans (hr r hm)).trans_le hra.1) (lt_irrefl _)
    simp only [covered_append, covered_cons] at hd ha ⊢
    tauto

theorem split (h : Partition lo hi (L ++ b :: R) (A ++ B)) {n : ℕ} (hn : 0 < n)
    (hnb : n < b.length) (hA : ∀ x ∈ A, x.start < b.start) (hB : ∀ x ∈ B, b.start < x.start) :
    Partition lo hi (L ++ ⟨b.start + n, b.length - n⟩ :: R) (A ++ ⟨b.start, n⟩ :: B) := by
  obtain ⟨hLR, hb, hl, hr⟩ := Spaced.append_cons_iff.mp h.coalesced
  have hsplit : ∀ a, b.Contains a ↔
      (⟨b.start, n⟩ : Interval).Contains a ∨ (⟨b.start + n, b.length - n⟩ : Interval).Contains a := by
    intro a
    simp only [Interval.Contains, Interval.stop]
    omega
  refine ⟨?_, ?_, fun a => ?_, fun a ha => ?_⟩
  · refine Spaced.append_cons_iff.mpr ⟨hLR, by simp; omega, fun l hm => ?_, fun r hm => ?_⟩
    · have := hl l hm
      simp only [Interval.stop] at this ⊢
      omega
    · have := hr r hm
      simp only [Interval.stop] at this ⊢
      omega
  · refine ordered_insert (b := ⟨b.start, n⟩) h hn (fun x hx => ?_) hA hB
    have := h.disjoint_blocks (f := b) (by simp) hx
    simp only [Interval.stop] at this ⊢
    omega
  · have hc := h.cover a
    simp only [covered_append, covered_cons, hsplit a] at hc ⊢
    rw [hc]
    grind only
  · have hd := h.disjoint a
    have hs := hsplit a
    have hba : ¬ (⟨b.start, n⟩ : Interval).Contains a := by
      intro hba
      simp only [Interval.Contains, Interval.stop] at hba
      simp only [covered_append, covered_cons] at ha
      rcases ha with ⟨l, hm, hla⟩ | hta | ⟨r, hm, hra⟩
      · have := hl l hm
        simp only [Interval.Contains, Interval.stop] at hla this
        omega
      · simp only [Interval.Contains, Interval.stop] at hta
        omega
      · have := hr r hm
        simp only [Interval.Contains, Interval.stop] at hra this
        omega
    simp only [covered_append, covered_cons] at hd ha ⊢
    tauto

private theorem last_stop_lt {b : Interval} (h : Coalesced L) (hb : ∀ l ∈ L, l.stop ≤ b.start)
    (hlast : ∀ p, L.getLast? = some p → p.stop ≠ b.start) : ∀ l ∈ L, l.stop < b.start := by
  rcases List.eq_nil_or_concat L with rfl | ⟨L', p, rfl⟩
  · simp
  · rw [List.concat_eq_append] at *
    have hp := hb p (by simp)
    have hne := hlast p (by simp)
    intro l hl
    rcases List.mem_append.mp hl with hl | hl
    · have := (Spaced.append_iff.mp h).2.2 l hl p (by simp)
      have hpos := h.pos p (by simp)
      simp only [Interval.stop] at *
      omega
    · rw [List.mem_singleton] at hl
      subst hl
      omega

private theorem head_start_gt {b : Interval} (h : Coalesced R) (hb : ∀ r ∈ R, b.stop ≤ r.start)
    (hhead : ∀ n, R.head? = some n → b.stop ≠ n.start) : ∀ r ∈ R, b.stop < r.start := by
  cases R with
  | nil => simp
  | cons n R =>
    have hn := hb n (by simp)
    have hne := hhead n rfl
    intro r hr
    rcases List.mem_cons.mp hr with rfl | hr
    · omega
    · have := (Spaced.cons_iff.mp h).2.1 r hr
      have hpos := h.pos n (by simp)
      simp only [Interval.stop] at *
      omega

/-- What a coalescing insertion may leave to the left of the new block `c`. -/
def JoinsLeft (L L' : List Interval) (b c : Interval) : Prop :=
  (L = L' ∧ c.start = b.start ∧ ∀ p, L.getLast? = some p → p.stop ≠ b.start) ∨
    ∃ p, L = L' ++ [p] ∧ p.stop = b.start ∧ c.start = p.start

/-- What a coalescing insertion may leave to the right of the new block `c`. -/
def JoinsRight (R R' : List Interval) (b c : Interval) : Prop :=
  (R = R' ∧ c.stop = b.stop ∧ ∀ n, R.head? = some n → b.stop ≠ n.start) ∨
    ∃ n, R = n :: R' ∧ b.stop = n.start ∧ c.stop = n.stop

private theorem JoinsLeft.spec {L' : List Interval} (hl : JoinsLeft L L' b c)
    (hL : Coalesced L) (hlb : ∀ l ∈ L, l.stop ≤ b.start) :
    c.start ≤ b.start ∧ Coalesced L' ∧ (∀ l ∈ L', l ∈ L) ∧ (∀ l ∈ L', l.stop < c.start) ∧
      ∀ a, a < b.start → (Covered L a ↔ Covered L' a ∨ c.start ≤ a) := by
  rcases hl with ⟨rfl, hs, hne⟩ | ⟨p, rfl, hp, hs⟩
  · rw [hs]
    refine ⟨le_rfl, hL, fun l hl => hl, last_stop_lt hL hlb hne, fun a ha => ?_⟩
    exact ⟨.inl, fun h => h.resolve_right (by omega)⟩
  · obtain ⟨hL', -, hlp⟩ := Spaced.append_iff.mp hL
    rw [hs]
    refine ⟨by rw [← hp]; simp [Interval.stop], hL', fun l hl => by simp [hl],
      fun l hl => hlp l hl p (by simp), fun a ha => ?_⟩
    simp only [covered_append, covered_cons, covered_nil, or_false, Interval.Contains, hp, ha,
      and_true]

private theorem JoinsRight.spec {R' : List Interval} (hr : JoinsRight R R' b c)
    (hR : Coalesced R) (hbr : ∀ r ∈ R, b.stop ≤ r.start) :
    b.stop ≤ c.stop ∧ Coalesced R' ∧ (∀ r ∈ R', r ∈ R) ∧ (∀ r ∈ R', c.stop < r.start) ∧
      ∀ a, b.stop ≤ a → (Covered R a ↔ Covered R' a ∨ a < c.stop) := by
  rcases hr with ⟨rfl, hs, hne⟩ | ⟨n, rfl, hn, hs⟩
  · rw [hs]
    refine ⟨le_rfl, hR, fun r hr => hr, head_start_gt hR hbr hne, fun a ha => ?_⟩
    exact ⟨.inl, fun h => h.resolve_right (by omega)⟩
  · obtain ⟨-, hnr, hR'⟩ := Spaced.cons_iff.mp hR
    rw [hs]
    refine ⟨by rw [hn]; simp [Interval.stop], hR', fun r hr => by simp [hr], hnr, fun a ha => ?_⟩
    rw [hn] at ha
    simp only [covered_cons, Interval.Contains, ha, true_and, or_comm]

theorem joined_aligned {L' R' : List Interval} {d : ℕ} (hl : JoinsLeft L L' b c)
    (hr : JoinsRight R R' b c) (hb : b.Aligned d) (hL : ∀ l ∈ L, l.Aligned d)
    (hR : ∀ r ∈ R, r.Aligned d) : ∀ x ∈ L' ++ c :: R', x.Aligned d := by
  have hleft : d ∣ c.start ∧ c.start ≤ b.start ∧ ∀ l ∈ L', l.Aligned d := by
    rcases hl with ⟨rfl, hs, -⟩ | ⟨p, rfl, hp, hs⟩
    · exact ⟨hs ▸ hb.1, hs.le, hL⟩
    · refine ⟨hs ▸ (hL p (by simp)).1, ?_, fun l hl => hL l (by simp [hl])⟩
      rw [hs, ← hp]
      exact Nat.le_add_right _ _
  have hright : d ∣ c.stop ∧ b.stop ≤ c.stop ∧ ∀ r ∈ R', r.Aligned d := by
    rcases hr with ⟨rfl, hs, -⟩ | ⟨n, rfl, hn, hs⟩
    · exact ⟨hs ▸ Nat.dvd_add hb.1 hb.2, hs.ge, hR⟩
    · have hna := hR n (by simp)
      refine ⟨hs ▸ Nat.dvd_add hna.1 hna.2, ?_, fun r hr => hR r (by simp [hr])⟩
      rw [hs, hn]
      exact Nat.le_add_right _ _
  intro x hx
  rw [List.mem_append, List.mem_cons] at hx
  rcases hx with hx | rfl | hx
  · exact hleft.2.2 x hx
  · refine ⟨hleft.1, ?_⟩
    have hsub := Nat.dvd_sub hright.1 hleft.1
    simpa [Interval.stop] using hsub
  · exact hright.2.2 x hx

theorem fuse {p d : Interval} (h : Ordered (L ++ p :: b :: R)) (hpb : p.stop = b.start)
    (hstart : d.start = p.start) (hstop : d.stop = b.stop) :
    Ordered (L ++ d :: R) ∧ ∀ a, Covered (L ++ d :: R) a ↔ Covered (L ++ p :: b :: R) a := by
  obtain ⟨hLbR, hp, hLp, hpR⟩ := Spaced.append_cons_iff.mp h
  obtain ⟨hLR, hb, -, hbR⟩ := Spaced.append_cons_iff.mp hLbR
  have hpos : d.start < d.stop := by
    simp only [Interval.stop] at *
    omega
  refine ⟨Spaced.append_cons_iff.mpr ⟨hLR, ?_, fun l hl => ?_, fun r hr => ?_⟩, fun a => ?_⟩
  · simp only [Interval.stop] at hpos
    omega
  · exact hstart ▸ hLp l hl
  · exact hstop ▸ hbR r hr
  · have hda : d.Contains a ↔ p.Contains a ∨ b.Contains a := by
      simp only [Interval.Contains, Interval.stop] at *
      omega
    simp only [covered_append, covered_cons, hda]
    tauto

theorem joined_ordered {L' R' : List Interval} (h : Ordered (L ++ b :: R))
    (hl : JoinsLeft L L' b c) (hr : JoinsRight R R' b c) :
    Ordered (L' ++ c :: R') ∧ ∀ a, Covered (L' ++ c :: R') a ↔ Covered (L ++ b :: R) a := by
  have hright {L : List Interval} {d : Interval} (h : Ordered (L ++ d :: R))
      (hstart : c.start = d.start) (hstop : d.stop = b.stop) :
      Ordered (L ++ c :: R') ∧ ∀ a, Covered (L ++ c :: R') a ↔ Covered (L ++ d :: R) a := by
    rcases hr with ⟨rfl, hs, -⟩ | ⟨n, rfl, hn, hs⟩
    · obtain rfl := Interval.ext_stop hstart (hs.trans hstop.symm)
      exact ⟨h, fun _ => Iff.rfl⟩
    · exact fuse h (hstop.trans hn) hstart hs
  rcases hl with ⟨rfl, hs, -⟩ | ⟨p, rfl, hp, hs⟩
  · exact hright h hs rfl
  · rw [List.append_assoc, List.singleton_append] at h ⊢
    obtain ⟨hd, hcov⟩ := fuse h hp (d := ⟨p.start, p.length + b.length⟩) rfl (by
      simp only [Interval.stop] at hp ⊢
      omega)
    obtain ⟨hc, hcov'⟩ := hright hd hs (by
      simp only [Interval.stop] at hp ⊢
      omega)
    exact ⟨hc, fun a => (hcov' a).trans (hcov a)⟩

private theorem joined_covered {L' R' : List Interval} (hl : JoinsLeft L L' b c)
    (hr : JoinsRight R R' b c) (hL : Coalesced L) (hR : Coalesced R) (hb : 0 < b.length)
    (hlb : ∀ l ∈ L, l.stop ≤ b.start) (hbr : ∀ r ∈ R, b.stop ≤ r.start) (a : ℕ) :
    Covered (L' ++ c :: R') a ↔ Covered (L ++ R) a ∨ b.Contains a := by
  obtain ⟨hcb, -, hsubL, -, hcovL⟩ := hl.spec hL hlb
  obtain ⟨hbc, -, hsubR, -, hcovR⟩ := hr.spec hR hbr
  have hLa : Covered L a → a < b.start := fun ⟨l, hm, ha⟩ => ha.2.trans_le (hlb l hm)
  have hRa : Covered R a → b.stop ≤ a := fun ⟨r, hm, ha⟩ => (hbr r hm).trans ha.1
  have hbl : b.start < b.stop := by simp [Interval.stop, hb]
  simp only [covered_append, covered_cons, Interval.Contains]
  constructor
  · rintro (⟨l, hm, ha⟩ | ⟨ha₁, ha₂⟩ | ⟨r, hm, ha⟩)
    · exact .inl (.inl ⟨l, hsubL l hm, ha⟩)
    · rcases lt_or_ge a b.start with hab | hab
      · exact .inl (.inl ((hcovL a hab).mpr (.inr ha₁)))
      · rcases lt_or_ge a b.stop with hab' | hab'
        · exact .inr ⟨hab, hab'⟩
        · exact .inl (.inr ((hcovR a hab').mpr (.inr ha₂)))
    · exact .inl (.inr ⟨r, hsubR r hm, ha⟩)
  · rintro ((ha | ha) | ⟨ha₁, ha₂⟩)
    · rcases (hcovL a (hLa ha)).mp ha with h | h
      · exact .inl h
      · exact .inr (.inl ⟨h, (hLa ha).trans (hbl.trans_le hbc)⟩)
    · rcases (hcovR a (hRa ha)).mp ha with h | h
      · exact .inr (.inr h)
      · exact .inr (.inl ⟨hcb.trans (hbl.le.trans (hRa ha)), h⟩)
    · exact .inr (.inl ⟨hcb.trans ha₁, ha₂.trans_le hbc⟩)

theorem release {L' R' : List Interval} (h : Partition lo hi (L ++ R) (A ++ b :: B))
    (hL : ∀ l ∈ L, l.start < b.start) (hR : ∀ r ∈ R, b.start < r.start)
    (hl : JoinsLeft L L' b c) (hr : JoinsRight R R' b c) :
    Partition lo hi (L' ++ c :: R') (A ++ B) := by
  obtain ⟨hAB, hb, hA, hB⟩ := Spaced.append_cons_iff.mp h.ordered
  obtain ⟨hcL, hcR, hLR⟩ := Spaced.append_iff.mp h.coalesced
  have hlb : ∀ l ∈ L, l.stop ≤ b.start := by
    intro l hm
    have h₁ := h.disjoint_blocks (f := l) (b := b) (by simp [hm]) (by simp)
    have h₂ := hL l hm
    simp only [Interval.stop] at *
    omega
  have hbr : ∀ r ∈ R, b.stop ≤ r.start := by
    intro r hm
    have h₁ := h.disjoint_blocks (f := r) (b := b) (by simp [hm]) (by simp)
    have h₂ := hR r hm
    simp only [Interval.stop] at *
    omega
  obtain ⟨hcb, hcL', hsubL, hltL, -⟩ := hl.spec hcL hlb
  obtain ⟨hbc, hcR', hsubR, hltR, -⟩ := hr.spec hcR hbr
  have hcov := joined_covered hl hr hcL hcR hb hlb hbr
  have hlive : ∀ a, Covered (A ++ b :: B) a ↔ Covered (A ++ B) a ∨ b.Contains a := by
    intro a
    simp only [covered_append, covered_cons]
    rw [or_assoc, or_comm (a := b.Contains a)]
  refine ⟨?_, hAB, fun a => ?_, fun a ha hab => ?_⟩
  · refine Spaced.append_cons_iff.mpr ⟨Spaced.append_iff.mpr ⟨hcL', hcR', ?_⟩, ?_, hltL, hltR⟩
    · exact fun l hl r hr => hLR l (hsubL l hl) r (hsubR r hr)
    · simp only [Interval.stop] at hbc
      omega
  · rw [h.cover a, hcov, hlive, or_right_comm, ← or_assoc]
  · rcases (hcov a).mp ha with hf | hba
    · exact h.disjoint a hf ((hlive a).mpr (.inl hab))
    · obtain ⟨x, hm, hxa⟩ := hab
      rcases List.mem_append.mp hm with hm | hm
      · exact absurd (hxa.2.trans_le ((hA x hm).trans hba.1)) (lt_irrefl _)
      · exact absurd (hba.2.trans_le ((hB x hm).trans hxa.1)) (lt_irrefl _)

end Moves
end Partition
end FosKernel.IntervalLists
