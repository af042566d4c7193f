import Mathlib.Data.Finset.Card
import Mathlib.Data.Finset.Filter
import Mathlib.Data.Set.Insert

/-!
# Pools of counted frames

Slots name frames, a frame is counted by the slots that name it, and a free list
holds the frames that no slot names. Counters wrap at `m`. A frame taken off the
free list is in limbo until a slot names it.
-/

namespace FosKernel.ReferenceCounts

variable {σ φ : Type*} [DecidableEq σ] [DecidableEq φ]

def count (S : Finset σ) (name : σ → Option φ) (f : φ) : ℕ := (S.filter fun x => name x = some f).card

section Count

variable {S : Finset σ} {name name' : σ → Option φ} {x : σ} {f : φ} {b : Option φ}

omit [DecidableEq σ] in
theorem count_congr (h : ∀ x ∈ S, name x = name' x) : count S name = count S name' := by
  funext f
  unfold count
  congr 1
  exact Finset.filter_congr fun x hx => by rw [h x hx]

omit [DecidableEq σ] in
theorem count_eq_zero : count S name f = 0 ↔ ∀ x ∈ S, name x ≠ some f := by
  simp [count, Finset.card_eq_zero, Finset.filter_eq_empty_iff]

omit [DecidableEq σ] in
theorem count_pos (hx : x ∈ S) (h : name x = some f) : 0 < count S name f :=
  Nat.pos_of_ne_zero fun h0 => count_eq_zero.mp h0 x hx h

def weight (b : Option φ) (f : φ) : ℕ := if b = some f then 1 else 0

@[simp] theorem weight_none (f : φ) : weight none f = 0 := rfl
@[simp] theorem weight_self (f : φ) : weight (some f) f = 1 := if_pos rfl
theorem weight_of_ne {g : φ} (h : g ≠ f) : weight (some g) f = 0 := if_neg fun he => h (Option.some.inj he)

theorem count_insert_erase (hx : x ∈ S) (name : σ → Option φ) (f : φ) :
    count S name f = count (S.erase x) name f + weight (name x) f := by
  conv_lhs => rw [count, ← Finset.insert_erase hx, Finset.filter_insert]
  unfold weight count
  split
  · rw [Finset.card_insert_of_notMem (by simp)]
  · rfl

theorem count_update (hx : x ∈ S) (hname : ∀ y ∈ S, name' y = Function.update name x b y) (f : φ) :
    count S name' f + weight (name x) f = count S name f + weight b f := by
  rw [count_insert_erase hx name', count_insert_erase hx name, hname x hx, Function.update_self]
  have hrest : count (S.erase x) name' = count (S.erase x) name := count_congr fun y hy => by
    rw [hname y (Finset.mem_of_mem_erase hy), Function.update_of_ne (Finset.ne_of_mem_erase hy)]
  rw [hrest]
  omega

end Count

/-- What the slots name, the counters, and the free list. -/
structure Pool (σ φ : Type*) where
  name : σ → Option φ
  refs : φ → ℕ
  free : List φ

/-- The counters count, and the free list holds the managed frames that no slot
names and that are not in limbo, each once. -/
structure Sound (m : ℕ) (S : Finset σ) (managed limbo : Set φ) (p : Pool σ φ) : Prop where
  refs : ∀ f ∈ managed, p.refs f = count S p.name f % m
  named : ∀ x ∈ S, ∀ f, p.name x = some f → f ∈ managed ∧ f ∉ limbo
  nodup : p.free.Nodup
  free : ∀ f, f ∈ p.free ↔ f ∈ managed ∧ count S p.name f = 0 ∧ f ∉ limbo

namespace Sound

variable {m : ℕ} {S : Finset σ} {managed limbo : Set φ} {p q : Pool σ φ} {x : σ} {f : φ}
  {fs : List φ}

omit [DecidableEq σ] in
theorem congr (h : Sound m S managed limbo p) (hname : ∀ x ∈ S, q.name x = p.name x)
    (hrefs : ∀ f ∈ managed, q.refs f = p.refs f) (hfree : q.free = p.free) :
    Sound m S managed limbo q := by
  have hcount : count S q.name = count S p.name := count_congr hname
  refine ⟨fun f hf => ?_, fun x hx f hf => ?_, hfree ▸ h.nodup, fun f => ?_⟩
  · rw [hrefs f hf, hcount, h.refs f hf]
  · exact h.named x hx f ((hname x hx).symm.trans hf)
  · rw [hfree, hcount, h.free f]

omit [DecidableEq σ] in
theorem not_free (h : Sound m S managed limbo p) (hx : x ∈ S) (hn : p.name x = some f) :
    f ∉ p.free := fun hf => (count_pos hx hn).ne' ((h.free f).mp hf).2.1

omit [DecidableEq σ] in
theorem take (h : Sound m S managed limbo p) (hfree : p.free = f :: fs) :
    Sound m S managed (insert f limbo) ⟨p.name, Function.update p.refs f 0, fs⟩ := by
  have hnd := List.nodup_cons.mp (hfree ▸ h.nodup)
  have hf := (h.free f).mp (by simp [hfree])
  refine ⟨fun g hg => ?_, fun x hx g hn => ?_, hnd.2, fun g => ?_⟩
  · by_cases hgf : g = f
    · subst hgf
      simp [hf.2.1]
    · simpa [hgf] using h.refs g hg
  · obtain ⟨hm, hl⟩ := h.named x hx g hn
    refine ⟨hm, ?_⟩
    rintro (rfl | hg)
    · exact (count_pos hx hn).ne' hf.2.1
    · exact hl hg
  · have := h.free g
    rw [hfree, List.mem_cons] at this
    constructor
    · intro hg
      have hgf : g ≠ f := fun he => hnd.1 (he ▸ hg)
      obtain ⟨hm, hc, hl⟩ := this.mp (.inr hg)
      exact ⟨hm, hc, fun h => h.elim hgf hl⟩
    · rintro ⟨hm, hc, hl⟩
      exact (this.mpr ⟨hm, hc, fun h => hl (.inr h)⟩).resolve_left fun h => hl (.inl h)

theorem assign (h : Sound m S managed limbo p) (hx : x ∈ S) (hnone : p.name x = none)
    (hf : f ∈ managed) (hl : f ∈ limbo ∨ 0 < count S p.name f)
    (hname : ∀ y ∈ S, q.name y = Function.update p.name x (some f) y)
    (hrefs : ∀ g ∈ managed, q.refs g = Function.update p.refs f ((p.refs f + 1) % m) g)
    (hfree : q.free = p.free) :
    Sound m S managed (limbo \ {f}) q := by
  have hcount (g : φ) : count S q.name g = count S p.name g + weight (some f) g := by
    simpa [hnone] using count_update hx hname g
  refine ⟨fun g hg => ?_, fun y hy g hn => ?_, hfree ▸ h.nodup, fun g => ?_⟩
  · rw [hrefs g hg, hcount]
    by_cases hgf : g = f
    · subst hgf
      rw [Function.update_self, weight_self, h.refs g hf, Nat.mod_add_mod]
    · rw [Function.update_of_ne hgf, weight_of_ne (Ne.symm hgf), Nat.add_zero, h.refs g hg]
  · rw [hname y hy] at hn
    by_cases hyx : y = x
    · subst hyx
      rw [Function.update_self] at hn
      obtain rfl := Option.some.inj hn
      exact ⟨hf, fun h => h.2 rfl⟩
    · rw [Function.update_of_ne hyx] at hn
      exact (h.named y hy g hn).imp_right fun hg h => hg h.1
  · rw [hfree, h.free g, hcount]
    by_cases hgf : g = f
    · subst hgf
      simp only [weight_self, Nat.add_eq_zero_iff, one_ne_zero, and_false, false_and, iff_false]
      rintro ⟨-, hc, hg⟩
      exact hl.elim hg fun hpos => hpos.ne' hc
    · simp [weight_of_ne (Ne.symm hgf), hgf]

theorem clear (h : Sound m S managed limbo p) (hm : 1 < m) (hx : x ∈ S) (hn : p.name x = some f)
    (hle : count S p.name f ≤ m)
    (hname : ∀ y ∈ S, q.name y = Function.update p.name x none y)
    (hlast : (p.refs f + (m - 1)) % m = 0 →
      (∀ g ∈ managed, q.refs g = Function.update p.refs f 0 g) ∧ q.free = f :: p.free)
    (hmore : (p.refs f + (m - 1)) % m ≠ 0 →
      (∀ g ∈ managed, q.refs g = Function.update p.refs f ((p.refs f + (m - 1)) % m) g) ∧
        q.free = p.free) :
    Sound m S managed limbo q := by
  have hcount (g : φ) : count S q.name g + weight (some f) g = count S p.name g := by
    simpa [hn] using count_update hx hname g
  have hf := (h.named x hx f hn).1
  have hfl := (h.named x hx f hn).2
  have hpos := count_pos hx hn
  have hcf : count S q.name f + 1 = count S p.name f := by simpa using hcount f
  have hother (g : φ) (hgf : g ≠ f) : count S q.name g = count S p.name g := by
    simpa [weight_of_ne (Ne.symm hgf)] using hcount g
  have hval : (p.refs f + (m - 1)) % m = count S q.name f % m := by
    rw [h.refs f hf, Nat.mod_add_mod, ← hcf,
      show count S q.name f + 1 + (m - 1) = count S q.name f + m by omega, Nat.add_mod_right]
  have hzero : (p.refs f + (m - 1)) % m = 0 ↔ count S q.name f = 0 := by
    rw [hval, Nat.mod_eq_of_lt (by omega)]
  have hnamed : ∀ y ∈ S, ∀ g, q.name y = some g → g ∈ managed ∧ g ∉ limbo := by
    intro y hy g hg
    rw [hname y hy] at hg
    by_cases hyx : y = x
    · simp [hyx] at hg
    · exact h.named y hy g (by simpa [hyx] using hg)
  by_cases hl : (p.refs f + (m - 1)) % m = 0
  · obtain ⟨hr, hfr⟩ := hlast hl
    refine ⟨fun g hg => ?_, hnamed, ?_, fun g => ?_⟩
    · rw [hr g hg]
      by_cases hgf : g = f
      · subst hgf
        simp [hzero.mp hl]
      · rw [Function.update_of_ne hgf, hother g hgf, h.refs g hg]
    · rw [hfr]
      exact List.nodup_cons.mpr ⟨h.not_free hx hn, h.nodup⟩
    · rw [hfr, List.mem_cons, h.free g]
      by_cases hgf : g = f
      · subst hgf
        simp [hf, hzero.mp hl, hfl]
      · simp [hgf, hother g hgf]
  · obtain ⟨hr, hfr⟩ := hmore hl
    refine ⟨fun g hg => ?_, hnamed, hfr ▸ h.nodup, fun g => ?_⟩
    · rw [hr g hg]
      by_cases hgf : g = f
      · subst hgf
        rw [Function.update_self, hval]
      · rw [Function.update_of_ne hgf, hother g hgf, h.refs g hg]
    · rw [hfr, h.free g]
      by_cases hgf : g = f
      · subst hgf
        have := mt hzero.mpr hl
        simp [hpos.ne', this]
      · rw [hother g hgf]

end Sound

end FosKernel.ReferenceCounts
