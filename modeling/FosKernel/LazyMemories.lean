import Mathlib.Logic.Function.Basic
import Mathlib.Tactic.Common

/-!
# Memories whose cells get a value at their first use

A store shows the values of some of its cells, and an access may bring in cells that
nothing fixed before. As long as no shown value is lost, the store cannot be told from a
memory that had a value in every cell from the start.
-/

namespace FosKernel.LazyMemories

variable {α β : Type} {m : α → β} {v v' w : α → Option β}

/-- What was observed of an access: the value that was read, or the one that was written. -/
inductive Access (α β : Type) where
  | load (a : α) (b : β)
  | store (a : α) (b : β)

namespace Access

def cell : Access α β → α
  | load a _ => a
  | store a _ => a

variable [DecidableEq α]

def apply (m : α → β) : Access α β → α → β
  | .load _ _ => m
  | .store a b => Function.update m a b

def Answers (m : α → β) : Access α β → Prop
  | .load a b => m a = b
  | .store _ _ => True

end Access

/-- The accesses are those of an ordinary memory. -/
inductive Explains [DecidableEq α] : (α → β) → List (Access α β) → (α → β) → Prop
  | nil (m : α → β) : Explains m [] m
  | cons {m m' : α → β} {x : Access α β} {xs : List (Access α β)} (answers : x.Answers m)
      (tail : Explains (x.apply m) xs m') : Explains m (x :: xs) m'

theorem explains_cons [DecidableEq α] {m m' : α → β} {x : Access α β} {xs : List (Access α β)} :
    Explains m (x :: xs) m' ↔ x.Answers m ∧ Explains (x.apply m) xs m' := by
  constructor
  · rintro (_ | ⟨answers, tail⟩)
    exact ⟨answers, tail⟩
  · rintro ⟨answers, tail⟩
    exact .cons answers tail

def Extends (m : α → β) (v : α → Option β) : Prop := ∀ a b, v a = some b → m a = b

def Fills (v w : α → Option β) : Prop := ∀ a b, v a = some b → w a = some b

/-- The access shows its cell, and of the other cells none is lost. -/
inductive Serves : (α → Option β) → Access α β → (α → Option β) → Prop
  | load {v w : α → Option β} {a : α} {b : β} (fills : Fills v w) (value : w a = some b) : Serves v (.load a b) w
  | store {v w : α → Option β} {a : α} {b : β} (kept : ∀ a', a' ≠ a → ∀ b', v a' = some b' → w a' = some b')
      (value : w a = some b) : Serves v (.store a b) w

/-- The views along a run: some steps are accesses, others only bring in cells. -/
inductive Views : (α → Option β) → List (Access α β) → (α → Option β) → Prop
  | nil (v : α → Option β) : Views v [] v
  | fill {v w v' : α → Option β} {xs : List (Access α β)} (step : Fills v w) (tail : Views w xs v') : Views v xs v'
  | access {v w v' : α → Option β} {x : Access α β} {xs : List (Access α β)} (step : Serves v x w)
      (tail : Views w xs v') : Views v (x :: xs) v'

/-- A step shows its access, or only brings in cells. -/
def Shows (v : α → Option β) : Option (Access α β) → (α → Option β) → Prop
  | none, w => Fills v w
  | some x, w => Serves v x w

theorem Views.step {r : Option (Access α β)} {xs : List (Access α β)} (h : Shows v r w) (tail : Views w xs v') :
    Views v (r.toList ++ xs) v' := by
  cases r with
  | none => exact .fill h tail
  | some x => exact .access h tail

theorem Views.append {xs ys : List (Access α β)} (h : Views v xs w) (h' : Views w ys v') : Views v (xs ++ ys) v' := by
  induction h with
  | nil v => exact h'
  | fill step _ ih => exact .fill step (ih h')
  | access step _ ih => exact .access step (ih h')

theorem Views.filled {xs : List (Access α β)} (h : Views v xs w) (hf : Fills w v') : Views v xs v' := by
  have happend := h.append (.fill hf (.nil v'))
  rwa [List.append_nil] at happend

theorem Fills.refl (v : α → Option β) : Fills v v := fun _ _ h => h

theorem Extends.of_fills (h : Extends m w) (hf : Fills v w) : Extends m v := fun a b hb => h a b (hf a b hb)

section

variable [DecidableEq α] {x : Access α β} {xs : List (Access α β)}

theorem Serves.exists_before (h : Serves v x w) (hm : Extends m w) :
    ∃ m₀, Extends m₀ v ∧ x.Answers m₀ ∧ x.apply m₀ = m := by
  cases h with
  | load fills value => exact ⟨m, hm.of_fills fills, hm _ _ value, rfl⟩
  | store kept value =>
    rename_i a b
    -- the cell had the value that was shown, if one was
    refine ⟨Function.update m a ((v a).getD b), fun a' b' hb => ?_, trivial, ?_⟩
    · by_cases ha : a' = a
      · subst ha
        simp [hb]
      · rw [Function.update_of_ne ha]
        exact hm _ _ (kept a' ha b' hb)
    · rw [Access.apply, Function.update_idem, ← hm _ _ value, Function.update_eq_self]

/-- Whatever memory the run ends in, there is one that it can have started from. -/
theorem Views.exists_start (h : Views v xs w) (hm : Extends m w) :
    ∃ m₀, Extends m₀ v ∧ Explains m₀ xs m := by
  induction h with
  | nil v => exact ⟨m, hm, .nil m⟩
  | fill step _ ih =>
    obtain ⟨m₀, h₀, hxs⟩ := ih hm
    exact ⟨m₀, h₀.of_fills step, hxs⟩
  | access step _ ih =>
    obtain ⟨m₁, h₁, hxs⟩ := ih hm
    obtain ⟨m₀, h₀, hx, rfl⟩ := step.exists_before h₁
    exact ⟨m₀, h₀, .cons hx hxs⟩

/-- The cells that are never shown may hold anything. -/
theorem Views.explained [Inhabited β] (h : Views v xs w) :
    ∃ m m', Extends m v ∧ Explains m xs m' ∧ Extends m' w := by
  have hm : Extends (fun a => (w a).getD default) w := fun a b hb => by simp [hb]
  obtain ⟨m, hv, hxs⟩ := h.exists_start hm
  exact ⟨m, _, hv, hxs, hm⟩

end

variable {ι : Type} {i : ι}

def Access.own [DecidableEq ι] (i : ι) : Access (ι × α) β → Option (Access α β)
  | .load (j, a) b => if j = i then some (.load a b) else none
  | .store (j, a) b => if j = i then some (.store a b) else none

theorem Explains.own [DecidableEq ι] [DecidableEq α] {m m' : ι × α → β} {xs : List (Access (ι × α) β)}
    (h : Explains m xs m') (i : ι) :
    Explains (fun a => m (i, a)) (xs.filterMap (Access.own i)) fun a => m' (i, a) := by
  induction h with
  | nil m => exact .nil _
  | @cons m m' x xs answers _ ih =>
    rcases x with ⟨⟨j, a⟩, b⟩ | ⟨⟨j, a⟩, b⟩
    · by_cases hj : j = i
      · subst hj
        simp only [List.filterMap_cons, Access.own, if_true]
        exact .cons answers ih
      · simp only [List.filterMap_cons, Access.own, if_neg hj]
        exact ih
    · by_cases hj : j = i
      · subst hj
        simp only [List.filterMap_cons, Access.own, if_true]
        refine .cons trivial ?_
        have happly : (fun a' => (Access.store (j, a) b).apply m (j, a')) =
            (Access.store a b).apply fun a' => m (j, a') := by
          funext a'
          simp [Access.apply, Function.update_apply]
        rwa [← happly]
      · simp only [List.filterMap_cons, Access.own, if_neg hj]
        have happly : (fun a' => (Access.store (j, a) b).apply m (i, a')) = fun a' => m (i, a') := by
          funext a'
          exact Function.update_of_ne (fun he => hj (Prod.mk.inj he).1.symm) ..
        rwa [happly] at ih

end FosKernel.LazyMemories
