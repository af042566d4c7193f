import FosKernel.LazyMemories

/-!
# Caches over a store

A cache keeps copies of some cells of a store and remembers which copies were written. A copy that
was not written agrees with the store, so that it may be dropped.
-/

namespace FosKernel.WriteBackCaches
open LazyMemories

variable {κ β : Type} [DecidableEq κ]

/-- The copies, each with whether it was written, and the store behind them. -/
@[ext] structure Cache (κ β : Type) where
  front : κ → Option (β × Bool)
  back : κ → Option β

namespace Cache

variable {c : Cache κ β} {k k' : κ} {b : β} {m : Bool}

def value (c : Cache κ β) (k : κ) : Option β :=
  match c.front k with
  | some (b, _) => some b
  | none => c.back k

/-- The copies that were not written are those of the store. -/
def Coherent (c : Cache κ β) : Prop := ∀ k b, c.front k = some (b, false) → c.back k = some b

def write (c : Cache κ β) (k : κ) (b : β) : Cache κ β :=
  { c with front := Function.update c.front k (some (b, true)) }

/-- The copy of a cell is dropped, and stored first if it was written. -/
def evict (c : Cache κ β) (k : κ) : Cache κ β where
  front := Function.update c.front k none
  back :=
    match c.front k with
    | some (b, true) => Function.update c.back k (some b)
    | _ => c.back

/-- A copy is made. One that the store does not have counts as written. -/
def fetch (c : Cache κ β) (k : κ) (b : β) (m : Bool) : Cache κ β :=
  { c with front := Function.update c.front k (some (b, m)) }

/-- What is fetched is what the store has, if it has the cell. -/
structure Fetches (c : Cache κ β) (k : κ) (b : β) (m : Bool) : Prop where
  miss : c.front k = none
  stored : ∀ b', c.back k = some b' → b = b'
  fresh : c.back k = none → m = true

theorem value_write (c : Cache κ β) (k : κ) (b : β) :
    (c.write k b).value = Function.update c.value k (some b) := by
  funext k'
  by_cases hk : k' = k
  · subst hk
    simp [value, write]
  · simp [value, write, hk]

theorem Coherent.write (h : c.Coherent) (k : κ) (b : β) : (c.write k b).Coherent := by
  intro k' b' hb
  by_cases hk : k' = k
  · subst hk
    simp [Cache.write] at hb
  · exact h k' b' (by simpa [Cache.write, hk] using hb)

theorem evict_eq (c : Cache κ β) (k : κ) :
    c.evict k = ⟨Function.update c.front k none, Function.update c.back k ((c.evict k).back k)⟩ := by
  rcases hf : c.front k with _ | ⟨b, _ | _⟩ <;> simp [evict, hf]

theorem Coherent.value_evict (h : c.Coherent) (k : κ) : (c.evict k).value = c.value := by
  funext k'
  by_cases hk : k' = k
  · subst hk
    rcases hf : c.front k' with _ | ⟨b, _ | _⟩
    · simp [value, evict, hf]
    · simp [value, evict, hf, h k' b hf]
    · simp [value, evict, hf]
  · rcases hf : c.front k with _ | ⟨b, _ | _⟩ <;> simp [value, evict, hf, hk]

theorem Coherent.evict (h : c.Coherent) (k : κ) : (c.evict k).Coherent := by
  intro k' b' hb
  by_cases hk : k' = k
  · subst hk
    simp [Cache.evict] at hb
  · have hback := h k' b' (by simpa [Cache.evict, hk] using hb)
    rcases hf : c.front k with _ | ⟨b, _ | _⟩ <;> simp [Cache.evict, hf, hk, hback]

theorem Fetches.fills (h : c.Fetches k b m) : Fills c.value (c.fetch k b m).value := by
  intro k' b' hb
  by_cases hk : k' = k
  · subst hk
    rw [value, h.miss] at hb
    simp [value, fetch, h.stored b' hb]
  · simpa [value, fetch, hk] using hb

theorem Fetches.coherent (h : c.Fetches k b m) (hc : c.Coherent) : (c.fetch k b m).Coherent := by
  intro k' b' hb
  by_cases hk : k' = k
  · subst hk
    simp only [fetch, Function.update_self, Option.some.injEq, Prod.mk.injEq] at hb
    obtain ⟨rfl, rfl⟩ := hb
    rcases hback : c.back k' with _ | b'
    · cases h.fresh hback
    · simpa [fetch, h.stored b' hback] using hback
  · exact hc k' b' (by simpa [fetch, hk] using hb)

end Cache

end FosKernel.WriteBackCaches
