import FosKernel.IntrusiveList

/-!
# The list macros as operations on sequences

A run starts from heads as `LIST_INIT` leaves them and applies the insertion and
removal macros to nodes that are on no list, or on the list that is named. Every
store reached reads as the sequences the run computes, from either end. The loop
macro keeps the successor of the current node in the head, in `___ptr_next`, so
a body may unlink the node it is visiting.
-/

set_option linter.unusedSectionVars false

namespace FosKernel.ListMacros
open IntrusiveList

variable {κ α τ : Type*} [DecidableEq κ] [DecidableEq α]

/-- `x` put in behind `y`. -/
def insertBehind (y x : α) : List α → List α
  | [] => []
  | z :: zs => if z = y then z :: x :: zs else z :: insertBehind y x zs

/-- `x` put in ahead of `y`. -/
def insertAhead (y x : α) : List α → List α
  | [] => []
  | z :: zs => if z = y then x :: z :: zs else z :: insertAhead y x zs

theorem insertBehind_append {as bs : List α} {x y : α} (hy : y ∉ as) :
    insertBehind y x (as ++ y :: bs) = as ++ y :: x :: bs := by
  induction as with
  | nil => simp [insertBehind]
  | cons a as ih =>
    have ha : a ≠ y := fun he => hy (by simp [he])
    simp [insertBehind, ha, ih fun hm => hy (by simp [hm])]

theorem insertAhead_append {as bs : List α} {x y : α} (hy : y ∉ as) :
    insertAhead y x (as ++ y :: bs) = as ++ x :: y :: bs := by
  induction as with
  | nil => simp [insertAhead]
  | cons a as ih =>
    have ha : a ≠ y := fun he => hy (by simp [he])
    simp [insertAhead, ha, ih fun hm => hy (by simp [hm])]

/-- The macros that change a list, with the list and the nodes they are given. -/
inductive Op (κ α : Type*) where
  | init (k : κ)
  | insertHead (k : κ) (x : α)
  | insertTail (k : κ) (x : α)
  | insertAfter (k : κ) (y x : α)
  | insertBefore (k : κ) (y x : α)
  | remove (k : κ) (x : α)

namespace Op

def list : Op κ α → κ
  | init k | insertHead k _ | insertTail k _ | insertAfter k _ _ | insertBefore k _ _
  | remove k _ => k

def apply : Op κ α → Store κ α → Store κ α
  | init k, s => s.init k
  | insertHead k x, s => s.insertHead k x
  | insertTail k x, s => s.insertTail k x
  | insertAfter k y x, s => s.insertAfter k y x
  | insertBefore k y x, s => s.insertBefore k y x
  | remove k x, s => s.remove k x

def onSequence : Op κ α → List α → List α
  | init _, _ => []
  | insertHead _ x, xs => x :: xs
  | insertTail _ x, xs => xs ++ [x]
  | insertAfter _ y x, xs => insertBehind y x xs
  | insertBefore _ y x, xs => insertAhead y x xs
  | remove _ x, xs => xs.erase x

def effect (o : Op κ α) (q : κ → List α) : κ → List α :=
  Function.update q o.list (o.onSequence (q o.list))

/-- A node put in is on no list; a node named as a member is on the list. -/
def Legal : Op κ α → (κ → List α) → Prop
  | init _, _ => True
  | insertHead _ x, q | insertTail _ x, q => ∀ k, x ∉ q k
  | insertAfter k y x, q | insertBefore k y x, q => y ∈ q k ∧ ∀ k, x ∉ q k
  | remove k x, q => x ∈ q k

end Op

theorem exists_split {s : Store κ α} {q : κ → List α} (h : s.Represents q) {k : κ} {x : α}
    (hx : x ∈ q k) : ∃ as bs, q k = as ++ x :: bs ∧ x ∉ as := by
  obtain ⟨as, bs, hq⟩ := List.append_of_mem hx
  have hnd := (h.list k).nodup
  rw [hq] at hnd
  exact ⟨as, bs, hq, fun hm => (List.nodup_append.mp hnd).2.2 x hm x (by simp) rfl⟩

theorem Op.represents {s : Store κ α} {q : κ → List α} (h : s.Represents q) {o : Op κ α}
    (ho : o.Legal q) : (o.apply s).Represents (o.effect q) := by
  cases o with
  | init k => exact h.init k
  | insertHead k x => exact h.insertHead k ho
  | insertTail k x => exact h.insertTail k ho
  | insertAfter k y x =>
    obtain ⟨as, bs, hq, hy⟩ := exists_split h ho.1
    have he := h.insertAfter hq ho.2
    simpa only [Op.effect, Op.apply, Op.list, Op.onSequence, hq, insertBehind_append hy] using he
  | insertBefore k y x =>
    obtain ⟨as, bs, hq, hy⟩ := exists_split h ho.1
    have he := h.insertBefore hq ho.2
    simpa only [Op.effect, Op.apply, Op.list, Op.onSequence, hq, insertAhead_append hy] using he
  | remove k x =>
    obtain ⟨as, bs, hq, hx⟩ := exists_split h ho
    have he := h.remove hq
    have herase : (as ++ x :: bs).erase x = as ++ bs := by
      rw [List.erase_append_right _ hx, List.erase_cons_head]
    simpa only [Op.effect, Op.apply, Op.list, Op.onSequence, hq, herase] using he

structure Untouched (s t : Store κ α) (k : κ) (xs : List α) : Prop where
  head : t.head k = s.head k
  next : ∀ x ∈ xs, t.next x = s.next x
  prev : ∀ x ∈ xs, t.prev x = s.prev x

theorem untouched {s t : Store κ α} {k : κ} {xs : List α} (hs : s.IsList k xs)
    (ht : t.IsList k xs) : Untouched s t k xs := by
  refine ⟨ht.head.trans hs.head.symm, fun x hx => ?_, fun x hx => ?_⟩
  all_goals
    obtain ⟨as, bs, rfl⟩ := List.append_of_mem hx
  · exact ht.links.2.trans hs.links.2.symm
  · exact ht.links.1.trans hs.links.1.symm

theorem Op.untouched {s : Store κ α} {q : κ → List α} (h : s.Represents q) {o : Op κ α}
    (ho : o.Legal q) {k : κ} (hk : k ≠ o.list) : Untouched s (o.apply s) k (q k) := by
  have ht := (Op.represents h ho).list k
  rw [Op.effect, Function.update_of_ne hk] at ht
  exact ListMacros.untouched (h.list k) ht

/-- The stores and sequences that macros lead to from freshly initialised lists. -/
inductive Run (s₀ : Store κ α) : Store κ α → (κ → List α) → Prop
  | start : Run s₀ s₀ fun _ => []
  | step {s : Store κ α} {q : κ → List α} (o : Op κ α) (h : Run s₀ s q) (ho : o.Legal q) :
      Run s₀ (o.apply s) (o.effect q)

theorem Run.represents {s₀ s : Store κ α} {q : κ → List α}
    (h₀ : ∀ k, s₀.head k = ⟨none, none, 0⟩) (h : Run s₀ s q) : s.Represents q := by
  induction h with
  | start => exact Store.represents_nil h₀
  | step o _ ho ih => exact Op.represents ih ho

/-- What following the links of a store shows. -/
structure Reads (s : Store κ α) (q : κ → List α) : Prop where
  forward : ∀ k n, (q k).length ≤ n → walk s.next n (s.head k).first = q k
  backward : ∀ k n, (q k).length ≤ n → walk s.prev n (s.head k).last = (q k).reverse
  size : ∀ k, (s.head k).size = (q k).length
  nodup : ∀ k, (q k).Nodup
  disjoint : ∀ k k', k ≠ k' → ∀ x ∈ q k, x ∉ q k'

theorem walk_forward {s : Store κ α} {k : κ} {xs : List α} (h : s.IsList k xs) {n : ℕ}
    (hn : xs.length ≤ n) : walk s.next n (s.head k).first = xs := by
  rw [h.head]
  apply walk_eq _ hn
  rintro as x bs rfl
  exact h.links.2

theorem walk_backward {s : Store κ α} {k : κ} {xs : List α} (h : s.IsList k xs) {n : ℕ}
    (hn : xs.length ≤ n) : walk s.prev n (s.head k).last = xs.reverse := by
  rw [h.head, ← List.head?_reverse]
  apply walk_eq _ (by simpa using hn)
  intro as x bs hxs
  have hxs' : xs = bs.reverse ++ x :: as.reverse := by
    rw [← List.reverse_reverse xs, hxs]
    simp
  rw [hxs'] at h
  simpa using h.links.1

theorem reads {s : Store κ α} {q : κ → List α} (h : s.Represents q) : Reads s q where
  forward k _ hn := walk_forward (h.list k) hn
  backward k _ hn := walk_backward (h.list k) hn
  size k := by rw [(h.list k).head]
  nodup k := (h.list k).nodup
  disjoint := h.disjoint

/-- The lists, the `___ptr_next` field of every head, and whatever else there is. -/
structure Memory (κ α τ : Type*) where
  lists : Store κ α
  ptrNext : κ → Option α
  rest : τ

def Memory.setPtrNext (m : Memory κ α τ) (k : κ) (v : Option α) : Memory κ α τ :=
  { m with ptrNext := Function.update m.ptrNext k v }

def Memory.apply (m : Memory κ α τ) (o : Op κ α) : Memory κ α τ :=
  { m with lists := o.apply m.lists }

@[simp] theorem Memory.setPtrNext_lists (m : Memory κ α τ) (k : κ) (v : Option α) :
    (m.setPtrNext k v).lists = m.lists := rfl

@[simp] theorem Memory.setPtrNext_ptrNext (m : Memory κ α τ) (k : κ) (v : Option α) :
    (m.setPtrNext k v).ptrNext k = v := by simp [Memory.setPtrNext]

@[simp] theorem Memory.apply_lists (m : Memory κ α τ) (o : Op κ α) :
    (m.apply o).lists = o.apply m.lists := rfl

/-- `LOOP_LIST_NEXT` -/
def loopListNext (s : Store κ α) : Option α → Option α
  | none => none
  | some x => s.next x

/-- `LIST_FOREACH` from a test of its condition on: the values of `var` its body ran
with, `var` at the end, and the memory. The fuel bounds the tests. -/
def listForeach (k : κ) (body : Option α → Memory κ α τ → Memory κ α τ) :
    ℕ → Option α → Memory κ α τ → Option (List (Option α) × Option α × Memory κ α τ)
  | 0, _, _ => none
  | n + 1, var, m =>
    let m := m.setPtrNext k (loopListNext m.lists var)
    if (m.ptrNext k).isSome || var.isSome then
      let m := body var m
      (listForeach k body n (m.ptrNext k) m).map fun r => (var :: r.1, r.2)
    else some ([], var, m)

/-- What a body of a loop over `k` may do: macros on any list, loops over other lists, and
anything outside the lists. Nothing but the loop writes the `___ptr_next` of `k`. -/
inductive Does (k : κ) : (κ → List α) → Memory κ α τ → (κ → List α) → Memory κ α τ → Prop
  | done (q : κ → List α) (m : Memory κ α τ) : Does k q m q m
  | change {q q' : κ → List α} {m m' : Memory κ α τ} (o : Op κ α) (ho : o.Legal q)
      (h : Does k (o.effect q) (m.apply o) q' m') : Does k q m q' m'
  | other {q q' : κ → List α} {m m' : Memory κ α τ} (p : κ → Option α) (r : τ)
      (hp : p k = m.ptrNext k) (h : Does k q ⟨m.lists, p, r⟩ q' m') : Does k q m q' m'

theorem Does.represents {k : κ} {q q' : κ → List α} {m m' : Memory κ α τ}
    (h : Does k q m q' m') (hm : m.lists.Represents q) : m'.lists.Represents q' := by
  induction h with
  | done => exact hm
  | change o ho _ ih => exact ih (Op.represents hm ho)
  | other _ _ _ _ ih => exact ih hm

theorem Does.ptrNext {k : κ} {q q' : κ → List α} {m m' : Memory κ α τ}
    (h : Does k q m q' m') : m'.ptrNext k = m.ptrNext k := by
  induction h with
  | done => rfl
  | change _ _ _ ih => exact ih
  | other _ _ hp _ ih => exact ih.trans hp

/-- A body of a loop over `k` does what a body may do, keeps `J`, and relates the sequence of
`k` before and after visiting `x` by `R x`. -/
def Respects (k : κ) (J : (κ → List α) → Memory κ α τ → Prop) (R : α → List α → List α → Prop)
    (body : Option α → Memory κ α τ → Memory κ α τ) : Prop :=
  ∀ x bs q m, J q m → m.lists.Represents q → x :: bs <:+ q k →
    ∃ q', Does k q (m.setPtrNext k bs.head?) q' (body (some x) (m.setPtrNext k bs.head?)) ∧
      R x (q k) (q' k) ∧ J q' (body (some x) (m.setPtrNext k bs.head?))

/-- No member but `x` is removed. -/
def RemovesNoOther (x : α) (xs ys : List α) : Prop := ∀ y ∈ xs, y ≠ x → y ∈ ys

/-- The members behind `x` are still the last ones, with no node put in behind them or
between them. -/
def SparesBehind (x : α) (xs ys : List α) : Prop := ∀ as bs, xs = as ++ x :: bs → bs <:+ ys

/-- The loop visits the members from `var` on, and ends. -/
theorem listForeach_suffix {k : κ} {J : (κ → List α) → Memory κ α τ → Prop}
    {body : Option α → Memory κ α τ → Memory κ α τ} (hbody : Respects k J SparesBehind body)
    {xs : List α} {q : κ → List α} {m : Memory κ α τ} (hJ : J q m)
    (hm : m.lists.Represents q) (hxs : xs <:+ q k) {n : ℕ} (hn : xs.length < n) :
    ∃ q' m', listForeach k body n xs.head? m =
        some (xs.map some, none, m'.setPtrNext k none) ∧ m'.lists.Represents q' ∧ J q' m' := by
  induction xs generalizing q m n with
  | nil =>
    obtain ⟨n, rfl⟩ := Nat.exists_eq_add_one.mpr hn
    exact ⟨q, m, by simp [listForeach, loopListNext], hm, hJ⟩
  | cons x bs ih =>
    obtain ⟨n, rfl⟩ := Nat.exists_eq_add_one.mpr (Nat.zero_lt_of_lt hn)
    obtain ⟨q₁, hdoes, hR, hJ₁⟩ := hbody x bs q m hJ hm hxs
    obtain ⟨as, has⟩ := hxs
    have hnext : m.lists.next x = bs.head? := by
      have hl := hm.list k
      rw [← has] at hl
      exact hl.links.2
    -- the successor was saved before the body ran, and is what the loop goes on with
    have hsaved := hdoes.ptrNext
    rw [Memory.setPtrNext_ptrNext] at hsaved
    obtain ⟨q', m', hrun, hm', hJ'⟩ := ih hJ₁ (hdoes.represents hm) (hR as bs has.symm)
      (n := n) (by simp only [List.length_cons] at hn; omega)
    refine ⟨q', m', ?_, hm', hJ'⟩
    simp [listForeach, loopListNext, hnext, hsaved, hrun]

/-- A body that moves the visited node to another list, as when all new environments are
made ready. -/
def move (k k' : κ) (var : Option α) (m : Memory κ α τ) : Memory κ α τ :=
  match var with
  | none => m
  | some x => (m.apply (.remove k x)).apply (.insertTail k' x)

theorem respects_move {k k' : κ} (hk : k' ≠ k) :
    Respects k (fun _ (_ : Memory κ α τ) => True) SparesBehind (move k k') := by
  rintro x bs q m - hm ⟨as, has⟩
  have hx : x ∈ q k := by simp [← has]
  have hrem := Op.represents hm (o := .remove k x) hx
  have hfree : ∀ j, x ∉ Op.effect (.remove k x) q j := by
    intro j hj
    by_cases hjk : j = k
    · subst hjk
      rw [Op.effect, Op.list, Function.update_self, Op.onSequence] at hj
      exact (hm.list j).nodup.not_mem_erase hj
    · rw [Op.effect, Op.list, Function.update_of_ne hjk] at hj
      exact hm.disjoint j k hjk x hj hx
  refine ⟨_, .change (.remove k x) hx (.change (.insertTail k' x) hfree (.done _ _)), ?_, trivial⟩
  intro as' bs' hs
  simp only [Op.effect, Op.list, Op.onSequence, Function.update_of_ne hk.symm,
    Function.update_self]
  have hnd := (hm.list k).nodup
  rw [hs] at hnd ⊢
  have hxa : x ∉ as' := fun hx' => (List.nodup_append.mp hnd).2.2 x hx' x (by simp) rfl
  rw [List.erase_append_right _ hxa, List.erase_cons_head]
  exact List.suffix_append as' bs'

/-- Every store the macros reach from initialised lists reads as sequences from both ends, each
macro leaves the other lists alone, and a loop visits the members it starts with, once each and
in order, ending with `var` null, when its body neither removes a member behind the visited one
nor puts a node in behind it. -/
theorem lists_implement_sequences {s₀ s : Store κ α} {q : κ → List α}
    (h₀ : ∀ k, s₀.head k = ⟨none, none, 0⟩) (h : Run s₀ s q) :
    Reads s q ∧
    (∀ o : Op κ α, o.Legal q → Run s₀ (o.apply s) (o.effect q) ∧
      ∀ k, k ≠ o.list → Untouched s (o.apply s) k (q k)) ∧
    ∀ (k : κ) (J : (κ → List α) → Memory κ α τ → Prop)
      (body : Option α → Memory κ α τ → Memory κ α τ) (m : Memory κ α τ),
      Respects k J SparesBehind body → m.lists = s → J q m → ∀ n, (q k).length < n →
      ∃ q' m', listForeach k body n (s.head k).first m =
          some ((q k).map some, none, m'.setPtrNext k none) ∧ m'.lists.Represents q' ∧ J q' m' := by
  have hs := h.represents h₀
  refine ⟨reads hs, fun o ho => ⟨h.step o ho, fun k hk => Op.untouched hs ho hk⟩, ?_⟩
  rintro k J body m hbody rfl hJ n hn
  rw [(hs.list k).head]
  exact listForeach_suffix hbody hJ hs (List.suffix_refl _) hn

/-- Nodes with empty links and heads as initialised. -/
def blank : Store κ α := ⟨fun _ => none, fun _ => none, fun _ => ⟨none, none, 0⟩⟩

def twoNodes : Memory Bool ℕ Unit :=
  ⟨(Op.insertTail false 1).apply ((Op.insertTail false 0).apply blank), fun _ => none, ()⟩

private theorem twoNodes_run : Run blank twoNodes.lists
    (Op.effect (.insertTail false 1) (Op.effect (.insertTail false 0) fun _ => [])) :=
  .step (.insertTail false 1) (.step (.insertTail false 0) .start (by simp [Op.Legal]))
    (by rintro (_ | _) <;> simp [Op.effect, Op.list, Op.onSequence])

theorem lists_implement_sequences_twoNodes :
    ∃ m', listForeach false (move false true) 3 (some 0) twoNodes =
      some ([some 0, some 1], none, m') := by
  obtain ⟨-, -, hloop⟩ := lists_implement_sequences (τ := Unit) (fun _ => rfl) twoNodes_run
  obtain ⟨q', m', hrun, -⟩ := hloop false _ _ twoNodes
    (respects_move (show true ≠ false by decide)) rfl trivial 3 (by decide)
  exact ⟨_, hrun⟩

/-- A body that fills the list up to three nodes. -/
def fill (_ : Option ℕ) (m : Memory Bool ℕ Unit) : Memory Bool ℕ Unit :=
  if (m.lists.head false).size < 3 then m.apply (.insertTail false 2) else m

/-- The sequences a loop with that body goes through. -/
def Filling (q : Bool → List ℕ) (_ : Memory Bool ℕ Unit) : Prop :=
  (q false = [0, 1] ∨ q false = [0, 1, 2]) ∧ q true = []

private theorem respects_fill : Respects false Filling RemovesNoOther fill := by
  rintro x bs q m ⟨hq, ht⟩ hm -
  have hsize : (m.lists.head false).size = (q false).length := by rw [(hm.list false).head]
  rcases hq with hq | hq
  · have hfree : ∀ k, 2 ∉ q k := by rintro (_ | _) <;> simp [hq, ht]
    have he : Op.effect (.insertTail false 2) q false = [0, 1, 2] := by
      simp [Op.effect, Op.list, Op.onSequence, hq]
    refine ⟨Op.effect (.insertTail false 2) q, ?_, ?_, .inr he, ?_⟩
    · simp only [fill, Memory.setPtrNext_lists, hsize, hq]
      exact .change (.insertTail false 2) hfree (.done _ _)
    · rw [he, hq]
      intro y hy _
      exact List.mem_append_left [2] hy
    · simp [Op.effect, Op.list, ht]
  · refine ⟨q, ?_, fun y hy _ => hy, .inr hq, ht⟩
    simp only [fill, Memory.setPtrNext_lists, hsize, hq]
    exact .done _ _

/-- A body that removes nothing can make the loop visit a node that was no member. -/
theorem listForeach_visits_inserted : Respects false Filling RemovesNoOther fill ∧
    ∃ q, Run blank twoNodes.lists q ∧ Filling q twoNodes ∧ q false = [0, 1] ∧
      ∀ n m', listForeach false fill n (twoNodes.lists.head false).first twoNodes ≠
        some ((q false).map some, none, m') := by
  refine ⟨respects_fill, _, twoNodes_run, ⟨.inl (by decide), by decide⟩, by decide, fun n m' => ?_⟩
  have hq : ((Op.effect (.insertTail false 1) (Op.effect (.insertTail false 0) fun _ => []) false :
      List ℕ)).map some = [some 0, some 1] := by decide
  rw [hq]
  rcases n with _ | _ | _ | _ | n
  · exact nofun
  · exact nofun
  · exact nofun
  · exact nofun
  · intro h
    have := congrArg (Option.map fun r => r.1) h
    simp [listForeach, twoNodes, fill, blank, Op.apply, Store.insertTail, loopListNext,
      Memory.apply, Memory.setPtrNext] at this

section Concat

variable {s : Store κ α} {k k' : κ} {xs ys : List α}

/-- The second list is put in behind the first one and left empty, so that no node is
reached from both heads. -/
structure Concatenated (t : Store κ α) (k k' : κ) (xs ys : List α) : Prop where
  joined : t.IsList k (xs ++ ys)
  emptied : t.IsList k' []
  apart : ∀ m n, ∀ x ∈ walk t.next m (t.head k).first, x ∉ walk t.next n (t.head k').first

/-- The first list comes out in order, but the size of the second one is only added when
the first is empty. -/
theorem concat_joins (hk : k ≠ k') (h : s.IsList k xs) (h' : s.IsList k' ys) (hd : xs.Disjoint ys) :
    (s.concat k k').Linked none (xs ++ ys) none ∧ (s.concat k k').head k =
      ⟨(xs ++ ys).head?, (xs ++ ys).getLast?, xs.length + if xs = [] then ys.length else 0⟩ := by
  rcases Store.eq_nil_or_concat xs with rfl | ⟨xs, a, rfl⟩
  · refine ⟨h'.linked.congr (fun y _ => ?_) fun y _ => ?_, ?_⟩
    all_goals simp [Store.concat, h.head, h'.head, hk.symm]
  · cases ys with
    | nil =>
      rw [List.append_nil]
      refine ⟨h.linked.congr (fun y _ => ?_) fun y _ => ?_, ?_⟩
      all_goals cases xs <;> simp [Store.concat, h.head, h'.head]
    | cons b ys =>
      have hfirst : ∃ f, (xs ++ [a]).head? = some f := by cases xs <;> exact ⟨_, rfl⟩
      obtain ⟨f, hf⟩ := hfirst
      have hnext : (s.concat k k').next = Function.update s.next a (some b) := by
        simp [Store.concat, Store.init, h.head, h'.head, hf]
      have hprev : (s.concat k k').prev = Function.update s.prev b (some a) := by
        simp [Store.concat, Store.init, h.head, h'.head, hf]
      have hb : b ∉ xs ++ [a] := fun hm => hd hm (by simp)
      have ha : a ∉ b :: ys := fun hm => hd (a := a) (by simp) hm
      have hxs : a ∉ xs := fun hm => (List.nodup_append.mp h.nodup).2.2 a hm a (by simp) rfl
      have hys : b ∉ ys := (List.nodup_cons.mp h'.nodup).1
      refine ⟨?_, ?_⟩
      · rw [Store.linked_append]
        constructor
        · apply h.linked.exit
          · intro y hy
            have hya : y ≠ a := fun he => hxs (he ▸ hy)
            rw [hnext, Function.update_of_ne hya]
          · intro y hy
            have hyb : y ≠ b := fun he => hb (he ▸ hy)
            rw [hprev, Function.update_of_ne hyb]
          · simp [hnext]
        · apply h'.linked.enter
          · intro y hy
            have hya : y ≠ a := fun he => ha (he ▸ hy)
            rw [hnext, Function.update_of_ne hya]
          · intro y hy
            have hyb : y ≠ b := fun he => hys (he ▸ hy)
            rw [hprev, Function.update_of_ne hyb]
          · simp [hprev]
      · have hhead : (xs ++ [a] ++ b :: ys).head? = some f := by
          rw [List.head?_append, hf, Option.some_or]
        rw [hhead]
        simp [Store.concat, Store.init, h.head, h'.head, hf, hk, List.getLast?_cons]

theorem concat_second (hk : k ≠ k') (h : s.IsList k xs) (h' : s.IsList k' ys) :
    (s.concat k k').head k' = if xs = [] then s.head k' else ⟨none, none, 0⟩ := by
  cases xs with
  | nil => simp [Store.concat, h.head, h'.head, hk.symm]
  | cons x xs => cases ys <;> simp [Store.concat, Store.init, h.head, h'.head, hk.symm]

/-- An empty second list is all that the macro gets right. -/
theorem concat_iff (hk : k ≠ k') (h : s.IsList k xs) (h' : s.IsList k' ys) (hd : xs.Disjoint ys) :
    Concatenated (s.concat k k') k k' xs ys ↔ ys = [] := by
  obtain ⟨hlinked, hhead⟩ := concat_joins hk h h' hd
  have hsecond := concat_second hk h h'
  constructor
  · intro hc
    -- the size of the first list or the head of the second one is wrong
    by_cases hxs : xs = []
    · have hempty := hc.emptied.head
      rw [hsecond, if_pos hxs, h'.head] at hempty
      exact List.length_eq_zero_iff.mp (congrArg Head.size hempty)
    · have hsize := hc.joined.head
      rw [hhead, if_neg hxs] at hsize
      have hlength := congrArg Head.size hsize
      simp only [List.length_append] at hlength
      exact List.length_eq_zero_iff.mp (by omega)
  · rintro rfl
    have hempty : (s.concat k k').head k' = ⟨none, none, 0⟩ := by
      rw [hsecond, h'.head]
      cases xs <;> rfl
    refine ⟨⟨?_, hlinked, ?_⟩, ⟨hempty, trivial, List.nodup_nil⟩, fun m n x _ hx => ?_⟩
    · rw [hhead]
      cases xs <;> simp
    · rw [List.append_nil]
      exact h.nodup
    · rw [hempty] at hx
      cases n <;> cases hx

def oneEach : Store Bool ℕ := (Op.insertTail true 1).apply ((Op.insertTail false 0).apply blank)

theorem oneEach_isList : oneEach.IsList false [0] ∧ oneEach.IsList true [1] := by
  have h : oneEach.Represents
      (Op.effect (.insertTail true 1) (Op.effect (.insertTail false 0) fun _ => [])) :=
    Op.represents (Op.represents (Store.represents_nil fun _ => rfl) (by simp [Op.Legal]))
      (by rintro (_ | _) <;> simp [Op.effect, Op.list, Op.onSequence])
  exact ⟨h.list false, h.list true⟩

/-- The joined list counts one of its two nodes. -/
theorem concat_losesSize : ¬∀ (s : Store Bool ℕ) (k k' : Bool) (xs ys : List ℕ), k ≠ k' →
    s.IsList k xs → s.IsList k' ys → xs.Disjoint ys → Concatenated (s.concat k k') k k' xs ys := by
  intro hall
  have hc := hall oneEach false true [0] [1] (by decide) oneEach_isList.1 oneEach_isList.2 (by simp)
  have hsize : ((oneEach.concat false true).head false).size = 1 := by decide
  rw [hc.joined.head] at hsize
  cases hsize

theorem concat_iff_oneEach : ¬Concatenated (oneEach.concat false true) false true [0] [1] := by
  have h := concat_iff (by decide) oneEach_isList.1 oneEach_isList.2 (by simp)
  exact fun hc => absurd (h.mp hc) (by simp)

end Concat

end FosKernel.ListMacros
