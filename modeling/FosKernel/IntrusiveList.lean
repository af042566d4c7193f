import Mathlib.Data.List.Basic
import Mathlib.Data.List.Nodup
import Mathlib.Logic.Function.Basic

/-!
# Intrusive doubly linked lists

Elements carry their own link fields and any number of list heads share them.
The operations follow the list macros of a C queue header, assignment by
assignment. `Represents` relates such a store to a family of pairwise disjoint
sequences; each macro is then an operation on sequences. `forEach` is the
traversal macro, which reads the successor before its body runs.
-/

set_option linter.unusedSectionVars false

namespace FosKernel.IntrusiveList

structure Head (α : Type*) where
  first : Option α
  last : Option α
  size : ℕ
  deriving DecidableEq, Repr

/-- The link fields of all elements and the heads of all lists. -/
structure Store (κ α : Type*) where
  next : α → Option α
  prev : α → Option α
  head : κ → Head α

variable {κ α σ β : Type*} [DecidableEq κ] [DecidableEq α]

namespace Store

def setNext (s : Store κ α) (x : α) (v : Option α) : Store κ α :=
  { s with next := Function.update s.next x v }

def setPrev (s : Store κ α) (x : α) (v : Option α) : Store κ α :=
  { s with prev := Function.update s.prev x v }

def setHead (s : Store κ α) (k : κ) (h : Head α) : Store κ α :=
  { s with head := Function.update s.head k h }

/-- `LIST_INIT` -/
def init (s : Store κ α) (k : κ) : Store κ α := s.setHead k ⟨none, none, 0⟩

/-- `LIST_INSERT_HEAD` -/
def insertHead (s : Store κ α) (k : κ) (x : α) : Store κ α :=
  let h := s.head k
  let s := s.setNext x h.first
  match h.first with
  | some f => ((s.setPrev f (some x)).setPrev x none).setHead k ⟨some x, h.last, h.size + 1⟩
  | none => (s.setPrev x none).setHead k ⟨some x, some x, h.size + 1⟩

/-- `LIST_INSERT_TAIL` -/
def insertTail (s : Store κ α) (k : κ) (x : α) : Store κ α :=
  let h := s.head k
  let s := s.setPrev x h.last
  match h.last with
  | some l => ((s.setNext l (some x)).setNext x none).setHead k ⟨h.first, some x, h.size + 1⟩
  | none => (s.setNext x none).setHead k ⟨some x, some x, h.size + 1⟩

/-- `LIST_INSERT_AFTER` -/
def insertAfter (s : Store κ α) (k : κ) (y x : α) : Store κ α :=
  let h := s.head k
  let n := s.next y
  let s := s.setNext x n
  match n with
  | some z => (((s.setPrev z (some x)).setNext y (some x)).setPrev x (some y)).setHead k
      ⟨h.first, h.last, h.size + 1⟩
  | none => ((s.setNext y (some x)).setPrev x (some y)).setHead k
      ⟨h.first, some x, h.size + 1⟩

/-- `LIST_INSERT_BEFORE` -/
def insertBefore (s : Store κ α) (k : κ) (y x : α) : Store κ α :=
  let h := s.head k
  let p := s.prev y
  let s := (s.setPrev x p).setNext x (some y)
  match p with
  | some z => ((s.setNext z (some x)).setPrev y (some x)).setHead k
      ⟨h.first, h.last, h.size + 1⟩
  | none => (s.setPrev y (some x)).setHead k ⟨some x, h.last, h.size + 1⟩

/-- `LIST_REMOVE` -/
def remove (s : Store κ α) (k : κ) (x : α) : Store κ α :=
  let h := s.head k
  let p := s.prev x
  let n := s.next x
  let (s, last) := match n with
    | some z => (s.setPrev z p, h.last)
    | none => (s, p)
  let (s, first) := match p with
    | some z => (s.setNext z n, h.first)
    | none => (s, n)
  ((s.setNext x none).setPrev x none).setHead k ⟨first, last, h.size - 1⟩

/-- `LIST_CONCAT`. The size of the second list is read last. -/
def concat (s : Store κ α) (k k' : κ) : Store κ α :=
  let s := match (s.head k).first, (s.head k').first with
    | none, _ => s.setHead k ⟨(s.head k').first, (s.head k').last, (s.head k).size⟩
    | some _, none => s
    | some _, some f =>
      -- a list with a first element has a last one
      let s := match (s.head k).last with
        | some l => s.setNext l (some f)
        | none => s
      let s := s.setPrev f (s.head k).last
      (s.setHead k ⟨(s.head k).first, (s.head k').last, (s.head k).size⟩).init k'
  s.setHead k ⟨(s.head k).first, (s.head k).last, (s.head k).size + (s.head k').size⟩

@[simp] theorem setNext_next (s : Store κ α) (x : α) (v : Option α) :
    (s.setNext x v).next = Function.update s.next x v := rfl
@[simp] theorem setNext_prev (s : Store κ α) (x : α) (v : Option α) :
    (s.setNext x v).prev = s.prev := rfl
@[simp] theorem setNext_head (s : Store κ α) (x : α) (v : Option α) :
    (s.setNext x v).head = s.head := rfl
@[simp] theorem setPrev_next (s : Store κ α) (x : α) (v : Option α) :
    (s.setPrev x v).next = s.next := rfl
@[simp] theorem setPrev_prev (s : Store κ α) (x : α) (v : Option α) :
    (s.setPrev x v).prev = Function.update s.prev x v := rfl
@[simp] theorem setPrev_head (s : Store κ α) (x : α) (v : Option α) :
    (s.setPrev x v).head = s.head := rfl
@[simp] theorem setHead_next (s : Store κ α) (k : κ) (h : Head α) :
    (s.setHead k h).next = s.next := rfl
@[simp] theorem setHead_prev (s : Store κ α) (k : κ) (h : Head α) :
    (s.setHead k h).prev = s.prev := rfl
@[simp] theorem setHead_head (s : Store κ α) (k : κ) (h : Head α) :
    (s.setHead k h).head = Function.update s.head k h := rfl

/-- The segment `xs` is linked in order, entered from `p` and left towards `n`. -/
def Linked (s : Store κ α) : Option α → List α → Option α → Prop
  | _, [], _ => True
  | p, x :: xs, n => s.prev x = p ∧ s.next x = xs.head?.or n ∧ Linked s (some x) xs n

@[simp] theorem linked_nil (s : Store κ α) (p n : Option α) : s.Linked p [] n := trivial

@[simp] theorem linked_cons (s : Store κ α) (p n : Option α) (x : α) (xs : List α) :
    s.Linked p (x :: xs) n ↔
      s.prev x = p ∧ s.next x = xs.head?.or n ∧ s.Linked (some x) xs n := Iff.rfl

theorem linked_append (s : Store κ α) (p n : Option α) (xs ys : List α) :
    s.Linked p (xs ++ ys) n ↔
      s.Linked p xs (ys.head?.or n) ∧ s.Linked (xs.getLast?.or p) ys n := by
  induction xs generalizing p with
  | nil => simp
  | cons x xs ih =>
    have hlast : (x :: xs).getLast?.or p = xs.getLast?.or (some x) := by
      cases xs <;> simp [List.getLast?_cons]
    simp only [List.cons_append, linked_cons, ih, hlast, and_assoc]
    cases xs <;> simp

theorem Linked.congr {s t : Store κ α} {p n : Option α} {xs : List α} (h : s.Linked p xs n)
    (hnext : ∀ x ∈ xs, t.next x = s.next x) (hprev : ∀ x ∈ xs, t.prev x = s.prev x) :
    t.Linked p xs n := by
  induction xs generalizing p with
  | nil => trivial
  | cons x xs ih =>
    obtain ⟨hp, hn, ht⟩ := h
    refine ⟨(hprev x (by simp)).trans hp, (hnext x (by simp)).trans hn, ?_⟩
    exact ih ht (fun y hy => hnext y (by simp [hy])) (fun y hy => hprev y (by simp [hy]))

/-- Redirecting the last `next` link moves the exit of a segment. -/
theorem Linked.exit {s t : Store κ α} {p n n' : Option α} {xs : List α} {a : α}
    (h : s.Linked p (xs ++ [a]) n) (hnext : ∀ x ∈ xs, t.next x = s.next x)
    (hprev : ∀ x ∈ xs ++ [a], t.prev x = s.prev x) (ha : t.next a = n') :
    t.Linked p (xs ++ [a]) n' := by
  rw [linked_append] at h ⊢
  refine ⟨h.1.congr hnext (fun x hx => hprev x (by simp [hx])), ?_⟩
  simpa [ha, hprev a] using h.2.1

/-- Redirecting the first `prev` link moves the entrance of a segment. -/
theorem Linked.enter {s t : Store κ α} {p p' n : Option α} {xs : List α} {b : α}
    (h : s.Linked p (b :: xs) n) (hnext : ∀ x ∈ b :: xs, t.next x = s.next x)
    (hprev : ∀ x ∈ xs, t.prev x = s.prev x) (hb : t.prev b = p') :
    t.Linked p' (b :: xs) n :=
  ⟨hb, (hnext b (by simp)).trans h.2.1,
    h.2.2.congr (fun x hx => hnext x (by simp [hx])) hprev⟩

/-- `head k` heads the well-formed doubly linked list `xs`. -/
structure IsList (s : Store κ α) (k : κ) (xs : List α) : Prop where
  head : s.head k = ⟨xs.head?, xs.getLast?, xs.length⟩
  linked : s.Linked none xs none
  nodup : xs.Nodup

theorem IsList.congr {s t : Store κ α} {k : κ} {xs : List α} (h : s.IsList k xs)
    (hhead : t.head k = s.head k) (hnext : ∀ x ∈ xs, t.next x = s.next x)
    (hprev : ∀ x ∈ xs, t.prev x = s.prev x) : t.IsList k xs :=
  ⟨hhead.trans h.head, h.linked.congr hnext hprev, h.nodup⟩

theorem isList_init (s : Store κ α) (k : κ) : (s.init k).IsList k [] :=
  ⟨by simp [init], trivial, List.nodup_nil⟩

theorem IsList.links {s : Store κ α} {k : κ} {as bs : List α} {x : α}
    (h : s.IsList k (as ++ x :: bs)) : s.prev x = as.getLast? ∧ s.next x = bs.head? := by
  have hl := ((s.linked_append none none as (x :: bs)).mp h.linked).2
  simpa using And.intro hl.1 hl.2.1

theorem IsList.insertHead {s : Store κ α} {k : κ} {xs : List α} {x : α}
    (h : s.IsList k xs) (hx : x ∉ xs) : (s.insertHead k x).IsList k (x :: xs) := by
  cases xs with
  | nil =>
    refine ⟨?_, ?_, by simp⟩ <;> simp [Store.insertHead, h.head]
  | cons f xs =>
    have hne : x ≠ f := fun he => hx (by simp [he])
    have hmem : ∀ y ∈ f :: xs, y ≠ x := fun y hy he => hx (he ▸ hy)
    have hf : f ∉ xs := (List.nodup_cons.mp h.nodup).1
    refine ⟨?_, ?_, List.nodup_cons.mpr ⟨hx, h.nodup⟩⟩
    · simp [Store.insertHead, h.head, List.getLast?_cons]
    · refine ⟨by simp [Store.insertHead, h.head], by simp [Store.insertHead, h.head], ?_⟩
      apply h.linked.enter
      · intro y hy
        simp [Store.insertHead, h.head, Function.update_of_ne (hmem y hy)]
      · intro y hy
        have hyf : y ≠ f := fun he => hf (he ▸ hy)
        simp [Store.insertHead, h.head, Function.update_of_ne (hmem y (by simp [hy])),
          Function.update_of_ne hyf]
      · simp [Store.insertHead, h.head, Function.update_of_ne hne.symm]

/-- Every list is empty or has a last element; the case split of the tail macros. -/
theorem eq_nil_or_concat (xs : List α) : xs = [] ∨ ∃ ys a, xs = ys ++ [a] := by
  rcases List.eq_nil_or_concat xs with h | ⟨ys, a, h⟩
  · exact .inl h
  · exact .inr ⟨ys, a, by simpa using h⟩

theorem IsList.insertTail {s : Store κ α} {k : κ} {xs : List α} {x : α}
    (h : s.IsList k xs) (hx : x ∉ xs) : (s.insertTail k x).IsList k (xs ++ [x]) := by
  rcases eq_nil_or_concat xs with rfl | ⟨ys, a, rfl⟩
  · refine ⟨?_, ?_, by simp⟩ <;> simp [Store.insertTail, h.head]
  · have hmem : ∀ y ∈ ys ++ [a], y ≠ x := fun y hy he => hx (he ▸ hy)
    have hax : a ≠ x := hmem a (by simp)
    have hay : ∀ y ∈ ys, y ≠ a := by
      intro y hy he
      exact (List.nodup_append.mp h.nodup).2.2 y hy a (by simp) he
    refine ⟨?_, ?_, ?_⟩
    · have hlast : (ys ++ [a]).getLast? = some a := by simp
      have hfirst : (ys ++ [a] ++ [x]).head? = (ys ++ [a]).head? := by cases ys <;> rfl
      rw [hfirst]
      simp [Store.insertTail, h.head]
    · rw [linked_append]
      refine ⟨?_, by simp [Store.insertTail, h.head]⟩
      apply h.linked.exit
      · intro y hy
        simp [Store.insertTail, h.head, Function.update_of_ne (hmem y (by simp [hy])),
          Function.update_of_ne (hay y hy)]
      · intro y hy
        simp [Store.insertTail, h.head, Function.update_of_ne (hmem y hy)]
      · simp [Store.insertTail, h.head, Function.update_of_ne hax]
    · rw [List.nodup_append]
      exact ⟨h.nodup, by simp, fun y hy z hz => by
        rw [List.mem_singleton] at hz
        exact hz ▸ hmem y hy⟩

/-- Splicing `x` between two segments of one list, whatever macro did it. -/
theorem IsList.splice {s t : Store κ α} {k : κ} {as bs : List α} {x : α}
    (h : s.IsList k (as ++ bs)) (hx : x ∉ as ++ bs)
    (hhead : t.head k = ⟨as.head?.or (some x), bs.getLast?.or (some x), (as ++ bs).length + 1⟩)
    (hxn : t.next x = bs.head?) (hxp : t.prev x = as.getLast?)
    (hnext : ∀ y ∈ as ++ bs, t.next y = if as.getLast? = some y then some x else s.next y)
    (hprev : ∀ y ∈ as ++ bs, t.prev y = if bs.head? = some y then some x else s.prev y) :
    t.IsList k (as ++ x :: bs) := by
  have hdis : ∀ y ∈ as, ∀ z ∈ bs, y ≠ z := (List.nodup_append.mp h.nodup).2.2
  have hl := (linked_append s none none as bs).mp h.linked
  refine ⟨?_, ?_, ?_⟩
  · rw [hhead]
    have hlen : (as ++ bs).length + 1 = (as ++ x :: bs).length := by simp; omega
    cases as <;> cases bs <;> simp_all [List.getLast?_append, List.getLast?_cons]
  · rw [linked_append]
    constructor
    · rcases eq_nil_or_concat as with rfl | ⟨as', a, rfl⟩
      · trivial
      · have hnd := (List.nodup_append.mp (List.nodup_append.mp h.nodup).1).2.2
        apply hl.1.exit
        · intro y hy
          have hya : ¬ a = y := fun he => hnd y hy a (by simp) he.symm
          simp [hnext y (by simp [hy]), hya]
        · intro y hy
          have hyb : ¬ bs.head? = some y := fun he =>
            hdis y hy y (List.mem_of_mem_head? he) rfl
          simp [hprev y (List.mem_append_left _ hy), hyb]
        · simp [hnext a (by simp)]
    · refine ⟨by simp [hxp], by simp [hxn], ?_⟩
      cases bs with
      | nil => trivial
      | cons b bs =>
        have hb : b ∉ bs := (List.nodup_cons.mp (List.nodup_append.mp h.nodup).2.1).1
        apply hl.2.enter
        · intro y hy
          have hya : ¬ as.getLast? = some y := fun he =>
            hdis y (List.mem_of_mem_getLast? he) y hy rfl
          simp [hnext y (List.mem_append_right _ hy), hya]
        · intro y hy
          have hyb : ¬ b = y := fun he => hb (he ▸ hy)
          simp [hprev y (by simp [hy]), hyb]
        · simp [hprev b (by simp)]
  · have hxa : x ∉ as := fun hm => hx (List.mem_append_left _ hm)
    have hxb : x ∉ bs := fun hm => hx (List.mem_append_right _ hm)
    have hnd := List.nodup_append.mp h.nodup
    refine List.nodup_append.mpr ⟨hnd.1, List.nodup_cons.mpr ⟨hxb, hnd.2.1⟩, ?_⟩
    intro y hy z hz
    rcases List.mem_cons.mp hz with rfl | hz
    · exact fun he => hxa (he ▸ hy)
    · exact hdis y hy z hz

theorem IsList.insertAfter {s : Store κ α} {k : κ} {as bs : List α} {x y : α}
    (h : s.IsList k (as ++ y :: bs)) (hx : x ∉ as ++ y :: bs) :
    (s.insertAfter k y x).IsList k (as ++ y :: x :: bs) := by
  have hy := h.links
  have hyb : y ∉ bs := (List.nodup_cons.mp (List.nodup_append.mp h.nodup).2.1).1
  have hxy : x ≠ y := fun he => hx (by simp [he])
  have hmem : ∀ z ∈ as ++ y :: bs, z ≠ x := fun z hz he => hx (he ▸ hz)
  have hsplit : as ++ y :: x :: bs = (as ++ [y]) ++ x :: bs := by simp
  rw [hsplit]
  have h' : s.IsList k ((as ++ [y]) ++ bs) := by simpa using h
  apply h'.splice (by simpa using hx)
  · have hfirst : ((as ++ [y]) ++ bs).head? = (as ++ [y]).head?.or (some x) := by
      cases as <;> rfl
    cases hb : bs with
    | nil => cases as <;> simp [Store.insertAfter, hy, h'.head, hb]
    | cons b bs => cases as <;> simp [Store.insertAfter, hy, h'.head, hb,
        List.getLast?_cons, List.getLast?_append]
  · cases hb : bs with
    | nil => simp [Store.insertAfter, hy, hb, hxy]
    | cons b bs => simp [Store.insertAfter, hy, hb, hxy]
  · cases hb : bs with
    | nil => simp [Store.insertAfter, hy, hb]
    | cons b bs => simp [Store.insertAfter, hy, hb]
  · intro z hz
    have hzx := hmem z (by simpa using hz)
    by_cases hzy : z = y
    · subst hzy
      cases hb : bs <;> simp [Store.insertAfter, hy, hb]
    · have hyz : ¬ y = z := fun he => hzy he.symm
      cases hb : bs <;> simp [Store.insertAfter, hy, hb, Function.update_of_ne hzy,
        Function.update_of_ne hzx, hyz]
  · intro z hz
    have hzx := hmem z (by simpa using hz)
    cases hb : bs with
    | nil => simp [Store.insertAfter, hy, hb, Function.update_of_ne hzx]
    | cons b bs =>
      by_cases hzb : z = b
      · subst hzb
        simp [Store.insertAfter, hy, hb, Function.update_of_ne hzx]
      · have hbz : ¬ b = z := fun he => hzb he.symm
        simp [Store.insertAfter, hy, hb, Function.update_of_ne hzx,
          Function.update_of_ne hzb, hbz]

theorem IsList.insertBefore {s : Store κ α} {k : κ} {as bs : List α} {x y : α}
    (h : s.IsList k (as ++ y :: bs)) (hx : x ∉ as ++ y :: bs) :
    (s.insertBefore k y x).IsList k (as ++ x :: y :: bs) := by
  have hy := h.links
  have hya : y ∉ as := fun hm => (List.nodup_append.mp h.nodup).2.2 y hm y (by simp) rfl
  have hxy : x ≠ y := fun he => hx (by simp [he])
  have hmem : ∀ z ∈ as ++ y :: bs, z ≠ x := fun z hz he => hx (he ▸ hz)
  have hlast : (as ++ y :: bs).getLast? = (y :: bs).getLast?.or (some x) := by
    simp [List.getLast?_append, List.getLast?_cons]
  apply h.splice hx
  · rcases eq_nil_or_concat as with rfl | ⟨as', a, rfl⟩
    · simp [Store.insertBefore, hy, h.head, List.getLast?_cons]
    · have hp : s.prev y = some a := by simpa using hy.1
      have hfirst : (as' ++ [a] ++ y :: bs).head? = (as' ++ [a]).head?.or (some x) := by
        cases as' <;> rfl
      rw [← hlast, ← hfirst]
      simp [Store.insertBefore, hp, h.head]
  · rcases eq_nil_or_concat as with rfl | ⟨as', a, rfl⟩
    · simp [Store.insertBefore, hy]
    · have hxa : x ≠ a := fun he => hmem a (by simp) he.symm
      simp [Store.insertBefore, hy, hxa]
  · rcases eq_nil_or_concat as with rfl | ⟨as', a, rfl⟩
    · simp [Store.insertBefore, hy, hxy]
    · simp [Store.insertBefore, hy, hxy]
  · intro z hz
    have hzx := hmem z hz
    rcases eq_nil_or_concat as with rfl | ⟨as', a, rfl⟩
    · simp [Store.insertBefore, hy, Function.update_of_ne hzx]
    · by_cases hza : z = a
      · subst hza
        simp [Store.insertBefore, hy]
      · have haz : ¬ a = z := fun he => hza he.symm
        simp [Store.insertBefore, hy, Function.update_of_ne hza, Function.update_of_ne hzx, haz]
  · intro z hz
    have hzx := hmem z hz
    by_cases hzy : z = y
    · subst hzy
      rcases eq_nil_or_concat as with rfl | ⟨as', a, rfl⟩ <;> simp [Store.insertBefore, hy]
    · have hyz : ¬ y = z := fun he => hzy he.symm
      rcases eq_nil_or_concat as with rfl | ⟨as', a, rfl⟩ <;>
        simp [Store.insertBefore, hy, Function.update_of_ne hzy, Function.update_of_ne hzx, hyz]

theorem IsList.remove {s : Store κ α} {k : κ} {as bs : List α} {x : α}
    (h : s.IsList k (as ++ x :: bs)) : (s.remove k x).IsList k (as ++ bs) := by
  have hx := h.links
  have hnd := List.nodup_append.mp h.nodup
  have hxb : x ∉ bs := (List.nodup_cons.mp hnd.2.1).1
  have hxa : x ∉ as := fun hm => hnd.2.2 x hm x (by simp) rfl
  have hdis : ∀ y ∈ as, ∀ z ∈ bs, y ≠ z := fun y hy z hz => hnd.2.2 y hy z (by simp [hz])
  have hl := (linked_append s none none as (x :: bs)).mp h.linked
  have hnextb : ∀ y ∈ bs, (s.remove k x).next y = s.next y := by
    intro y hy
    have hyx : y ≠ x := fun he => hxb (he ▸ hy)
    rcases eq_nil_or_concat as with rfl | ⟨as', a, rfl⟩
    · cases bs <;> simp [Store.remove, hx, Function.update_of_ne hyx]
    · have hya : y ≠ a := fun he => hdis a (by simp) y hy he.symm
      cases bs <;> simp [Store.remove, hx, Function.update_of_ne hyx, Function.update_of_ne hya]
  have hpreva : ∀ y ∈ as, (s.remove k x).prev y = s.prev y := by
    intro y hy
    have hyx : y ≠ x := fun he => hxa (he ▸ hy)
    cases bs with
    | nil => rcases eq_nil_or_concat as with rfl | ⟨as', a, rfl⟩ <;>
        simp [Store.remove, hx, Function.update_of_ne hyx]
    | cons b bs =>
      have hyb : y ≠ b := hdis y hy b (by simp)
      rcases eq_nil_or_concat as with rfl | ⟨as', a, rfl⟩ <;>
        simp [Store.remove, hx, Function.update_of_ne hyx, Function.update_of_ne hyb]
  refine ⟨?_, ?_, ?_⟩
  · rcases eq_nil_or_concat as with rfl | ⟨as', a, rfl⟩
    · cases bs <;> simp [Store.remove, hx, h.head, List.getLast?_cons]
    · have hp : s.prev x = some a := by simpa using hx.1
      cases bs with
      | nil => simp [Store.remove, hp, hx, h.head]
      | cons b bs =>
        simp [Store.remove, hp, hx, h.head, List.getLast?_append, List.getLast?_cons]
  · rw [linked_append]
    constructor
    · rcases eq_nil_or_concat as with rfl | ⟨as', a, rfl⟩
      · trivial
      · have hp : s.prev x = some a := by simpa using hx.1
        have hnda := (List.nodup_append.mp hnd.1).2.2
        have hax : a ≠ x := fun he => hxa (by simp [he])
        apply hl.1.exit _ hpreva
        · cases bs <;> simp [Store.remove, hp, hx, hax]
        · intro y hy
          have hya : y ≠ a := hnda y hy a (by simp)
          have hyx : y ≠ x := fun he => hxa (by simp [← he, hy])
          cases bs <;> simp [Store.remove, hp, hx, Function.update_of_ne hya,
            Function.update_of_ne hyx]
    · cases bs with
      | nil => trivial
      | cons b bs =>
        have hbb : b ∉ bs := (List.nodup_cons.mp (List.nodup_cons.mp hnd.2.1).2).1
        have hbx : b ≠ x := fun he => hxb (by simp [he])
        apply hl.2.2.2.enter hnextb
        · intro y hy
          have hyb : y ≠ b := fun he => hbb (he ▸ hy)
          have hyx : y ≠ x := fun he => hxb (by simp [← he, hy])
          rcases eq_nil_or_concat as with rfl | ⟨as', a, rfl⟩ <;>
            simp [Store.remove, hx, Function.update_of_ne hyb, Function.update_of_ne hyx]
        · rcases eq_nil_or_concat as with rfl | ⟨as', a, rfl⟩ <;>
            simp [Store.remove, hx, hbx]
  · exact List.nodup_append.mpr ⟨hnd.1, (List.nodup_cons.mp hnd.2.1).2, hdis⟩

/-- The store as a family of sequences: every head heads its sequence, and no
element is on two lists. -/
structure Represents (s : Store κ α) (q : κ → List α) : Prop where
  list : ∀ k, s.IsList k (q k)
  disjoint : ∀ k k', k ≠ k' → ∀ x ∈ q k, x ∉ q k'

theorem Represents.update {s t : Store κ α} {q : κ → List α} (h : s.Represents q)
    {k : κ} {xs : List α} (hk : t.IsList k xs) (hhead : ∀ k', k' ≠ k → t.head k' = s.head k')
    (hlinks : ∀ y, y ∉ q k → y ∉ xs → t.next y = s.next y ∧ t.prev y = s.prev y)
    (hxs : ∀ y ∈ xs, ∀ k', k' ≠ k → y ∉ q k') : t.Represents (Function.update q k xs) := by
  refine ⟨fun k' => ?_, fun a b hab y hy => ?_⟩
  · by_cases hk' : k' = k
    · subst hk'
      simpa using hk
    · rw [Function.update_of_ne hk']
      refine (h.list k').congr (hhead k' hk') (fun y hy => ?_) (fun y hy => ?_)
      · exact (hlinks y (h.disjoint k' k hk' y hy) (fun hm => hxs y hm k' hk' hy)).1
      · exact (hlinks y (h.disjoint k' k hk' y hy) (fun hm => hxs y hm k' hk' hy)).2
  · by_cases ha : a = k
    · subst ha
      rw [Function.update_self] at hy
      rw [Function.update_of_ne (Ne.symm hab)]
      exact hxs y hy b (Ne.symm hab)
    · rw [Function.update_of_ne ha] at hy
      by_cases hb : b = k
      · subst hb
        rw [Function.update_self]
        exact fun hm => hxs y hm a ha hy
      · rw [Function.update_of_ne hb]
        exact h.disjoint a b hab y hy

/-- Whatever the link fields hold, empty heads head empty lists. -/
theorem represents_nil {s : Store κ α} (h : ∀ k, s.head k = ⟨none, none, 0⟩) :
    s.Represents fun _ => [] :=
  ⟨fun k => ⟨h k, trivial, List.nodup_nil⟩, by simp⟩

theorem Represents.init {s : Store κ α} {q : κ → List α} (h : s.Represents q) (k : κ) :
    (s.init k).Represents (Function.update q k []) :=
  h.update (isList_init s k) (fun k' hk' => by simp [Store.init, hk'])
    (fun y _ _ => ⟨rfl, rfl⟩) (by simp)

theorem Represents.insertHead {s : Store κ α} {q : κ → List α} (h : s.Represents q) {x : α}
    (k : κ) (hx : ∀ k, x ∉ q k) :
    (s.insertHead k x).Represents (Function.update q k (x :: q k)) := by
  apply h.update ((h.list k).insertHead (hx k))
  · intro k' hk'
    cases he : (s.head k).first <;> simp [Store.insertHead, he, hk']
  · intro y hy hyx
    have hyx : y ≠ x := fun he => hyx (by simp [he])
    have hf := (h.list k).head
    cases hq : q k with
    | nil => simp [Store.insertHead, hf, hq, Function.update_of_ne hyx]
    | cons f fs =>
      have hyf : y ≠ f := fun he => hy (by simp [hq, he])
      simp [Store.insertHead, hf, hq, Function.update_of_ne hyx, Function.update_of_ne hyf]
  · intro y hy k' hk'
    rcases List.mem_cons.mp hy with rfl | hy
    · exact hx k'
    · exact h.disjoint k k' hk'.symm y hy

theorem Represents.insertTail {s : Store κ α} {q : κ → List α} (h : s.Represents q) {x : α}
    (k : κ) (hx : ∀ k, x ∉ q k) :
    (s.insertTail k x).Represents (Function.update q k (q k ++ [x])) := by
  apply h.update ((h.list k).insertTail (hx k))
  · intro k' hk'
    cases he : (s.head k).last <;> simp [Store.insertTail, he, hk']
  · intro y hy hyx
    have hyx : y ≠ x := fun he => hyx (by simp [he])
    have hf := (h.list k).head
    rcases eq_nil_or_concat (q k) with hq | ⟨as, a, hq⟩
    · simp [Store.insertTail, hf, hq, Function.update_of_ne hyx]
    · have hya : y ≠ a := fun he => hy (by simp [hq, he])
      simp [Store.insertTail, hf, hq, Function.update_of_ne hyx, Function.update_of_ne hya]
  · intro y hy k' hk'
    rcases List.mem_append.mp hy with hy | hy
    · exact h.disjoint k k' hk'.symm y hy
    · exact List.mem_singleton.mp hy ▸ hx k'

private theorem mem_splice {as bs : List α} {x y z : α} (hz : z ∈ as ++ y :: x :: bs) :
    z = x ∨ z ∈ as ++ y :: bs := by
  simp only [List.mem_append, List.mem_cons] at hz ⊢
  tauto

theorem Represents.insertAfter {s : Store κ α} {q : κ → List α} (h : s.Represents q)
    {k : κ} {as bs : List α} {x y : α} (hq : q k = as ++ y :: bs) (hx : ∀ k, x ∉ q k) :
    (s.insertAfter k y x).Represents (Function.update q k (as ++ y :: x :: bs)) := by
  have hl : s.IsList k (as ++ y :: bs) := hq ▸ h.list k
  apply h.update (hl.insertAfter (hq ▸ hx k))
  · intro k' hk'
    cases he : s.next y <;> simp [Store.insertAfter, he, hk']
  · intro z hz hnew
    have hzy : z ≠ y := fun he => hz (by simp [hq, he])
    have hzx : z ≠ x := fun he => hnew (by simp [he])
    have hn := hl.links.2
    cases bs with
    | nil => simp [Store.insertAfter, hn, Function.update_of_ne hzy, Function.update_of_ne hzx]
    | cons b bs =>
      have hzb : z ≠ b := fun he => hz (by simp [hq, he])
      simp [Store.insertAfter, hn, Function.update_of_ne hzy, Function.update_of_ne hzx,
        Function.update_of_ne hzb]
  · intro z hz k' hk'
    rcases mem_splice hz with rfl | hz
    · exact hx k'
    · exact h.disjoint k k' hk'.symm z (hq ▸ hz)

theorem Represents.insertBefore {s : Store κ α} {q : κ → List α} (h : s.Represents q)
    {k : κ} {as bs : List α} {x y : α} (hq : q k = as ++ y :: bs) (hx : ∀ k, x ∉ q k) :
    (s.insertBefore k y x).Represents (Function.update q k (as ++ x :: y :: bs)) := by
  have hl : s.IsList k (as ++ y :: bs) := hq ▸ h.list k
  apply h.update (hl.insertBefore (hq ▸ hx k))
  · intro k' hk'
    cases he : s.prev y <;> simp [Store.insertBefore, he, hk']
  · intro z hz hnew
    have hzy : z ≠ y := fun he => hz (by simp [hq, he])
    have hzx : z ≠ x := fun he => hnew (by simp [he])
    have hp := hl.links.1
    rcases eq_nil_or_concat as with rfl | ⟨as', a, rfl⟩
    · simp [Store.insertBefore, hp, Function.update_of_ne hzy, Function.update_of_ne hzx]
    · have hza : z ≠ a := fun he => hz (by simp [hq, he])
      simp [Store.insertBefore, hp, Function.update_of_ne hzy, Function.update_of_ne hzx,
        Function.update_of_ne hza]
  · intro z hz k' hk'
    have hz' : z = x ∨ z ∈ as ++ y :: bs := by
      simp only [List.mem_append, List.mem_cons] at hz ⊢
      tauto
    rcases hz' with rfl | hz
    · exact hx k'
    · exact h.disjoint k k' hk'.symm z (hq ▸ hz)

theorem Represents.remove {s : Store κ α} {q : κ → List α} (h : s.Represents q)
    {k : κ} {as bs : List α} {x : α} (hq : q k = as ++ x :: bs) :
    (s.remove k x).Represents (Function.update q k (as ++ bs)) := by
  have hl : s.IsList k (as ++ x :: bs) := hq ▸ h.list k
  apply h.update hl.remove
  · intro k' hk'
    cases hp : s.prev x <;> cases hn : s.next x <;> simp [Store.remove, hp, hn, hk']
  · intro z hz _
    have hzx : z ≠ x := fun he => hz (by simp [hq, he])
    have hzn : ∀ b, s.next x = some b → z ≠ b := by
      intro b hb he
      have : b ∈ bs := List.mem_of_mem_head? (by rw [← hl.links.2, hb]; rfl)
      exact hz (by simp [hq, he, this])
    have hzp : ∀ a, s.prev x = some a → z ≠ a := by
      intro a ha he
      have : a ∈ as := List.mem_of_mem_getLast? (by rw [← hl.links.1, ha]; rfl)
      exact hz (by simp [hq, he, this])
    cases hn : s.next x <;> cases hp : s.prev x <;>
      simp [Store.remove, hn, hp, Function.update_of_ne hzx, Function.update_of_ne, hzn, hzp]
  · intro z hz k' hk'
    refine h.disjoint k k' hk'.symm z (hq ▸ ?_)
    simp only [List.mem_append, List.mem_cons] at hz ⊢
    tauto

theorem exists_mem_cons {q : κ → List α} {k : κ} {x y : α} :
    (∃ k', y ∈ Function.update q k (x :: q k) k') ↔ y = x ∨ ∃ k', y ∈ q k' := by
  constructor
  · rintro ⟨k', hy⟩
    by_cases hk : k' = k
    · subst hk
      rw [Function.update_self, List.mem_cons] at hy
      exact hy.imp_right fun hy => ⟨k', hy⟩
    · rw [Function.update_of_ne hk] at hy
      exact .inr ⟨k', hy⟩
  · rintro (rfl | ⟨k', hy⟩)
    · exact ⟨k, by simp⟩
    · by_cases hk : k' = k
      · subst hk
        exact ⟨k', by simp [hy]⟩
      · exact ⟨k', by rwa [Function.update_of_ne hk]⟩

theorem Represents.exists_mem_remove {s : Store κ α} {q : κ → List α} (h : s.Represents q)
    {k : κ} {as bs : List α} {x y : α} (hq : q k = as ++ x :: bs) :
    (∃ k', y ∈ Function.update q k (as ++ bs) k') ↔ y ≠ x ∧ ∃ k', y ∈ q k' := by
  have hnd := (h.list k).nodup
  rw [hq] at hnd
  have hx := (List.nodup_cons.mp (List.nodup_middle.mp hnd)).1
  have hxq : x ∈ q k := by simp [hq]
  constructor
  · rintro ⟨k', hy⟩
    by_cases hk : k' = k
    · subst hk
      rw [Function.update_self] at hy
      refine ⟨fun he => hx (he ▸ hy), k', ?_⟩
      rw [hq]
      simp only [List.mem_append, List.mem_cons] at hy ⊢
      tauto
    · rw [Function.update_of_ne hk] at hy
      exact ⟨fun he => h.disjoint k' k hk y hy (he ▸ hxq), k', hy⟩
  · rintro ⟨hne, k', hy⟩
    by_cases hk : k' = k
    · subst hk
      refine ⟨k', ?_⟩
      rw [hq] at hy
      simp only [Function.update_self, List.mem_append, List.mem_cons] at hy ⊢
      tauto
    · exact ⟨k', by rwa [Function.update_of_ne hk]⟩

end Store

/-- The elements met from `x` on by following `next` at most `n` times. -/
def walk (next : α → Option α) : ℕ → Option α → List α
  | n + 1, some x => x :: walk next n (next x)
  | _, _ => []

theorem walk_eq {next : α → Option α} {xs : List α}
    (h : ∀ as x bs, xs = as ++ x :: bs → next x = bs.head?) {n : ℕ} (hn : xs.length ≤ n) :
    walk next n xs.head? = xs := by
  induction xs generalizing n with
  | nil => cases n <;> rfl
  | cons x xs ih =>
    cases n with
    | zero => simp at hn
    | succ n =>
      rw [List.length_cons, Nat.add_le_add_iff_right] at hn
      simp only [List.head?_cons, walk, h [] x xs rfl]
      rw [ih (fun as y bs he => h (x :: as) y bs (by simp [he])) hn]

/-- What one round of a traversal does: go on, or leave the loop with a value. -/
inductive Flow (σ β : Type*) where
  | next (s : σ)
  | exit (s : σ) (r : β)

/-- `LIST_FOREACH`: the successor of the current element is saved before the
body runs. The result is `none` when the body fails or the fuel runs out, which
a cyclic list would make happen. -/
def forEach (succ : σ → α → Option α) (body : α → σ → Option (Flow σ β)) :
    ℕ → Option α → σ → Option (σ × Option β)
  | _, none, s => some (s, none)
  | 0, some _, _ => none
  | n + 1, some x, s =>
    let saved := succ s x
    match body x s with
    | none => none
    | some (.next s') => forEach succ body n saved s'
    | some (.exit s' r) => some (s', some r)

section Traversal

variable {g : σ → α → Option α} {f : α → σ → Option (Flow σ β)}

/-- Invariant rule. `R xs s` holds when `xs` are the elements still to be visited. -/
theorem forEach_run {R : List α → σ → Prop} {E : σ → β → Prop}
    (hsucc : ∀ x xs s, R (x :: xs) s → g s x = xs.head?)
    (hbody : ∀ x xs s, R (x :: xs) s → (∃ s', f x s = some (.next s') ∧ R xs s') ∨
      ∃ s' r, f x s = some (.exit s' r) ∧ E s' r)
    {l : List α} {s : σ} (h : R l s) {n : ℕ} (hn : l.length ≤ n) :
    (∃ s', forEach g f n l.head? s = some (s', none) ∧ R [] s') ∨
      ∃ s' r, forEach g f n l.head? s = some (s', some r) ∧ E s' r := by
  induction l generalizing s n with
  | nil => exact .inl ⟨s, by simp [forEach], h⟩
  | cons x xs ih =>
    cases n with
    | zero => simp at hn
    | succ n =>
      rw [List.length_cons, Nat.add_le_add_iff_right] at hn
      rcases hbody x xs s h with ⟨s', hb, hr⟩ | ⟨s', r, hb, he⟩
      · simp only [List.head?_cons, forEach, hb, hsucc x xs s h]
        exact ih hr hn
      · exact .inr ⟨s', r, by simp [forEach, hb], he⟩

theorem forEach_skip {s : σ} (as bs : List α)
    (hsucc : ∀ as' x bs', as ++ bs = as' ++ x :: bs' → g s x = bs'.head?)
    (hskip : ∀ x ∈ as, f x s = some (.next s)) (n : ℕ) :
    forEach g f (as.length + n) (as ++ bs).head? s = forEach g f n bs.head? s := by
  induction as with
  | nil => simp
  | cons a as ih =>
    have hn : (a :: as).length + n = (as.length + n) + 1 := by simp; omega
    rw [hn]
    simp only [List.cons_append, List.head?_cons, forEach, hskip a (by simp)]
    rw [hsucc [] a (as ++ bs) rfl]
    exact ih (fun as' x bs' he => hsucc (a :: as') x bs' (by simp [he]))
      (fun x hx => hskip x (by simp [hx]))

theorem forEach_none {s : σ} {xs : List α}
    (hsucc : ∀ as x bs, xs = as ++ x :: bs → g s x = bs.head?)
    (hskip : ∀ x ∈ xs, f x s = some (.next s)) {n : ℕ} (hn : xs.length ≤ n) :
    forEach g f n xs.head? s = some (s, none) := by
  have h := forEach_skip xs [] (by simpa using hsucc) hskip (n - xs.length)
  rw [Nat.add_sub_cancel' hn] at h
  simpa [forEach] using h

theorem forEach_first {s s' : σ} {r : β} {as bs : List α} {x : α}
    (hsucc : ∀ as' y bs', as ++ x :: bs = as' ++ y :: bs' → g s y = bs'.head?)
    (hskip : ∀ y ∈ as, f y s = some (.next s)) (hx : f x s = some (.exit s' r))
    {n : ℕ} (hn : (as ++ x :: bs).length ≤ n) :
    forEach g f n (as ++ x :: bs).head? s = some (s', some r) := by
  rw [List.length_append, List.length_cons] at hn
  have h := forEach_skip as (x :: bs) hsucc hskip (n - as.length)
  rw [Nat.add_sub_cancel' (by omega)] at h
  obtain ⟨k, hk⟩ : ∃ k, n - as.length = k + 1 := ⟨n - as.length - 1, by omega⟩
  rw [h, hk]
  simp [forEach, hx]

theorem forEach_fail {s : σ} {as bs : List α} {x : α}
    (hsucc : ∀ as' y bs', as ++ x :: bs = as' ++ y :: bs' → g s y = bs'.head?)
    (hskip : ∀ y ∈ as, f y s = some (.next s)) (hx : f x s = none) {n : ℕ}
    (hn : (as ++ x :: bs).length ≤ n) : forEach g f n (as ++ x :: bs).head? s = none := by
  rw [List.length_append, List.length_cons] at hn
  have h := forEach_skip as (x :: bs) hsucc hskip (n - as.length)
  rw [Nat.add_sub_cancel' (by omega)] at h
  obtain ⟨k, hk⟩ : ∃ k, n - as.length = k + 1 := ⟨n - as.length - 1, by omega⟩
  rw [h, hk]
  simp [forEach, hx]

end Traversal
end FosKernel.IntrusiveList
