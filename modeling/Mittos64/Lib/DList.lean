import Mathlib.Data.List.Induction
import Mathlib.Data.List.Nodup
import Mathlib.Logic.Function.Basic

/-!
# Intrusive doubly linked lists

A node of an intrusive list carries its two links, `prev` and `next`, in itself;
the head of the list holds the two ends.  `Segment ln p xs n` says that the nodes
`xs` are linked in this order by `ln`, the first one back to `p` and the last one
on to `n`; `Represents head ln xs` says that the list with head `head` is the
duplicate-free sequence `xs`; `Chain ln o xs` says that a walk along the next nodes
from `o` on passes the nodes `xs`, whatever the links back are.  The lemmas say how a segment splits, which links it
depends on, and what rewriting a link at one of its ends does to it.
-/

universe u

/-- The two links of a node.  For the head of a list, `prev` is the last node and
`next` the first. -/
@[ext]
structure Link (α : Type u) where
  prev : Option α
  next : Option α
  deriving DecidableEq, Repr

namespace DList

variable {α : Type u}

/-- The links of no node. -/
def nil : Link α := ⟨none, none⟩

/-- The nodes `xs` are linked in order, the first back to `p`, the last on to `n`. -/
def Segment (ln : α → Link α) : Option α → List α → Option α → Prop
  | _, [], _ => True
  | p, x :: xs, n => ln x = ⟨p, xs.head?.or n⟩ ∧ Segment ln (some x) xs n

@[simp]
theorem segment_nil {ln : α → Link α} {p n : Option α} :
  Segment ln p [] n
  := trivial

@[simp]
theorem segment_cons {ln : α → Link α} {p n : Option α} {x : α} {xs : List α} :
  Segment ln p (x :: xs) n ↔ ln x = ⟨p, xs.head?.or n⟩ ∧ Segment ln (some x) xs n
  := Iff.rfl

/-- A segment splits at any place into two segments that end at each other. -/
theorem segment_append {ln : α → Link α} {n : Option α} {ys : List α} :
  ∀ {p : Option α} {xs : List α},
    Segment ln p (xs ++ ys) n
      ↔ Segment ln p xs (ys.head?.or n) ∧ Segment ln (xs.getLast?.or p) ys n
  | p, [] => by simp
  | p, [x] => by simp
  | p, x :: y :: xs => by
      rw [List.cons_append, segment_cons, segment_append, segment_cons]
      simp [List.getLast?_cons, and_assoc]

/-- A segment depends only on the links of its own nodes. -/
theorem Segment.congr {ln ln' : α → Link α} {n : Option α} :
  ∀ {p : Option α} {xs : List α},
    Segment ln p xs n → (∀ x ∈ xs, ln' x = ln x) → Segment ln' p xs n
  | _, [], _, _ => trivial
  | _, x :: _, ⟨hx, hxs⟩, h => by
      constructor
      · rw [h x List.mem_cons_self, hx]
      · apply hxs.congr
        intro y hy
        apply h y (List.mem_cons_of_mem x hy)

/-- The list with head `head` and links `ln` is the duplicate-free sequence `xs`. -/
structure Represents (head : Link α) (ln : α → Link α) (xs : List α) : Prop where
  first : head.next = xs.head?
  last : head.prev = xs.getLast?
  linked : Segment ln none xs none
  nodup : xs.Nodup

/-- The empty list. -/
theorem Represents.empty {ln : α → Link α} :
  Represents nil ln []
  := ⟨rfl, rfl, trivial, List.nodup_nil⟩

/-- A represented list depends only on the links of its own nodes. -/
theorem Represents.congr {head : Link α} {ln ln' : α → Link α} {xs : List α}
    (h : Represents head ln xs) (hln : ∀ x ∈ xs, ln' x = ln x) :
  Represents head ln' xs
  := ⟨h.first, h.last, h.linked.congr hln, h.nodup⟩

/-- Rewriting the links of a node that is not in the list keeps the list. -/
theorem Represents.update_of_notMem [DecidableEq α] {head : Link α} {ln : α → Link α}
    {xs : List α} {x : α} (h : Represents head ln xs) (hx : x ∉ xs) (l : Link α) :
  Represents head (Function.update ln x l) xs
  := by
  apply h.congr
  intro y hy
  rw [Function.update_of_ne]
  rintro rfl
  apply hx hy

/-- The head of a represented list is null exactly when the list is empty. -/
theorem Represents.next_eq_none {head : Link α} {ln : α → Link α} {xs : List α}
    (h : Represents head ln xs) :
  head.next = none ↔ xs = []
  := by
  rw [h.first, List.head?_eq_none_iff]

/-- Null-terminated segments with the same first node are the same. -/
theorem Segment.unique {ln : α → Link α} :
  ∀ {p q : Option α} {xs ys : List α},
    Segment ln p xs none → Segment ln q ys none → xs.head? = ys.head? → xs = ys
  | _, _, [], [], _, _, _ => rfl
  | _, _, [], _ :: _, _, _, h => by simp at h
  | _, _, _ :: _, [], _, _, h => by simp at h
  | _, _, x :: xs, y :: ys, ⟨hx, hxs⟩, ⟨hy, hys⟩, h => by
      obtain rfl : x = y := by simpa using h
      have hnext := congrArg Link.next (hx.symm.trans hy)
      rw [hxs.unique hys (by simpa using hnext)]

/-- A list represents one sequence only. -/
theorem Represents.unique {head : Link α} {ln : α → Link α} {xs ys : List α}
    (hx : Represents head ln xs) (hy : Represents head ln ys) :
  xs = ys
  := hx.linked.unique hy.linked (hx.first.symm.trans hy.first)

/-- A list whose two ends are the same node, or both null, has at most one node. -/
theorem Represents.eq_nil_or_singleton {head : Link α} {ln : α → Link α} {xs : List α}
    (h : Represents head ln xs) (hends : head.next = head.prev) :
  xs = [] ∨ ∃ x, xs = [x]
  := by
  rw [h.first, h.last] at hends
  match xs, h.nodup, hends with
  | [], _, _ => exact Or.inl rfl
  | [x], _, _ => exact Or.inr ⟨x, rfl⟩
  | x :: y :: xs, hnodup, hends =>
      have hlast : (y :: xs).getLast? = some x := by simpa using hends.symm
      exact absurd (List.mem_of_getLast? hlast) (List.nodup_cons.mp hnodup).1

/-- The links of a node inside a list. -/
theorem Represents.links {head : Link α} {ln : α → Link α} {xs ys : List α} {x : α}
    (h : Represents head ln (xs ++ x :: ys)) :
  ln x = ⟨xs.getLast?, ys.head?⟩
  := by
  simpa using (segment_append.mp h.linked).2.1

/-! ### Walks along the next nodes -/

section Chain

/-- A walk along the next nodes from `o` on passes the nodes `xs` and ends. -/
def Chain (ln : α → Link α) : Option α → List α → Prop
  | o, [] => o = none
  | o, x :: xs => o = some x ∧ Chain ln (ln x).next xs

variable {ln ln' : α → Link α} {o : Option α} {xs ys : List α}

/-- The walk along a segment that ends with null. -/
theorem Segment.chain {p : Option α} (h : Segment ln p xs none) :
  Chain ln xs.head? xs
  := by
  induction xs generalizing p with
  | nil => rfl
  | cons x xs ih =>
      refine ⟨rfl, ?_⟩
      rw [h.1, Option.or_none]
      exact ih h.2

theorem Chain.head (h : Chain ln o xs) :
  o = xs.head?
  := by
  cases xs with
  | nil => exact h
  | cons x xs => exact h.1

/-- There is one walk from a node only. -/
theorem Chain.unique (h : Chain ln o xs) (h' : Chain ln o ys) :
  xs = ys
  := by
  induction xs generalizing o ys with
  | nil =>
      cases ys with
      | nil => rfl
      | cons y ys => exact absurd (h.symm.trans h'.1) (by simp)
  | cons x xs ih =>
      cases ys with
      | nil => exact absurd (h.1.symm.trans h') (by simp)
      | cons y ys =>
          obtain rfl := Option.some.inj (h.1.symm.trans h'.1)
          rw [ih h.2 h'.2]

/-- The rest of a walk from one of its nodes on. -/
theorem Chain.of_append {x : α} (h : Chain ln o (ys ++ x :: xs)) :
  Chain ln (some x) (x :: xs)
  := by
  induction ys generalizing o with
  | nil => exact ⟨rfl, h.2⟩
  | cons y ys ih => exact ih h.2

/-- A walk that ends passes no node twice. -/
theorem Chain.nodup (h : Chain ln o xs) :
  xs.Nodup
  := by
  induction xs generalizing o with
  | nil => exact List.nodup_nil
  | cons x xs ih =>
      apply List.nodup_cons.mpr
      refine ⟨?_, ih h.2⟩
      intro hmem
      obtain ⟨ys, zs, hsplit⟩ := List.append_of_mem hmem
      have hrest := h.2
      rw [hsplit] at hrest
      have hwalk : Chain ln (some x) (x :: xs) := ⟨rfl, h.2⟩
      have heq := hrest.of_append.unique hwalk
      have hlen := congrArg List.length (hsplit.symm.trans (List.cons.inj heq).2.symm)
      rw [List.length_append, List.length_cons] at hlen
      omega

/-- A walk depends on the next nodes of its own nodes only. -/
theorem Chain.congr (h : Chain ln o xs) (hnext : ∀ x ∈ xs, (ln' x).next = (ln x).next) :
  Chain ln' o xs
  := by
  induction xs generalizing o with
  | nil => exact h
  | cons x xs ih =>
      refine ⟨h.1, ?_⟩
      rw [hnext x List.mem_cons_self]
      exact ih h.2 fun y hy => hnext y (List.mem_cons_of_mem x hy)

/-- A walk stays among nodes whose next nodes are among them. -/
theorem Chain.closed {Z : α → Prop} (h : Chain ln o xs) (ho : ∀ x ∈ o, Z x)
    (hnext : ∀ z, Z z → ∀ x ∈ (ln z).next, Z x) :
  ∀ x ∈ xs, Z x
  := by
  induction xs generalizing o with
  | nil =>
      intro x hx
      cases hx
  | cons x xs ih =>
      have hx := ho x h.1
      intro y hy
      obtain rfl | hy := List.mem_cons.mp hy
      · exact hx
      · exact ih h.2 (hnext x hx) y hy

/-- A walk whose nodes may have been made to point to the last node `a` still ends, and passes no
other nodes than before. -/
theorem Chain.redirect {a : α} (h : Chain ln o xs) (ha : (ln' a).next = none)
    (hnext : ∀ x ∈ xs, (ln' x).next = (ln x).next ∨ (ln' x).next = some a) :
  ∃ ys, Chain ln' o ys ∧ ys ⊆ a :: xs
  := by
  induction xs generalizing o with
  | nil => exact ⟨[], h, List.nil_subset _⟩
  | cons x xs ih =>
      obtain hsame | hlast := hnext x List.mem_cons_self
      · obtain ⟨ys, hys, hsub⟩ := ih h.2 fun y hy => hnext y (List.mem_cons_of_mem x hy)
        refine ⟨x :: ys, ⟨h.1, ?_⟩, ?_⟩
        · rw [hsame]
          exact hys
        · intro y hy
          obtain rfl | hy := List.mem_cons.mp hy
          · exact List.mem_cons_of_mem a List.mem_cons_self
          · obtain rfl | hy := List.mem_cons.mp (hsub hy)
            · exact List.mem_cons_self
            · exact List.mem_cons_of_mem a (List.mem_cons_of_mem x hy)
      · refine ⟨[x, a], ⟨h.1, ?_⟩, ?_⟩
        · rw [hlast]
          exact ⟨rfl, ha⟩
        · intro y hy
          obtain rfl | hy := List.mem_cons.mp hy
          · exact List.mem_cons_of_mem a List.mem_cons_self
          · rw [List.mem_singleton.mp hy]
            exact List.mem_cons_self

end Chain

section Update

variable [DecidableEq α]

/-- Write the `next` link of the node `o` points to, if it points to one. -/
def setNext (ln : α → Link α) (o : Option α) (n : Option α) : α → Link α :=
  match o with
  | some x => Function.update ln x { ln x with next := n }
  | none => ln

/-- Write the `prev` link of the node `o` points to, if it points to one. -/
def setPrev (ln : α → Link α) (o : Option α) (p : Option α) : α → Link α :=
  match o with
  | some x => Function.update ln x { ln x with prev := p }
  | none => ln

@[simp]
theorem setNext_none (ln : α → Link α) (n : Option α) :
  setNext ln none n = ln
  := rfl

@[simp]
theorem setPrev_none (ln : α → Link α) (p : Option α) :
  setPrev ln none p = ln
  := rfl

@[simp]
theorem setNext_self (ln : α → Link α) (x : α) (n : Option α) :
  setNext ln (some x) n x = ⟨(ln x).prev, n⟩
  := by
  simp [setNext]

@[simp]
theorem setPrev_self (ln : α → Link α) (x : α) (p : Option α) :
  setPrev ln (some x) p x = ⟨p, (ln x).next⟩
  := by
  simp [setPrev]

theorem setNext_of_ne (ln : α → Link α) {o : Option α} {y : α} (n : Option α)
    (h : o ≠ some y) :
  setNext ln o n y = ln y
  := by
  cases o with
  | none => rfl
  | some x =>
      apply Function.update_of_ne
      rintro rfl
      exact h rfl

theorem setPrev_of_ne (ln : α → Link α) {o : Option α} {y : α} (p : Option α)
    (h : o ≠ some y) :
  setPrev ln o p y = ln y
  := by
  cases o with
  | none => rfl
  | some x =>
      apply Function.update_of_ne
      rintro rfl
      exact h rfl

@[simp]
theorem setNext_prev (ln : α → Link α) (o n : Option α) (y : α) :
  (setNext ln o n y).prev = (ln y).prev
  := by
  by_cases h : o = some y
  · rw [h, setNext_self]
  · rw [setNext_of_ne ln n h]

@[simp]
theorem setPrev_next (ln : α → Link α) (o p : Option α) (y : α) :
  (setPrev ln o p y).next = (ln y).next
  := by
  by_cases h : o = some y
  · rw [h, setPrev_self]
  · rw [setPrev_of_ne ln p h]

/-- Writing the links of a node outside a segment keeps it. -/
theorem Segment.update {ln : α → Link α} {p n : Option α} {xs : List α} {x : α}
    (h : Segment ln p xs n) (hx : x ∉ xs) (l : Link α) :
  Segment (Function.update ln x l) p xs n
  := by
  apply h.congr
  intro y hy
  apply Function.update_of_ne
  rintro rfl
  exact hx hy

theorem Segment.setNext {ln : α → Link α} {p n : Option α} {xs : List α} {o : Option α}
    (h : Segment ln p xs n) (ho : ∀ x ∈ o, x ∉ xs) (n' : Option α) :
  Segment (DList.setNext ln o n') p xs n
  := by
  apply h.congr
  intro y hy
  apply setNext_of_ne
  rintro rfl
  exact ho y rfl hy

theorem Segment.setPrev {ln : α → Link α} {p n : Option α} {xs : List α} {o : Option α}
    (h : Segment ln p xs n) (ho : ∀ x ∈ o, x ∉ xs) (p' : Option α) :
  Segment (DList.setPrev ln o p') p xs n
  := by
  apply h.congr
  intro y hy
  apply setPrev_of_ne
  rintro rfl
  exact ho y rfl hy

/-- Writing the `next` link of the last node moves the end of the segment. -/
theorem Segment.setNext_last {ln : α → Link α} {p n : Option α} {xs : List α}
    (h : Segment ln p xs n) (hxs : xs.Nodup) (n' : Option α) :
  Segment (DList.setNext ln xs.getLast? n') p xs n'
  := by
  induction xs using List.reverseRecOn with
  | nil => trivial
  | append_singleton xs x _ =>
      rw [segment_append] at h ⊢
      obtain ⟨hxs', hlast, -⟩ := h
      constructor
      · apply hxs'.setNext
        simp only [List.getLast?_append, List.getLast?_singleton, Option.some_or,
          Option.mem_def, Option.some.injEq, forall_eq']
        intro hx
        exact (List.nodup_append.mp hxs).2.2 x hx x (by simp) rfl
      · simp [hlast]

/-- Writing the `prev` link of the first node moves the start of the segment. -/
theorem Segment.setPrev_first {ln : α → Link α} {p n : Option α} {xs : List α}
    (h : Segment ln p xs n) (hxs : xs.Nodup) (p' : Option α) :
  Segment (DList.setPrev ln xs.head? p') p' xs n
  := by
  cases xs with
  | nil => trivial
  | cons x xs =>
      obtain ⟨hfirst, hrest⟩ := h
      constructor
      · simp [hfirst]
      · apply hrest.setPrev
        simpa using (List.nodup_cons.mp hxs).1

end Update

end DList
