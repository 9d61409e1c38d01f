import Mittos64.Lib.DList
import Mathlib.Data.List.Induction

/-!
# The list macros

The macros of `include/list.h`.  A list is a head and the link fields of its nodes;
a null pointer is `none`.  The heads and the link fields are fields of different
structures, so the writes to the one never reach the other.  `listAppend` and
`listRemove` realise appending to and erasing from the sequence a list represents.
-/

universe u

open DList

variable {α : Type u}

/-- `LIST_EMPTY(head)` -/
def listEmpty (head : Link α) : Bool := head.next.isNone

/-- `LIST_FIRST(head)` -/
def listFirst (head : Link α) : Option α := head.next

variable [DecidableEq α]

/-- `LIST_APPEND(head, self, list)` -/
def listAppend (head : Link α) (ln : α → Link α) (self : α) : Link α × (α → Link α) :=
  let ln := Function.update ln self ⟨head.prev, none⟩
  let ln := setNext ln (ln self).prev (some self)
  let head := { head with prev := some self }
  let head := if head.next = none then { head with next := head.prev } else head
  (head, ln)

/-- `LIST_REMOVE(head, self, list)` -/
def listRemove (head : Link α) (ln : α → Link α) (self : α) : Link α × (α → Link α) :=
  let head := if head.next = some self then { head with next := (ln self).next } else head
  let head := if head.prev = some self then { head with prev := (ln self).prev } else head
  let ln := setPrev ln (ln self).next (ln self).prev
  let ln := setNext ln (ln self).prev (ln self).next
  (head, Function.update ln self nil)

/-- `LIST_INSERT_BEFORE(head, self, list, after)`.  The macro writes `self->next` twice
and never writes `self->prev`. -/
def listInsertBefore (head : Link α) (ln : α → Link α) (self after : α) :
    Link α × (α → Link α) :=
  let ln := setNext ln (some self) (some after)
  let ln := setNext ln (some self) (ln after).prev
  let ln := setPrev ln (some after) (some self)
  let ln := setNext ln (ln self).prev (some self)
  let head := if head.next = some after then { head with next := some self } else head
  (head, ln)

/-! ### Appending -/

/-- Appending sets the links of the node and of the last one. -/
theorem listAppend_links (head : Link α) (ln : α → Link α) (self : α) :
  (listAppend head ln self).2
    = setNext (Function.update ln self ⟨head.prev, none⟩) head.prev (some self)
  := by
  rw [listAppend]
  dsimp only
  rw [Function.update_self]

/-- Appending makes the node the last one, and the first one when there was none. -/
theorem listAppend_ends (head : Link α) (ln : α → Link α) (self : α) :
  (listAppend head ln self).1.prev = some self
    ∧ ((listAppend head ln self).1.next = some self
      ∨ (listAppend head ln self).1.next = head.next)
  := by
  rw [listAppend]
  dsimp only
  split_ifs with hnone
  · exact ⟨rfl, Or.inl rfl⟩
  · exact ⟨rfl, Or.inr rfl⟩

/-- Appending a node that is not in the list puts it at the end. -/
theorem listAppend_represents {head : Link α} {ln : α → Link α} {xs : List α} {self : α}
    (h : Represents head ln xs) (hself : self ∉ xs) :
  Represents (listAppend head ln self).1 (listAppend head ln self).2 (xs ++ [self])
  := by
  have hlast : xs.getLast? ≠ some self := by
    intro hl
    exact hself (List.mem_of_getLast? hl)
  have hseg := (h.linked.update hself ⟨head.prev, none⟩).setNext_last h.nodup (some self)
  constructor
  · simp only [listAppend]
    split
    · simp [h.next_eq_none.mp ‹_›]
    · simp [h.first, List.head?_append_of_ne_nil _ (mt h.next_eq_none.mpr ‹_›)]
  · simp only [listAppend]
    split <;> simp
  · rw [segment_append]
    constructor
    · simpa [listAppend, h.last] using hseg
    · simp [listAppend, h.last, setNext_of_ne _ _ hlast]
  · apply List.Nodup.append h.nodup (List.nodup_singleton self)
    simpa using hself

/-- Appending writes only the links of the node and of the nodes of the list. -/
theorem listAppend_of_notMem {head : Link α} {ln : α → Link α} {xs : List α} {self x : α}
    (h : Represents head ln xs) (hx : x ∉ xs) (hself : x ≠ self) :
  (listAppend head ln self).2 x = ln x
  := by
  have hlast : head.prev ≠ some x := by
    rw [h.last]
    intro hl
    exact hx (List.mem_of_getLast? hl)
  simp [listAppend, setNext_of_ne _ _ hlast, hself]

/-! ### Removing -/

/-- Removing moves the ends of the list only off the removed node. -/
theorem listRemove_head (head : Link α) (ln : α → Link α) (self : α) :
  (listRemove head ln self).1
    = ⟨if head.prev = some self then (ln self).prev else head.prev,
       if head.next = some self then (ln self).next else head.next⟩
  := by
  simp only [listRemove]
  split <;> split <;> simp_all

/-- Removing a node of the list takes it out of the sequence. -/
theorem listRemove_represents {head : Link α} {ln : α → Link α} {xs ys : List α} {self : α}
    (h : Represents head ln (xs ++ self :: ys)) :
  Represents (listRemove head ln self).1 (listRemove head ln self).2 (xs ++ ys)
  := by
  have hself := h.links
  obtain ⟨hxs, -, hys⟩ := segment_append.mp h.linked
  obtain ⟨hx, hy, hdisj⟩ := List.nodup_append.mp h.nodup
  obtain ⟨hselfys, hy⟩ := List.nodup_cons.mp hy
  have hselfxs : self ∉ xs := fun e => hdisj self e self List.mem_cons_self rfl
  have hfirst : ys.head? ≠ some self := fun e => hselfys (List.mem_of_head? e)
  have hlast : xs.getLast? ≠ some self := fun e => hselfxs (List.mem_of_getLast? e)
  -- the two links that skip the node, and the segments before and after it
  have hbefore : ∀ x ∈ ys.head?, x ∉ xs := fun x e hm =>
    hdisj x hm x (List.mem_cons_of_mem self (List.mem_of_head? e)) rfl
  have hafter : ∀ x ∈ xs.getLast?, x ∉ ys := fun x e hm =>
    hdisj x (List.mem_of_getLast? e) x (List.mem_cons_of_mem self hm) rfl
  have hln : (listRemove head ln self).2
      = Function.update (setNext (setPrev ln ys.head? xs.getLast?) xs.getLast? ys.head?) self nil
    := by
    simp [listRemove, hself, setPrev_of_ne _ _ hfirst]
  constructor
  · rw [listRemove_head, h.first, hself]
    cases xs with
    | nil => simp
    | cons x xs =>
        have hne : x ≠ self := fun e => hselfxs (e ▸ List.mem_cons_self)
        simp [hne]
  · rw [listRemove_head, h.last, hself]
    induction ys using List.reverseRecOn with
    | nil => simp
    | append_singleton ys y _ =>
        have hne : y ≠ self := fun e => hselfys (e ▸ by simp)
        simp [hne, List.getLast?_cons]
  · rw [hln, segment_append]
    constructor
    · simpa using ((hxs.setPrev hbefore _).setNext_last hx ys.head?).update hselfxs nil
    · simpa using ((hys.setPrev_first hy xs.getLast?).setNext hafter ys.head?).update hselfys nil
  · exact h.nodup.sublist (by simp)

/-- Removing writes only the links of the nodes of the list. -/
theorem listRemove_of_notMem {head : Link α} {ln : α → Link α} {xs : List α} {self x : α}
    (h : Represents head ln xs) (hself : self ∈ xs) (hx : x ∉ xs) :
  (listRemove head ln self).2 x = ln x
  := by
  obtain ⟨ys, zs, rfl⟩ := List.append_of_mem hself
  have hne : x ≠ self := fun e => hx (e ▸ hself)
  have hfirst : zs.head? ≠ some x := fun e => hx (by simp [List.mem_of_head? e])
  have hlast : ys.getLast? ≠ some x := fun e => hx (by simp [List.mem_of_getLast? e])
  have hself' : zs.head? ≠ some self := by
    intro e
    have := (List.nodup_append.mp h.nodup).2.1
    exact (List.nodup_cons.mp this).1 (List.mem_of_head? e)
  simp [listRemove, h.links, hne, setPrev_of_ne _ _ hself', setPrev_of_ne _ _ hfirst,
    setNext_of_ne _ _ hlast]

/-! ### The sequence of a list -/

/-- In a list, appending a new node puts it at the end of the sequence, and removing a member takes
it out of the sequence and clears its links.  Neither writes to any other node outside the list. -/
theorem list_append_remove {head : Link α} {ln : α → Link α} {xs : List α}
    (h : Represents head ln xs) :
  (∀ self, self ∉ xs →
    Represents (listAppend head ln self).1 (listAppend head ln self).2 (xs ++ [self])
      ∧ ∀ x, x ∉ xs → x ≠ self → (listAppend head ln self).2 x = ln x)
  ∧ ∀ self ∈ xs,
    Represents (listRemove head ln self).1 (listRemove head ln self).2 (xs.erase self)
      ∧ (listRemove head ln self).2 self = nil
      ∧ ∀ x, x ∉ xs → (listRemove head ln self).2 x = ln x
  := by
  constructor
  · intro self hself
    exact ⟨listAppend_represents h hself, fun x hx hne => listAppend_of_notMem h hx hne⟩
  · intro self hself
    refine ⟨?_, ?_, fun x hx => listRemove_of_notMem h hself hx⟩
    · obtain ⟨ys, zs, rfl⟩ := List.append_of_mem hself
      have hys : self ∉ ys := by
        intro hmem
        exact (List.nodup_append.mp h.nodup).2.2 self hmem self List.mem_cons_self rfl
      rw [List.erase_append_right _ hys, List.erase_cons_head]
      apply listRemove_represents h
    · apply Function.update_self

/-- The links of a list of three nodes. -/
def threeLinks (x : Nat) : Link Nat :=
  if x = 1 then ⟨none, some 2⟩
  else if x = 2 then ⟨some 1, some 3⟩
  else if x = 3 then ⟨some 2, none⟩
  else nil

/-- A fourth node behind three, and the second of the three taken out. -/
theorem list_append_remove_three :
  Represents (listAppend ⟨some 3, some 1⟩ threeLinks 4).1
      (listAppend ⟨some 3, some 1⟩ threeLinks 4).2 [1, 2, 3, 4]
    ∧ Represents (listRemove ⟨some 3, some 1⟩ threeLinks 2).1
      (listRemove ⟨some 3, some 1⟩ threeLinks 2).2 [1, 3]
  := by
  have h : Represents ⟨some 3, some 1⟩ threeLinks [1, 2, 3] :=
    ⟨rfl, rfl, ⟨rfl, rfl, rfl, trivial⟩, by decide⟩
  exact ⟨((list_append_remove h).1 4 (by decide)).1, ((list_append_remove h).2 2 (by decide)).1⟩

section Removed

variable {head : Link α} {ln : α → Link α} {xs : List α} {self : α}

/-- The links after a node that does not point to itself has been removed. -/
theorem listRemove_eq (hself : (ln self).next ≠ some self) {z : α} (hz : z ≠ self) :
  (listRemove head ln self).2 z
    = setNext (setPrev ln (ln self).next (ln self).prev) (ln self).prev (ln self).next z
  := by
  simp only [listRemove, setPrev_of_ne _ _ hself, Function.update_of_ne hz]

/-- Removing a node writes the links of the node and of its two neighbours only. -/
theorem listRemove_of_ne (hself : (ln self).next ≠ some self) {z : α} (hz : z ≠ self)
    (hprev : (ln self).prev ≠ some z) (hnext : (ln self).next ≠ some z) :
  (listRemove head ln self).2 z = ln z
  := by
  rw [listRemove_eq hself hz, setNext_of_ne _ _ hprev, setPrev_of_ne _ _ hnext]

/-- Removing the first node of a walk leaves the rest of it, when the node before it is not passed
later. -/
theorem listRemove_chain (head : Link α) (h : Chain ln (some self) (self :: xs))
    (hprev : ∀ p ∈ (ln self).prev, p ∉ self :: xs) :
  Chain (listRemove head ln self).2 (ln self).next xs
    ∧ ∀ x ∈ xs.head?, ((listRemove head ln self).2 x).prev = (ln self).prev
  := by
  have hnot : self ∉ xs := (List.nodup_cons.mp h.nodup).1
  have hself : (ln self).next ≠ some self := by
    intro heq
    rw [h.2.head] at heq
    exact hnot (List.mem_of_head? heq)
  have hne : ∀ {x}, x ∈ xs → x ≠ self := by
    rintro x hx rfl
    exact hnot hx
  constructor
  · apply h.2.congr
    intro x hx
    rw [listRemove_eq hself (hne hx), setNext_of_ne, setPrev_next]
    intro heq
    exact hprev x heq (List.mem_cons_of_mem self hx)
  · intro x hx
    have hmem := List.mem_of_head? hx
    have hnext : (ln self).next = some x := h.2.head.trans hx
    rw [listRemove_eq hself (hne hmem), setNext_prev, hnext, setPrev_self]

end Removed
