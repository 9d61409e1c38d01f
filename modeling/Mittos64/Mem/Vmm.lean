import Mathlib.Data.List.FinRange
import Mittos64.Lib.Trie
import Mittos64.Mem.Pmm

/-!
# Page tables

`mem/vmm.c`.  A page table is a frame of 512 entries; an entry is an address of a frame with
flags in its low twelve bits, or zero.  `vmm_find_page` follows three levels of tables from a
P4 down to the P1 that holds the entry of a page, and with `touch` makes the tables that are
missing.  The address of a P4 is physical, and zero stands for `BootP4`, whose physical address
is the parameter `bootP4`.

The P4, P3, P2 and P1 of an address space form a trie in the words of the frames.  A table
entry with `PAGE_HUGE` ends the walk of the processor; the source knows nothing of this flag,
so that its own walk is the walk of the trie only where there are no such entries.
-/

namespace Mem

/-- `PAGE_PRESENT` -/
def pagePresent : Nat := 0x001

/-- `PAGE_WRITE` -/
def pageWrite : Nat := 0x002

/-- `PAGE_USER` -/
def pageUser : Nat := 0x004

/-- `PAGE_HUGE` -/
def pageHuge : Nat := 0x080

/-- The flags of the tables that `vmm_find_page` makes. -/
def tableFlags : Nat := pagePresent ||| pageWrite ||| pageUser

/-- The entry `i` of the table at the address `table`. -/
def entry (m : Memory) (table : Nat) (i : Fin 512) : Nat :=
  m.load (table + 8 * i) 8

/-- Write the entry `i` of the table at the address `table`. -/
def setEntry (s : Machine) (table : Nat) (i : Fin 512) (v : Nat) : Machine :=
  s.withMem (s.mem.store (table + 8 * i) 8 v)

/-- `memset(P2V(page), 0, PAGE_SIZE)` -/
def clearPage (s : Machine) (page : Nat) : Machine :=
  s.withMem (s.mem.fill page 0 pageSize)

/-- One level of `vmm_find_page`: the entry `i` of the table, which with `touch` is made to
point to a new table when it is zero. -/
def nextTable (touch : Bool) (s : Machine) (table : Nat) (i : Fin 512) : Option (Nat × Machine) :=
  if entry s.mem table i ≠ 0 then some (entry s.mem table i, s)
  else if touch then
    match pmmAlloc s with
    | none => none
    | some (p, s) =>
        let e := addFlags p tableFlags
        some (e, setEntry (clearPage s p) table i e)
  else some (0, s)

/-- The levels of `vmm_find_page` along the indices `path`: the pointer to the last table, or
null. -/
def findTable (touch : Bool) : Machine → Nat → List (Fin 512) → Option (Nat × Machine)
  | s, table, [] => some (p2v table, s)
  | s, table, i :: path =>
      match nextTable touch s table i with
      | none => none
      | some (e, s) => if e = 0 then some (0, s) else findTable touch s (stripFlags e) path

/-- The indices by which `vmm_find_page` finds the P1 of a page. -/
def tablePath (addr : Nat) : List (Fin 512) :=
  [p4Offset addr, p3Offset addr, p2Offset addr]

/-- `vmm_find_page(P4, addr, touch)` -/
def vmmFindPage (s : Machine) (P4 addr : Nat) (touch : Bool) : Option (Nat × Machine) :=
  findTable touch s P4 (tablePath (stripFlags addr))

/-- `if(!P4) P4=GET_P4();` -/
def resolveP4 (bootP4 P4 : Nat) : Nat :=
  if P4 = 0 then bootP4 else P4

/-- `vmm_get_page(P4, addr)` -/
def vmmGetPage (bootP4 : Nat) (s : Machine) (P4 addr : Nat) : Nat :=
  match vmmFindPage s (resolveP4 bootP4 P4) addr false with
  | none => 0
  | some (P1, s) => if P1 = 0 then 0 else entry s.mem (v2p P1) (p1Offset addr)

/-- `vmm_set_page(P4, addr, phys, flags)`, or `none` when there is no frame for a table. -/
def vmmSetPage (bootP4 : Nat) (s : Machine) (P4 addr phys flags : Nat) :
    Option (Nat × Machine) :=
  match vmmFindPage s (resolveP4 bootP4 P4) addr true with
  | none => none
  | some (P1, s) =>
      if P1 = 0 then some (0, s)
      else
        let s := setEntry s (v2p P1) (p1Offset addr) (addFlags phys flags)
        some (entry s.mem (v2p P1) (p1Offset addr), s)

/-- `vmm_new_P4()` -/
def vmmNewP4 (bootP4 : Nat) (s : Machine) : Option (Nat × Machine) :=
  match pmmAlloc s with
  | none => none
  | some (P4, s) =>
      let s := clearPage s P4
      some (P4, setEntry s P4 511 (entry s.mem bootP4 511))

/-- A loop of `vmm_free_P4` over the entries `is` of a table: free what is below an entry with
`below`, then the frame of the entry. -/
def freeEntries (below : Machine → Nat → Machine) (s : Machine) (table : Nat) :
    List (Fin 512) → Machine
  | [] => s
  | i :: is =>
      if entry s.mem table i ≠ 0 then
        let s := below s (stripFlags (entry s.mem table i))
        let s := pmmFree s (stripFlags (entry s.mem table i))
        freeEntries below (setEntry s table i 0) table is
      else freeEntries below s table is

/-- The loops of `vmm_free_P4` inside a table that is `level` levels above the pages. -/
def freeTable : Nat → Machine → Nat → Machine
  | 0, s, _ => s
  | level + 1, s, table => freeEntries (freeTable level) s table (List.finRange 512)

/-- The indices of the outer loop of `vmm_free_P4`. -/
def userIndices : List (Fin 512) :=
  (List.finRange 512).filter fun i => decide (i < p4Offset kernelOffset)

/-- `vmm_free_P4(P4)` -/
def vmmFreeP4 (s : Machine) (P4 : Nat) : Machine :=
  pmmFree (freeEntries (freeTable 3) s P4 userIndices) P4

/-! ### The trie of the tables -/

/-- The entry has the flag `PAGE_HUGE`. -/
def isHuge (e : Nat) : Bool :=
  e.testBit 7

/-- The table an entry of an upper level points to. -/
def child (e : Nat) : Option Nat :=
  if e = 0 ∨ isHuge e then none else some (e / pageSize)

/-- The words of all frames. -/
abbrev Words : Type := Nat → Fin 512 → Nat

/-- The node at the end of a path from the table `r`. -/
abbrev walk (T : Words) (r : Nat) (p : List (Fin 512)) : Option Nat :=
  Trie.walk child T r p

theorem walk_cons (T : Words) (r : Nat) (i : Fin 512) (p : List (Fin 512)) :
  walk T r (i :: p) = (child (T r i)).bind fun t => walk T t p
  := rfl

theorem walk_append (T : Words) (r : Nat) (p q : List (Fin 512)) :
  walk T r (p ++ q) = (walk T r p).bind fun t => walk T t q
  := Trie.walk_append r p q

theorem walk_concat (T : Words) (r : Nat) (p : List (Fin 512)) (i : Fin 512) :
  walk T r (p ++ [i]) = (walk T r p).bind fun t => child (T t i)
  := Trie.walk_concat r p i

@[simp]
theorem child_zero :
  child 0 = none
  := rfl

theorem child_of_ne {e : Nat} (h : e ≠ 0) (hhuge : isHuge e = false) :
  child e = some (e / pageSize)
  := by
  rw [child, if_neg]
  simp [h, hhuge]

/-- A path through an entry goes on in the table of the entry. -/
theorem walk_child {T : Words} {t : Nat} {i : Fin 512} (hne : T t i ≠ 0)
    (hhuge : isHuge (T t i) = false) (p : List (Fin 512)) :
  walk T t (i :: p) = walk T (T t i / pageSize) p
  := by
  rw [walk_cons, child_of_ne hne hhuge, Option.bind_some]

theorem tableFlags_eq :
  tableFlags = 7
  := rfl

/-- The entry that `vmm_find_page` makes for a new table points to it. -/
theorem child_addFlags (n : Nat) :
  addFlags (frame n) tableFlags ≠ 0 ∧ isHuge (addFlags (frame n) tableFlags) = false
    ∧ child (addFlags (frame n) tableFlags) = some n
  := by
  have hne : addFlags (frame n) tableFlags ≠ 0 := by
    intro hzero
    have hbit : (addFlags (frame n) tableFlags).testBit 0 = true := by
      rw [addFlags, Nat.testBit_or, tableFlags_eq]
      simp [pageFlagsMask]
    rw [hzero] at hbit
    simp at hbit
  have hhuge : isHuge (addFlags (frame n) tableFlags) = false := by
    rw [isHuge, addFlags, Nat.testBit_or, tableFlags_eq]
    have hframe : (frame n).testBit 7 = false := by
      rw [frame, pageSize, show (0x1000 : Nat) = 2 ^ 12 from rfl, Nat.testBit_two_pow_mul]
      simp
    simp [hframe, pageFlagsMask]
    decide
  refine ⟨hne, hhuge, ?_⟩
  rw [child_of_ne hne hhuge, addFlags_div, frame_div]

theorem entry_frame (m : Memory) (n : Nat) (i : Fin 512) :
  entry m (frame n) i = words m n i
  := rfl

theorem words_setEntry (s : Machine) (n : Nat) (i : Fin 512) {v : Nat} (hv : v < 2 ^ 64) :
  words (setEntry s (frame n) i v).mem = setWord (words s.mem) n i v
  := words_store s.mem n i hv

theorem words_clearPage (s : Machine) (n : Nat) :
  words (clearPage s (frame n)).mem = clearFrame (words s.mem) n
  := words_fill s.mem n

/-- A word points to a frame of the physical address space. -/
theorem frame_div_lt {e : Nat} (h : e < 2 ^ 64) :
  frame (e / pageSize) < 2 ^ 64
  := Nat.lt_of_le_of_lt (Nat.mul_div_le e pageSize) h

end Mem
