import Mittos64.Mem.Realloc

/-!
# Overlapping blocks

`memmove` of `mem/string.c` is a call of `memcpy`, which copies from the first byte on.  So the
bytes of an overlapping source that begins before the destination are written over before they are
read, and the destination repeats the bytes between the two (`memcpy_byte`).
-/

namespace Heap

/-- `memset(s, c, n)` -/
def memset (m : Memory) (s : Nat) (c : UInt8) : Nat → Memory
  | 0 => m
  | n + 1 => memset (m.write s [c]) (incptr s 1) c n

/-- `memmove(dest, src, n)` -/
def memmove (m : Memory) (dest src n : Nat) : Memory :=
  memcpy m dest src n

/-- The `n` bytes from `src` on have been moved to `dest`, and no other byte has changed. -/
structure Moved (m m' : Memory) (dest src n : Nat) : Prop where
  moved : ∀ i < n, m' (dest + i) = m (src + i)
  other : ∀ x, x < dest ∨ dest + n ≤ x → m' x = m x

section Write

variable (m : Memory) (a : Nat) (c : UInt8)

theorem write_one_self :
  m.write a [c] a = c
  := Memory.write_apply_of_lt m (i := 0) (l := [c]) Nat.one_pos

theorem write_one_of_ne {x : Nat} (hx : x ≠ a) :
  m.write a [c] x = m x
  := by
  apply Memory.write_of_notMem
  rw [List.length_singleton]
  omega

end Write

/-- A block that ends with the address space does not wrap around. -/
theorem memset_succ (m : Memory) {s n : Nat} (c : UInt8) (hs : s + (n + 1) ≤ 2 ^ 64) :
  memset m s c (n + 1) = memset (m.write s [c]) (s + 1) c n
  := by
  cases n with
  | zero => rfl
  | succ n => rw [memset, incptr_of_lt (by omega)]

/-- `memset` sets the bytes of a block. -/
theorem memset_eq (c : UInt8) {n : Nat} :
  ∀ {m : Memory} {s : Nat}, s + n ≤ 2 ^ 64 → memset m s c n = m.fill s c n
  := by
  induction n with
  | zero =>
      intro m s _
      funext x
      rw [Memory.fill_of_notMem m c (by omega)]
      rfl
  | succ n ih =>
      intro m s hs
      rw [memset_succ m c hs, ih (by omega)]
      funext x
      by_cases hx : s ≤ x ∧ x < s + (n + 1)
      · rw [Memory.fill_of_mem m c hx.1 hx.2]
        by_cases hfirst : x = s
        · rw [Memory.fill_of_notMem _ c (by omega), hfirst, write_one_self]
        · rw [Memory.fill_of_mem _ c (by omega) (by omega)]
      · rw [Memory.fill_of_notMem m c (by omega), Memory.fill_of_notMem _ c (by omega),
          write_one_of_ne m s c (by omega)]

section Copy

variable {m : Memory} {dest src n : Nat}

theorem memcpy_succ (m : Memory) (hdest : dest + (n + 1) ≤ 2 ^ 64) (hsrc : src + (n + 1) ≤ 2 ^ 64) :
  memcpy m dest src (n + 1) = memcpy (m.write dest [m src]) (dest + 1) (src + 1) n
  := by
  cases n with
  | zero => rfl
  | succ n => rw [memcpy, incptr_of_lt (by omega), incptr_of_lt (by omega)]

/-- `memcpy` writes to its destination only. -/
theorem memcpy_other (hdest : dest + n ≤ 2 ^ 64) (hsrc : src + n ≤ 2 ^ 64) {x : Nat}
    (hx : x < dest ∨ dest + n ≤ x) :
  memcpy m dest src n x = m x
  := by
  induction n generalizing m dest src with
  | zero => rfl
  | succ n ih =>
      rw [memcpy_succ m hdest hsrc, ih (by omega) (by omega) (by omega),
        write_one_of_ne m dest _ (by omega)]

/-- The byte of the source that the byte `i` of the destination is a copy of.  When the source
begins before the destination, the bytes between the two are repeated. -/
def origin (dest src i : Nat) : Nat :=
  if src < dest then i % (dest - src) else i

/-- The next byte, when it is not one of the bytes that are written first. -/
theorem origin_succ (i : Nat) :
  src + 1 + origin (dest + 1) (src + 1) i = dest ∧ origin dest src (i + 1) = 0
    ∨ src + 1 + origin (dest + 1) (src + 1) i ≠ dest
      ∧ origin dest src (i + 1) = origin (dest + 1) (src + 1) i + 1
  := by
  simp only [origin, Nat.add_sub_add_right, Nat.add_lt_add_iff_right]
  split_ifs with hlt
  · obtain ⟨d, hd⟩ : ∃ d, d = dest - src := ⟨_, rfl⟩
    have hmod := Nat.mod_lt i (show 0 < d by omega)
    rw [← hd, Nat.add_mod_eq_ite]
    obtain hone | hone : d = 1 ∨ 1 < d := by omega
    · left
      subst hone
      constructor
      · omega
      · rw [Nat.mod_self]
        split_ifs
        all_goals omega
    · rw [Nat.mod_eq_of_lt hone]
      split_ifs
      · left
        omega
      · right
        omega
  · right
    omega

/-- What `memcpy` copies to the byte `i` of its destination. -/
theorem memcpy_byte (hdest : dest + n ≤ 2 ^ 64) (hsrc : src + n ≤ 2 ^ 64) {i : Nat} (hi : i < n) :
  memcpy m dest src n (dest + i) = m (src + origin dest src i)
  := by
  induction n generalizing m dest src i with
  | zero => exact absurd hi (Nat.not_lt_zero i)
  | succ n ih =>
      rw [memcpy_succ m hdest hsrc]
      cases i with
      | zero =>
          have hzero : origin dest src 0 = 0 := by
            rw [origin, Nat.zero_mod, ite_self]
          rw [hzero, memcpy_other (by omega) (by omega) (by omega)]
          apply write_one_self
      | succ i =>
          have hrest : memcpy (m.write dest [m src]) (dest + 1) (src + 1) n (dest + 1 + i)
              = m.write dest [m src] (src + 1 + origin (dest + 1) (src + 1) i) :=
            ih (by omega) (by omega) (by omega)
          rw [show dest + (i + 1) = dest + 1 + i by omega, hrest]
          obtain ⟨hwritten, hfirst⟩ | ⟨hread, hnext⟩ := @origin_succ dest src i
          · rw [hwritten, write_one_self, hfirst]
            rfl
          · rw [write_one_of_ne m dest _ hread, hnext, Nat.add_assoc, Nat.add_comm 1]

/-- The bytes are moved when each of them is the byte that it is a copy of. -/
theorem memmove_moved_iff_origin (hdest : dest + n ≤ 2 ^ 64) (hsrc : src + n ≤ 2 ^ 64) :
  Moved m (memmove m dest src n) dest src n
    ↔ ∀ i < n, m (src + origin dest src i) = m (src + i)
  := by
  constructor
  · intro h i hi
    rw [← h.moved i hi, memmove, memcpy_byte hdest hsrc hi]
  · intro h
    constructor
    · intro i hi
      rw [memmove, memcpy_byte hdest hsrc hi, h i hi]
    · intro x hx
      apply memcpy_other hdest hsrc hx

/-- `memmove` to a lower address moves all bytes. -/
theorem memmove_down (hdest : dest + n ≤ 2 ^ 64) (hsrc : src + n ≤ 2 ^ 64) (hle : dest ≤ src) :
  Moved m (memmove m dest src n) dest src n
  := by
  rw [memmove_moved_iff_origin hdest hsrc]
  intro i _
  rw [origin, if_neg (Nat.not_lt.mpr hle)]

/-- `memmove` moves all bytes just when the source does not begin before the destination, or each
byte where the two overlap is already the byte that is moved there. -/
theorem memmove_moves_iff (m : Memory) (dest src n : Nat) (hdest : dest + n ≤ 2 ^ 64)
    (hsrc : src + n ≤ 2 ^ 64) :
  Moved m (memmove m dest src n) dest src n
    ↔ dest ≤ src ∨ ∀ i, dest + i < src + n → m (dest + i) = m (src + i)
  := by
  rw [memmove_moved_iff_origin hdest hsrc]
  constructor
  · intro h
    obtain hlt | hle := Nat.lt_or_ge src dest
    · right
      intro i hi
      -- the byte where they overlap, and the same byte of the source
      have hover := h (dest - src + i) (by omega)
      have hsame := h i (by omega)
      rw [origin, if_pos hlt] at hover hsame
      rw [Nat.add_mod_left] at hover
      rw [← hsame, hover]
      congr 1
      omega
    · exact Or.inl hle
  · rintro (hle | h) i hi
    · rw [origin, if_neg (Nat.not_lt.mpr hle)]
    · rw [origin]
      split_ifs with hlt
      · induction i using Nat.strong_induction_on with
        | _ i ih =>
            obtain hfirst | hrest := Nat.lt_or_ge i (dest - src)
            · rw [Nat.mod_eq_of_lt hfirst]
            · have hback := ih (i - (dest - src)) (by omega) (by omega)
              have hstep := h (i - (dest - src)) (by omega)
              rw [Nat.mod_eq_sub_mod hrest, hback, ← hstep]
              congr 1
              omega
      · rfl

/-- The bytes 1, 2, 3 at the start of the memory. -/
def threeBytes : Memory :=
  Memory.write (fun _ => 0) 0 [1, 2, 3]

/-- Two bytes are moved down by one. -/
theorem memmove_moves_down :
  Moved threeBytes (memmove threeBytes 0 1 2) 0 1 2
  := (memmove_moves_iff threeBytes 0 1 2 (by decide) (by decide)).mpr (Or.inl (by decide))

/-- Two bytes are not moved up by one: the second is a copy of the first. -/
theorem memmove_loses_byte :
  memmove threeBytes 1 0 2 2 = 1 ∧ ¬ Moved threeBytes (memmove threeBytes 1 0 2) 1 0 2
  := by
  have hbyte : memmove threeBytes 1 0 2 2 = 1 := by decide
  refine ⟨hbyte, ?_⟩
  intro h
  have hmoved := h.moved 1 (by decide)
  rw [hbyte] at hmoved
  exact absurd hmoved (by decide)

end Copy

end Heap
