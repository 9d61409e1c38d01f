import Mittos64.Lib.Memory

/-!
# Ring buffers

A ring of `n` bytes holds a window of a stream: the byte at the position `i` of the
stream lies at `i % n`.  Copying a block in or out splits it at the end of the ring.
Copying out gives the bytes of the window, and copying in behind the window extends it,
as long as the window is no longer than the ring.
-/

namespace Ring

/-- The ring `b` of `n` bytes holds the bytes `l` from the position `pos` on. -/
def Holds (b : Memory) (n pos : Nat) (l : List UInt8) : Prop :=
  ∀ (i : Nat) (h : i < l.length), b ((pos + i) % n) = l[i]

/-- The `k` bytes from the position `pos` on, in two blocks. -/
def copyOut (b : Memory) (n pos k : Nat) : List UInt8 :=
  let first := min (n - pos % n) k
  b.read (pos % n) first ++ b.read 0 (k - first)

/-- Put the bytes `l` at the position `pos`, in two blocks. -/
def copyIn (b : Memory) (n pos : Nat) (l : List UInt8) : Memory :=
  let first := min (n - pos % n) l.length
  (b.write (pos % n) (l.take first)).write 0 (l.drop first)

/-- The place of a position less than one turn ahead. -/
theorem place {n i : Nat} (pos : Nat) (hi : i < n) :
  (pos + i) % n = if pos % n + i < n then pos % n + i else pos % n + i - n
  := by
  have hr : pos % n < n := Nat.mod_lt pos (by omega)
  rw [← Nat.mod_add_mod]
  split_ifs with h
  · exact Nat.mod_eq_of_lt h
  · rw [Nat.mod_eq_sub_mod (by omega), Nat.mod_eq_of_lt (by omega)]

/-- Copying out gives the first bytes of the window. -/
theorem Holds.copyOut {b : Memory} {n pos k : Nat} {l : List UInt8}
    (h : Holds b n pos l) (hk : k ≤ l.length) (hn : l.length ≤ n) :
  Ring.copyOut b n pos k = l.take k
  := by
  have hr : l.length = 0 ∨ pos % n < n := by
    by_cases h0 : n = 0
    · left
      omega
    · right
      exact Nat.mod_lt pos (by omega)
  apply List.ext_getElem
  · simp [Ring.copyOut]
    omega
  · intro i hi hi'
    simp only [List.length_take] at hi'
    have hget := h i (by omega)
    rw [place pos (by omega)] at hget
    simp only [Ring.copyOut, List.getElem_append, Memory.read_length, List.getElem_take]
    split_ifs with hfirst
    · rw [if_pos (by omega)] at hget
      simpa [Memory.read] using hget
    · rw [if_neg (by omega)] at hget
      rw [← hget]
      simp only [Memory.read, List.getElem_map, List.getElem_range]
      congr 1
      omega

/-- Moving the start of the window forward forgets its first bytes. -/
theorem Holds.drop {b : Memory} {n pos : Nat} {l : List UInt8} (h : Holds b n pos l) (k : Nat) :
  Holds b n (pos + k) (l.drop k)
  := by
  intro i hi
  simp only [List.length_drop] at hi
  rw [List.getElem_drop, Nat.add_assoc]
  apply h

/-- The byte copied in at the position `pos + i`. -/
theorem copyIn_place {b : Memory} {n pos i : Nat} {l : List UInt8} (hl : l.length ≤ n)
    (hi : i < l.length) :
  copyIn b n pos l ((pos + i) % n) = l[i]
  := by
  have hr : pos % n < n := Nat.mod_lt pos (by omega)
  rw [place pos (by omega), copyIn]
  split_ifs with h
  · have hlen : i < (l.take (min (n - pos % n) l.length)).length := by
      rw [List.length_take]
      omega
    rw [Memory.write_of_notMem, Memory.write_apply_of_lt _ hlen, List.getElem_take]
    rw [List.length_drop]
    omega
  · have hlen : pos % n + i - n < (l.drop (min (n - pos % n) l.length)).length := by
      rw [List.length_drop]
      omega
    have hget := Memory.write_apply_of_lt
      (b.write (pos % n) (l.take (min (n - pos % n) l.length))) (a := 0) hlen
    rw [Nat.zero_add, List.getElem_drop] at hget
    rw [hget]
    congr 1
    omega

/-- Copying in keeps the bytes of the window before it. -/
theorem copyIn_place_before {b : Memory} {n pos k i : Nat} {l : List UInt8}
    (hk : k + l.length ≤ n) (hi : i < k) :
  copyIn b n (pos + k) l ((pos + i) % n) = b ((pos + i) % n)
  := by
  have hr : pos % n < n := Nat.mod_lt pos (by omega)
  by_cases hl : l.length = 0
  · obtain rfl := List.eq_nil_of_length_eq_zero hl
    simp [copyIn, Memory.write]
  · have hstart := place (n := n) (i := k) pos (by omega)
    have hplace := place (n := n) (i := i) pos (by omega)
    rw [copyIn, Memory.write_of_notMem, Memory.write_of_notMem]
    · rw [List.length_take]
      split_ifs at hstart hplace <;> omega
    · rw [List.length_drop]
      split_ifs at hstart hplace <;> omega

/-- Copying in behind the window extends it. -/
theorem Holds.copyIn {b : Memory} {n pos : Nat} {l l' : List UInt8} (h : Holds b n pos l)
    (hn : l.length + l'.length ≤ n) :
  Holds (Ring.copyIn b n (pos + l.length) l') n pos (l ++ l')
  := by
  intro i hi
  rw [List.length_append] at hi
  rw [List.getElem_append]
  split_ifs with hil
  · rw [copyIn_place_before hn hil, h i hil]
  · have hpos : pos + i = pos + l.length + (i - l.length) := by
      omega
    rw [hpos, copyIn_place (by omega)]

end Ring
