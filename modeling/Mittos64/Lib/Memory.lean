import Mathlib.Data.Nat.ModEq
import Mathlib.Data.List.Basic
import Mathlib.Tactic.Ring

/-!
# Byte-addressed memory

A memory gives every address a byte.  `read` and `write` move blocks of bytes, `fill`
sets a block to one byte, and `load` and `store` move little-endian words of a given
number of bytes.  A write is seen by the reads inside it and by no read outside it.
-/

/-- A memory: a byte at every address. -/
abbrev Memory : Type := Nat → UInt8

namespace Memory

/-- The `n` bytes from the address `a` on. -/
def read (m : Memory) (a n : Nat) : List UInt8 :=
  (List.range n).map fun i => m (a + i)

/-- Write the bytes `l` from the address `a` on. -/
def write (m : Memory) (a : Nat) (l : List UInt8) : Memory :=
  fun x => if a ≤ x ∧ x < a + l.length then l.getD (x - a) 0 else m x

/-- Set the `n` bytes from the address `a` on to `c`. -/
def fill (m : Memory) (a : Nat) (c : UInt8) (n : Nat) : Memory :=
  fun x => if a ≤ x ∧ x < a + n then c else m x

/-- The little-endian word of the `n` bytes from the address `a` on. -/
def load (m : Memory) : Nat → Nat → Nat
  | _, 0 => 0
  | a, n + 1 => (m a).toNat + 256 * load m (a + 1) n

/-- Write the `n` low bytes of `v`, the lowest first, from the address `a` on. -/
def store (m : Memory) (a n v : Nat) : Memory :=
  fun x => if a ≤ x ∧ x < a + n then UInt8.ofNat (v / 256 ^ (x - a)) else m x

@[simp]
theorem read_length (m : Memory) (a n : Nat) :
  (m.read a n).length = n
  := by
  simp [read]

theorem write_apply_of_lt (m : Memory) {a i : Nat} {l : List UInt8} (hi : i < l.length) :
  m.write a l (a + i) = l[i]
  := by
  simp [write, hi]

theorem write_of_notMem (m : Memory) {a x : Nat} {l : List UInt8}
    (hx : x < a ∨ a + l.length ≤ x) :
  m.write a l x = m x
  := by
  rw [write, if_neg (by omega)]

theorem read_getElem (m : Memory) {a n i : Nat} (h : i < (m.read a n).length) :
  (m.read a n)[i] = m (a + i)
  := by
  simp [read]

/-- Blocks are equal when their bytes are. -/
theorem read_inj {m m' : Memory} {a b n : Nat} :
  m.read a n = m'.read b n ↔ ∀ i, i < n → m (a + i) = m' (b + i)
  := by
  rw [read, read, List.map_inj_left]
  simp only [List.mem_range]

theorem read_congr {m m' : Memory} {a b n : Nat} (h : ∀ i, i < n → m (a + i) = m' (b + i)) :
  m.read a n = m'.read b n
  := read_inj.mpr h

/-- A block is read in two parts. -/
theorem read_add (m : Memory) (a n k : Nat) :
  m.read a (n + k) = m.read a n ++ m.read (a + n) k
  := by
  simp only [read, List.range_add, List.map_append, List.map_map, Function.comp_def, Nat.add_assoc]

/-- A block is written in two parts. -/
theorem write_append (m : Memory) (a : Nat) (l l' : List UInt8) :
  m.write a (l ++ l') = (m.write a l).write (a + l.length) l'
  := by
  have hlen : (l ++ l').length = l.length + l'.length := List.length_append
  funext x
  by_cases hx : a + l.length ≤ x ∧ x < a + l.length + l'.length
  · obtain ⟨i, rfl⟩ := Nat.exists_eq_add_of_le hx.1
    have hi : i < l'.length := by omega
    have hi' : l.length + i < (l ++ l').length := by omega
    rw [write_apply_of_lt _ hi, Nat.add_assoc, write_apply_of_lt _ hi',
      List.getElem_append_right (Nat.le_add_right _ _)]
    simp
  · rw [write_of_notMem (m.write a l) (by omega)]
    by_cases hx' : a ≤ x ∧ x < a + l.length
    · obtain ⟨i, rfl⟩ := Nat.exists_eq_add_of_le hx'.1
      have hi : i < l.length := by omega
      have hi' : i < (l ++ l').length := by omega
      rw [write_apply_of_lt _ hi, write_apply_of_lt _ hi', List.getElem_append_left hi]
    · rw [write_of_notMem, write_of_notMem]
      · omega
      · omega

/-- The bytes after a block has been copied from another memory. -/
theorem write_read (m m' : Memory) (a b n x : Nat) :
  m.write a (m'.read b n) x = if a ≤ x ∧ x < a + n then m' (b + (x - a)) else m x
  := by
  split_ifs with h
  · obtain ⟨i, rfl⟩ := Nat.exists_eq_add_of_le h.1
    rw [write_apply_of_lt, read_getElem, Nat.add_sub_cancel_left]
    rw [read_length]
    omega
  · rw [write_of_notMem]
    rw [read_length]
    omega

theorem fill_of_mem (m : Memory) {a x n : Nat} (c : UInt8) (hx : a ≤ x) (hx' : x < a + n) :
  m.fill a c n x = c
  := by
  rw [fill, if_pos ⟨hx, hx'⟩]

theorem fill_of_notMem (m : Memory) {a x n : Nat} (c : UInt8) (hx : x < a ∨ a + n ≤ x) :
  m.fill a c n x = m x
  := by
  rw [fill, if_neg (by omega)]

theorem store_of_notMem (m : Memory) {a x n : Nat} (v : Nat) (hx : x < a ∨ a + n ≤ x) :
  m.store a n v x = m x
  := by
  rw [store, if_neg (by omega)]

/-- A word depends only on its own bytes. -/
theorem load_shift {m m' : Memory} :
  ∀ {a b n : Nat}, (∀ i, i < n → m' (b + i) = m (a + i)) → m'.load b n = m.load a n
  | _, _, 0, _ => rfl
  | a, b, n + 1, h => by
      have hfirst := h 0 (Nat.succ_pos n)
      have hrest : m'.load (b + 1) n = m.load (a + 1) n := by
        apply load_shift
        intro i hi
        have hnext := h (i + 1) (Nat.succ_lt_succ hi)
        rw [Nat.add_assoc, Nat.add_assoc, Nat.add_comm 1 i]
        exact hnext
      rw [load, load, ← Nat.add_zero b, ← Nat.add_zero a, hfirst, Nat.add_zero, Nat.add_zero, hrest]

theorem load_congr {m m' : Memory} {a n : Nat} (h : ∀ x, a ≤ x → x < a + n → m' x = m x) :
  m'.load a n = m.load a n
  := by
  apply load_shift
  intro i hi
  exact h (a + i) (Nat.le_add_right a i) (Nat.add_lt_add_left hi a)

/-- Equal words have equal bytes. -/
theorem bytes_of_load {m m' : Memory} :
  ∀ {a n : Nat}, m'.load a n = m.load a n → ∀ i, i < n → m' (a + i) = m (a + i)
  | a, n + 1, h, i, hi => by
      have hb := (m a).toNat_lt
      have hb' := (m' a).toNat_lt
      rw [load, load] at h
      cases i with
      | zero =>
          apply UInt8.toNat_inj.mp
          rw [Nat.add_zero]
          omega
      | succ i =>
          have hrest : m'.load (a + 1) n = m.load (a + 1) n := by omega
          rw [Nat.add_comm i, ← Nat.add_assoc]
          apply bytes_of_load hrest i (by omega)

/-- A word of `n` bytes is below `256 ^ n`. -/
theorem load_lt (m : Memory) :
  ∀ a n : Nat, m.load a n < 256 ^ n
  | _, 0 => Nat.one_pos
  | a, n + 1 => by
      have hb := (m a).toNat_lt
      have hr := load_lt m (a + 1) n
      rw [load, Nat.pow_succ]
      omega

/-- A word is its low and its high part. -/
theorem load_add (m : Memory) :
  ∀ a n k : Nat, m.load a (n + k) = m.load a n + 256 ^ n * m.load (a + n) k
  | _, 0, k => by
      rw [Nat.zero_add, load, Nat.pow_zero, Nat.one_mul, Nat.zero_add, Nat.add_zero]
  | a, n + 1, k => by
      rw [Nat.add_right_comm, load, load_add m (a + 1) n k, load, Nat.pow_succ, Nat.add_assoc a 1 n,
        Nat.add_comm 1 n]
      ring

/-- A word whose bytes are those of `v` is `v` modulo its range. -/
theorem load_eq_of_bytes {m : Memory} :
  ∀ {a n v : Nat}, (∀ i, i < n → m (a + i) = UInt8.ofNat (v / 256 ^ i)) →
    m.load a n = v % 256 ^ n
  | _, 0, v, _ => (Nat.mod_one v).symm
  | a, n + 1, v, h => by
      have hrest : m.load (a + 1) n = v / 256 % 256 ^ n := by
        apply load_eq_of_bytes
        intro i hi
        rw [Nat.add_assoc, Nat.add_comm 1 i, h (i + 1) (by omega), Nat.pow_succ',
          Nat.div_div_eq_div_mul]
      have hfirst : (m a).toNat = v % 256 := by
        have := h 0 (by omega)
        simp only [Nat.add_zero, Nat.pow_zero, Nat.div_one] at this
        rw [this]
        simp
      rw [load, hfirst, hrest, Nat.pow_succ', Nat.mod_mul]

/-- A stored word is read back. -/
theorem load_store (m : Memory) (a n v : Nat) :
  (m.store a n v).load a n = v % 256 ^ n
  := by
  apply load_eq_of_bytes
  intro i hi
  rw [store, if_pos (by omega), Nat.add_sub_cancel_left]

/-- A word that does not meet the stored one is kept. -/
theorem load_store_of_disjoint (m : Memory) {a b n k : Nat} (v : Nat)
    (h : b + k ≤ a ∨ a + n ≤ b) :
  (m.store a n v).load b k = m.load b k
  := by
  apply load_congr
  intro x hx hx'
  exact store_of_notMem m v (by omega)

/-- A word inside a block of zeros is zero. -/
theorem load_fill_zero (m : Memory) {a n : Nat} :
  ∀ {b k : Nat}, a ≤ b → b + k ≤ a + n → (m.fill a 0 n).load b k = 0
  | _, 0, _, _ => rfl
  | b, k + 1, h, h' => by
      rw [load, fill_of_mem m 0 h (by omega), load_fill_zero m (by omega) (by omega)]
      rfl

/-- A word of a memory of zeros is zero. -/
theorem load_zero :
  ∀ a n : Nat, load (fun _ => 0) a n = 0
  | _, 0 => rfl
  | a, n + 1 => by
      rw [load, load_zero]
      rfl

/-- A word outside a filled block is kept. -/
theorem load_fill_of_disjoint (m : Memory) {a b n k : Nat} (c : UInt8)
    (h : b + k ≤ a ∨ a + n ≤ b) :
  (m.fill a c n).load b k = m.load b k
  := by
  apply load_congr
  intro x hx hx'
  exact fill_of_notMem m c (by omega)

/-! ### Blocks that hold given bytes -/

/-- The memory holds the bytes `l` from the address `a` on. -/
def Holds (m : Memory) (a : Nat) (l : List UInt8) : Prop :=
  m.read a l.length = l

instance (m : Memory) (a : Nat) (l : List UInt8) : Decidable (m.Holds a l) :=
  inferInstanceAs (Decidable (_ = _))

/-- The `n` bytes of the little-endian word `v`. -/
def wordBytes (n v : Nat) : List UInt8 :=
  (List.range n).map fun i => UInt8.ofNat (v / 256 ^ i)

@[simp]
theorem wordBytes_length (n v : Nat) :
  (wordBytes n v).length = n
  := by
  rw [wordBytes, List.length_map, List.length_range]

/-- A block that is held is held in two parts. -/
theorem holds_append {m : Memory} {a : Nat} {l l' : List UInt8} :
  m.Holds a (l ++ l') ↔ m.Holds a l ∧ m.Holds (a + l.length) l'
  := by
  rw [Holds, List.length_append, read_add]
  constructor
  · intro h
    exact List.append_inj h (m.read_length a l.length)
  · rintro ⟨hl, hl'⟩
    rw [hl, hl']

theorem Holds.byte {m : Memory} {a : Nat} {l : List UInt8} (h : m.Holds a l) {i : Nat}
    (hi : i < l.length) :
  m (a + i) = l[i]
  := by
  have hlen : i < (m.read a l.length).length := by
    rw [read_length]
    exact hi
  rw [← read_getElem m hlen]
  congr 1

/-- A held word is read back. -/
theorem Holds.load {m : Memory} {a n v : Nat} (h : m.Holds a (wordBytes n v)) :
  m.load a n = v % 256 ^ n
  := by
  apply load_eq_of_bytes
  intro i hi
  rw [h.byte (by rw [wordBytes_length]; exact hi)]
  simp only [wordBytes, List.getElem_map, List.getElem_range]

/-- Written bytes are held. -/
theorem holds_write (m : Memory) (a : Nat) (l : List UInt8) :
  (m.write a l).Holds a l
  := by
  apply List.ext_getElem
  · exact read_length _ _ _
  · intro i hi hi'
    rw [read_getElem, write_apply_of_lt m hi']

/-- Bytes are held as long as they are not written to. -/
theorem Holds.congr {m m' : Memory} {a : Nat} {l : List UInt8} (h : m.Holds a l)
    (hsame : ∀ x, a ≤ x → x < a + l.length → m' x = m x) :
  m'.Holds a l
  := by
  have hread : m'.read a l.length = m.read a l.length := by
    apply read_congr
    intro i hi
    exact hsame (a + i) (Nat.le_add_right a i) (Nat.add_lt_add_left hi a)
  exact hread.trans h

/-! ### Writing to scattered addresses -/

/-- From the memory `m` to the memory `m'` the `n` bytes `bytes` have been written, the byte `i` to
the address `place i`, and nothing else has changed. -/
structure Wrote (m m' : Memory) (place : Nat → Nat) (n : Nat) (bytes : Nat → UInt8) : Prop where
  written : ∀ i < n, m' (place i) = bytes i
  other : ∀ x, (∀ i < n, x ≠ place i) → m' x = m x

section Wrote

variable {m m' m'' : Memory} {place : Nat → Nat} {n k : Nat} {bytes : Nat → UInt8}

theorem Wrote.refl (m : Memory) (place : Nat → Nat) (bytes : Nat → UInt8) :
  Wrote m m place 0 bytes
  := by
  constructor
  · intro i hi
    cases hi
  · intro x _
    rfl

/-- Writing a block to addresses that follow one another. -/
theorem wrote_write (m : Memory) {a : Nat} {l : List UInt8} (hl : l.length = n)
    (hplace : ∀ i < n, place i = a + i) (hbytes : ∀ i < n, l.getD i 0 = bytes i) :
  Wrote m (m.write a l) place n bytes
  := by
  subst hl
  constructor
  · intro i hi
    rw [hplace i hi, write_apply_of_lt m hi, ← hbytes i hi]
    simp [hi]
  · intro x hx
    apply write_of_notMem
    by_contra hin
    apply hx (x - a) (by omega)
    rw [hplace _ (by omega)]
    omega

/-- Setting a block of addresses that follow one another. -/
theorem wrote_fill (m : Memory) {a : Nat} (c : UInt8) (hplace : ∀ i < n, place i = a + i) :
  Wrote m (m.fill a c n) place n fun _ => c
  := by
  constructor
  · intro i hi
    rw [hplace i hi]
    apply fill_of_mem
    · omega
    · omega
  · intro x hx
    apply fill_of_notMem
    by_contra hin
    apply hx (x - a) (by omega)
    rw [hplace _ (by omega)]
    omega

/-- One block after the other. -/
theorem Wrote.append (h : Wrote m m' place n bytes)
    (h' : Wrote m' m'' (fun i => place (n + i)) k fun i => bytes (n + i))
    (hne : ∀ i j, i < n → j < k → place i ≠ place (n + j)) :
  Wrote m m'' place (n + k) bytes
  := by
  constructor
  · intro i hi
    by_cases hin : i < n
    · rw [h'.other, h.written i hin]
      intro j hj
      exact hne i j hin hj
    · have hw := h'.written (i - n) (by omega)
      simp only [Nat.add_sub_cancel' (Nat.le_of_not_lt hin)] at hw
      exact hw
  · intro x hx
    rw [h'.other, h.other]
    · intro i hi
      exact hx i (by omega)
    · intro i hi
      exact hx (n + i) (by omega)

end Wrote

end Memory
