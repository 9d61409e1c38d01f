import Mathlib.Data.Nat.ModEq

/-!
# Layout of the address space

The constants and macros of `mem.h`.  Addresses are natural numbers below `2 ^ 64`; the
sums and differences of the source are taken modulo `2 ^ 64`.
-/

/-- There are indices into a table. -/
instance tableLength_neZero : NeZero 512 :=
  ⟨by decide⟩

/-- `USERSPACE_TOP` -/
def userspaceTop : Nat := 0x0000800000000000

/-- `KERNEL_OFFSET` -/
def kernelOffset : Nat := 0xFFFFFF8000000000

/-- `KERNEL_HEAP_S` -/
def kernelHeapS : Nat := 0xFFFFFFC000000000

/-- `PAGE_SIZE` -/
def pageSize : Nat := 0x1000

/-- `PAGE_FLAGS_MASK` -/
def pageFlagsMask : Nat := 0xFFF

/-- `incptr(p, n)` -/
def incptr (p n : Nat) : Nat :=
  (p + n) % 2 ^ 64

theorem incptr_of_lt {p n : Nat} (h : p + n < 2 ^ 64) :
  incptr p n = p + n
  := Nat.mod_eq_of_lt h

/-- `P2V(a)` -/
def p2v (a : Nat) : Nat :=
  (a + kernelOffset) % 2 ^ 64

/-- `V2P(a)` -/
def v2p (a : Nat) : Nat :=
  (a + 2 ^ 64 - kernelOffset) % 2 ^ 64

/-- `STRIP_FLAGS(a)`, the address `a` without its low twelve bits. -/
def stripFlags (a : Nat) : Nat :=
  a / pageSize * pageSize

/-- `ADD_FLAGS(a, flags)` -/
def addFlags (a flags : Nat) : Nat :=
  a ||| flags &&& pageFlagsMask

/-- The table index in the nine bits of `a` from the bit `shift` on. -/
def tableOffset (shift a : Nat) : Fin 512 :=
  ⟨(a >>> shift) &&& 0x1FF, Nat.lt_succ_of_le Nat.and_le_right⟩

/-- `P1_OFFSET(a)` -/
def p1Offset (a : Nat) : Fin 512 := tableOffset 12 a

/-- `P2_OFFSET(a)` -/
def p2Offset (a : Nat) : Fin 512 := tableOffset 21 a

/-- `P3_OFFSET(a)` -/
def p3Offset (a : Nat) : Fin 512 := tableOffset 30 a

/-- `P4_OFFSET(a)` -/
def p4Offset (a : Nat) : Fin 512 := tableOffset 39 a

/-- The address of the frame with the number `n`. -/
def frame (n : Nat) : Nat :=
  pageSize * n

theorem p2v_lt (a : Nat) :
  p2v a < 2 ^ 64
  := Nat.mod_lt _ (by decide)

/-- The kernel reaches the physical address `a` at `P2V(a)`. -/
theorem v2p_p2v {a : Nat} (h : a < 2 ^ 64) :
  v2p (p2v a) = a
  := by
  simp only [v2p, p2v, kernelOffset]
  omega

theorem stripFlags_eq (a : Nat) :
  stripFlags a = frame (a / pageSize)
  := Nat.mul_comm _ _

@[simp]
theorem frame_div (n : Nat) :
  frame n / pageSize = n
  := Nat.mul_div_cancel_left n (by decide)

@[simp]
theorem stripFlags_frame (n : Nat) :
  stripFlags (frame n) = frame n
  := by
  rw [stripFlags_eq, frame_div]

theorem frame_inj {m n : Nat} (h : frame m = frame n) :
  m = n
  := by
  rw [← frame_div m, h, frame_div]

/-- Flags do not change the frame of an entry. -/
theorem addFlags_div (a flags : Nat) :
  addFlags a flags / pageSize = a / pageSize
  := by
  have hlow : (flags &&& pageFlagsMask) / 2 ^ 12 = 0 := by
    apply Nat.div_eq_of_lt
    apply Nat.lt_of_le_of_lt Nat.and_le_right
    decide
  show (a ||| flags &&& pageFlagsMask) / 2 ^ 12 = a / 2 ^ 12
  rw [← Nat.shiftRight_eq_div_pow, Nat.shiftRight_or_distrib, Nat.shiftRight_eq_div_pow,
    Nat.shiftRight_eq_div_pow, hlow, Nat.or_zero]

theorem addFlags_lt {a : Nat} (flags : Nat) (ha : a < 2 ^ 64) :
  addFlags a flags < 2 ^ 64
  := by
  apply Nat.or_lt_two_pow ha
  apply Nat.lt_of_le_of_lt Nat.and_le_right
  decide

theorem tableOffset_val (shift a : Nat) :
  (tableOffset shift a).val = a / 2 ^ shift % 512
  := by
  rw [← Nat.shiftRight_eq_div_pow]
  apply Nat.and_two_pow_sub_one_eq_mod _ 9

/-- Every four table indices are those of an address. -/
theorem exists_address (i4 i3 i2 i1 : Fin 512) :
  ∃ a, p4Offset a = i4 ∧ p3Offset a = i3 ∧ p2Offset a = i2 ∧ p1Offset a = i1
  := by
  have h4 := i4.isLt
  have h3 := i3.isLt
  have h2 := i2.isLt
  have h1 := i1.isLt
  refine ⟨i4 * 2 ^ 39 + i3 * 2 ^ 30 + i2 * 2 ^ 21 + i1 * 2 ^ 12, ?_, ?_, ?_, ?_⟩
  · apply Fin.ext
    rw [p4Offset, tableOffset_val]
    omega
  · apply Fin.ext
    rw [p3Offset, tableOffset_val]
    omega
  · apply Fin.ext
    rw [p2Offset, tableOffset_val]
    omega
  · apply Fin.ext
    rw [p1Offset, tableOffset_val]
    omega
