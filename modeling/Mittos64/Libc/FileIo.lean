import Mathlib.Tactic.NormNum
import Mittos64.Lib.Scatter

/-!
# Scattered reads and gathered writes

`readv` and `writev` of `libc/file_io.c` call `read` and `write` for one buffer after the other and
add up what the calls return, in a `size_t`.  A call may move any part of its buffer or fail; the
loops go on with the next buffer in any case, and add the -1 of a call that has failed.  The results
here say for which buffers and which outcomes of the calls the bytes moved are the first ones of the
buffers.
-/

namespace Libc

/-- What a call of `read` or `write` for a buffer of `len` bytes does: it moves the first `moved`
bytes of the buffer, or fails and leaves the position of the descriptor somewhere. -/
inductive Outcome (len : Nat) where
  | moved (bytes : Nat) (le : bytes ≤ len)
  | failed (pos : Nat)

/-- An element of the vector, `struct iovec`, and what the call for it does. -/
structure Iovec where
  iovBase : Nat
  iovLen : Nat
  outcome : Outcome iovLen

/-- The argument `iov` and `iovcnt`, an `int`. -/
structure Iov where
  elements : List Iovec
  iovcnt_lt : elements.length < 2 ^ 31

/-- The number as a `size_t`. -/
def toSize (n : Int) : Nat :=
  (n % 2 ^ 64).toNat

/-- The cast of a `size_t` to `long`. -/
def toLong (n : Nat) : Int :=
  if n < 2 ^ 63 then n else (n : Int) - 2 ^ 64

/-- `read(fd, v->iov_base, v->iov_len)`, with the position of the descriptor and the memory. -/
def read (file : Memory) (v : Iovec) (s : Nat × Memory) : Int × (Nat × Memory) :=
  match v.outcome with
  | .moved bytes _ => (bytes, s.1 + bytes, s.2.write v.iovBase (file.read s.1 bytes))
  | .failed pos => (-1, pos, s.2)

/-- `write(fd, v->iov_base, v->iov_len)`, with the bytes that have been written to the file. -/
def write (m : Memory) (v : Iovec) (out : List UInt8) : Int × List UInt8 :=
  match v.outcome with
  | .moved bytes _ => (bytes, out ++ m.read v.iovBase bytes)
  | .failed _ => (-1, out)

/-- The loop of `readv` and `writev`, from the current element on, with `len`. -/
def vectored {σ : Type} (call : Iovec → σ → Int × σ) : List Iovec → Nat → σ → Nat × σ
  | [], len, s => (len, s)
  | v :: iov, len, s =>
      let r := call v s
      vectored call iov ((len + toSize r.1) % 2 ^ 64) r.2

/-- `__syscall_readv(fd, iov, iovcnt)` -/
def syscallReadv (file : Memory) (iov : Iov) (pos : Nat) (m : Memory) : Int × Memory :=
  let r := vectored (read file) iov.elements 0 (pos, m)
  (toLong r.1, r.2.2)

/-- `__syscall_writev(fd, iov, iovcnt)` -/
def syscallWritev (iov : Iov) (m : Memory) : Int × List UInt8 :=
  let r := vectored (write m) iov.elements 0 []
  (toLong r.1, r.2)

/-! ### The count -/

/-- The bytes that the call moves. -/
def Iovec.moved (v : Iovec) : Nat :=
  match v.outcome with
  | .moved bytes _ => bytes
  | .failed _ => 0

/-- The call returns -1. -/
def Iovec.failed (v : Iovec) : Bool :=
  match v.outcome with
  | .moved _ _ => false
  | .failed _ => true

/-- What the call returns. -/
def Iovec.ret (v : Iovec) : Int :=
  match v.outcome with
  | .moved bytes _ => bytes
  | .failed _ => -1

theorem Iovec.moved_le (v : Iovec) :
  v.moved ≤ v.iovLen
  := by
  rw [moved]
  cases v.outcome with
  | moved bytes le => exact le
  | failed pos => exact Nat.zero_le _

/-- The bytes that all the calls move. -/
def moved (iov : List Iovec) : Nat :=
  (iov.map Iovec.moved).sum

/-- The calls that fail. -/
def failures (iov : List Iovec) : Nat :=
  iov.countP Iovec.failed

/-- The addresses of the bytes that the calls move, in the order of the file. -/
def targets (iov : List Iovec) : List Nat :=
  iov.flatMap fun v => List.range' v.iovBase v.moved

/-- The addresses of the bytes of the buffers, one buffer after the other. -/
def addresses (iov : List Iovec) : List Nat :=
  iov.flatMap fun v => List.range' v.iovBase v.iovLen

/-- The bytes of the buffers, one buffer after the other. -/
def gather (m : Memory) (iov : List Iovec) : List UInt8 :=
  iov.flatMap fun v => m.read v.iovBase v.iovLen

theorem read_eq (file : Memory) (v : Iovec) (s : Nat × Memory) :
  (read file v s).1 = v.ret
    ∧ (read file v s).2.2 = Memory.scatter file s.1 (List.range' v.iovBase v.moved) s.2
    ∧ (v.failed = false → (read file v s).2.1 = s.1 + v.moved)
  := by
  rw [read, Iovec.ret, Iovec.moved, Iovec.failed]
  cases v.outcome with
  | moved bytes le => exact ⟨rfl, Memory.write_read_eq_scatter _ _ _ _ _, fun _ => rfl⟩
  | failed pos => exact ⟨rfl, rfl, fun h => by cases h⟩

theorem write_eq (m : Memory) (v : Iovec) (out : List UInt8) :
  write m v out = (v.ret, out ++ (List.range' v.iovBase v.moved).map m)
  := by
  rw [write, Iovec.ret, Iovec.moved]
  cases v.outcome with
  | moved bytes le => simp only [Memory.read_eq_map]
  | failed pos => simp only [List.range'_zero, List.map_nil, List.append_nil]

/-- The number that the loop adds up. -/
theorem vectored_len {σ : Type} {call : Iovec → σ → Int × σ} (hcall : ∀ v s, (call v s).1 = v.ret)
    (iov : List Iovec) {len : Nat} (hlen : len < 2 ^ 64) (s : σ) :
  (vectored call iov len s).1 = toSize (len + moved iov - failures iov)
  := by
  induction iov generalizing len s with
  | nil =>
      rw [vectored, toSize, moved, failures]
      simp only [List.map_nil, List.sum_nil, List.countP_nil]
      omega
  | cons v iov ih =>
      rw [vectored, hcall, ih (Nat.mod_lt _ (by norm_num)), toSize, toSize, toSize, moved, moved,
        failures, failures, List.map_cons, List.sum_cons, List.countP_cons, Iovec.ret, Iovec.moved,
        Iovec.failed]
      cases v.outcome with
      | moved bytes le =>
          simp only [Bool.false_eq_true, if_false]
          omega
      | failed pos =>
          simp only [if_true]
          omega

/-- The bytes that the loop of `readv` moves, when no call fails. -/
theorem vectored_read (file : Memory) {iov : List Iovec} (hfailures : failures iov = 0) (len : Nat)
    (s : Nat × Memory) :
  (vectored (read file) iov len s).2.2 = Memory.scatter file s.1 (targets iov) s.2
  := by
  induction iov generalizing len s with
  | nil => rfl
  | cons v iov ih =>
      obtain ⟨-, hmem, hpos⟩ := read_eq file v s
      rw [failures, List.countP_eq_zero, List.forall_mem_cons, Bool.not_eq_true] at hfailures
      obtain ⟨hv, hrest⟩ := hfailures
      rw [vectored, ih (by rwa [failures, List.countP_eq_zero]), hmem, hpos hv, targets, targets,
        List.flatMap_cons, Memory.scatter_append, List.length_range']

/-- The bytes that the loop of `writev` moves. -/
theorem vectored_write (m : Memory) (iov : List Iovec) (len : Nat) (out : List UInt8) :
  (vectored (write m) iov len out).2 = out ++ (targets iov).map m
  := by
  induction iov generalizing len out with
  | nil => rw [vectored, targets, List.flatMap_nil, List.map_nil, List.append_nil]
  | cons v iov ih =>
      rw [vectored, write_eq, ih, targets, targets, List.flatMap_cons, List.map_append,
        List.append_assoc]

theorem gather_eq (m : Memory) (iov : List Iovec) :
  gather m iov = (addresses iov).map m
  := by
  rw [gather, addresses, List.map_flatMap]
  simp only [Memory.read_eq_map]

theorem length_targets (iov : List Iovec) :
  (targets iov).length = moved iov
  := by
  rw [targets, moved, List.length_flatMap]
  simp only [List.length_range']

theorem failures_lt (iov : Iov) :
  failures iov.elements < 2 ^ 31
  := Nat.lt_of_le_of_lt List.countP_le_length iov.iovcnt_lt

/-! ### Agreement with plain reads and writes -/

/-- The first bytes of the buffers, as many as `readv` says, are the next bytes of the file, and a
failing call does not change the count of the bytes moved. -/
def ReadvAgrees (file : Memory) (iov : Iov) (pos : Nat) (m : Memory) : Prop :=
  let r := syscallReadv file iov pos m
  (∀ n : Nat, r.1 = n → (gather r.2 iov.elements).take n = file.read pos n)
    ∧ (0 < failures iov.elements → 0 < moved iov.elements → r.1 = moved iov.elements)

/-- The bytes written to the file are the first bytes of the buffers, as many as `writev` says, and a
failing call does not change the count of the bytes moved. -/
def WritevAgrees (iov : Iov) (m : Memory) : Prop :=
  let r := syscallWritev iov m
  (∀ n : Nat, r.1 = n → r.2 = (gather m iov.elements).take n)
    ∧ (0 < failures iov.elements → 0 < moved iov.elements → r.1 = moved iov.elements)

section Count

variable {bytes errors : Nat} (herrors : errors < 2 ^ 31)

include herrors

/-- The number returned after failing calls is not the count of the bytes. -/
theorem toLong_failures (hpos : 0 < errors) :
  toLong (toSize (bytes - errors)) ≠ bytes
  := by
  rw [toLong, toSize]
  split_ifs
  · omega
  · omega

/-- When no byte is moved the number returned is not positive. -/
theorem toLong_zero {n : Nat} (h : toLong (toSize ((0 : Nat) - errors)) = n) :
  n = 0
  := by
  rw [toLong, toSize] at h
  split_ifs at h
  · omega
  · omega

omit herrors

/-- Without failing calls the number returned is the count of the bytes, as a `long`. -/
theorem toLong_moved {n : Nat} :
  toLong (toSize (bytes - (0 : Nat))) = n ↔ bytes % 2 ^ 64 < 2 ^ 63 ∧ n = bytes % 2 ^ 64
  := by
  rw [toLong, toSize]
  split_ifs
  · omega
  · omega

end Count

theorem syscallReadv_ret (file : Memory) (iov : Iov) (pos : Nat) (m : Memory) :
  (syscallReadv file iov pos m).1 = toLong (toSize (moved iov.elements - failures iov.elements))
  := by
  rw [syscallReadv, vectored_len fun v s => (read_eq file v s).1]
  · rw [Nat.cast_zero, zero_add]
  · norm_num

theorem syscallWritev_ret (iov : Iov) (m : Memory) :
  (syscallWritev iov m).1 = toLong (toSize (moved iov.elements - failures iov.elements))
  := by
  rw [syscallWritev, vectored_len fun v out => congrArg Prod.fst (write_eq m v out)]
  · rw [Nat.cast_zero, zero_add]
  · norm_num

/-- `readv` agrees with plain reads, whatever the file and the memory hold, exactly if no byte is
moved, or no call fails and the bytes it returns are moved last to their places in the buffers. -/
theorem readvAgrees_iff (iov : Iov) :
  (∀ file pos m, ReadvAgrees file iov pos m)
    ↔ moved iov.elements = 0 ∨ (failures iov.elements = 0
      ∧ (moved iov.elements % 2 ^ 64 < 2 ^ 63 → Memory.Places (moved iov.elements % 2 ^ 64)
        (targets iov.elements) (addresses iov.elements)))
  := by
  have herrors := failures_lt iov
  simp only [ReadvAgrees, syscallReadv_ret]
  constructor
  · intro hall
    by_contra hnot
    rw [not_or] at hnot
    obtain ⟨hmoved, hnot⟩ := hnot
    have hnone : failures iov.elements = 0 := by
      by_contra hfails
      apply toLong_failures herrors (Nat.pos_of_ne_zero hfails)
      exact (hall (fun _ => 0) 0 fun _ => 0).2 (Nat.pos_of_ne_zero hfails) (Nat.pos_of_ne_zero hmoved)
    apply hnot ⟨hnone, fun hlong => ?_⟩
    rw [← Memory.scatter_places]
    intro file pos m
    rw [← vectored_read file hnone 0 (pos, m), ← gather_eq]
    apply (hall file pos m).1
    rw [hnone]
    exact toLong_moved.mpr ⟨hlong, rfl⟩
  · rintro (hmoved | ⟨hnone, hplaces⟩) file pos m
    · rw [hmoved]
      refine ⟨fun n hn => ?_, fun _ hpos => (Nat.lt_irrefl 0 hpos).elim⟩
      rw [toLong_zero herrors hn]
      rfl
    · rw [hnone]
      refine ⟨fun n hn => ?_, fun hpos => (Nat.lt_irrefl 0 hpos).elim⟩
      obtain ⟨hlong, rfl⟩ := toLong_moved.mp hn
      rw [gather_eq, syscallReadv, vectored_read file hnone]
      exact Memory.scatter_places.mpr (hplaces hlong) file pos m

/-- `writev` agrees with plain writes, whatever the memory holds, exactly if no byte is moved, or no
call fails and the bytes are moved from the first places of the buffers. -/
theorem writevAgrees_iff (iov : Iov) :
  (∀ m, WritevAgrees iov m)
    ↔ moved iov.elements = 0 ∨ (failures iov.elements = 0
      ∧ (moved iov.elements % 2 ^ 64 < 2 ^ 63 →
        targets iov.elements = (addresses iov.elements).take (moved iov.elements % 2 ^ 64)))
  := by
  have herrors := failures_lt iov
  simp only [WritevAgrees, syscallWritev_ret]
  constructor
  · intro hall
    by_contra hnot
    rw [not_or] at hnot
    obtain ⟨hmoved, hnot⟩ := hnot
    have hnone : failures iov.elements = 0 := by
      by_contra hfails
      apply toLong_failures herrors (Nat.pos_of_ne_zero hfails)
      exact (hall fun _ => 0).2 (Nat.pos_of_ne_zero hfails) (Nat.pos_of_ne_zero hmoved)
    apply hnot ⟨hnone, fun hlong => ?_⟩
    apply Memory.map_inj_of_all
    intro m
    rw [List.map_take, ← gather_eq, ← List.nil_append ((targets iov.elements).map m),
      ← vectored_write m iov.elements 0 []]
    apply (hall m).1
    rw [hnone]
    exact toLong_moved.mpr ⟨hlong, rfl⟩
  · rintro (hmoved | ⟨hnone, htargets⟩) m
    · rw [hmoved]
      refine ⟨fun n hn => ?_, fun _ hpos => (Nat.lt_irrefl 0 hpos).elim⟩
      have hnil : targets iov.elements = [] := by
        rw [← List.length_eq_zero_iff, length_targets, hmoved]
      rw [toLong_zero herrors hn, syscallWritev, vectored_write, hnil]
      rfl
    · rw [hnone]
      refine ⟨fun n hn => ?_, fun hpos => (Nat.lt_irrefl 0 hpos).elim⟩
      obtain ⟨hlong, rfl⟩ := toLong_moved.mp hn
      rw [gather_eq, syscallWritev, vectored_write, List.nil_append, ← List.map_take,
        ← htargets hlong]

/-- When `readv` and `writev` agree with plain reads and writes. -/
theorem vectored_agrees_iff (iov : Iov) :
  ((∀ file pos m, ReadvAgrees file iov pos m)
    ↔ moved iov.elements = 0 ∨ (failures iov.elements = 0
      ∧ (moved iov.elements % 2 ^ 64 < 2 ^ 63 → Memory.Places (moved iov.elements % 2 ^ 64)
        (targets iov.elements) (addresses iov.elements))))
    ∧ ((∀ m, WritevAgrees iov m)
      ↔ moved iov.elements = 0 ∨ (failures iov.elements = 0
        ∧ (moved iov.elements % 2 ^ 64 < 2 ^ 63 →
          targets iov.elements = (addresses iov.elements).take (moved iov.elements % 2 ^ 64))))
  := ⟨readvAgrees_iff iov, writevAgrees_iff iov⟩

/-- A buffer of two bytes that gets one, and a buffer that gets the next one. -/
def shortRead : Iov where
  elements :=
    [{ iovBase := 0, iovLen := 2, outcome := .moved 1 (by decide) },
      { iovBase := 2, iovLen := 1, outcome := .moved 1 (by decide) }]
  iovcnt_lt := by decide

/-- A buffer that is written, and one whose write fails. -/
def failedWrite : Iov where
  elements :=
    [{ iovBase := 0, iovLen := 1, outcome := .moved 1 (by decide) },
      { iovBase := 1, iovLen := 1, outcome := .failed 0 }]
  iovcnt_lt := by decide

/-- The second byte of the file is not the second one of the buffers, and the byte written is not
counted. -/
theorem shortRead_failedWrite :
  ¬ ReadvAgrees UInt8.ofNat shortRead 0 (fun _ => 0) ∧ ¬ WritevAgrees failedWrite fun _ => 0
  := by
  constructor
  · rintro ⟨hbytes, -⟩
    have htwo := hbytes 2 (by decide)
    revert htwo
    decide
  · rintro ⟨-, hcount⟩
    have hone := hcount (by decide) (by decide)
    revert hone
    decide

/-! ### Buffers that do not overlap -/

/-- Only the last call that moves bytes leaves a part of its buffer out. -/
def Contiguous : List Iovec → Prop
  | [] => True
  | v :: iov => (v.moved = v.iovLen ∨ moved iov = 0) ∧ Contiguous iov

theorem targets_of_moved {iov : List Iovec} (h : moved iov = 0) :
  targets iov = []
  := by
  rw [← List.length_eq_zero_iff, length_targets, h]

theorem targets_subset (iov : List Iovec) :
  targets iov ⊆ addresses iov
  := by
  intro a ha
  obtain ⟨v, hv, hmem⟩ := List.mem_flatMap.mp ha
  have hle := v.moved_le
  apply List.mem_flatMap.mpr ⟨v, hv, ?_⟩
  rw [List.mem_range'_1] at hmem ⊢
  omega

/-- In buffers that do not overlap the bytes moved are the first ones exactly if no call moves bytes
after a short one. -/
theorem targets_eq_iff {iov : List Iovec} (hnodup : (addresses iov).Nodup) :
  targets iov = (addresses iov).take (moved iov) ↔ Contiguous iov
  := by
  induction iov with
  | nil => simp [targets, addresses, Contiguous]
  | cons v iov ih =>
      have hmoved : moved (v :: iov) = v.moved + moved iov := rfl
      have htargets : targets (v :: iov) = List.range' v.iovBase v.moved ++ targets iov := rfl
      have hsplit : addresses (v :: iov) = List.range' v.iovBase v.moved
          ++ (List.range' (v.iovBase + v.moved) (v.iovLen - v.moved) ++ addresses iov) := by
        rw [← List.append_assoc, List.range'_append_1, Nat.add_sub_cancel' v.moved_le]
        rfl
      have htake : (addresses (v :: iov)).take (moved (v :: iov))
          = List.range' v.iovBase v.moved ++ (List.range' (v.iovBase + v.moved)
            (v.iovLen - v.moved) ++ addresses iov).take (moved iov) := by
        rw [hsplit, hmoved, List.take_append, List.length_range', List.take_of_length_le]
        · rw [Nat.add_sub_cancel_left]
        · rw [List.length_range']
          omega
      rw [hsplit, List.nodup_append, List.nodup_append] at hnodup
      obtain ⟨-, ⟨-, hrest, hapart⟩, -⟩ := hnodup
      rw [htargets, htake, List.append_cancel_left_eq, Contiguous, ← ih hrest]
      by_cases hfull : v.moved = v.iovLen
      · rw [hfull, Nat.sub_self, List.range'_zero, List.nil_append]
        simp only [true_or, true_and]
      · by_cases hzero : moved iov = 0
        · rw [targets_of_moved hzero, hzero]
          simp only [List.take_zero, or_true, and_self]
        · simp only [hfull, hzero, or_self, false_and, iff_false]
          intro heq
          have hle := v.moved_le
          have hmem : v.iovBase + v.moved ∈ targets iov := by
            rw [heq, ← Nat.succ_pred_eq_of_pos (by omega : 0 < v.iovLen - v.moved),
              List.range'_succ, List.cons_append, ← Nat.succ_pred_eq_of_pos (Nat.pos_of_ne_zero hzero),
              List.take_succ_cons]
            apply List.mem_cons_self
          apply hapart (v.iovBase + v.moved) _ _ (targets_subset iov hmem) rfl
          rw [List.mem_range'_1]
          omega

/-- For buffers that do not overlap, and fewer than `2 ^ 63` bytes, `readv` and `writev` agree with
plain reads and writes under one condition: no byte is moved, or no call fails and none moves bytes
after a short one. -/
theorem agrees_iff_contiguous {iov : Iov} (hnodup : (addresses iov.elements).Nodup)
    (hmoved : moved iov.elements < 2 ^ 63) :
  ((∀ file pos m, ReadvAgrees file iov pos m)
    ↔ moved iov.elements = 0 ∨ (failures iov.elements = 0 ∧ Contiguous iov.elements))
    ∧ ((∀ m, WritevAgrees iov m)
      ↔ moved iov.elements = 0 ∨ (failures iov.elements = 0 ∧ Contiguous iov.elements))
  := by
  have hmod : moved iov.elements % 2 ^ 64 = moved iov.elements := by omega
  have hplaces : Memory.Places (moved iov.elements) (targets iov.elements) (addresses iov.elements)
      ↔ targets iov.elements = (addresses iov.elements).take (moved iov.elements) := by
    rw [← length_targets, Memory.places_length_iff, and_iff_left_of_imp]
    intro heq
    rw [heq]
    exact hnodup.sublist (List.take_sublist _ _)
  rw [readvAgrees_iff, writevAgrees_iff, hmod, hplaces, targets_eq_iff hnodup]
  simp only [hmoved, true_implies, and_self]

end Libc
