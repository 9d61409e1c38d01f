import Mittos64.Lib.Memory
import Mittos64.Mem.Layout

/-!
# The kernel heap

`mem/heap.c`.  The heap is a list of chunks in the kernel part of the address space: a
header of `sizeof(chunk_t)` bytes with the links to the chunks before and behind it, its
flags and its size, and then the bytes of the chunk.  `kmalloc` takes the first free chunk
that is large enough, and splits off what is not needed; when there is none it makes the
heap larger and searches again.  `kfree` joins the chunk with its free neighbours.

The memory is the one seen through the kernel part of the page tables.  A page that `ksbrk`
maps is a frame from `pmm_alloc`, with whatever bytes the frame holds: these are given by
`fresh`.  Loops run on fuel: a call that returns does so for some amount of it.
-/

namespace Heap

/-- `sizeof(chunk_t)` -/
def chunkHeader : Nat := 32

/-- `CHUNK_FREE` -/
def chunkFree : UInt8 := 0x1

/-- The fields of a `chunk_t` before its bytes. -/
@[ext]
structure Header where
  p : Nat
  n : Nat
  flags : UInt8
  size : Nat

/-- The header at the address `c`. -/
def header (m : Memory) (c : Nat) : Header where
  p := m.load c 8
  n := m.load (c + 8) 8
  flags := m (c + 16)
  size := m.load (c + 24) 8

/-- `c->p = v` -/
def setP (m : Memory) (c v : Nat) : Memory :=
  m.store c 8 v

/-- `c->n = v` -/
def setN (m : Memory) (c v : Nat) : Memory :=
  m.store (c + 8) 8 v

/-- `c->flags = v` -/
def setFlags (m : Memory) (c : Nat) (v : UInt8) : Memory :=
  m.write (c + 16) [v]

/-- `c->size = v` -/
def setSize (m : Memory) (c v : Nat) : Memory :=
  m.store (c + 24) 8 v

/-- `c->flags & CHUNK_FREE` -/
def isFree (m : Memory) (c : Nat) : Bool :=
  (header m c).flags &&& chunkFree ≠ 0

/-- The memory with the globals `heap_max`, `brk` and `heap`. -/
structure Globals where
  mem : Memory
  heapMax : Nat
  brk : Nat
  heap : Nat

/-- The globals with another memory. -/
def Globals.withMem (s : Globals) (mem : Memory) : Globals :=
  { s with mem := mem }

@[simp]
theorem Globals.withMem_mem (s : Globals) (mem : Memory) :
  (s.withMem mem).mem = mem
  := rfl

@[simp]
theorem Globals.withMem_heapMax (s : Globals) (mem : Memory) :
  (s.withMem mem).heapMax = s.heapMax
  := rfl

/-- The heap before the first call, in any memory. -/
def empty (mem : Memory) : Globals where
  mem := mem
  heapMax := kernelHeapS
  brk := kernelHeapS
  heap := 0

/-- `vmm_set_page(0, brk, pmm_alloc(), PAGE_PRESENT | PAGE_WRITE)`: the page at `brk` now
shows the bytes of the new frame. -/
def mapPage (fresh mem : Memory) (brk : Nat) : Memory :=
  fun x => if brk ≤ x ∧ x < brk + pageSize then fresh x else mem x

/-- The loop of `ksbrk`: map pages until `brk` is not below `top`. -/
def mapPages (fresh : Memory) (top : Nat) : Nat → Memory → Nat → Option (Memory × Nat)
  | 0, _, _ => none
  | fuel + 1, mem, brk =>
      if brk < top then mapPages fresh top fuel (mapPage fresh mem brk) (incptr brk pageSize)
      else some (mem, brk)

/-- `ksbrk(size)`, with the value it returns. -/
def ksbrk (fresh : Memory) (fuel : Nat) (s : Globals) (size : Nat) : Option (Nat × Globals) :=
  match mapPages fresh (incptr s.heapMax size) fuel s.mem s.brk with
  | none => none
  | some (mem, brk) =>
      let heapMax := incptr s.heapMax size
      some (heapMax, { s with mem := mem, brk := brk, heapMax := heapMax })

/-- What both branches of `merge_chunk` do: the chunk `x` takes the chunk `y` behind it. -/
def absorb (m : Memory) (x y : Nat) : Memory :=
  let m := setSize m x (((header m x).size + (header m y).size + chunkHeader) % 2 ^ 64)
  let n := (header m y).n
  let m := setN m x n
  if n ≠ 0 then setP m n x else m

/-- The first half of `merge_chunk`: merge with next. -/
def mergeNext (m : Memory) (c : Nat) : Memory :=
  let n := (header m c).n
  if n ≠ 0 ∧ isFree m n then absorb m c n else m

/-- The second half of `merge_chunk`: merge with previous. -/
def mergePrev (m : Memory) (c : Nat) : Memory :=
  let p := (header m c).p
  if p ≠ 0 ∧ isFree m p then absorb m p c else m

/-- `merge_chunk(c)` -/
def mergeChunk (m : Memory) (c : Nat) : Memory :=
  mergePrev (mergeNext m c) c

/-- `split_chunk(c, size)` -/
def splitChunk (m : Memory) (c size : Nat) : Memory :=
  if (header m c).size ≤ (size + chunkHeader) % 2 ^ 64 then m
  else
    let c2 := incptr (incptr c chunkHeader) size
    let m := setSize m c2 (((header m c).size + 2 ^ 65 - size - chunkHeader) % 2 ^ 64)
    let m := setFlags m c2 chunkFree
    let n := (header m c).n
    let m := setN m c2 n
    let m := if n ≠ 0 then setP m n c2 else m
    let m := setN m c c2
    let m := setP m c2 c
    setSize m c size

/-- `kfree(a)`, or `none` when it ends in the panic loop. -/
def kfree (s : Globals) (a : Nat) : Option Globals :=
  if a < kernelHeapS ∨ a > s.heapMax then none
  else
    let c := a - chunkHeader
    some (s.withMem (mergeChunk (setFlags s.mem c chunkFree) c))

/-- The loop of `kmalloc`: the values of `c` and `p` at its end, where `c` is the chunk
that was found or null. -/
def search (m : Memory) (size : Nat) : Nat → Nat → Nat → Option (Nat × Nat)
  | 0, _, _ => none
  | fuel + 1, c, p =>
      if c = 0 then some (0, p)
      else if isFree m c ∧ (header m c).size ≥ size then some (c, p)
      else search m size fuel (header m c).n c

/-- The header `kmalloc` writes for a new chunk, before it links it to the chunk `p`:
`c->size = size; c->flags = CHUNK_FREE; c->n = c->p = 0; c->p = p;` -/
def newHeader (m : Memory) (c size p : Nat) : Memory :=
  setP (setN (setP (setFlags (setSize m c size) c chunkFree) c 0) c 0) c p

/-- The new chunk that `kmalloc` adds behind the chunk `p`, or as the first one when `p`
is null. -/
def extend (fresh : Memory) (fuel : Nat) (s : Globals) (p size : Nat) : Option Globals :=
  let c := if p ≠ 0 then incptr p ((header s.mem p).size + chunkHeader) else s.heapMax
  let s := if p ≠ 0 then s else { s with heap := c }
  match ksbrk fresh fuel s ((size + chunkHeader) % 2 ^ 64) with
  | none => none
  | some (last, s) =>
      let m := newHeader s.mem c ((last + 2 ^ 64 - incptr c chunkHeader) % 2 ^ 64) p
      let m := if p ≠ 0 then setN m c (header m p).n else m
      let m := if p ≠ 0 then setN m p c else m
      some (s.withMem m)

/-- `kmalloc(size)` -/
def kmalloc (fresh : Memory) : Nat → Globals → Nat → Option (Nat × Globals)
  | 0, _, _ => none
  | fuel + 1, s, size =>
      match search s.mem size fuel s.heap 0 with
      | none => none
      | some (c, p) =>
          if c ≠ 0 then
            let m := setFlags (splitChunk s.mem c size) c 0
            some (incptr c chunkHeader, s.withMem m)
          else
            match extend fresh fuel s p size with
            | none => none
            | some s => kmalloc fresh fuel s size

/-- `kcalloc(count, size)` -/
def kcalloc (fresh : Memory) (fuel : Nat) (s : Globals) (count size : Nat) :
    Option (Nat × Globals) :=
  match kmalloc fresh fuel s (count * size % 2 ^ 64) with
  | none => none
  | some (ptr, s) => some (ptr, s.withMem (s.mem.fill ptr 0 (count * size % 2 ^ 64)))

/-! ### Writing headers -/

/-- Two headers do not meet. -/
def Apart (a c : Nat) : Prop :=
  a + chunkHeader ≤ c ∨ c + chunkHeader ≤ a

/-- The memories differ in the header at `c` at most. -/
def SameBut (c : Nat) (m m' : Memory) : Prop :=
  ∀ x, x < c ∨ c + chunkHeader ≤ x → m' x = m x

theorem SameBut.trans {c : Nat} {m m' m'' : Memory} (h : SameBut c m m') (h' : SameBut c m' m'') :
  SameBut c m m''
  := by
  intro x hx
  rw [h' x hx, h x hx]

/-- A header depends on its own bytes only. -/
theorem header_congr {m m' : Memory} {a : Nat}
    (h : ∀ x, a ≤ x → x < a + chunkHeader → m' x = m x) :
  header m' a = header m a
  := by
  rw [chunkHeader] at h
  have hword : ∀ b, a ≤ b → b + 8 ≤ a + 32 → m'.load b 8 = m.load b 8 := by
    intro b hb hb'
    apply Memory.load_congr
    intro x hx hx'
    exact h x (by omega) (by omega)
  apply Header.ext
  · exact hword a (by omega) (by omega)
  · exact hword (a + 8) (by omega) (by omega)
  · exact h (a + 16) (by omega) (by omega)
  · exact hword (a + 24) (by omega) (by omega)

/-- A header keeps its value when only a header apart from it is written. -/
theorem SameBut.header {m m' : Memory} {a c : Nat} (h : SameBut c m m') (hac : Apart a c) :
  header m' a = header m a
  := by
  rw [Apart] at hac
  apply header_congr
  intro x hx hx'
  exact h x (by omega)

section Fields

variable (m : Memory) (c v : Nat)

theorem setP_sameBut :
  SameBut c m (setP m c v)
  := by
  intro x hx
  rw [chunkHeader] at hx
  exact Memory.store_of_notMem m v (by omega)

theorem setN_sameBut :
  SameBut c m (setN m c v)
  := by
  intro x hx
  rw [chunkHeader] at hx
  exact Memory.store_of_notMem m v (by omega)

theorem setFlags_sameBut (flags : UInt8) :
  SameBut c m (setFlags m c flags)
  := by
  intro x hx
  rw [chunkHeader] at hx
  apply Memory.write_of_notMem
  rw [List.length_singleton]
  omega

theorem setSize_sameBut :
  SameBut c m (setSize m c v)
  := by
  intro x hx
  rw [chunkHeader] at hx
  exact Memory.store_of_notMem m v (by omega)

theorem header_setP :
  header (setP m c v) c = { header m c with p := v % 2 ^ 64 }
  := by
  apply Header.ext
  · exact Memory.load_store m c 8 v
  · exact Memory.load_store_of_disjoint m v (by omega)
  · exact Memory.store_of_notMem m v (by omega)
  · exact Memory.load_store_of_disjoint m v (by omega)

theorem header_setN :
  header (setN m c v) c = { header m c with n := v % 2 ^ 64 }
  := by
  apply Header.ext
  · exact Memory.load_store_of_disjoint m v (by omega)
  · exact Memory.load_store m (c + 8) 8 v
  · exact Memory.store_of_notMem m v (by omega)
  · exact Memory.load_store_of_disjoint m v (by omega)

theorem header_setFlags (flags : UInt8) :
  header (setFlags m c flags) c = { header m c with flags := flags }
  := by
  have hword : ∀ b, b + 8 ≤ c + 16 ∨ c + 17 ≤ b →
      (setFlags m c flags).load b 8 = m.load b 8 := by
    intro b hb
    apply Memory.load_congr
    intro x hx hx'
    apply Memory.write_of_notMem
    rw [List.length_singleton]
    omega
  apply Header.ext
  · exact hword c (by omega)
  · exact hword (c + 8) (by omega)
  · exact Memory.write_apply_of_lt m (i := 0) (l := [flags]) Nat.one_pos
  · exact hword (c + 24) (by omega)

theorem header_setSize :
  header (setSize m c v) c = { header m c with size := v % 2 ^ 64 }
  := by
  apply Header.ext
  · exact Memory.load_store_of_disjoint m v (by omega)
  · exact Memory.load_store_of_disjoint m v (by omega)
  · exact Memory.store_of_notMem m v (by omega)
  · exact Memory.load_store m (c + 24) 8 v

end Fields

end Heap
