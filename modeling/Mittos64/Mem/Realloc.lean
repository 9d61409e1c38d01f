import Mittos64.Mem.HeapReturns

/-!
# `krealloc`

`krealloc` allocates a block of the new size, copies that many bytes from the old block with
the `memcpy` of `mem/string.c`, and frees the old block.  It copies as many bytes as the new
block has, also when the old block has fewer: then it reads beyond the old block.
-/

namespace Heap

/-- `memcpy(dest, src, n)` -/
def memcpy (m : Memory) (dest src : Nat) : Nat → Memory
  | 0 => m
  | n + 1 => memcpy (m.write dest [m src]) (incptr dest 1) (incptr src 1) n

/-- The addresses that `memcpy(dest, src, n)` reads, in their order. -/
def memcpyReads (src : Nat) : Nat → List Nat
  | 0 => []
  | n + 1 => src :: memcpyReads (incptr src 1) n

/-- `krealloc(ptr, size)` -/
def krealloc (fresh : Memory) (fuel : Nat) (s : Globals) (ptr size : Nat) :
    Option (Nat × Globals) :=
  match kmalloc fresh fuel s size with
  | none => none
  | some (new, s) =>
      if ptr ≠ 0 then
        match kfree (s.withMem (memcpy s.mem new ptr size)) ptr with
        | none => none
        | some s => some (new, s)
      else some (new, s)

/-- The addresses of the old block that `krealloc(ptr, size)` reads. -/
def kreallocReads (ptr size : Nat) : List Nat :=
  if ptr ≠ 0 then memcpyReads ptr size else []

/-- The size in the header of the chunk with the block `ptr`. -/
def chunkSize (m : Memory) (ptr : Nat) : Nat :=
  (header m (ptr - chunkHeader)).size

/-! ### `memcpy` -/

/-- `memcpy` between two blocks that do not meet copies the bytes of the one to the other. -/
theorem memcpy_eq {n : Nat} :
  ∀ {m : Memory} {dest src : Nat}, dest + n < 2 ^ 64 → src + n < 2 ^ 64 →
    dest + n ≤ src ∨ src + n ≤ dest →
    memcpy m dest src n = m.write dest (m.read src n)
  := by
  induction n with
  | zero =>
      intro m dest src _ _ _
      funext x
      rw [Memory.write_read, if_neg (by omega)]
      rfl
  | succ n ih =>
      intro m dest src hdest hsrc hapart
      rw [memcpy, incptr_of_lt (by omega), incptr_of_lt (by omega),
        ih (by omega) (by omega) (by omega)]
      funext x
      rw [Memory.write_read, Memory.write_read]
      have hfirst : ∀ y, y ≠ dest → m.write dest [m src] y = m y := by
        intro y hy
        apply Memory.write_of_notMem
        rw [List.length_singleton]
        omega
      by_cases hx : x = dest
      · subst hx
        have hsrc' : m.write x [m src] x = m src :=
          Memory.write_apply_of_lt m (i := 0) (l := [m src]) Nat.one_pos
        rw [if_neg (by omega), if_pos (by omega), hsrc', Nat.sub_self, Nat.add_zero]
      · by_cases hin : dest + 1 ≤ x ∧ x < dest + 1 + n
        · rw [if_pos hin, if_pos (by omega), hfirst _ (by omega),
            show src + 1 + (x - (dest + 1)) = src + (x - dest) by omega]
        · rw [if_neg hin, if_neg (by omega), hfirst x hx]

/-- `memcpy` reads the addresses from `src` on. -/
theorem mem_memcpyReads {n : Nat} :
  ∀ {src : Nat}, src + n < 2 ^ 64 → ∀ a, a ∈ memcpyReads src n ↔ src ≤ a ∧ a < src + n
  := by
  induction n with
  | zero =>
      intro src _ a
      simp only [memcpyReads, List.not_mem_nil, false_iff]
      omega
  | succ n ih =>
      intro src hsrc a
      rw [memcpyReads, List.mem_cons, incptr_of_lt (by omega), ih (by omega)]
      omega

/-- `memcpy` of more bytes reads all that it reads of fewer bytes. -/
theorem memcpyReads_mono {n k : Nat} (hnk : n ≤ k) :
  ∀ {src : Nat}, memcpyReads src n ⊆ memcpyReads src k
  := by
  induction n generalizing k with
  | zero =>
      intro src a ha
      cases ha
  | succ n ih =>
      intro src
      obtain ⟨k, rfl⟩ := Nat.exists_eq_succ_of_ne_zero (Nat.ne_of_gt (Nat.zero_lt_of_lt hnk))
      rw [memcpyReads, memcpyReads]
      apply List.cons_subset_cons
      exact ih (Nat.le_of_succ_le_succ hnk)

/-! ### The old block -/

/-- The size in the header of a chunk. -/
theorem Linked.size_eq {m : Memory} {p : Nat} {cs : List Chunk} (h : Linked m p cs 0) {c : Chunk}
    (hc : c ∈ cs) :
  (header m c.addr).size = c.size
  := by
  obtain ⟨l, r, rfl⟩ := List.append_of_mem hc
  obtain ⟨-, hheader, -⟩ := linked_append.mp h
  rw [hheader]

/-- A live block lies in a chunk in use, with the size in the header of the chunk. -/
theorem Inv.chunkSize_eq {s : State} {cs : List Chunk} (h : Inv s cs) {b : Block}
    (hb : b ∈ s.live) :
  ∃ c ∈ cs, c.free = false ∧ c.data = b.ptr ∧ c.size = chunkSize s.heap.mem b.ptr
    ∧ c.stop ≤ s.heap.heapMax
  := by
  obtain ⟨c, hc, hused, hdata, -, hstop⟩ := h.chunk_of_block hb
  refine ⟨c, hc, hused, hdata, ?_, hstop⟩
  rw [chunkSize, ← hdata, Chunk.data, Nat.add_sub_cancel, h.isHeap.linked.size_eq hc]

/-- `kmalloc` keeps the bytes of the chunks in use. -/
theorem Allocates.keeps {s s' : Globals} {cs cs' : List Chunk} {size ptr : Nat} {c d : Chunk}
    (halloc : Allocates s cs size ptr s' cs' c) (h : IsHeap s cs) (hd : d ∈ cs)
    (hused : d.free = false) {x : Nat} (hx : d.data ≤ x) (hx' : x < d.stop) :
  s'.mem x = s.mem x
  := by
  have hd' : d ∈ cs' := (halloc.used_iff d hused).mpr (Or.inl hd)
  have hstop := (h.tiles.mem_le d hd).2
  exact halloc.frame x (by omega) (halloc.isHeap.not_header hd' hx hx')

/-! ### `krealloc` -/

/-- What `krealloc(ptr, size)` is to do when it returns the block `new`: it has read bytes of
the chunk of the old block only; the new block is live and the old one is not; the bytes up to
the smaller size are those of the old block; the other live blocks keep their bytes. -/
structure Reallocated (s : State) (ptr size new : Nat) (t : Globals) : Prop where
  reads : ∀ a ∈ kreallocReads ptr size, ptr ≤ a ∧ a < ptr + chunkSize s.heap.mem ptr
  heap : ∃ cs, Inv ⟨t, ⟨new, size⟩ :: s.live.filter fun b => decide (b.ptr ≠ ptr)⟩ cs
  copied : ptr ≠ 0 → ∀ i, i < min (chunkSize s.heap.mem ptr) size →
    t.mem (new + i) = s.heap.mem (ptr + i)
  kept : KeepsBlocks (s.live.filter fun b => decide (b.ptr ≠ ptr)) s.heap.mem t.mem

/-- `krealloc(ptr, size)` returns, and does what it is to do. -/
def StaysInBlock (fresh : Memory) (s : State) (ptr size : Nat) : Prop :=
  (∃ n, ∀ fuel, n < fuel → krealloc fresh fuel s.heap ptr size ≠ none)
    ∧ ∀ fuel new t, krealloc fresh fuel s.heap ptr size = some (new, t) →
      Reallocated s ptr size new t

/-- No live block is null. -/
theorem Inv.ptr_ne_zero {s : State} {cs : List Chunk} (h : Inv s cs) {b : Block}
    (hb : b ∈ s.live) :
  b.ptr ≠ 0
  := by
  obtain ⟨c, hc, -, hdata, -⟩ := h.chunk_of_block hb
  have hlow := (h.isHeap.tiles.mem_le c hc).1
  have hpos := kernelHeapS_pos
  rw [Chunk.data] at hdata
  omega

/-- After `kmalloc(size)`, `krealloc` copies `size` bytes and frees the old block. -/
theorem Inv.krealloc_of_kmalloc {s : State} {cs cs' : List Chunk} {fresh : Memory}
    {fuel size new : Nat} {heap : Globals} {c : Chunk} {b : Block} (h : Inv s cs)
    (hb : b ∈ s.live) (hsize : size ≤ chunkSize s.heap.mem b.ptr)
    (hmalloc : kmalloc fresh fuel s.heap size = some (new, heap))
    (halloc : Allocates s.heap cs size new heap cs' c) :
  ∃ t, krealloc fresh fuel s.heap b.ptr size = some (new, t) ∧ Reallocated s b.ptr size new t
  := by
  obtain ⟨d, hd, hused, hdata, hdsize, hstop⟩ := h.chunkSize_eq hb
  have hd' : d ∈ cs' := (halloc.used_iff d hused).mpr (Or.inl hd)
  have hptr := h.ptr_ne_zero hb
  have hheap := halloc.isHeap
  have hlt := hheap.heapMax_lt
  have hcle := (hheap.tiles.mem_le c halloc.mem).2
  have hdle := (hheap.tiles.mem_le d hd').2
  have hcsize := halloc.size_le
  have hnew := halloc.ptr_eq
  have hne := halloc.new d hd hused
  simp only [Chunk.stop] at hcle hdle
  -- the chunks of the two blocks do not meet
  have hapart : new + size ≤ b.ptr ∨ b.ptr + size ≤ new := by
    obtain rfl | hle | hle := hheap.tiles.apart halloc.mem hd'
    · exact absurd rfl hne
    · rw [Chunk.stop] at hle
      rw [Chunk.data] at hdata
      omega
    · rw [Chunk.stop] at hle
      rw [Chunk.data] at hnew
      omega
  have hcopy : memcpy heap.mem new b.ptr size = heap.mem.write new (heap.mem.read b.ptr size) :=
    memcpy_eq (by omega) (by omega) hapart
  obtain ⟨mem, hmem⟩ : ∃ mem, mem = memcpy heap.mem new b.ptr size := ⟨_, rfl⟩
  have hmem' : ∀ x, x < c.data ∨ c.stop ≤ x → mem x = heap.mem x := by
    intro x hx
    rw [Chunk.stop] at hx
    rw [hmem, hcopy, Memory.write_read, if_neg (by omega)]
  obtain ⟨hinv, hkeep⟩ := h.writeNew halloc hmem'
  obtain ⟨t, cs'', hfree, hinv', hkeep'⟩ := hinv.free (List.mem_cons_of_mem _ hb)
  have hneptr : new ≠ b.ptr := by
    rw [Chunk.data] at hdata hnew
    omega
  rw [List.filter_cons_of_pos (by simpa using hneptr)] at hinv'
  refine ⟨t, ?_, ?_, ⟨cs'', hinv'⟩, ?_, ?_⟩
  · rw [krealloc, hmalloc]
    simp only [hptr, ne_eq, not_false_eq_true, if_true]
    rw [← hmem]
    simp only at hfree
    rw [hfree]
  · intro a ha
    rw [kreallocReads, if_pos hptr, mem_memcpyReads (by omega)] at ha
    omega
  · intro _ i hi
    have hcopied : mem (new + i) = heap.mem (b.ptr + i) := by
      rw [hmem, hcopy, Memory.write_read, if_pos (by omega), Nat.add_sub_cancel_left]
    have hkeepnew := hkeep' ⟨new, size⟩ List.mem_cons_self (new + i) (Nat.le_add_right new i)
      (by simp only; omega)
    rw [hkeepnew, Globals.withMem_mem, hcopied]
    apply halloc.keeps h.isHeap hd hused
    · omega
    · rw [Chunk.stop]
      omega
  · intro b' hb' x hx hx'
    have hlive := List.mem_of_mem_filter hb'
    rw [hkeep' b' (List.mem_cons_of_mem _ hlive) x hx hx']
    exact hkeep b' hlive x hx hx'

/-- `krealloc(0, size)` is `kmalloc(size)`. -/
theorem Inv.krealloc_null {s : State} {cs cs' : List Chunk} {fresh : Memory}
    {fuel size new : Nat} {heap : Globals} {c : Chunk} (h : Inv s cs)
    (hmalloc : kmalloc fresh fuel s.heap size = some (new, heap))
    (halloc : Allocates s.heap cs size new heap cs' c) :
  krealloc fresh fuel s.heap 0 size = some (new, heap) ∧ Reallocated s 0 size new heap
  := by
  obtain ⟨hinv, hkeep⟩ := h.malloc halloc
  have hfilter : (s.live.filter fun b => decide (b.ptr ≠ 0)) = s.live := by
    apply List.filter_eq_self.mpr
    intro b hb
    simpa using h.ptr_ne_zero hb
  constructor
  · simp only [krealloc, hmalloc, ne_eq, not_true_eq_false, if_false]
  · constructor
    · intro a ha
      rw [kreallocReads, if_neg (by simp)] at ha
      cases ha
    · rw [hfilter]
      exact ⟨cs', hinv⟩
    · intro hne
      exact absurd rfl hne
    · rw [hfilter]
      exact hkeep

/-- `krealloc` does what it is to do when the new block is no larger than the old chunk and
`kmalloc` returns. -/
theorem Inv.staysInBlock {s : State} {cs : List Chunk} {fresh : Memory} {ptr size : Nat}
    (h : Inv s cs)
    (hptr : ptr = 0 ∨ ∃ b ∈ s.live, b.ptr = ptr ∧ size ≤ chunkSize s.heap.mem ptr)
    (hroom : (∃ c ∈ cs, Fits size c)
      ∨ s.heap.heapMax + (size + chunkHeader) ≤ 2 ^ 64 - pageSize) :
  StaysInBlock fresh s ptr size
  := by
  have hroom' : (∃ c ∈ cs, Fits size c) ∨ s.heap.heapMax + (size + chunkHeader) < 2 ^ 64 := by
    apply hroom.imp id
    intro hle
    rw [pageSize] at hle
    omega
  have hafter : ∀ fuel new heap, kmalloc fresh fuel s.heap size = some (new, heap) →
      ∃ t, krealloc fresh fuel s.heap ptr size = some (new, t) ∧ Reallocated s ptr size new t := by
    intro fuel new heap hmalloc
    obtain ⟨cs', c, halloc⟩ := kmalloc_spec h.isHeap h.noFree hroom' hmalloc
    obtain rfl | ⟨b, hb, rfl, hsize⟩ := hptr
    · exact ⟨heap, h.krealloc_null hmalloc halloc⟩
    · exact h.krealloc_of_kmalloc hb hsize hmalloc halloc
  constructor
  · obtain ⟨-, n, new, heap, retries, -, hreturns, -⟩ : Terminates fresh s.heap size := by
      by_cases hfits : ∃ c ∈ cs, Fits size c
      · exact terminates_of_fits _ h.isHeap hfits
      · apply terminates_of_extend h.isHeap
        · intro e he hfits'
          exact hfits ⟨e, he, hfits'⟩
        · exact hroom.resolve_left hfits
    use n
    intro fuel hfuel
    obtain ⟨t, hrealloc, -⟩ := hafter fuel new heap (hreturns fuel hfuel).1
    rw [hrealloc]
    exact Option.some_ne_none (new, t)
  · intro fuel new t hrealloc
    cases hmalloc : kmalloc fresh fuel s.heap size with
    | none =>
        rw [krealloc, hmalloc] at hrealloc
        cases hrealloc
    | some result =>
        obtain ⟨new', heap⟩ := result
        obtain ⟨t', hrealloc', hgood⟩ := hafter fuel new' heap hmalloc
        obtain ⟨rfl, rfl⟩ := Prod.mk.inj (Option.some.inj (hrealloc'.symm.trans hrealloc))
        exact hgood

/-- `krealloc` reads beyond the chunk of the old block when the new block is larger. -/
theorem Inv.reads_beyond {s : State} {cs : List Chunk} {fresh : Memory} {size : Nat} {b : Block}
    (h : Inv s cs) (hb : b ∈ s.live) (hsize : chunkSize s.heap.mem b.ptr < size) :
  ¬ StaysInBlock fresh s b.ptr size
  := by
  rintro ⟨⟨n, hreturns⟩, hgood⟩
  obtain ⟨⟨new, t⟩, hrealloc⟩ := Option.ne_none_iff_exists'.mp (hreturns (n + 1) (Nat.lt_succ_self n))
  obtain ⟨d, -, -, hdata, hdsize, hstop⟩ := h.chunkSize_eq hb
  have hlt := h.isHeap.header_lt
  rw [Chunk.stop] at hstop
  rw [chunkHeader] at hlt
  have hlast : b.ptr + chunkSize s.heap.mem b.ptr ∈ kreallocReads b.ptr size := by
    rw [kreallocReads, if_pos (h.ptr_ne_zero hb)]
    apply memcpyReads_mono hsize
    rw [mem_memcpyReads (by omega)]
    omega
  have hin := (hgood (n + 1) new t hrealloc).reads _ hlast
  omega

/-- A block that `kmalloc` adds where the addresses wrap around starts at the old end of the
heap. -/
theorem kmalloc_beyond {fresh : Memory} {fuel size new : Nat} {s t : Globals} {cs : List Chunk}
    (h : IsHeap s cs) (hnone : ∀ e ∈ cs, ¬ Fits size e) (hsize : size < 2 ^ 64)
    (hfuel : cs.length + 2 < fuel) (hmalloc : kmalloc fresh fuel s size = some (new, t)) :
  new = s.heapMax + chunkHeader
  := by
  obtain ⟨k, rfl⟩ : ∃ k, fuel = k + 1 + 1 := ⟨fuel - 2, by omega⟩
  obtain ⟨hagain, -⟩ := kmalloc_of_extend fresh (k + 1) h hnone (by omega)
  rw [hagain] at hmalloc
  obtain ⟨s', hextend, hmalloc⟩ := Option.bind_eq_some_iff.mp hmalloc
  have hextends := extend_spec h hsize hextend
  have htiles : Tiles kernelHeapS (cs ++ [⟨s.heapMax, size, true⟩])
      (s.heapMax + chunkHeader + size) := tiles_append.mpr ⟨s.heapMax, h.tiles, rfl, rfl⟩
  obtain ⟨hfound, -⟩ := kmalloc_of_fits fresh k hextends.first
    hextends.linked htiles hnone ⟨rfl, Nat.le_refl size⟩ (by omega)
  rw [hfound] at hmalloc
  obtain ⟨rfl, -⟩ := Prod.mk.inj (Option.some.inj hmalloc)
  exact incptr_of_lt h.header_lt

/-- `krealloc` does not return, or not a block of the heap, when no chunk fits and the new end
of the heap lies above the last page. -/
theorem Inv.no_room {s : State} {cs : List Chunk} {fresh : Memory} {ptr size : Nat} (h : Inv s cs)
    (hnone : ∀ e ∈ cs, ¬ Fits size e) (hsize : size < 2 ^ 64)
    (hlast : 2 ^ 64 - pageSize < s.heap.heapMax + (size + chunkHeader)) :
  ¬ StaysInBlock fresh s ptr size
  := by
  rintro ⟨⟨n, hreturns⟩, hgood⟩
  obtain ⟨⟨new, t⟩, hrealloc⟩ := Option.ne_none_iff_exists'.mp
    (hreturns (n + cs.length + 3) (by omega))
  obtain ⟨cs', hinv⟩ := (hgood _ new t hrealloc).heap
  obtain ⟨c, hc, -, hdata, hle, hstop⟩ := hinv.chunk_of_block (b := ⟨new, size⟩) List.mem_cons_self
  have hlt := hinv.isHeap.heapMax_lt
  cases hmalloc : kmalloc fresh (n + cs.length + 3) s.heap size with
  | none =>
      rw [krealloc, hmalloc] at hrealloc
      cases hrealloc
  | some result =>
      obtain ⟨new', heap⟩ := result
      have hnew := kmalloc_beyond h.isHeap hnone hsize
        (show cs.length + 2 < n + cs.length + 3 by omega) hmalloc
      obtain rfl : new' = new := by
        rw [krealloc, hmalloc] at hrealloc
        dsimp only at hrealloc
        split_ifs at hrealloc
        · split at hrealloc
          · cases hrealloc
          · exact (Prod.mk.inj (Option.some.inj hrealloc)).1
        · exact (Prod.mk.inj (Option.some.inj hrealloc)).1
      by_cases hwraps : s.heap.heapMax + (size + chunkHeader) < 2 ^ 64
      · have hnever := kmalloc_wraps fresh (n + cs.length + 3) h.isHeap hnone
          hlast hwraps (by omega)
        rw [hnever] at hmalloc
        cases hmalloc
      · simp only at hle hstop hlt
        omega

/-- In every state of a run, for every live block or null and every size, `krealloc` does what
it is to do if and only if the size is not larger than the chunk of the old block and `kmalloc`
has room. -/
theorem krealloc_stays_iff {s : State} (h : Reached s) (fresh : Memory) {ptr size : Nat}
    (hptr : ptr = 0 ∨ ∃ b ∈ s.live, b.ptr = ptr) (hsize : size < 2 ^ 64) :
  StaysInBlock fresh s ptr size
    ↔ (ptr = 0 ∨ size ≤ chunkSize s.heap.mem ptr)
      ∧ ((∃ cs, WellFormed s.heap cs ∧ ∃ c ∈ cs, Fits size c)
        ∨ s.heap.heapMax + (size + chunkHeader) ≤ 2 ^ 64 - pageSize)
  := by
  obtain ⟨cs, hinv⟩ := h.inv
  constructor
  · intro hstays
    constructor
    · by_contra hgrows
      rw [not_or, not_le] at hgrows
      obtain rfl | ⟨b, hb, rfl⟩ := hptr
      · exact hgrows.1 rfl
      · exact hinv.reads_beyond hb hgrows.2 hstays
    · by_contra hroom
      rw [not_or, not_le] at hroom
      apply hinv.no_room _ hsize hroom.2 hstays
      intro e he hfits
      exact hroom.1 ⟨cs, hinv.wellFormed, e, he, hfits⟩
  · rintro ⟨hgrows, hroom⟩
    have hptr' : ptr = 0 ∨ ∃ b ∈ s.live, b.ptr = ptr ∧ size ≤ chunkSize s.heap.mem ptr := by
      obtain rfl | ⟨b, hb, rfl⟩ := hptr
      · exact Or.inl rfl
      · exact Or.inr ⟨b, hb, rfl, hgrows.resolve_left (hinv.ptr_ne_zero hb)⟩
    obtain ⟨cs', hcs', hfits⟩ | hlast := hroom
    · obtain rfl := hcs'.eq hinv.isHeap
      exact hinv.staysInBlock hptr' (Or.inl hfits)
    · exact hinv.staysInBlock hptr' (Or.inr hlast)

/-! ### `krealloc` in a run -/

/-- A `memcpy` to a live block is a run of writes. -/
theorem Reached.memcpy {b : Block} {n : Nat} :
  ∀ {s : State} {dest src : Nat}, Reached s → b ∈ s.live → b.ptr ≤ dest →
    dest + n ≤ b.ptr + b.size →
    Reached ⟨s.heap.withMem (Heap.memcpy s.heap.mem dest src n), s.live⟩
  := by
  induction n with
  | zero =>
      intro s dest src h _ _ _
      exact h
  | succ n ih =>
      intro s dest src h hb hlow hhigh
      obtain ⟨cs, hinv⟩ := h.inv
      obtain ⟨c, -, -, -, hle, hstop⟩ := hinv.chunk_of_block hb
      have hlt := hinv.isHeap.heapMax_lt
      have hwrite : Reached ⟨s.heap.withMem (s.heap.mem.write dest [s.heap.mem src]), s.live⟩ := by
        apply h.next
        exact ⟨.write dest (s.heap.mem src), ⟨b, hb, hlow, by omega⟩, rfl⟩
      rw [Heap.memcpy, incptr_of_lt (show dest + 1 < 2 ^ 64 by omega)]
      exact ih hwrite hb (Nat.le_succ_of_le hlow) (by omega)

/-- A call of `krealloc` that returns leads to a state of a run. -/
theorem Reached.krealloc {s : State} {fresh : Memory} {fuel ptr size new : Nat} {t : Globals}
    (h : Reached s) (hptr : ptr = 0 ∨ ∃ b ∈ s.live, b.ptr = ptr)
    (hsize : s.heap.heapMax + (size + chunkHeader) < 2 ^ 64)
    (hrealloc : Heap.krealloc fresh fuel s.heap ptr size = some (new, t)) :
  Reached ⟨t, ⟨new, size⟩ :: s.live.filter fun b => decide (b.ptr ≠ ptr)⟩
  := by
  obtain ⟨cs, hinv⟩ := h.inv
  rw [Heap.krealloc] at hrealloc
  cases hmalloc : kmalloc fresh fuel s.heap size with
  | none =>
      rw [hmalloc] at hrealloc
      cases hrealloc
  | some result =>
      obtain ⟨new', heap⟩ := result
      rw [hmalloc] at hrealloc
      dsimp only at hrealloc
      have hnext : Reached ⟨heap, ⟨new', size⟩ :: s.live⟩ := by
        apply h.next
        use .malloc fresh fuel size, hsize
        rw [step, hmalloc]
      split_ifs at hrealloc with hne
      · obtain ⟨b, hb, rfl⟩ := hptr.resolve_left hne
        have hcopied := @Reached.memcpy _ size _ new' b.ptr hnext List.mem_cons_self
          (Nat.le_refl new') (Nat.le_refl (new' + size))
        dsimp only at hcopied
        split at hrealloc
        · cases hrealloc
        next t' hfree =>
          obtain ⟨rfl, rfl⟩ := Prod.mk.inj (Option.some.inj hrealloc)
          obtain ⟨cs', hinv'⟩ := hnext.inv
          have hnew : new' ≠ b.ptr := by
            intro heq
            have hnodup := hinv'.tracks.nodup
            rw [List.map_cons, List.nodup_cons] at hnodup
            exact hnodup.1 (List.mem_map.mpr ⟨b, hb, heq.symm⟩)
          have hfilter : (⟨new', size⟩ :: s.live).filter (fun b' => decide (b'.ptr ≠ b.ptr))
              = ⟨new', size⟩ :: s.live.filter fun b' => decide (b'.ptr ≠ b.ptr) :=
            List.filter_cons_of_pos (by simpa using hnew)
          rw [← hfilter]
          apply hcopied.next
          use .free b.ptr, ⟨b, List.mem_cons_of_mem _ hb, rfl⟩
          rw [step, hfree]
      · obtain ⟨rfl, rfl⟩ := Prod.mk.inj (Option.some.inj hrealloc)
        have hfilter : (s.live.filter fun b => decide (b.ptr ≠ ptr)) = s.live := by
          apply List.filter_eq_self.mpr
          intro b hb
          rw [not_not.mp hne]
          simpa using hinv.ptr_ne_zero hb
        rw [hfilter]
        exact hnext

/-- The state after `kmalloc(size)` in the empty heap. -/
theorem reached_malloc {size : Nat} {s : State}
    (hstep : step ⟨empty fun _ => 0, []⟩ (.malloc (fun _ => 0) 3 size) = some s)
    (hsize : kernelHeapS + (size + chunkHeader) < 2 ^ 64) :
  Reached s
  := .next (.start ⟨fun _ => 0, rfl⟩) ⟨.malloc (fun _ => 0) 3 size, hsize, hstep⟩

/-- A block of 100 bytes that is made one of 50 bytes. -/
theorem krealloc_stays_iff_shrink :
  ∃ s, Reached s ∧ s.live = [⟨kernelHeapS + 32, 100⟩]
    ∧ StaysInBlock (fun _ => 0) s (kernelHeapS + 32) 50
  := by
  obtain ⟨s, hstep, hlive, hsize, hmax⟩ :
      ∃ s, step ⟨empty fun _ => 0, []⟩ (.malloc (fun _ => 0) 3 100) = some s
        ∧ s.live = [⟨kernelHeapS + 32, 100⟩]
        ∧ chunkSize s.heap.mem (kernelHeapS + 32) = 100
        ∧ s.heap.heapMax = kernelHeapS + 132 :=
    ⟨_, rfl, rfl, by decide +kernel, rfl⟩
  have hs := reached_malloc hstep (by decide)
  refine ⟨s, hs, hlive, ?_⟩
  have hptr : ∃ b ∈ s.live, b.ptr = kernelHeapS + 32 := by
    rw [hlive]
    exact ⟨_, List.mem_cons_self, rfl⟩
  apply (krealloc_stays_iff hs (fun _ => 0) (Or.inr hptr) (by decide)).mpr
  rw [hsize, hmax]
  exact ⟨Or.inr (by decide), Or.inr (by decide)⟩

/-- A block of 10 bytes that is made one of 20 bytes: `krealloc` reads beyond its chunk. -/
theorem krealloc_reads_beyond :
  ∃ s, Reached s ∧ s.live = [⟨kernelHeapS + 32, 10⟩]
    ∧ ¬ StaysInBlock (fun _ => 0) s (kernelHeapS + 32) 20
  := by
  obtain ⟨s, hstep, hlive, hsize⟩ :
      ∃ s, step ⟨empty fun _ => 0, []⟩ (.malloc (fun _ => 0) 3 10) = some s
        ∧ s.live = [⟨kernelHeapS + 32, 10⟩]
        ∧ chunkSize s.heap.mem (kernelHeapS + 32) = 10 :=
    ⟨_, rfl, rfl, by decide +kernel⟩
  have hs := reached_malloc hstep (by decide)
  obtain ⟨cs, hinv⟩ := hs.inv
  refine ⟨s, hs, hlive, ?_⟩
  apply hinv.reads_beyond (b := ⟨kernelHeapS + 32, 10⟩)
  · rw [hlive]
    exact List.mem_cons_self
  · rw [hsize]
    decide

end Heap
