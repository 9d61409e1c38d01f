import Mittos64.Lib.Run
import Mittos64.Mem.HeapSpec

/-!
# Runs of the heap

Any sequence of `kmalloc`, `kcalloc` and `kfree` from the empty heap, between which the
owners of the blocks write to them.  A call of `kfree` takes a block that was returned and
not yet freed, and no call asks for so much that the end of the heap wraps around.

In every state of a run the chunks tile the heap, no two free chunks are neighbours, and the
chunks in use are the blocks that were returned and not yet freed: so the blocks do not
overlap, no call writes to the block of another, and `kfree` does not panic.
-/

namespace Heap

/-- A block returned by `kmalloc(size)`. -/
structure Block where
  ptr : Nat
  size : Nat
  deriving DecidableEq, Repr

/-- The heap with the blocks that were returned and not yet freed. -/
structure State where
  heap : Globals
  live : List Block

/-- A call, with the bytes of the frames it maps and the fuel it runs on, or a write. -/
inductive Event where
  | malloc (fresh : Memory) (fuel size : Nat)
  | calloc (fresh : Memory) (fuel count size : Nat)
  | free (ptr : Nat)
  | write (a : Nat) (v : UInt8)

/-- The calls and writes that the callers of the heap make. -/
def Allowed (s : State) : Event → Prop
  | .malloc _ _ size => s.heap.heapMax + (size + chunkHeader) < 2 ^ 64
  | .calloc _ _ count size => s.heap.heapMax + (count * size % 2 ^ 64 + chunkHeader) < 2 ^ 64
  | .free ptr => ∃ b ∈ s.live, b.ptr = ptr
  | .write a _ => ∃ b ∈ s.live, b.ptr ≤ a ∧ a < b.ptr + b.size

/-- The state after a call that returns, or after a write. -/
def step (s : State) : Event → Option State
  | .malloc fresh fuel size =>
      match kmalloc fresh fuel s.heap size with
      | none => none
      | some (ptr, heap) => some ⟨heap, ⟨ptr, size⟩ :: s.live⟩
  | .calloc fresh fuel count size =>
      match kcalloc fresh fuel s.heap count size with
      | none => none
      | some (ptr, heap) => some ⟨heap, ⟨ptr, count * size % 2 ^ 64⟩ :: s.live⟩
  | .free ptr =>
      match kfree s.heap ptr with
      | none => none
      | some heap => some ⟨heap, s.live.filter fun b => decide (b.ptr ≠ ptr)⟩
  | .write a v => some ⟨s.heap.withMem (s.heap.mem.write a [v]), s.live⟩

/-- The state is that of a run from the empty heap. -/
def Reached (s : State) : Prop :=
  Reachable (fun s => ∃ mem, s = ⟨empty mem, []⟩) (fun s s' => ∃ e, Allowed s e ∧ step s e = some s') s

/-- The chunks in use are the live blocks. -/
structure Tracks (cs : List Chunk) (live : List Block) : Prop where
  chunk : ∀ b ∈ live, ∃ c ∈ cs, c.free = false ∧ c.data = b.ptr ∧ b.size ≤ c.size
  block : ∀ c ∈ cs, c.free = false → ∃ b ∈ live, b.ptr = c.data
  nodup : (live.map Block.ptr).Nodup

/-- The invariant of the runs. -/
structure Inv (s : State) (cs : List Chunk) : Prop where
  isHeap : IsHeap s.heap cs
  noFree : NoFreeNeighbours cs
  tracks : Tracks cs s.live

/-- A write to the bytes of a chunk keeps the heap. -/
theorem IsHeap.write {s : Globals} {cs : List Chunk} {c : Chunk} {mem : Memory} (h : IsHeap s cs)
    (hc : c ∈ cs) (hmem : ∀ x, x < c.data ∨ c.stop ≤ x → mem x = s.mem x) :
  IsHeap (s.withMem mem) cs
  := by
  apply h.withMem _ h.tiles rfl
  apply h.linked.congr
  intro d hd
  apply header_congr
  intro x hx hx'
  apply hmem
  have hapart := h.tiles.apart hc hd
  simp only [Chunk.stop, Chunk.data] at hapart ⊢
  obtain rfl | hlt | hlt := hapart
  · exact Or.inl hx'
  · omega
  · omega

/-- The bytes of a chunk lie outside all headers. -/
theorem IsHeap.not_header {s : Globals} {cs : List Chunk} {c : Chunk} {x : Nat} (h : IsHeap s cs)
    (hc : c ∈ cs) (hx : c.data ≤ x) (hx' : x < c.stop) :
  ∀ d ∈ cs, x < d.addr ∨ d.data ≤ x
  := by
  intro d hd
  have hapart := h.tiles.apart hc hd
  simp only [Chunk.stop, Chunk.data] at hapart hx hx' ⊢
  obtain rfl | hlt | hlt := hapart
  · exact Or.inr hx
  · omega
  · omega

/-- The new block of `kmalloc` is tracked. -/
theorem Tracks.malloc {s s' : Globals} {cs cs' : List Chunk} {live : List Block} {size ptr : Nat}
    {c : Chunk} (h : Tracks cs live) (halloc : Allocates s cs size ptr s' cs' c) :
  Tracks cs' (⟨ptr, size⟩ :: live)
  := by
  constructor
  · rw [List.forall_mem_cons]
    constructor
    · exact ⟨c, halloc.mem, halloc.used, halloc.ptr_eq.symm, halloc.size_le⟩
    · intro b hb
      obtain ⟨d, hd, hused, hdata, hsize⟩ := h.chunk b hb
      exact ⟨d, (halloc.used_iff d hused).mpr (Or.inl hd), hused, hdata, hsize⟩
  · intro d hd hused
    obtain hd | rfl := (halloc.used_iff d hused).mp hd
    · obtain ⟨b, hb, hptr⟩ := h.block d hd hused
      exact ⟨b, List.mem_cons_of_mem _ hb, hptr⟩
    · exact ⟨⟨ptr, size⟩, List.mem_cons_self, halloc.ptr_eq⟩
  · rw [List.map_cons, List.nodup_cons]
    refine ⟨?_, h.nodup⟩
    intro hmem
    obtain ⟨b, hb, hptr⟩ := List.mem_map.mp hmem
    obtain ⟨d, hd, hused, hdata, -⟩ := h.chunk b hb
    apply halloc.new d hd hused
    have hsame : d.data = c.data := by
      rw [hdata, hptr]
      exact halloc.ptr_eq
    simp only [Chunk.data] at hsame
    omega

/-- A block taken out by `kfree` is tracked no more. -/
theorem Tracks.free {l r cs' : List Chunk} {live : List Block} {c : Chunk} {lo hi : Nat}
    (h : Tracks (l ++ c :: r) live) (ht : Tiles lo (l ++ c :: r) hi)
    (hcs : ∀ d, d.free = false → (d ∈ cs' ↔ d ∈ l ∨ d ∈ r)) :
  Tracks cs' (live.filter fun b => decide (b.ptr ≠ c.data))
  := by
  have hother : ∀ d, d ∈ l ∨ d ∈ r → d.addr ≠ c.addr := by
    intro d hd
    have hpair := ht.pairwise
    rw [List.pairwise_append, List.pairwise_cons] at hpair
    obtain ⟨-, ⟨hr, -⟩, hl⟩ := hpair
    obtain hd | hd := hd
    · have hle := hl d hd c List.mem_cons_self
      simp only [Chunk.stop, Chunk.data, chunkHeader] at hle
      omega
    · have hle := hr d hd
      simp only [Chunk.stop, Chunk.data, chunkHeader] at hle
      omega
  constructor
  · intro b hb
    rw [List.mem_filter, decide_eq_true_eq] at hb
    obtain ⟨d, hd, hused, hdata, hsize⟩ := h.chunk b hb.1
    refine ⟨d, (hcs d hused).mpr ?_, hused, hdata, hsize⟩
    have hne : d ≠ c := by
      rintro rfl
      exact hb.2 hdata.symm
    simpa [hne] using hd
  · intro d hd hused
    have hmem := (hcs d hused).mp hd
    obtain ⟨b, hb, hptr⟩ := h.block d (by simp only [List.mem_append, List.mem_cons]; tauto) hused
    refine ⟨b, ?_, hptr⟩
    rw [List.mem_filter, decide_eq_true_eq]
    refine ⟨hb, ?_⟩
    have hne := hother d hmem
    rw [hptr, Chunk.data, Chunk.data]
    omega
  · exact h.nodup.sublist (List.filter_sublist.map Block.ptr)

/-! ### Steps -/

/-- The bytes of the blocks are the same in both memories. -/
def KeepsBlocks (live : List Block) (m m' : Memory) : Prop :=
  ∀ b ∈ live, ∀ x, b.ptr ≤ x → x < b.ptr + b.size → m' x = m x

/-- The bytes of a live block lie in those of a chunk in use. -/
theorem Inv.chunk_of_block {s : State} {cs : List Chunk} (h : Inv s cs) {b : Block}
    (hb : b ∈ s.live) :
  ∃ c ∈ cs, c.free = false ∧ c.data = b.ptr ∧ b.ptr + b.size ≤ c.stop ∧ c.stop ≤ s.heap.heapMax
  := by
  obtain ⟨c, hc, hused, hdata, hsize⟩ := h.tracks.chunk b hb
  refine ⟨c, hc, hused, hdata, ?_, (h.isHeap.tiles.mem_le c hc).2⟩
  rw [Chunk.stop, hdata]
  omega

/-- `kmalloc` keeps the invariant and the bytes of all live blocks. -/
theorem Inv.malloc {s : State} {cs cs' : List Chunk} {size ptr : Nat} {heap : Globals} {c : Chunk}
    (h : Inv s cs) (halloc : Allocates s.heap cs size ptr heap cs' c) :
  Inv ⟨heap, ⟨ptr, size⟩ :: s.live⟩ cs' ∧ KeepsBlocks s.live s.heap.mem heap.mem
  := by
  refine ⟨⟨halloc.isHeap, halloc.noFree, h.tracks.malloc halloc⟩, ?_⟩
  intro b hb x hx hx'
  obtain ⟨d, hd, hused, hdata, hle, hle'⟩ := h.chunk_of_block hb
  have hd' : d ∈ cs' := (halloc.used_iff d hused).mpr (Or.inl hd)
  apply halloc.frame x (by omega)
  exact halloc.isHeap.not_header hd' (by omega) (by omega)

/-- Writing to the new block keeps the invariant and the bytes of all other live blocks. -/
theorem Inv.writeNew {s : State} {cs cs' : List Chunk} {size ptr : Nat} {heap : Globals} {c : Chunk}
    {mem : Memory} (h : Inv s cs) (halloc : Allocates s.heap cs size ptr heap cs' c)
    (hmem : ∀ x, x < c.data ∨ c.stop ≤ x → mem x = heap.mem x) :
  Inv ⟨heap.withMem mem, ⟨ptr, size⟩ :: s.live⟩ cs' ∧ KeepsBlocks s.live s.heap.mem mem
  := by
  obtain ⟨⟨hheap, hfree, htracks⟩, hkeep⟩ := h.malloc halloc
  refine ⟨⟨hheap.write halloc.mem hmem, hfree, htracks⟩, ?_⟩
  intro b hb x hx hx'
  rw [hmem, hkeep b hb x hx hx']
  obtain ⟨d, hd, hused, hdata, hle, -⟩ := h.chunk_of_block hb
  have hd' : d ∈ cs' := (halloc.used_iff d hused).mpr (Or.inl hd)
  obtain rfl | hlt | hlt := hheap.tiles.apart hd' halloc.mem
  · exact absurd rfl (halloc.new d hd hused)
  · rw [Chunk.data]
    omega
  · rw [Chunk.data] at hdata
    omega

/-- `kcalloc` keeps the invariant and the bytes of all live blocks. -/
theorem Inv.calloc {s : State} {cs cs' : List Chunk} {size ptr : Nat} {heap : Globals} {c : Chunk}
    (h : Inv s cs) (halloc : Allocates s.heap cs size ptr heap cs' c) :
  Inv ⟨heap.withMem (heap.mem.fill ptr 0 size), ⟨ptr, size⟩ :: s.live⟩ cs'
    ∧ KeepsBlocks s.live s.heap.mem (heap.mem.fill ptr 0 size)
  := by
  apply h.writeNew halloc
  intro x hx
  have hsize := halloc.size_le
  have hptr := halloc.ptr_eq
  rw [Chunk.stop] at hx
  exact Memory.fill_of_notMem _ _ (by omega)

/-- `kfree` of a live block does not panic, and keeps the invariant and the bytes of the
other live blocks. -/
theorem Inv.free {s : State} {cs : List Chunk} (h : Inv s cs) {b : Block} (hb : b ∈ s.live) :
  ∃ heap cs', kfree s.heap b.ptr = some heap
    ∧ Inv ⟨heap, s.live.filter fun b' => decide (b'.ptr ≠ b.ptr)⟩ cs'
    ∧ KeepsBlocks s.live s.heap.mem heap.mem
  := by
  obtain ⟨c, hc, -, hdata, -⟩ := h.chunk_of_block hb
  obtain ⟨l, r, rfl⟩ := List.append_of_mem hc
  obtain ⟨heap, cs', hfree, hheap, hnoFree, -, hused, hsame⟩ := kfree_spec h.isHeap h.noFree
  rw [hdata] at hfree
  refine ⟨heap, cs', hfree, ⟨hheap, hnoFree, ?_⟩, ?_⟩
  · rw [← hdata]
    exact h.tracks.free h.isHeap.tiles hused
  · intro b' hb' x hx hx'
    obtain ⟨d, hd, -, hdata', hle, -⟩ := h.chunk_of_block hb'
    apply hsame
    exact h.isHeap.not_header hd (by omega) (by omega)

/-- A write to a live block keeps the invariant. -/
theorem Inv.write {s : State} {cs : List Chunk} (h : Inv s cs) {b : Block} (hb : b ∈ s.live)
    {a : Nat} (v : UInt8) (ha : b.ptr ≤ a) (ha' : a < b.ptr + b.size) :
  Inv ⟨s.heap.withMem (s.heap.mem.write a [v]), s.live⟩ cs
  := by
  obtain ⟨c, hc, -, hdata, hle, -⟩ := h.chunk_of_block hb
  refine ⟨h.isHeap.write hc ?_, h.noFree, h.tracks⟩
  intro x hx
  apply Memory.write_of_notMem
  rw [List.length_singleton]
  omega

/-- A step of a run keeps the invariant; a call keeps the bytes of the blocks that were live
before it. -/
theorem Inv.step {s s' : State} {cs : List Chunk} (h : Inv s cs) {e : Event}
    (hallowed : Allowed s e) (hstep : Heap.step s e = some s') :
  ∃ cs', Inv s' cs'
    ∧ ((∃ a v, e = .write a v) ∨ KeepsBlocks s.live s.heap.mem s'.heap.mem)
  := by
  cases e with
  | malloc fresh fuel size =>
      simp only [Heap.step] at hstep
      split at hstep
      · cases hstep
      next ptr heap hmalloc =>
        obtain rfl := Option.some.inj hstep
        obtain ⟨cs', c, halloc⟩ := kmalloc_spec h.isHeap h.noFree (Or.inr hallowed) hmalloc
        obtain ⟨hinv, hkeep⟩ := h.malloc halloc
        exact ⟨cs', hinv, Or.inr hkeep⟩
  | calloc fresh fuel count size =>
      simp only [Heap.step, kcalloc] at hstep
      cases hmalloc : kmalloc fresh fuel s.heap (count * size % 2 ^ 64) with
      | none =>
          rw [hmalloc] at hstep
          cases hstep
      | some result =>
          rw [hmalloc] at hstep
          obtain rfl := Option.some.inj hstep
          obtain ⟨cs', c, halloc⟩ := kmalloc_spec h.isHeap h.noFree (Or.inr hallowed) hmalloc
          obtain ⟨hinv, hkeep⟩ := h.calloc halloc
          exact ⟨cs', hinv, Or.inr hkeep⟩
  | free ptr =>
      obtain ⟨b, hb, rfl⟩ := hallowed
      obtain ⟨heap, cs', hfree, hinv, hkeep⟩ := h.free hb
      simp only [Heap.step, hfree] at hstep
      obtain rfl := Option.some.inj hstep
      exact ⟨cs', hinv, Or.inr hkeep⟩
  | write a v =>
      obtain ⟨b, hb, ha, ha'⟩ := hallowed
      obtain rfl := Option.some.inj hstep
      exact ⟨cs, h.write hb v ha ha', Or.inl ⟨a, v, rfl⟩⟩

/-- The invariant holds in every state of a run. -/
theorem Reached.inv {s : State} (h : Reached s) :
  ∃ cs, Inv s cs
  := by
  induction h with
  | start h =>
      obtain ⟨mem, rfl⟩ := h
      refine ⟨[], empty_isHeap mem, List.isChain_nil, ?_, ?_, List.nodup_nil⟩
      · intro b hb
        cases hb
      · intro c hc
        cases hc
  | next _ hstep ih =>
      obtain ⟨cs, hinv⟩ := ih
      obtain ⟨e, hallowed, hstep⟩ := hstep
      obtain ⟨cs', hinv', -⟩ := hinv.step hallowed hstep
      exact ⟨cs', hinv'⟩

/-! ### What holds in every state of a run -/

/-- The chunks `cs` are the list that starts at `heap`, in the order of their addresses; they
fill the heap, and no two free ones are neighbours. -/
def WellFormed (s : Globals) (cs : List Chunk) : Prop :=
  s.heap = firstAddr cs 0 ∧ Linked s.mem 0 cs 0 ∧ cs.Pairwise (fun c c' => c.addr < c'.addr)
    ∧ Tiles kernelHeapS cs s.heapMax ∧ NoFreeNeighbours cs

theorem IsHeap.wellFormed {s : Globals} {cs : List Chunk} (h : IsHeap s cs)
    (hfree : NoFreeNeighbours cs) :
  WellFormed s cs
  := by
  refine ⟨h.first, h.linked, ?_, h.tiles, hfree⟩
  apply h.tiles.pairwise.imp
  intro c c' hle
  simp only [Chunk.stop, Chunk.data, chunkHeader] at hle
  omega

theorem Inv.wellFormed {s : State} {cs : List Chunk} (h : Inv s cs) :
  WellFormed s.heap cs
  := h.isHeap.wellFormed h.noFree

/-- Free chunks without free neighbours are one chunk at most. -/
theorem NoFreeNeighbours.all_free {cs : List Chunk} (h : NoFreeNeighbours cs)
    (hfree : ∀ c ∈ cs, c.free = true) :
  cs = [] ∨ ∃ c, cs = [c] ∧ c.free = true
  := by
  match cs, h, hfree with
  | [], _, _ => exact Or.inl rfl
  | [c], _, hfree => exact Or.inr ⟨c, rfl, hfree c (by simp)⟩
  | c :: d :: cs, h, hfree =>
      exact absurd ⟨hfree c (by simp), hfree d (by simp)⟩ (List.isChain_cons_cons.mp h).1

/-- When every block is freed, the heap is empty or one free chunk. -/
theorem Inv.one_chunk {s : State} {cs : List Chunk} (h : Inv s cs) (hlive : s.live = []) :
  (cs = [] ∧ s.heap.heapMax = kernelHeapS)
    ∨ ∃ c, cs = [c] ∧ c.free = true ∧ c.addr = kernelHeapS ∧ c.stop = s.heap.heapMax
  := by
  have hfree : ∀ c ∈ cs, c.free = true := by
    intro c hc
    by_contra hused
    obtain ⟨b, hb, -⟩ := h.tracks.block c hc (by simpa using hused)
    rw [hlive] at hb
    cases hb
  have ht := h.isHeap.tiles
  obtain rfl | ⟨c, rfl, hc⟩ := h.noFree.all_free hfree
  · exact Or.inl ⟨rfl, ht.symm⟩
  · exact Or.inr ⟨c, rfl, hc, ht.1, ht.2⟩

/-- In every state of a run the heap is a list of chunks that fill it, without two free
neighbours; when every block is freed it is one free chunk. -/
theorem chunks_of_run {s : State} (h : Reached s) :
  ∃ cs, WellFormed s.heap cs
    ∧ (s.live = [] → (cs = [] ∧ s.heap.heapMax = kernelHeapS)
      ∨ ∃ c, cs = [c] ∧ c.free = true ∧ c.addr = kernelHeapS ∧ c.stop = s.heap.heapMax)
  := by
  obtain ⟨cs, hinv⟩ := h.inv
  exact ⟨cs, hinv.wellFormed, hinv.one_chunk⟩

/-- Two calls of `kmalloc`, and `kfree` of the first block. -/
theorem reached_three_calls :
  ∃ s, Reached s ∧ s.live = [⟨kernelHeapS + 164, 40⟩]
  := by
  obtain ⟨s₁, s₂, s₃, h₁, hmax, h₂, hlive, h₃, hlive'⟩ :
      ∃ s₁ s₂ s₃, step ⟨empty fun _ => 0, []⟩ (.malloc (fun _ => 0) 3 100) = some s₁
        ∧ s₁.heap.heapMax = kernelHeapS + 132 ∧ step s₁ (.malloc (fun _ => 0) 4 40) = some s₂
        ∧ s₂.live = [⟨kernelHeapS + 164, 40⟩, ⟨kernelHeapS + 32, 100⟩]
        ∧ step s₂ (.free (kernelHeapS + 32)) = some s₃ ∧ s₃.live = [⟨kernelHeapS + 164, 40⟩] :=
    ⟨_, _, _, rfl, rfl, rfl, rfl, rfl, rfl⟩
  refine ⟨s₃, .next (.next (.next (.start ⟨_, rfl⟩) ⟨_, ?_, h₁⟩) ⟨_, ?_, h₂⟩) ⟨_, ?_, h₃⟩, hlive'⟩
  · show kernelHeapS + (100 + chunkHeader) < 2 ^ 64
    decide
  · show s₁.heap.heapMax + (40 + chunkHeader) < 2 ^ 64
    rw [hmax]
    decide
  · exact ⟨⟨kernelHeapS + 32, 100⟩, by rw [hlive]; simp, rfl⟩

/-- The chunks after two calls of `kmalloc` and one of `kfree`. -/
theorem chunks_of_run_three_calls :
  ∃ s, Reached s ∧ s.live = [⟨kernelHeapS + 164, 40⟩] ∧ ∃ cs, WellFormed s.heap cs
  := by
  obtain ⟨s, hs, hlive⟩ := reached_three_calls
  obtain ⟨cs, hcs, -⟩ := chunks_of_run hs
  exact ⟨s, hs, hlive, cs, hcs⟩

/-- In every state of a run the live blocks lie in the heap, apart from each other and from
the headers of the chunks; `kfree` of one of them does not panic, and no call of `kmalloc`,
`kcalloc` or `kfree` changes a byte of a block that stays live. -/
theorem blocks_of_run {s : State} (h : Reached s) :
  (∀ b ∈ s.live, kernelHeapS ≤ b.ptr ∧ b.ptr + b.size ≤ s.heap.heapMax)
    ∧ s.live.Pairwise (fun b b' => b.ptr + b.size ≤ b'.ptr ∨ b'.ptr + b'.size ≤ b.ptr)
    ∧ (∃ cs, WellFormed s.heap cs
        ∧ ∀ b ∈ s.live, ∀ c ∈ cs, b.ptr + b.size ≤ c.addr ∨ c.data ≤ b.ptr)
    ∧ (∀ b ∈ s.live, kfree s.heap b.ptr ≠ none)
    ∧ (∀ e s', Allowed s e → step s e = some s' → (∀ a v, e ≠ .write a v) →
        KeepsBlocks s.live s.heap.mem s'.heap.mem)
  := by
  obtain ⟨cs, hinv⟩ := h.inv
  have hapart : ∀ b ∈ s.live, ∀ c ∈ cs, b.ptr + b.size ≤ c.addr ∨ c.data ≤ b.ptr := by
    intro b hb c hc
    obtain ⟨d, hd, -, hdata, hle, -⟩ := hinv.chunk_of_block hb
    obtain rfl | hlt | hlt := hinv.isHeap.tiles.apart hd hc
    · exact Or.inr (Nat.le_of_eq hdata)
    · exact Or.inl (Nat.le_trans hle hlt)
    · simp only [Chunk.stop, Chunk.data] at hlt hdata ⊢
      omega
  refine ⟨?_, ?_, ⟨cs, hinv.wellFormed, hapart⟩, ?_, ?_⟩
  · intro b hb
    obtain ⟨c, hc, -, hdata, hle, hle'⟩ := hinv.chunk_of_block hb
    have hlow := (hinv.isHeap.tiles.mem_le c hc).1
    rw [Chunk.data] at hdata
    omega
  · have hnodup := hinv.tracks.nodup
    rw [List.Nodup, List.pairwise_map] at hnodup
    apply List.Pairwise.imp_of_mem _ hnodup
    intro b b' hb hb' hne
    obtain ⟨c, hc, -, hdata, hle, -⟩ := hinv.chunk_of_block hb
    obtain ⟨c', hc', -, hdata', hle', -⟩ := hinv.chunk_of_block hb'
    obtain rfl | hlt | hlt := hinv.isHeap.tiles.apart hc hc'
    · exact absurd (hdata.symm.trans hdata') hne
    · rw [Chunk.data] at hdata'
      omega
    · rw [Chunk.data] at hdata
      omega
  · intro b hb
    obtain ⟨heap, cs', hfree, -, -⟩ := hinv.free hb
    rw [hfree]
    exact Option.some_ne_none heap
  · intro e s' hallowed hstep hwrite
    obtain ⟨cs', -, ⟨a, v, rfl⟩ | hkeep⟩ := hinv.step hallowed hstep
    · exact absurd rfl (hwrite a v)
    · exact hkeep

/-- The block left after two calls of `kmalloc` and one of `kfree`. -/
theorem blocks_of_run_three_calls :
  ∃ s, Reached s ∧ s.live = [⟨kernelHeapS + 164, 40⟩]
    ∧ kernelHeapS + 164 + 40 ≤ s.heap.heapMax ∧ kfree s.heap (kernelHeapS + 164) ≠ none
  := by
  obtain ⟨s, hs, hlive⟩ := reached_three_calls
  obtain ⟨hbound, -, -, hfree, -⟩ := blocks_of_run hs
  have hmem : ⟨kernelHeapS + 164, 40⟩ ∈ s.live := by
    rw [hlive]
    exact List.mem_cons_self
  exact ⟨s, hs, hlive, (hbound _ hmem).2, hfree _ hmem⟩

end Heap
