import Mittos64.Mem.HeapReturns

/-!
# `kfree` undoes `kmalloc`

When `kmalloc` takes a chunk of the list, `kfree` of what it returns gives the same list of
chunks again: no neighbour of the chunk that was taken is free, so that `merge_chunk` joins
what `split_chunk` has cut off, and nothing else.
-/

namespace Heap

/-- The chunk before the end of `l` and the first one of `r` are in use. -/
structure UsedAround (l r : List Chunk) : Prop where
  prev : ∀ d ∈ l.getLast?, d.free = false
  next : ∀ d ∈ r.head?, d.free = false

/-- The neighbours of a free chunk are in use. -/
theorem NoFreeNeighbours.usedAround {l r : List Chunk} {c : Chunk}
    (h : NoFreeNeighbours (l ++ c :: r)) (hfree : c.free = true) :
  UsedAround l r
  := by
  obtain ⟨-, hr, hl⟩ := List.isChain_append.mp h
  constructor
  · intro d hd
    have hboth := hl d hd c (by simp)
    simpa [hfree] using hboth
  · intro d hd
    cases r with
    | nil => cases hd
    | cons e r =>
        obtain rfl : e = d := by simpa using hd
        have hboth := (List.isChain_cons_cons.mp hr).1
        simpa [hfree] using hboth

/-- The first branch of `merge_chunk` leaves a chunk alone that has no free chunk behind it. -/
theorem mergeNext_of_used {m : Memory} {p : Nat} {l r : List Chunk} {c : Chunk}
    (h : Linked m p (l ++ c :: r) 0) (hr : ∀ d ∈ r.head?, d.free = false) :
  mergeNext m c.addr = m
  := by
  obtain ⟨-, hc, hlr⟩ := linked_append.mp h
  simp only [mergeNext, hc]
  cases r with
  | nil => exact if_neg (by simp [firstAddr])
  | cons d r =>
      apply if_neg
      rw [show firstAddr (d :: r) 0 = d.addr from rfl, isFree_of_header hlr.1, hr d (by simp)]
      simp

/-- The second branch of `merge_chunk` leaves a chunk alone that has no free chunk before it. -/
theorem mergePrev_of_used {m : Memory} {l r : List Chunk} {c : Chunk}
    (h : Linked m 0 (l ++ c :: r) 0) (hl : ∀ d ∈ l.getLast?, d.free = false) :
  mergePrev m c.addr = m
  := by
  obtain ⟨hll, hc, -⟩ := linked_append.mp h
  simp only [mergePrev, hc]
  obtain rfl | ⟨l, e, rfl⟩ := l.eq_nil_or_concat
  · exact if_neg (by simp [lastAddr])
  · rw [List.concat_eq_append] at hll hl ⊢
    obtain ⟨-, he, -⟩ := linked_append.mp hll
    apply if_neg
    rw [show lastAddr 0 (l ++ [e]) = e.addr by rw [lastAddr_append]; rfl, isFree_of_header he,
      hl e (by simp)]
    simp

/-- The first branch of `merge_chunk` joins a chunk with the free chunk behind it. -/
theorem mergeNext_of_free {m : Memory} {p lo hi : Nat} {l r : List Chunk} {c d : Chunk}
    (h : Linked m p (l ++ c :: d :: r) 0) (ht : Tiles lo (l ++ c :: d :: r) hi) (hlo : 0 < lo)
    (hd : d.free = true) :
  mergeNext m c.addr = absorb m c.addr d.addr
  := by
  obtain ⟨-, hc, hlr⟩ := linked_append.mp h
  have hle := ht.mem_le d (by simp)
  simp only [mergeNext, hc]
  apply if_pos
  rw [show firstAddr (d :: r) 0 = d.addr from rfl, isFree_of_header hlr.1]
  exact ⟨by omega, hd⟩

/-- `merge_chunk` joins the two parts of a chunk that was split, and no other. -/
theorem mergeChunk_split {m : Memory} {lo hi : Nat} {l r : List Chunk} {c d : Chunk}
    (h : Linked m 0 (l ++ c :: d :: r) 0) (ht : Tiles lo (l ++ c :: d :: r) hi) (hlo : 0 < lo)
    (hhi : hi < 2 ^ 64) (hd : d.free = true) (hused : UsedAround l r) :
  Linked (mergeChunk m c.addr) 0 (l ++ c.join d :: r) 0
  := by
  obtain ⟨hlinked, -⟩ := absorb_spec h ht hlo hhi
  have hprev : mergePrev (absorb m c.addr d.addr) (c.join d).addr = _ :=
    mergePrev_of_used hlinked hused.prev
  rw [mergeChunk, mergeNext_of_free h ht hlo hd]
  rw [show c.addr = (c.join d).addr from rfl] at *
  rw [hprev]
  exact hlinked

/-- `merge_chunk` leaves a chunk alone that has no free neighbour. -/
theorem mergeChunk_of_used {m : Memory} {l r : List Chunk} {c : Chunk}
    (h : Linked m 0 (l ++ c :: r) 0) (hused : UsedAround l r) :
  mergeChunk m c.addr = m
  := by
  rw [mergeChunk, mergeNext_of_used h hused.next, mergePrev_of_used h hused.prev]

/-- The parts of a chunk that was split make up the chunk. -/
theorem Chunk.join_cut_rest {c : Chunk} {size : Nat} (hfree : c.free = true)
    (hsize : size + chunkHeader < c.size) :
  Chunk.join { c.cut size with free := true } (c.rest size) = c
  := by
  obtain ⟨addr, csize, free⟩ := c
  obtain rfl : free = true := hfree
  simp only [Chunk.join, Chunk.cut, Chunk.rest, Chunk.mk.injEq, and_true, true_and]
  simp only at hsize
  omega

/-- `kfree` of the chunk that `kmalloc` has made of `c` gives the chunks that there were
before. -/
theorem kfree_allocated {s : Globals} {size : Nat} {l r : List Chunk} {c : Chunk}
    (h : IsHeap s (l ++ (allocated c size ++ r))) (hfree : c.free = true)
    (hused : UsedAround l r) :
  ∃ s', kfree s c.data = some s' ∧ IsHeap s' (l ++ c :: r) ∧ s'.heapMax = s.heapMax
  := by
  have hwhole : { c.used with free := true } = c := by
    rw [← hfree]
    rfl
  rw [allocated] at h
  split_ifs at h with hsize
  · have hmem : c.used ∈ l ++ ([c.used] ++ r) := by simp
    obtain ⟨hlinked, htiles⟩ := h.linked.markFree h.tiles
    rw [hwhole] at hlinked htiles
    have heq := mergeChunk_of_used hlinked hused
    have hkfree := h.kfree_eq hmem
    rw [show c.used.data = c.data from rfl, show c.used.addr = c.addr from rfl] at *
    rw [heq] at hkfree
    refine ⟨_, hkfree, ?_, Globals.withMem_heapMax _ _⟩
    apply h.withMem hlinked htiles
    rw [firstAddr_append, firstAddr_append]
    rfl
  · have hmem : c.cut size ∈ l ++ ([c.cut size, c.rest size] ++ r) := by simp
    obtain ⟨hlinked, htiles⟩ := h.linked.markFree h.tiles
    have hjoin : Chunk.join { c.cut size with free := true } (c.rest size) = c :=
      Chunk.join_cut_rest hfree (by omega)
    have hmerge := mergeChunk_split hlinked htiles kernelHeapS_pos h.heapMax_lt rfl hused
    have htiles' := htiles.join
    rw [hjoin] at hmerge htiles'
    have hkfree := h.kfree_eq hmem
    rw [show (c.cut size).data = c.data from rfl] at hkfree
    refine ⟨_, hkfree, ?_, Globals.withMem_heapMax _ _⟩
    apply h.withMem hmerge htiles'
    rw [firstAddr_append, firstAddr_append]
    rfl

/-- In every state of a run in which a chunk of at least `size` bytes is free, `kmalloc(size)`
returns, and `kfree` of what it returns gives the same chunks and the same end of the heap. -/
theorem kfree_undoes_kmalloc {s : State} (h : Reached s) {cs : List Chunk}
    (hcs : WellFormed s.heap cs) {size : Nat} (hfits : ∃ c ∈ cs, Fits size c)
    (fresh : Memory) :
  (∃ n, ∀ fuel, n < fuel → kmalloc fresh fuel s.heap size ≠ none)
    ∧ ∀ fuel ptr s₁, kmalloc fresh fuel s.heap size = some (ptr, s₁) →
      ∃ s₂, kfree s₁ ptr = some s₂ ∧ WellFormed s₂ cs ∧ s₂.heapMax = s.heap.heapMax
  := by
  obtain ⟨cs', hinv⟩ := h.inv
  obtain rfl := hcs.eq hinv.isHeap
  have hheap := hinv.isHeap
  have hfree := hinv.noFree
  have hpos := kernelHeapS_pos
  have hlt := hheap.heapMax_lt
  constructor
  · obtain ⟨-, n, ptr, s', retries, -, hreturns, -⟩ := terminates_of_fits fresh hheap hfits
    use n
    intro fuel hfuel
    rw [(hreturns fuel hfuel).1]
    exact Option.some_ne_none (ptr, s')
  · intro fuel ptr s₁ hmalloc
    obtain ⟨e, he, hefits⟩ := hfits
    cases fuel with
    | zero => cases hmalloc
    | succ fuel =>
        cases hsearch : search s.heap.mem size fuel s.heap.heap 0 with
        | none =>
            simp only [kmalloc, hsearch] at hmalloc
            cases hmalloc
        | some found =>
            obtain ⟨a, q⟩ := found
            have hfound := hsearch
            rw [hheap.first] at hfound
            obtain ⟨l, c, r, rfl, rfl, hc, -⟩ | ⟨-, -, hnone⟩ :=
              search_spec hheap.linked hheap.tiles hpos hfound
            · have hle := hheap.tiles.mem_le c (by simp)
              simp only [Chunk.stop, Chunk.data] at hle
              have hsize := hc.2
              obtain ⟨rfl, rfl⟩ := kmalloc_found (by omega) hsearch hmalloc
              have halloc := @allocate_isHeap _ size _ _ _ hheap (by omega)
              obtain ⟨s₂, hkfree, hheap₂, hmax⟩ :=
                kfree_allocated halloc hc.1 (hfree.usedAround hc.1)
              rw [Globals.withMem_heapMax] at hmax
              rw [incptr_of_lt (by omega)]
              exact ⟨s₂, hkfree, hheap₂.wellFormed hfree, hmax⟩
            · exact absurd hefits (hnone e he)

/-- A call of `kmalloc(100)`, and `kfree` of its block. -/
theorem reached_two_calls :
  ∃ s, Reached s ∧ s.live = [] ∧ s.heap.heapMax = kernelHeapS + 132
  := by
  obtain ⟨s₁, s₂, h₁, hlive, h₂, hlive', hmax⟩ :
      ∃ s₁ s₂, step ⟨empty fun _ => 0, []⟩ (.malloc (fun _ => 0) 3 100) = some s₁
        ∧ s₁.live = [⟨kernelHeapS + 32, 100⟩]
        ∧ step s₁ (.free (kernelHeapS + 32)) = some s₂ ∧ s₂.live = []
        ∧ s₂.heap.heapMax = kernelHeapS + 132 :=
    ⟨_, _, rfl, rfl, rfl, rfl, rfl⟩
  refine ⟨s₂, .next (.next (.start ⟨_, rfl⟩) ⟨_, ?_, h₁⟩) ⟨_, ?_, h₂⟩, hlive', hmax⟩
  · show kernelHeapS + (100 + chunkHeader) < 2 ^ 64
    decide
  · exact ⟨⟨kernelHeapS + 32, 100⟩, by rw [hlive]; simp, rfl⟩

/-- `kmalloc(10)` after a block of 100 bytes was freed. -/
theorem kfree_undoes_kmalloc_two_calls :
  ∃ s cs, Reached s ∧ WellFormed s.heap cs
    ∧ (∃ n, ∀ fuel, n < fuel → kmalloc (fun _ => 0) fuel s.heap 10 ≠ none)
    ∧ ∀ fuel ptr s₁, kmalloc (fun _ => 0) fuel s.heap 10 = some (ptr, s₁) →
      ∃ s₂, kfree s₁ ptr = some s₂ ∧ WellFormed s₂ cs ∧ s₂.heapMax = kernelHeapS + 132
  := by
  obtain ⟨s, hs, hlive, hmax⟩ := reached_two_calls
  obtain ⟨cs, hinv⟩ := hs.inv
  obtain ⟨rfl, hempty⟩ | ⟨c, rfl, hc, haddr, hstop⟩ := hinv.one_chunk hlive
  · rw [hmax] at hempty
    cases hempty
  · have hfits : Fits 10 c := by
      rw [Chunk.stop, Chunk.data, haddr, hmax, chunkHeader] at hstop
      exact ⟨hc, by omega⟩
    obtain ⟨hreturns, hundo⟩ :=
      kfree_undoes_kmalloc hs hinv.wellFormed ⟨c, by simp, hfits⟩ fun _ => 0
    rw [hmax] at hundo
    exact ⟨s, [c], hs, hinv.wellFormed, hreturns, hundo⟩

end Heap
