import Mittos64.Mem.HeapList

/-!
# The functions of the heap on its chunks

`IsHeap s cs` says that the heap is the list of chunks `cs`.  `kfree` marks a chunk as free
and joins it with its neighbours; `kmalloc` takes the first free chunk that is large enough
and, when there is none, adds one of the right size behind the last.  Both write the headers
of chunks only.
-/

namespace Heap

/-- The heap is the list of chunks `cs`, and its pages are mapped. -/
structure IsHeap (s : Globals) (cs : List Chunk) : Prop where
  first : s.heap = firstAddr cs 0
  linked : Linked s.mem 0 cs 0
  tiles : Tiles kernelHeapS cs s.heapMax
  heapMax_le : s.heapMax ≤ s.brk
  brk_lt : s.brk < 2 ^ 64
  brk_aligned : s.brk % pageSize = 0

theorem kernelHeapS_pos :
  0 < kernelHeapS
  := by
  decide

theorem IsHeap.heapMax_lt {s : Globals} {cs : List Chunk} (h : IsHeap s cs) :
  s.heapMax < 2 ^ 64
  := Nat.lt_of_le_of_lt h.heapMax_le h.brk_lt

/-- The heap after its headers are written. -/
theorem IsHeap.withMem {s : Globals} {cs cs' : List Chunk} {mem : Memory} (h : IsHeap s cs)
    (hlinked : Linked mem 0 cs' 0) (ht : Tiles kernelHeapS cs' s.heapMax)
    (hfirst : firstAddr cs' 0 = firstAddr cs 0) :
  IsHeap (s.withMem mem) cs'
  := by
  constructor
  · exact h.first.trans hfirst.symm
  · exact hlinked
  · exact ht
  · exact h.heapMax_le
  · exact h.brk_lt
  · exact h.brk_aligned

/-- The empty heap has no chunks. -/
theorem empty_isHeap (mem : Memory) :
  IsHeap (empty mem) []
  := by
  constructor
  · rfl
  · exact trivial
  · rfl
  · exact Nat.le_refl _
  · show kernelHeapS < 2 ^ 64
    decide
  · show kernelHeapS % pageSize = 0
    decide

/-- The chunk `c` is what `kmalloc(size)` looks for. -/
def Fits (size : Nat) (c : Chunk) : Prop :=
  c.free = true ∧ size ≤ c.size

/-! ### `kfree` -/

/-- The chunks after `kfree` has marked the chunk `c` as free. -/
theorem Linked.markFree {m : Memory} {lo hi : Nat} {l r : List Chunk} {c : Chunk}
    (h : Linked m 0 (l ++ c :: r) 0) (ht : Tiles lo (l ++ c :: r) hi) :
  Linked (setFlags m c.addr chunkFree) 0 (l ++ { c with free := true } :: r) 0
    ∧ Tiles lo (l ++ { c with free := true } :: r) hi
  := by
  obtain ⟨hl, hc, hr⟩ := linked_append.mp h
  obtain ⟨mid, htl, rfl, htr⟩ := tiles_append.mp ht
  have hsame := setFlags_sameBut m c.addr chunkFree
  constructor
  · apply linked_append.mpr
    refine ⟨?_, ?_, ?_⟩
    · apply hl.frame htl
      intro x hx hx'
      exact hsame x (Or.inl hx')
    · show header (setFlags m c.addr chunkFree) c.addr = _
      rw [header_setFlags, hc]
      rfl
    · apply hr.frame htr
      intro x hx hx'
      simp only [Chunk.stop, Chunk.data] at hx
      exact hsame x (by omega)
  · exact tiles_append.mpr ⟨c.addr, htl, rfl, htr⟩

/-- `kfree` of the bytes of a chunk does not panic. -/
theorem IsHeap.kfree_eq {s : Globals} {cs : List Chunk} {c : Chunk} (h : IsHeap s cs)
    (hc : c ∈ cs) :
  kfree s c.data = some (s.withMem (mergeChunk (setFlags s.mem c.addr chunkFree) c.addr))
  := by
  have hle := h.tiles.mem_le c hc
  simp only [Chunk.stop, Chunk.data] at hle
  rw [kfree, if_neg (by rw [Chunk.data]; omega), Chunk.data, Nat.add_sub_cancel]

/-- `kfree` of the bytes of a chunk in use does not panic, and takes this chunk out of the
chunks in use. -/
theorem kfree_spec {s : Globals} {l r : List Chunk} {c : Chunk} (h : IsHeap s (l ++ c :: r))
    (hfree : NoFreeNeighbours (l ++ c :: r)) :
  ∃ s' cs', kfree s c.data = some s' ∧ IsHeap s' cs' ∧ NoFreeNeighbours cs'
    ∧ s'.heapMax = s.heapMax
    ∧ (∀ d, d.free = false → (d ∈ cs' ↔ d ∈ l ∨ d ∈ r))
    ∧ SameButHeaders (l ++ c :: r) s.mem s'.mem
  := by
  have hmem : c ∈ l ++ c :: r := by simp
  have hle := h.tiles.mem_le c hmem
  simp only [Chunk.stop, Chunk.data] at hle
  obtain ⟨hlinked, htiles⟩ := h.linked.markFree h.tiles
  obtain ⟨hfl, hfr, -⟩ := List.isChain_append.mp hfree
  obtain ⟨cs', hlinked', ht', hfree', hused, hheaders⟩ := mergeChunk_spec hlinked htiles
    kernelHeapS_pos h.heapMax_lt rfl hfl hfr.tail
  have hne : kernelHeapS < s.heapMax := by
    rw [chunkHeader] at hle
    omega
  refine ⟨s.withMem (mergeChunk (setFlags s.mem c.addr chunkFree) c.addr), cs', h.kfree_eq hmem,
    ?_, hfree', Globals.withMem_heapMax _ _, hused, ?_⟩
  · apply h.withMem hlinked' ht'
    rw [ht'.firstAddr_eq hne, h.tiles.firstAddr_eq hne]
  · rw [Globals.withMem_mem]
    refine ((setFlags_sameBut s.mem c.addr chunkFree).sameButHeaders hmem).trans
      (hheaders.mono ?_)
    intro d hd
    simp only [List.mem_append, List.mem_cons] at hd
    obtain hd | rfl | hd := hd
    · exact ⟨d, by simp [hd], rfl⟩
    · exact ⟨c, by simp, rfl⟩
    · exact ⟨d, by simp [hd], rfl⟩

/-! ### Making the heap larger -/

/-- The pages that `ksbrk` maps reach up to `top` and start at `brk`. -/
theorem mapPages_spec {fresh : Memory} {top : Nat} :
  ∀ {fuel : Nat} {mem mem' : Memory} {brk brk' : Nat}, brk < 2 ^ 64 → brk % pageSize = 0 →
    mapPages fresh top fuel mem brk = some (mem', brk') →
    top ≤ brk' ∧ brk' < 2 ^ 64 ∧ brk' % pageSize = 0 ∧ ∀ x, x < brk → mem' x = mem x
  | 0, _, _, _, _, _, _, h => nomatch h
  | fuel + 1, mem, mem', brk, brk', hlt, halign, h => by
      rw [mapPages] at h
      split_ifs at h with htop
      · -- when `brk` wraps around, no page address reaches `top`: the loop does not end
        simp only [pageSize] at halign
        have halign' : incptr brk pageSize % pageSize = 0 := by
          simp only [incptr, pageSize]
          omega
        have hlt' : incptr brk pageSize < 2 ^ 64 := Nat.mod_lt _ (by decide)
        obtain ⟨htop', hlt'', halign'', hsame⟩ := mapPages_spec hlt' halign' h
        refine ⟨htop', hlt'', halign'', ?_⟩
        intro x hx
        simp only [incptr, pageSize] at hsame halign''
        rw [hsame x (by omega), mapPage, if_neg (by omega)]
      · obtain ⟨rfl, rfl⟩ := h
        exact ⟨Nat.le_of_not_lt htop, hlt, halign, fun _ _ => rfl⟩

/-- `ksbrk` moves the end of the heap and keeps the memory below it. -/
theorem ksbrk_spec {fresh : Memory} {fuel last size : Nat} {s s' : Globals}
    (hle : s.heapMax ≤ s.brk) (hlt : s.brk < 2 ^ 64) (halign : s.brk % pageSize = 0)
    (hsbrk : ksbrk fresh fuel s size = some (last, s')) :
  last = incptr s.heapMax size ∧ s'.heapMax = incptr s.heapMax size ∧ s'.heap = s.heap
    ∧ s'.heapMax ≤ s'.brk ∧ s'.brk < 2 ^ 64 ∧ s'.brk % pageSize = 0
    ∧ ∀ x, x < s.heapMax → s'.mem x = s.mem x
  := by
  rw [ksbrk] at hsbrk
  split at hsbrk
  · cases hsbrk
  next mem brk hpages =>
    obtain ⟨rfl, rfl⟩ := hsbrk
    obtain ⟨htop, hlt', halign', hsame⟩ := mapPages_spec hlt halign hpages
    refine ⟨rfl, rfl, rfl, htop, hlt', halign', ?_⟩
    intro x hx
    exact hsame x (Nat.lt_of_lt_of_le hx hle)

theorem newHeader_sameBut (m : Memory) (c size p : Nat) :
  SameBut c m (newHeader m c size p)
  :=
  ((((setSize_sameBut m c size).trans (setFlags_sameBut _ c _)).trans
    (setP_sameBut _ c 0)).trans (setN_sameBut _ c 0)).trans (setP_sameBut _ c p)

theorem header_newHeader (m : Memory) {c size p : Nat} (hsize : size < 2 ^ 64)
    (hp : p < 2 ^ 64) :
  header (newHeader m c size p) c = ⟨p, 0, chunkFree, size⟩
  := by
  rw [newHeader, header_setP, header_setN, header_setP, header_setFlags, header_setSize,
    Nat.mod_eq_of_lt hsize, Nat.mod_eq_of_lt hp]
  rfl

/-- The size `kmalloc` writes for a new chunk at the old end of the heap is the size it
was asked for. -/
theorem newSize {heapMax size : Nat} (h : heapMax + chunkHeader < 2 ^ 64) (hsize : size < 2 ^ 64) :
  (incptr heapMax ((size + chunkHeader) % 2 ^ 64) + 2 ^ 64 - incptr heapMax chunkHeader) % 2 ^ 64
    = size
  := by
  rw [incptr_of_lt h, incptr]
  omega

/-- There is room for a header at the end of the heap before the addresses wrap around. -/
theorem IsHeap.header_lt {s : Globals} {cs : List Chunk} (h : IsHeap s cs) :
  s.heapMax + chunkHeader < 2 ^ 64
  := by
  have hle := h.heapMax_le
  have hlt := h.brk_lt
  have halign := h.brk_aligned
  rw [pageSize] at halign
  rw [chunkHeader]
  omega

/-- The heap `s'` is the heap `s` of the chunks `cs` with a free chunk of `size` bytes behind
them.  Its end has wrapped around when there are not as many addresses. -/
structure Extends (s : Globals) (cs : List Chunk) (size : Nat) (s' : Globals) : Prop where
  first : s'.heap = firstAddr (cs ++ [⟨s.heapMax, size, true⟩]) 0
  linked : Linked s'.mem 0 (cs ++ [⟨s.heapMax, size, true⟩]) 0
  heapMax_eq : s'.heapMax = incptr s.heapMax ((size + chunkHeader) % 2 ^ 64)
  heapMax_le : s'.heapMax ≤ s'.brk
  brk_lt : s'.brk < 2 ^ 64
  brk_aligned : s'.brk % pageSize = 0
  frame : ∀ x, x < s.heapMax → (∀ c ∈ cs, x < c.addr ∨ c.data ≤ x) → s'.mem x = s.mem x

/-- The first chunk. -/
theorem extend_nil {fresh : Memory} {fuel size : Nat} {s s' : Globals} (h : IsHeap s [])
    (hsize : size < 2 ^ 64) (hextend : extend fresh fuel s 0 size = some s') :
  Extends s [] size s'
  := by
  simp only [extend, ne_eq, not_true_eq_false, if_false] at hextend
  split at hextend
  · cases hextend
  next last t hsbrk =>
    obtain ⟨rfl, hmax, hheap, hle, hlt, halign, hsame⟩ :=
      ksbrk_spec (s := { s with heap := s.heapMax }) h.heapMax_le h.brk_lt h.brk_aligned hsbrk
    simp only at hmax hsame
    obtain rfl := Option.some.inj hextend
    have hdata := newSize h.header_lt hsize
    simp only [hdata]
    refine ⟨hheap, ?_, hmax, hle, hlt, halign, ?_⟩
    · exact ⟨header_newHeader t.mem hsize (by decide), trivial⟩
    · intro x hx _
      rw [← hsame x hx]
      exact newHeader_sameBut t.mem s.heapMax size 0 x (Or.inl hx)

/-- A chunk behind the last chunk `d`. -/
theorem extend_append {fresh : Memory} {fuel size : Nat} {s s' : Globals} {l : List Chunk}
    {d : Chunk} (h : IsHeap s (l ++ [d])) (hsize : size < 2 ^ 64)
    (hextend : extend fresh fuel s d.addr size = some s') :
  Extends s (l ++ [d]) size s'
  := by
  obtain ⟨hl, hd, -⟩ := linked_append.mp h.linked
  obtain ⟨mid, htl, rfl, hstop⟩ := tiles_append.mp h.tiles
  have hlow := htl.le
  have hpos := kernelHeapS_pos
  have hlast := h.header_lt
  simp only [Tiles, Chunk.stop, Chunk.data] at hstop
  simp only [extend, if_pos (show d.addr ≠ 0 by omega), hd] at hextend
  rw [incptr_of_lt (by omega), show d.addr + (d.size + chunkHeader) = s.heapMax by omega] at hextend
  split at hextend
  · cases hextend
  next last t hsbrk =>
    obtain ⟨rfl, hmax, hheap, hle, hlt, halign, hsame⟩ :=
      ksbrk_spec h.heapMax_le h.brk_lt h.brk_aligned hsbrk
    obtain rfl := Option.some.inj hextend
    have hdata := newSize h.header_lt hsize
    have hapart : Apart s.heapMax d.addr := by
      rw [Apart]
      omega
    have hapart' : Apart d.addr s.heapMax := by
      rw [Apart]
      omega
    have hnew := newHeader_sameBut t.mem s.heapMax size d.addr
    have hd' : header (newHeader t.mem s.heapMax size d.addr) d.addr
        = ⟨lastAddr 0 l, 0, d.flags, d.size⟩ := by
      have hold : header t.mem d.addr = header s.mem d.addr := by
        apply header_congr
        intro x hx hx'
        exact hsame x (by omega)
      rw [hnew.header hapart', hold, hd]
      rfl
    simp only [hdata, hd']
    obtain ⟨m, hm⟩ : ∃ m, m = setN (setN (newHeader t.mem s.heapMax size d.addr) s.heapMax 0)
        d.addr s.heapMax := ⟨_, rfl⟩
    have hwrites : ∀ x, x < s.heapMax → (x < d.addr ∨ d.data ≤ x) → m x = s.mem x := by
      intro x hx hx'
      rw [← hsame x hx, hm, setN_sameBut _ d.addr _ x hx', setN_sameBut _ s.heapMax _ x (Or.inl hx),
        hnew x (Or.inl hx)]
    rw [← hm]
    refine ⟨?_, ?_, hmax, hle, hlt, halign, fun x hx hx' => hwrites x hx (hx' d (by simp))⟩
    · show t.heap = _
      rw [hheap, h.first, firstAddr_append, firstAddr_append, firstAddr_append]
      rfl
    · rw [List.append_assoc]
      apply linked_append.mpr
      refine ⟨?_, ?_, ?_, trivial⟩
      · apply hl.frame htl
        intro x hx hx'
        exact hwrites x (by omega) (Or.inl hx')
      · show header m d.addr = _
        rw [hm, header_setN, (setN_sameBut _ s.heapMax _).header hapart', hd',
          Nat.mod_eq_of_lt (by omega)]
        rfl
      · show header m s.heapMax = _
        rw [hm, (setN_sameBut _ d.addr _).header hapart, header_setN,
          header_newHeader _ hsize (by omega)]
        rfl

/-- A chunk behind the last one. -/
theorem extend_spec {fresh : Memory} {fuel size : Nat} {s s' : Globals} {cs : List Chunk}
    (h : IsHeap s cs) (hsize : size < 2 ^ 64)
    (hextend : extend fresh fuel s (lastAddr 0 cs) size = some s') :
  Extends s cs size s'
  := by
  obtain rfl | ⟨l, d, rfl⟩ := cs.eq_nil_or_concat
  · exact extend_nil h hsize hextend
  · rw [List.concat_eq_append] at *
    rw [lastAddr_append] at hextend
    exact extend_append h hsize hextend

/-- The larger heap, when its end does not wrap around. -/
theorem Extends.isHeap {s s' : Globals} {cs : List Chunk} {size : Nat}
    (hextend : Extends s cs size s') (h : IsHeap s cs)
    (hsize : s.heapMax + (size + chunkHeader) < 2 ^ 64) :
  IsHeap s' (cs ++ [⟨s.heapMax, size, true⟩])
    ∧ s'.heapMax = s.heapMax + (size + chunkHeader)
  := by
  have hmax : s'.heapMax = s.heapMax + (size + chunkHeader) := by
    rw [hextend.heapMax_eq, Nat.mod_eq_of_lt (by omega), incptr_of_lt hsize]
  refine ⟨⟨hextend.first, hextend.linked, ?_, hextend.heapMax_le, hextend.brk_lt,
    hextend.brk_aligned⟩, hmax⟩
  apply tiles_append.mpr
  refine ⟨s.heapMax, h.tiles, rfl, ?_⟩
  show s.heapMax + chunkHeader + size = s'.heapMax
  omega

/-! ### `kmalloc` -/

/-- The loop of `kmalloc` ends at the first chunk that fits, or at the last chunk when
none does. -/
theorem search_spec {m : Memory} {size c q : Nat} :
  ∀ {fuel p lo hi : Nat} {cs : List Chunk}, Linked m p cs 0 → Tiles lo cs hi → 0 < lo →
    search m size fuel (firstAddr cs 0) p = some (c, q) →
    (∃ l d r, cs = l ++ d :: r ∧ c = d.addr ∧ Fits size d ∧ ∀ e ∈ l, ¬ Fits size e)
      ∨ (c = 0 ∧ q = lastAddr p cs ∧ ∀ e ∈ cs, ¬ Fits size e)
  | 0, _, _, _, _, _, _, _, h => nomatch h
  | fuel + 1, p, lo, hi, [], _, _, _, h => by
      obtain ⟨rfl, rfl⟩ : 0 = c ∧ p = q := by
        simpa [search, firstAddr] using h
      exact Or.inr ⟨rfl, rfl, fun _ he => absurd he List.not_mem_nil⟩
  | fuel + 1, p, lo, hi, d :: cs, ⟨hd, hcs⟩, ⟨haddr, ht⟩, hlo, h => by
      rw [search, show firstAddr (d :: cs) 0 = d.addr from rfl, if_neg (by omega),
        isFree_of_header hd, hd] at h
      split_ifs at h with hfits
      · obtain ⟨rfl, rfl⟩ := Prod.mk.inj (Option.some.inj h)
        exact Or.inl ⟨[], d, cs, rfl, rfl, hfits, fun _ he => absurd he List.not_mem_nil⟩
      · obtain ⟨l, e, r, rfl, rfl, he, hl⟩ | ⟨rfl, rfl, hnone⟩ :=
          search_spec hcs ht (by rw [Chunk.stop, Chunk.data]; omega) h
        · refine Or.inl ⟨d :: l, e, r, rfl, rfl, he, ?_⟩
          rw [List.forall_mem_cons]
          exact ⟨hfits, hl⟩
        · refine Or.inr ⟨rfl, rfl, ?_⟩
          rw [List.forall_mem_cons]
          exact ⟨hfits, hnone⟩

/-- The chunk in use that `kmalloc` makes of a free chunk that fits. -/
theorem allocated_used {size : Nat} {c : Chunk} (hfits : Fits size c) :
  ∃ d ∈ allocated c size, d.addr = c.addr ∧ d.free = false ∧ size ≤ d.size
    ∧ ∀ e ∈ allocated c size, e.free = false → e = d
  := by
  rw [allocated]
  split_ifs with hsize
  · refine ⟨c.used, by simp, rfl, rfl, hfits.2, ?_⟩
    intro e he _
    simpa using he
  · refine ⟨c.cut size, by simp, rfl, rfl, Nat.le_refl size, ?_⟩
    intro e he hfree
    obtain rfl | rfl : e = c.cut size ∨ e = c.rest size := by
      simpa using he
    · rfl
    · cases hfree

/-- A free chunk in use, with what is left of it, has no two free neighbours. -/
theorem NoFreeNeighbours.allocated {size : Nat} {l r : List Chunk} {c : Chunk}
    (h : NoFreeNeighbours (l ++ c :: r)) (hfree : c.free = true) :
  NoFreeNeighbours (l ++ (Heap.allocated c size ++ r))
  := by
  obtain ⟨hl, hr, -⟩ := List.isChain_append.mp h
  have hrest : ∀ d : Chunk, NoFreeNeighbours (d :: r) := by
    intro d
    cases r with
    | nil => exact List.isChain_singleton _
    | cons e r =>
        obtain ⟨hce, hr⟩ := List.isChain_cons_cons.mp hr
        apply List.isChain_cons_cons.mpr
        refine ⟨?_, hr⟩
        rintro ⟨-, he⟩
        exact hce ⟨hfree, he⟩
  apply List.isChain_append.mpr
  rw [Heap.allocated]
  split_ifs with hsize
  · refine ⟨hl, hrest _, ?_⟩
    intro x _ y hy
    obtain rfl : c.used = y := by simpa using hy
    rintro ⟨-, hused⟩
    cases hused
  · refine ⟨hl, List.isChain_cons_cons.mpr ⟨?_, hrest _⟩, ?_⟩
    · rintro ⟨hcut, -⟩
      cases hcut
    · intro x _ y hy
      obtain rfl : c.cut size = y := by simpa using hy
      rintro ⟨-, hcut⟩
      cases hcut

/-- What `kmalloc(size)` does to a heap: there is a new chunk in use of at least `size`
bytes, the other chunks in use stay, and only headers are written below the old end of the
heap. -/
structure Allocates (s : Globals) (cs : List Chunk) (size ptr : Nat) (s' : Globals)
    (cs' : List Chunk) (c : Chunk) : Prop where
  isHeap : IsHeap s' cs'
  noFree : NoFreeNeighbours cs'
  heapMax_le : s.heapMax ≤ s'.heapMax
  mem : c ∈ cs'
  used : c.free = false
  ptr_eq : ptr = c.data
  size_le : size ≤ c.size
  used_iff : ∀ d, d.free = false → (d ∈ cs' ↔ d ∈ cs ∨ d = c)
  new : ∀ d ∈ cs, d.free = false → d.addr ≠ c.addr
  frame : ∀ x, x < s.heapMax → (∀ d ∈ cs', x < d.addr ∨ d.data ≤ x) → s'.mem x = s.mem x

/-- `kmalloc` with a chunk `c` that fits. -/
theorem allocate_isHeap {s : Globals} {size : Nat} {l r : List Chunk} {c : Chunk}
    (h : IsHeap s (l ++ c :: r)) (hsize : size + chunkHeader < 2 ^ 64) :
  IsHeap (s.withMem (setFlags (splitChunk s.mem c.addr size) c.addr 0))
    (l ++ (allocated c size ++ r))
  := by
  apply h.withMem
  · exact (allocate_spec h.linked h.tiles kernelHeapS_pos h.heapMax_lt hsize).1
  · exact h.tiles.allocated
  · rw [firstAddr_append, firstAddr_append, firstAddr_append, allocated]
    split_ifs
    · rfl
    · rfl

/-- The first chunk that fits is allocated. -/
theorem allocates_of_fits {s : Globals} {size : Nat} {l r : List Chunk} {c : Chunk}
    (h : IsHeap s (l ++ c :: r)) (hsize : size + chunkHeader < 2 ^ 64) (hfits : Fits size c)
    (hfree : NoFreeNeighbours (l ++ (allocated c size ++ r))) :
  ∃ d, Allocates s (l ++ c :: r) size (incptr c.addr chunkHeader)
    (s.withMem (setFlags (splitChunk s.mem c.addr size) c.addr 0))
    (l ++ (allocated c size ++ r)) d
  := by
  obtain ⟨d, hd, haddr, hused, hle, hunique⟩ := allocated_used hfits
  have hheap := allocate_isHeap h hsize
  have hbound := h.tiles.mem_le c (by simp)
  have hlt := h.heapMax_lt
  simp only [Chunk.stop, Chunk.data] at hbound
  use d
  refine ⟨hheap, hfree, Nat.le_refl _, by simp [hd], hused, ?_, hle, ?_, ?_, ?_⟩
  · rw [incptr_of_lt (by omega), Chunk.data, haddr]
  · intro e he
    have hne : e ≠ c := by
      rintro rfl
      rw [hfits.1] at he
      cases he
    have hiff : e ∈ allocated c size ↔ e = d := by
      constructor
      · intro hmem
        exact hunique e hmem he
      · rintro rfl
        exact hd
    simp only [List.mem_append, List.mem_cons, hiff, hne, false_or]
    tauto
  · intro e he hfree' heq
    obtain rfl := h.tiles.addr_inj he (by simp) (heq.trans haddr)
    rw [hfits.1] at hfree'
    cases hfree'
  · intro x _ hx
    exact (allocate_spec h.linked h.tiles kernelHeapS_pos h.heapMax_lt hsize).2 x hx

/-- A call of `kmalloc` that returns at its first search. -/
theorem kmalloc_found {fresh : Memory} {fuel size ptr q : Nat} {s s' : Globals} {c : Chunk}
    (hc : c.addr ≠ 0) (hsearch : search s.mem size fuel s.heap 0 = some (c.addr, q))
    (hmalloc : kmalloc fresh (fuel + 1) s size = some (ptr, s')) :
  ptr = incptr c.addr chunkHeader
    ∧ s' = s.withMem (setFlags (splitChunk s.mem c.addr size) c.addr 0)
  := by
  simp only [kmalloc, hsearch] at hmalloc
  rw [if_pos hc] at hmalloc
  obtain ⟨rfl, rfl⟩ := Prod.mk.inj (Option.some.inj hmalloc)
  exact ⟨rfl, rfl⟩

/-- The second search of `kmalloc` finds the chunk that was added. -/
theorem kmalloc_extended {fresh : Memory} {fuel size ptr : Nat} {s s' : Globals} {cs : List Chunk}
    {c : Chunk} (h : IsHeap s (cs ++ [c])) (hfree : NoFreeNeighbours cs)
    (hsize : size + chunkHeader < 2 ^ 64) (hnone : ∀ d ∈ cs, ¬ Fits size d)
    (hfits : Fits size c) (hexact : c.size = size)
    (hmalloc : kmalloc fresh fuel s size = some (ptr, s')) :
  ∃ d, Allocates s (cs ++ [c]) size ptr s' (cs ++ [c.used]) d
  := by
  cases fuel with
  | zero => cases hmalloc
  | succ fuel =>
      cases hsearch : search s.mem size fuel s.heap 0 with
      | none =>
          simp only [kmalloc, hsearch] at hmalloc
          cases hmalloc
      | some found =>
          obtain ⟨a, q⟩ := found
          have hfound := hsearch
          rw [h.first] at hfound
          obtain ⟨l, d, r, hsplit, rfl, hd, -⟩ | ⟨-, -, hnone'⟩ :=
            search_spec h.linked h.tiles kernelHeapS_pos hfound
          · -- the chunk that was found is not one of the old chunks
            obtain rfl : d = c := by
              have hmem : d ∈ cs ++ [c] := by simp [hsplit]
              obtain hmem | hmem := List.mem_append.mp hmem
              · exact absurd hd (hnone d hmem)
              · simpa using hmem
            have hle := h.tiles.mem_le d (by simp)
            have hpos := kernelHeapS_pos
            obtain ⟨rfl, rfl⟩ := kmalloc_found (by omega) hsearch hmalloc
            have hallocated : allocated d size = [d.used] := by
              rw [allocated, if_pos (by omega)]
            have hnoFree : NoFreeNeighbours (cs ++ (allocated d size ++ [])) := by
              rw [hallocated]
              apply List.isChain_append.mpr
              refine ⟨hfree, List.isChain_singleton _, ?_⟩
              intro x _ y hy
              obtain rfl : d.used = y := by simpa using hy
              rintro ⟨-, hused⟩
              cases hused
            obtain ⟨e, he⟩ := allocates_of_fits h hsize hd hnoFree
            rw [hallocated] at he
            exact ⟨e, he⟩
          · exact absurd hfits (hnone' c (by simp))

/-- A call of `kmalloc` that returns has allocated a chunk. -/
theorem kmalloc_spec {fresh : Memory} {fuel size ptr : Nat} {s s' : Globals} {cs : List Chunk}
    (h : IsHeap s cs) (hfree : NoFreeNeighbours cs)
    (hsize : (∃ c ∈ cs, Fits size c) ∨ s.heapMax + (size + chunkHeader) < 2 ^ 64)
    (hmalloc : kmalloc fresh fuel s size = some (ptr, s')) :
  ∃ cs' c, Allocates s cs size ptr s' cs' c
  := by
  cases fuel with
  | zero => cases hmalloc
  | succ fuel =>
      cases hsearch : search s.mem size fuel s.heap 0 with
      | none =>
          simp only [kmalloc, hsearch] at hmalloc
          cases hmalloc
      | some found =>
          obtain ⟨c, q⟩ := found
          have hfound := hsearch
          rw [h.first] at hfound
          obtain ⟨l, d, r, rfl, rfl, hd, -⟩ | ⟨rfl, rfl, hnone⟩ :=
            search_spec h.linked h.tiles kernelHeapS_pos hfound
          · have hle := h.tiles.mem_le d (by simp)
            have hpos := kernelHeapS_pos
            have hlt := h.heapMax_lt
            have hdsize := hd.2
            obtain ⟨rfl, rfl⟩ := kmalloc_found (by omega) hsearch hmalloc
            simp only [Chunk.stop, Chunk.data] at hle
            exact ⟨_, allocates_of_fits h (by omega) hd (hfree.allocated hd.1)⟩
          · obtain ⟨e, he, hefits⟩ | hsize := hsize
            · exact absurd hefits (hnone e he)
            simp only [kmalloc, hsearch, ne_eq, not_true_eq_false, if_false] at hmalloc
            cases hextend : extend fresh fuel s (lastAddr 0 cs) size with
            | none =>
                rw [hextend] at hmalloc
                cases hmalloc
            | some t =>
                simp only [hextend] at hmalloc
                have hextends := extend_spec h (by omega) hextend
                obtain ⟨ht, hmax⟩ := hextends.isHeap h hsize
                obtain ⟨c, halloc⟩ := kmalloc_extended ht hfree (by omega) hnone
                  ⟨rfl, Nat.le_refl size⟩ rfl hmalloc
                refine ⟨_, _, halloc.isHeap, halloc.noFree, ?_, halloc.mem, halloc.used,
                  halloc.ptr_eq, halloc.size_le, ?_, ?_, ?_⟩
                · have hle := halloc.heapMax_le
                  omega
                · intro d hd
                  rw [halloc.used_iff d hd]
                  have hne : d ≠ ⟨s.heapMax, size, true⟩ := by
                    rintro rfl
                    cases hd
                  simp [hne]
                · intro d hd
                  exact halloc.new d (by simp [hd])
                · intro x hx hx'
                  rw [halloc.frame x (by omega) hx', hextends.frame x hx]
                  intro d hd
                  exact hx' d (by simp [hd])

end Heap
