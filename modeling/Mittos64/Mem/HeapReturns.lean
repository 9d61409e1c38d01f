import Mittos64.Mem.HeapRun

/-!
# When `kmalloc` returns

`kmalloc` has two loops and a call of itself: it walks the list of chunks, `ksbrk` maps pages
until the heap reaches far enough, and then it searches again.  The walk always ends.  The
loop of `ksbrk` ends when the address it must reach is that of a page or lies below one; above
the last page `brk` wraps around before it gets there.  When the loop ends, the second search
finds the chunk that was added, so that there is no third one.
-/

namespace Heap

/-- The number of times that `kmalloc(size)` calls itself. -/
def kmallocRetries (fresh : Memory) : Nat → Globals → Nat → Option Nat
  | 0, _, _ => none
  | fuel + 1, s, size =>
      match search s.mem size fuel s.heap 0 with
      | none => none
      | some (c, p) =>
          if c ≠ 0 then some 0
          else
            match extend fresh fuel s p size with
            | none => none
            | some s => (kmallocRetries fresh fuel s size).map (· + 1)

/-! ### The walk -/

/-- The walk goes past chunks that do not fit. -/
theorem search_skip {m : Memory} {size hi : Nat} {r : List Chunk} :
  ∀ (fuel : Nat) {p lo : Nat} {l : List Chunk}, Linked m p (l ++ r) 0 → Tiles lo (l ++ r) hi → 0 < lo →
    (∀ e ∈ l, ¬ Fits size e) →
    search m size (fuel + l.length) (firstAddr (l ++ r) 0) p
      = search m size fuel (firstAddr r 0) (lastAddr p l)
  | _, _, _, [], _, _, _, _ => rfl
  | fuel, p, lo, d :: l, ⟨hd, hl⟩, ⟨haddr, ht⟩, hlo, hnone => by
      have hfits := hnone d List.mem_cons_self
      have hskip := search_skip fuel hl ht (by rw [Chunk.stop, Chunk.data]; omega)
        (fun e he => hnone e (List.mem_cons_of_mem d he))
      rw [List.length_cons, ← Nat.add_assoc, search,
        show firstAddr (d :: l ++ r) 0 = d.addr from rfl, if_neg (by omega),
        isFree_of_header hd, hd]
      exact (if_neg hfits).trans hskip

/-- The walk ends at the first chunk that fits. -/
theorem search_fits {m : Memory} {size lo hi fuel : Nat} {l r : List Chunk} {d : Chunk}
    (h : Linked m 0 (l ++ d :: r) 0) (ht : Tiles lo (l ++ d :: r) hi) (hlo : 0 < lo)
    (hnone : ∀ e ∈ l, ¬ Fits size e) (hfits : Fits size d) (hfuel : l.length < fuel) :
  search m size fuel (firstAddr (l ++ d :: r) 0) 0 = some (d.addr, lastAddr 0 l)
  := by
  obtain ⟨n, rfl⟩ : ∃ n, fuel = (n + 1) + l.length := ⟨fuel - l.length - 1, by omega⟩
  obtain ⟨-, hd, -⟩ := linked_append.mp h
  have hle := ht.mem_le d (by simp)
  rw [search_skip _ h ht hlo hnone, search, show firstAddr (d :: r) 0 = d.addr from rfl,
    if_neg (by omega), isFree_of_header hd, hd]
  exact if_pos hfits

/-- The walk ends at the last chunk when none fits. -/
theorem search_none {m : Memory} {size lo hi fuel : Nat} {cs : List Chunk}
    (h : Linked m 0 cs 0) (ht : Tiles lo cs hi) (hlo : 0 < lo)
    (hnone : ∀ e ∈ cs, ¬ Fits size e) (hfuel : cs.length < fuel) :
  search m size fuel (firstAddr cs 0) 0 = some (0, lastAddr 0 cs)
  := by
  obtain ⟨n, rfl⟩ : ∃ n, fuel = (n + 1) + cs.length := ⟨fuel - cs.length - 1, by omega⟩
  have hskip := search_skip (r := []) (n + 1) (by rwa [List.append_nil])
    (by rwa [List.append_nil]) hlo hnone
  rw [List.append_nil] at hskip
  rw [hskip]
  rfl

/-- A list of chunks has a first one that fits, or none. -/
theorem first_fits (size : Nat) (cs : List Chunk) :
  (∃ l d r, cs = l ++ d :: r ∧ Fits size d ∧ ∀ e ∈ l, ¬ Fits size e) ∨ ∀ e ∈ cs, ¬ Fits size e
  := by
  induction cs with
  | nil => exact Or.inr fun e he => absurd he List.not_mem_nil
  | cons c cs ih =>
      by_cases hc : Fits size c
      · exact Or.inl ⟨[], c, cs, rfl, hc, fun e he => absurd he List.not_mem_nil⟩
      · obtain ⟨l, d, r, rfl, hd, hl⟩ | hnone := ih
        · refine Or.inl ⟨c :: l, d, r, rfl, hd, ?_⟩
          rw [List.forall_mem_cons]
          exact ⟨hc, hl⟩
        · rw [List.forall_mem_cons]
          exact Or.inr ⟨hc, hnone⟩

/-- The walk of a heap ends. -/
theorem IsHeap.search_ends {s : Globals} {cs : List Chunk} (h : IsHeap s cs) (size : Nat) :
  ∃ found, ∀ fuel, cs.length < fuel → search s.mem size fuel s.heap 0 = some found
  := by
  rw [h.first]
  obtain ⟨l, d, r, rfl, hd, hl⟩ | hnone := first_fits size cs
  · use (d.addr, lastAddr 0 l)
    intro fuel hfuel
    rw [List.length_append] at hfuel
    exact search_fits h.linked h.tiles kernelHeapS_pos hl hd (by omega)
  · use (0, lastAddr 0 cs)
    intro fuel hfuel
    exact search_none h.linked h.tiles kernelHeapS_pos hnone hfuel

/-! ### The loop of `ksbrk` -/

/-- The loop of `ksbrk` ends when a page lies at `top` or above it. -/
theorem mapPages_ends (fresh : Memory) {top : Nat} (htop : top ≤ 2 ^ 64 - pageSize) (n : Nat) :
  ∀ (mem : Memory) (brk : Nat), top ≤ brk + pageSize * n →
    ∃ last, ∀ fuel, n < fuel → mapPages fresh top fuel mem brk = some last
  := by
  induction n with
  | zero =>
      intro mem brk hle
      use (mem, brk)
      intro fuel hfuel
      obtain ⟨k, rfl⟩ := Nat.exists_eq_succ_of_ne_zero (Nat.ne_of_gt hfuel)
      rw [mapPages, if_neg (by omega)]
  | succ n ih =>
      intro mem brk hle
      by_cases hlt : brk < top
      · have hnext : incptr brk pageSize = brk + pageSize := by
          apply incptr_of_lt
          rw [pageSize] at htop ⊢
          omega
        obtain ⟨last, hlast⟩ := ih (mapPage fresh mem brk) (brk + pageSize)
          (by rw [Nat.mul_succ] at hle; omega)
        use last
        intro fuel hfuel
        obtain ⟨k, rfl⟩ := Nat.exists_eq_succ_of_ne_zero (Nat.ne_of_gt (Nat.zero_lt_of_lt hfuel))
        rw [mapPages, if_pos hlt, hnext]
        exact hlast k (by omega)
      · use (mem, brk)
        intro fuel hfuel
        obtain ⟨k, rfl⟩ := Nat.exists_eq_succ_of_ne_zero (Nat.ne_of_gt (Nat.zero_lt_of_lt hfuel))
        rw [mapPages, if_neg hlt]

/-- The loop of `ksbrk` does not end when `top` lies above the last page. -/
theorem mapPages_wraps (fresh : Memory) {top : Nat} (htop : 2 ^ 64 - pageSize < top) :
  ∀ (fuel : Nat) (mem : Memory) {brk : Nat}, brk < 2 ^ 64 → brk % pageSize = 0 →
    mapPages fresh top fuel mem brk = none
  | 0, _, _, _, _ => rfl
  | fuel + 1, mem, brk, hlt, halign => by
      simp only [pageSize] at htop halign
      have halign' : incptr brk pageSize % pageSize = 0 := by
        simp only [incptr, pageSize]
        omega
      have hlt' : incptr brk pageSize < 2 ^ 64 := Nat.mod_lt _ (by decide)
      rw [mapPages, if_pos (by omega)]
      exact mapPages_wraps fresh htop fuel _ hlt' halign'

/-- `extend` returns when the loop of `ksbrk` ends. -/
theorem extend_returns (fresh : Memory) {size : Nat} {s : Globals}
    (hsize : s.heapMax + (size + chunkHeader) ≤ 2 ^ 64 - pageSize) (p : Nat) :
  ∃ s' n, ∀ fuel, n < fuel → extend fresh fuel s p size = some s'
  := by
  obtain ⟨last, hlast⟩ := mapPages_ends fresh hsize
    (s.heapMax + (size + chunkHeader)) s.mem s.brk (by rw [pageSize]; omega)
  rw [pageSize] at hsize
  have hmod : (size + chunkHeader) % 2 ^ 64 = size + chunkHeader := Nat.mod_eq_of_lt (by omega)
  have hptr : incptr s.heapMax (size + chunkHeader) = s.heapMax + (size + chunkHeader) :=
    incptr_of_lt (by omega)
  obtain ⟨mem, brk⟩ := last
  obtain ⟨s', hs'⟩ :
      ∃ s', extend fresh (s.heapMax + (size + chunkHeader) + 1) s p size = some s' := by
    rw [extend]
    split_ifs
    · simp only [ksbrk, hmod, hptr, hlast _ (Nat.lt_succ_self _)]
      exact ⟨_, rfl⟩
    · simp only [ksbrk, hmod, hptr, hlast _ (Nat.lt_succ_self _)]
      exact ⟨_, rfl⟩
  use s', s.heapMax + (size + chunkHeader)
  intro fuel hfuel
  rw [← hs', extend, extend]
  split_ifs
  · simp only [ksbrk, hmod, hptr, hlast _ (Nat.lt_succ_self _), hlast fuel hfuel]
  · simp only [ksbrk, hmod, hptr, hlast _ (Nat.lt_succ_self _), hlast fuel hfuel]

/-- `extend` does not return when the new end of the heap lies above the last page. -/
theorem extend_wraps {fresh : Memory} {size fuel : Nat} {s : Globals} {cs : List Chunk}
    (h : IsHeap s cs) (hsize : 2 ^ 64 - pageSize < s.heapMax + (size + chunkHeader))
    (hlt : s.heapMax + (size + chunkHeader) < 2 ^ 64) (p : Nat) :
  extend fresh fuel s p size = none
  := by
  have hmod : (size + chunkHeader) % 2 ^ 64 = size + chunkHeader := Nat.mod_eq_of_lt (by omega)
  have hpages := mapPages_wraps fresh hsize fuel s.mem h.brk_lt
    h.brk_aligned
  rw [extend]
  split_ifs with hp
  · simp only [ksbrk, hmod, incptr_of_lt hlt, hpages]
  · simp only [ksbrk, hmod, incptr_of_lt hlt, hpages]

/-! ### `kmalloc` -/

/-- `kmalloc` takes the first chunk that fits. -/
theorem kmalloc_of_fits (fresh : Memory) (fuel : Nat) {size hi : Nat} {s : Globals} {l r : List Chunk}
    {d : Chunk} (hfirst : s.heap = firstAddr (l ++ d :: r) 0)
    (hlinked : Linked s.mem 0 (l ++ d :: r) 0) (ht : Tiles kernelHeapS (l ++ d :: r) hi)
    (hnone : ∀ e ∈ l, ¬ Fits size e) (hfits : Fits size d) (hfuel : l.length < fuel) :
  kmalloc fresh (fuel + 1) s size = some (incptr d.addr chunkHeader,
      s.withMem (setFlags (splitChunk s.mem d.addr size) d.addr 0))
    ∧ kmallocRetries fresh (fuel + 1) s size = some 0
  := by
  have hsearch := search_fits hlinked ht kernelHeapS_pos hnone hfits hfuel
  have hle := ht.mem_le d (by simp)
  have hpos := kernelHeapS_pos
  have hne : d.addr ≠ 0 := by omega
  rw [kmalloc, kmallocRetries, hfirst, hsearch]
  simp only [hne, ne_eq, not_false_eq_true, if_true, and_self]

/-- `kmalloc` makes the heap larger when no chunk fits, and calls itself again. -/
theorem kmalloc_of_extend (fresh : Memory) (fuel : Nat) {size : Nat} {s : Globals} {cs : List Chunk}
    (h : IsHeap s cs) (hnone : ∀ e ∈ cs, ¬ Fits size e) (hfuel : cs.length < fuel) :
  kmalloc fresh (fuel + 1) s size
      = (extend fresh fuel s (lastAddr 0 cs) size).bind (fun s => kmalloc fresh fuel s size)
    ∧ kmallocRetries fresh (fuel + 1) s size
      = (extend fresh fuel s (lastAddr 0 cs) size).bind
          (fun s => (kmallocRetries fresh fuel s size).map (· + 1))
  := by
  have hsearch := search_none h.linked h.tiles kernelHeapS_pos hnone hfuel
  rw [kmalloc, kmallocRetries, h.first, hsearch]
  simp only [ne_eq, not_true_eq_false, if_false]
  cases extend fresh fuel s (lastAddr 0 cs) size with
  | none => exact ⟨rfl, rfl⟩
  | some t => exact ⟨rfl, rfl⟩

/-- The memory after `kmalloc` has taken the chunk `d` of exactly `size` bytes. -/
theorem splitChunk_exact {m : Memory} {size p n : Nat} {d : Chunk}
    (hd : header m d.addr = ⟨p, n, d.flags, d.size⟩) (hexact : d.size = size)
    (hsize : size + chunkHeader < 2 ^ 64) :
  splitChunk m d.addr size = m
  := by
  apply splitChunk_of_le hsize
  rw [hd, ← hexact]
  exact Nat.le_add_right d.size chunkHeader

/-- `kmalloc(size)` ends.  So does its walk, and it searches a second time at most; when it
does, it returns the chunk that was added at the old end of the heap, which has `size` bytes. -/
def Terminates (fresh : Memory) (s : Globals) (size : Nat) : Prop :=
  (∃ n found, ∀ fuel, n < fuel → search s.mem size fuel s.heap 0 = some found)
    ∧ ∃ n ptr s' retries, retries ≤ 1
      ∧ (∀ fuel, n < fuel → kmalloc fresh fuel s size = some (ptr, s')
          ∧ kmallocRetries fresh fuel s size = some retries)
      ∧ (retries = 1 → ptr = s.heapMax + chunkHeader ∧ (header s'.mem s.heapMax).size = size)

/-- `kmalloc` ends when a chunk fits. -/
theorem terminates_of_fits (fresh : Memory) {size : Nat} {s : Globals} {cs : List Chunk}
    (h : IsHeap s cs) (hfits : ∃ c ∈ cs, Fits size c) :
  Terminates fresh s size
  := by
  obtain ⟨found, hfound⟩ := h.search_ends size
  obtain ⟨l, d, r, rfl, hd, hl⟩ | hnone := first_fits size cs
  · refine ⟨⟨_, found, hfound⟩, l.length + 1, incptr d.addr chunkHeader,
      s.withMem (setFlags (splitChunk s.mem d.addr size) d.addr 0), 0, Nat.zero_le 1, ?_, ?_⟩
    · intro fuel hfuel
      obtain ⟨k, rfl⟩ := Nat.exists_eq_succ_of_ne_zero (Nat.ne_of_gt (Nat.zero_lt_of_lt hfuel))
      exact kmalloc_of_fits fresh _ h.first h.linked h.tiles hl hd (by omega)
    · intro hretries
      cases hretries
  · obtain ⟨c, hc, hfits⟩ := hfits
    exact absurd hfits (hnone c hc)

/-- `kmalloc` ends when no chunk fits and the loop of `ksbrk` ends. -/
theorem terminates_of_extend {fresh : Memory} {size : Nat} {s : Globals} {cs : List Chunk}
    (h : IsHeap s cs) (hnone : ∀ e ∈ cs, ¬ Fits size e)
    (hsize : s.heapMax + (size + chunkHeader) ≤ 2 ^ 64 - pageSize) :
  Terminates fresh s size
  := by
  obtain ⟨found, hfound⟩ := h.search_ends size
  obtain ⟨s', n, hextend⟩ := extend_returns fresh hsize (lastAddr 0 cs)
  rw [pageSize] at hsize
  have hextends := extend_spec h (by omega) (hextend (n + 1) (Nat.lt_succ_self n))
  obtain ⟨hheap, -⟩ := hextends.isHeap h (by omega)
  obtain ⟨-, hd, -⟩ := linked_append.mp hheap.linked
  have hexact := @splitChunk_exact _ size _ _ _ hd rfl (by omega)
  refine ⟨⟨_, found, hfound⟩, n + cs.length + 2, incptr s.heapMax chunkHeader,
    s'.withMem (setFlags (splitChunk s'.mem s.heapMax size) s.heapMax 0), 1, Nat.le_refl 1,
    ?_, ?_⟩
  · intro fuel hfuel
    obtain ⟨k, rfl⟩ : ∃ k, fuel = k + 1 + 1 := ⟨fuel - 2, by omega⟩
    obtain ⟨hmalloc, hretries⟩ := kmalloc_of_extend fresh (k + 1) h hnone (by omega)
    obtain ⟨hagain, hfirst⟩ := kmalloc_of_fits fresh k hheap.first
      hheap.linked hheap.tiles hnone ⟨rfl, Nat.le_refl size⟩ (by omega)
    rw [hmalloc, hretries, hextend (k + 1) (by omega), Option.bind_some, Option.bind_some, hagain,
      hfirst]
    exact ⟨rfl, rfl⟩
  · intro _
    constructor
    · exact incptr_of_lt (by omega)
    · rw [Globals.withMem_mem, hexact, header_setFlags, hd]

/-- `kmalloc` does not return when no chunk fits and the loop of `ksbrk` does not end. -/
theorem kmalloc_wraps (fresh : Memory) (fuel : Nat) {size : Nat} {s : Globals} {cs : List Chunk}
    (h : IsHeap s cs) (hnone : ∀ e ∈ cs, ¬ Fits size e)
    (hsize : 2 ^ 64 - pageSize < s.heapMax + (size + chunkHeader))
    (hlt : s.heapMax + (size + chunkHeader) < 2 ^ 64) (hfuel : cs.length + 1 < fuel) :
  kmalloc fresh fuel s size = none
  := by
  obtain ⟨k, rfl⟩ := Nat.exists_eq_succ_of_ne_zero (Nat.ne_of_gt (Nat.zero_lt_of_lt hfuel))
  obtain ⟨hmalloc, -⟩ := kmalloc_of_extend fresh k h hnone (by omega)
  rw [hmalloc, extend_wraps h hsize hlt]
  rfl

/-- The list of chunks of a heap is the one whose pages are mapped. -/
theorem WellFormed.eq {s : Globals} {cs cs' : List Chunk} (hcs : WellFormed s cs)
    (h : IsHeap s cs') :
  cs = cs'
  := by
  obtain ⟨hfirst, hlinked, -, htiles, -⟩ := hcs
  apply hlinked.unique h.linked htiles h.tiles kernelHeapS_pos kernelHeapS_pos
  rw [← hfirst, h.first]

/-- In every state of a run, `kmalloc(size)` ends, with a second search at most, if and only
if a chunk fits or the new end of the heap lies at or below the last page of the address
space. -/
theorem kmalloc_terminates_iff {s : State} (h : Reached s) (fresh : Memory) {size : Nat}
    (hsize : s.heap.heapMax + (size + chunkHeader) < 2 ^ 64) :
  Terminates fresh s.heap size
    ↔ (∃ cs, WellFormed s.heap cs ∧ ∃ c ∈ cs, Fits size c)
      ∨ s.heap.heapMax + (size + chunkHeader) ≤ 2 ^ 64 - pageSize
  := by
  obtain ⟨cs, hinv⟩ := h.inv
  have hheap := hinv.isHeap
  by_cases hfits : ∃ c ∈ cs, Fits size c
  · constructor
    · intro _
      exact Or.inl ⟨cs, hinv.wellFormed, hfits⟩
    · intro _
      exact terminates_of_fits fresh hheap hfits
  · have hnone : ∀ e ∈ cs, ¬ Fits size e := by
      intro e he hfits'
      exact hfits ⟨e, he, hfits'⟩
    constructor
    · rintro ⟨-, n, ptr, s', retries, -, hreturns, -⟩
      by_contra hlast
      rw [not_or, not_le] at hlast
      have hwraps := kmalloc_wraps fresh (n + cs.length + 2) hheap hnone
        hlast.2 hsize (by omega)
      rw [(hreturns _ (by omega)).1] at hwraps
      cases hwraps
    · rintro (⟨cs', hcs', c, hc, hfits'⟩ | hlast)
      · obtain rfl := hcs'.eq hheap
        exact terminates_of_fits fresh hheap ⟨c, hc, hfits'⟩
      · exact terminates_of_extend hheap hnone hlast

/-- `kmalloc(100)` in the empty heap ends. -/
theorem kmalloc_terminates_iff_empty :
  Terminates (fun _ => 0) (empty fun _ => 0) 100
  := by
  have hsize : (empty fun _ => 0).heapMax + (100 + chunkHeader) < 2 ^ 64 := by decide
  apply (kmalloc_terminates_iff (s := ⟨empty fun _ => 0, []⟩) (.start ⟨_, rfl⟩) _ hsize).mpr
  right
  decide

/-- In the empty heap `kmalloc` of all bytes up to the last but one of the address space does
not return: `brk` wraps around. -/
theorem kmalloc_wraps_empty :
  Reached ⟨empty fun _ => 0, []⟩
    ∧ (empty fun _ => 0).heapMax + (2 ^ 38 - 33 + chunkHeader) < 2 ^ 64
    ∧ ¬ Terminates (fun _ => 0) (empty fun _ => 0) (2 ^ 38 - 33)
  := by
  refine ⟨.start ⟨_, rfl⟩, by decide, ?_⟩
  rintro ⟨-, n, ptr, s', retries, -, hreturns, -⟩
  have hwraps := @kmalloc_wraps (fun _ => 0) (n + 2) (2 ^ 38 - 33) _ _
    (empty_isHeap fun _ => 0) (fun e he => absurd he List.not_mem_nil) (by decide) (by decide)
    (Nat.lt_add_left n (by decide))
  rw [(hreturns _ (by omega)).1] at hwraps
  cases hwraps

end Heap
