import Mittos64.Lib.Memory
import Mittos64.Mem.Layout

/-!
# Frames

`mem/pmm.c`, on the physical memory.  The kernel reaches the physical address `a` at
`P2V(a)`; a pointer `p` of the source is followed to the physical address `V2P(p)`.  Free
frames form a stack: `pmm_stack` points to the first one, and the first word of a free frame
to the next.  Until the first call of `pmm_free`, `pmm_alloc` hands out the frames behind the
kernel.

The machine has two history variables, which no function reads: the frames that `pmm_alloc` has
returned and those that `pmm_free` has got, both with the last one first.

`words m n i` is the word `i` of the frame `n`: the entry `i` of the table in that frame, when
the frame is a page table.
-/

namespace Mem

/-- The physical memory with the globals of `pmm.c`, and the history of the frames. -/
structure Machine where
  mem : Memory
  pmmRunning : Bool
  pmmPos : Nat
  pmmStack : Nat
  taken : List Nat
  freed : List Nat

/-- The machine with another memory. -/
def Machine.withMem (s : Machine) (mem : Memory) : Machine :=
  { s with mem := mem }

@[simp]
theorem Machine.withMem_mem (s : Machine) (mem : Memory) :
  (s.withMem mem).mem = mem
  := rfl

theorem Machine.withMem_history (s : Machine) (mem : Memory) :
  (s.withMem mem).taken = s.taken ∧ (s.withMem mem).freed = s.freed
  := ⟨rfl, rfl⟩

/-- The machine after one more frame has been allocated. -/
def Machine.take (s : Machine) (page : Nat) : Machine :=
  { s with taken := page / pageSize :: s.taken }

/-- `pmm_alloc()`, or `none` when it follows the null pointer of an empty stack. -/
def pmmAlloc (s : Machine) : Option (Nat × Machine) :=
  if s.pmmRunning then
    if s.pmmStack = 0 then none
    else
      some (v2p s.pmmStack,
        { s.take (v2p s.pmmStack) with pmmStack := s.mem.load (v2p s.pmmStack) 8 })
  else
    some (v2p s.pmmPos,
      { s.take (v2p s.pmmPos) with pmmPos := incptr s.pmmPos pageSize })

/-- Put the frame `f` on the stack, with the pointer `p` to the address `a`. -/
def Machine.push (s : Machine) (a p f : Nat) : Machine :=
  { s with
    mem := s.mem.store a 8 s.pmmStack
    pmmStack := p
    pmmRunning := true
    freed := f :: s.freed }

/-- `pmm_free(page)` -/
def pmmFree (s : Machine) (page : Nat) : Machine :=
  let p := p2v (stripFlags page)
  s.push (v2p p) p (page / pageSize)

/-! ### The words of the frames -/

/-- The word `i` of the frame `n`. -/
def words (m : Memory) (n : Nat) (i : Fin 512) : Nat :=
  m.load (frame n + 8 * i) 8

/-- The words with one of them replaced. -/
def setWord (T : Nat → Fin 512 → Nat) (n : Nat) (i : Fin 512) (v : Nat) : Nat → Fin 512 → Nat :=
  fun m j => if m = n ∧ j = i then v else T m j

/-- The words with those of one frame cleared. -/
def clearFrame (T : Nat → Fin 512 → Nat) (n : Nat) : Nat → Fin 512 → Nat :=
  fun m j => if m = n then 0 else T m j

theorem words_lt (m : Memory) (n : Nat) (i : Fin 512) :
  words m n i < 2 ^ 64
  := Memory.load_lt m _ 8

@[simp]
theorem words_zero (n : Nat) (i : Fin 512) :
  words (fun _ => 0) n i = 0
  := Memory.load_zero _ 8

/-- The words of a frame depend on its own bytes only. -/
theorem words_congr {m m' : Memory} {n : Nat}
    (h : ∀ x, frame n ≤ x → x < frame n + pageSize → m' x = m x) (i : Fin 512) :
  words m' n i = words m n i
  := by
  apply Memory.load_congr
  intro x hx hx'
  have hi := i.isLt
  apply h
  · omega
  · rw [pageSize]
    omega

theorem words_store (m : Memory) (n : Nat) (i : Fin 512) {v : Nat} (hv : v < 2 ^ 64) :
  words (m.store (frame n + 8 * i) 8 v) = setWord (words m) n i v
  := by
  funext n' j
  have hi := i.isLt
  have hj := j.isLt
  rw [setWord]
  split_ifs with h
  · obtain ⟨rfl, rfl⟩ := h
    rw [words, Memory.load_store]
    apply Nat.mod_eq_of_lt hv
  · apply Memory.load_store_of_disjoint
    by_cases hn : n' = n
    · subst hn
      have hij : j.val ≠ i.val := by
        intro hval
        apply h ⟨rfl, Fin.ext hval⟩
      omega
    · simp only [frame, pageSize]
      omega

theorem words_fill (m : Memory) (n : Nat) :
  words (m.fill (frame n) 0 pageSize) = clearFrame (words m) n
  := by
  funext n' j
  have hj := j.isLt
  rw [clearFrame]
  split_ifs with h
  · subst h
    apply Memory.load_fill_zero
    · omega
    · rw [pageSize]
      omega
  · apply Memory.load_fill_of_disjoint
    simp only [frame, pageSize]
    omega

@[simp]
theorem setWord_self (T : Nat → Fin 512 → Nat) (n : Nat) (i : Fin 512) (v : Nat) :
  setWord T n i v n i = v
  := by
  rw [setWord, if_pos ⟨rfl, rfl⟩]

theorem setWord_of_ne (T : Nat → Fin 512 → Nat) {n m : Nat} {i j : Fin 512} (v : Nat)
    (h : m ≠ n ∨ j ≠ i) :
  setWord T n i v m j = T m j
  := by
  rw [setWord, if_neg (not_and_or.mpr h)]

@[simp]
theorem clearFrame_self (T : Nat → Fin 512 → Nat) (n : Nat) (j : Fin 512) :
  clearFrame T n n j = 0
  := by
  rw [clearFrame, if_pos rfl]

theorem clearFrame_of_ne (T : Nat → Fin 512 → Nat) {n m : Nat} (j : Fin 512) (h : m ≠ n) :
  clearFrame T n m j = T m j
  := by
  rw [clearFrame, if_neg h]

/-- The memory with the given words. -/
def ofWords (T : Nat → Fin 512 → Nat) : Memory :=
  fun x => UInt8.ofNat (T (x / pageSize) (Fin.ofNat 512 (x / 8)) / 256 ^ (x % 8))

theorem words_ofWords {T : Nat → Fin 512 → Nat} {n : Nat} {i : Fin 512} (h : T n i < 2 ^ 64) :
  words (ofWords T) n i = T n i
  := by
  have hi := i.isLt
  have hload : (ofWords T).load (frame n + 8 * i) 8 = T n i % 256 ^ 8 := by
    apply Memory.load_eq_of_bytes
    intro j hj
    have hframe : (frame n + 8 * i + j) / pageSize = n := by
      simp only [frame, pageSize]
      omega
    have hindex : Fin.ofNat 512 ((frame n + 8 * i + j) / 8) = i := by
      apply Fin.ext
      simp only [frame, pageSize, Fin.val_ofNat]
      omega
    have hbyte : (frame n + 8 * i + j) % 8 = j := by
      simp only [frame, pageSize]
      omega
    rw [ofWords, hframe, hindex, hbyte]
  rw [words, hload]
  apply Nat.mod_eq_of_lt h

/-! ### The frames to come -/

/-- The next calls of `pmm_alloc` return the frames `fs`. -/
def Supply : List Nat → Machine → Prop
  | [], _ => True
  | f :: fs, s => ∃ s', pmmAlloc s = some (frame f, s') ∧ Supply fs s'

/-- `pmm_alloc` of a running allocator. -/
theorem pmmAlloc_running {s : Machine} (hrun : s.pmmRunning = true) (hstack : s.pmmStack ≠ 0) :
  pmmAlloc s = some (v2p s.pmmStack,
    { s.take (v2p s.pmmStack) with pmmStack := s.mem.load (v2p s.pmmStack) 8 })
  := by
  rw [pmmAlloc, if_pos hrun, if_neg hstack]

/-- `pmm_alloc` before the allocator runs. -/
theorem pmmAlloc_boot {s : Machine} (hrun : s.pmmRunning ≠ true) :
  pmmAlloc s = some (v2p s.pmmPos,
    { s.take (v2p s.pmmPos) with pmmPos := incptr s.pmmPos pageSize })
  := by
  rw [pmmAlloc, if_neg hrun]

/-- The two ways in which `pmm_alloc` returns. -/
theorem pmmAlloc_cases {s s' : Machine} {page : Nat} (h : pmmAlloc s = some (page, s')) :
  (s.pmmRunning = true ∧ s.pmmStack ≠ 0 ∧ page = v2p s.pmmStack
      ∧ s' = { s.take page with pmmStack := s.mem.load page 8 })
    ∨ (s.pmmRunning ≠ true ∧ page = v2p s.pmmPos
      ∧ s' = { s.take page with pmmPos := incptr s.pmmPos pageSize })
  := by
  by_cases hrun : s.pmmRunning = true
  · by_cases hstack : s.pmmStack = 0
    · rw [pmmAlloc, if_pos hrun, if_pos hstack] at h
      cases h
    · rw [pmmAlloc_running hrun hstack] at h
      obtain ⟨rfl, rfl⟩ := Prod.mk.inj (Option.some.inj h)
      exact Or.inl ⟨hrun, hstack, rfl, rfl⟩
  · rw [pmmAlloc_boot hrun] at h
    obtain ⟨rfl, rfl⟩ := Prod.mk.inj (Option.some.inj h)
    exact Or.inr ⟨hrun, rfl, rfl⟩

/-- `pmm_alloc` does not write to the memory. -/
theorem pmmAlloc_mem {s s' : Machine} {page : Nat} (h : pmmAlloc s = some (page, s')) :
  s'.mem = s.mem
  := by
  obtain ⟨-, -, -, rfl⟩ | ⟨-, -, rfl⟩ := pmmAlloc_cases h
  · rfl
  · rfl

/-- `pmm_alloc` writes down the frame it returns. -/
theorem pmmAlloc_taken {s s' : Machine} {page : Nat} (h : pmmAlloc s = some (page, s')) :
  s'.taken = page / pageSize :: s.taken ∧ s'.freed = s.freed
  := by
  obtain ⟨-, -, -, rfl⟩ | ⟨-, -, rfl⟩ := pmmAlloc_cases h
  · exact ⟨rfl, rfl⟩
  · exact ⟨rfl, rfl⟩

/-- `pmm_alloc` reads the first word of the frame it returns. -/
theorem pmmAlloc_withMem {s s' : Machine} {f : Nat} {mem : Memory}
    (h : pmmAlloc s = some (frame f, s')) (hmem : words mem f 0 = words s.mem f 0) :
  pmmAlloc (s.withMem mem) = some (frame f, s'.withMem mem)
  := by
  have hword : mem.load (frame f) 8 = s.mem.load (frame f) 8 := hmem
  obtain ⟨hrun, hstack, hf, rfl⟩ | ⟨hrun, hf, rfl⟩ := pmmAlloc_cases h
  · have halloc : pmmAlloc (s.withMem mem) = some (v2p s.pmmStack,
        { (s.withMem mem).take (v2p s.pmmStack) with
          pmmStack := mem.load (v2p s.pmmStack) 8 }) :=
      pmmAlloc_running hrun hstack
    rw [halloc, ← hf, hword]
    rfl
  · have halloc : pmmAlloc (s.withMem mem) = some (v2p s.pmmPos,
        { (s.withMem mem).take (v2p s.pmmPos) with
          pmmPos := incptr s.pmmPos pageSize }) := pmmAlloc_boot hrun
    rw [halloc, ← hf]
    rfl

/-- The frames to come are the same when the first words of these frames are kept. -/
theorem Supply.withMem {mem : Memory} :
  ∀ {fs : List Nat} {s : Machine}, Supply fs s →
    (∀ f ∈ fs, words mem f 0 = words s.mem f 0) → Supply fs (s.withMem mem)
  | [], _, _, _ => trivial
  | f :: fs, s, ⟨s', halloc, hfs⟩, hmem => by
      rw [List.forall_mem_cons] at hmem
      refine ⟨s'.withMem mem, pmmAlloc_withMem halloc hmem.1, ?_⟩
      apply hfs.withMem
      rw [pmmAlloc_mem halloc]
      apply hmem.2

/-! ### The free stack -/

/-- The pointer `v` is the head of the stack of the free frames `fs`. -/
def FreeStack (m : Memory) : Nat → List Nat → Prop
  | v, [] => v = 0
  | v, f :: fs => v ≠ 0 ∧ v = p2v (frame f) ∧ frame f < 2 ^ 64 ∧ FreeStack m (words m f 0) fs

/-- The free stack depends on the first words of its frames only. -/
theorem FreeStack.congr {m m' : Memory} :
  ∀ {v : Nat} {fs : List Nat}, FreeStack m v fs → (∀ f ∈ fs, words m' f 0 = words m f 0) →
    FreeStack m' v fs
  | _, [], h, _ => h
  | _, f :: _, ⟨hne, hv, hf, hfs⟩, hm => by
      rw [List.forall_mem_cons] at hm
      refine ⟨hne, hv, hf, ?_⟩
      rw [hm.1]
      apply hfs.congr hm.2

theorem FreeStack.lt {m : Memory} {v : Nat} {fs : List Nat} (h : FreeStack m v fs) :
  v < 2 ^ 64
  := by
  cases fs with
  | nil =>
      obtain rfl : v = 0 := h
      decide
  | cons f fs =>
      rw [h.2.1]
      apply p2v_lt

/-- The part of the stack from one of its frames on. -/
theorem FreeStack.drop {m : Memory} :
  ∀ {v f : Nat} {fs gs : List Nat}, FreeStack m v (fs ++ f :: gs) →
    ∃ w, w ≠ 0 ∧ w = p2v (frame f) ∧ frame f < 2 ^ 64 ∧ FreeStack m (words m f 0) gs
  | v, _, [], _, h => ⟨v, h⟩
  | _, _, _ :: _, _, ⟨_, _, _, h⟩ => h.drop

/-- The pointer to the head determines the frames of the stack. -/
theorem FreeStack.unique {m : Memory} :
  ∀ {v : Nat} {fs gs : List Nat}, FreeStack m v fs → FreeStack m v gs → fs = gs
  | _, [], [], _, _ => rfl
  | _, [], _ :: _, h, h' => absurd h h'.1
  | _, _ :: _, [], h, h' => absurd h' h.1
  | _, f :: fs, g :: gs, ⟨_, hv, hf, hfs⟩, ⟨_, hv', hg, hgs⟩ => by
      have hfg : f = g := by
        rw [← frame_div f, ← frame_div g, ← v2p_p2v hf, ← v2p_p2v hg, ← hv, ← hv']
      subst hfg
      rw [hfs.unique hgs]

/-- No frame is on the stack twice, since the stack has an end. -/
theorem FreeStack.nodup {m : Memory} :
  ∀ {v : Nat} {fs : List Nat}, FreeStack m v fs → fs.Nodup
  | _, [], _ => List.nodup_nil
  | _, f :: fs, ⟨_, _, _, hfs⟩ => by
      rw [List.nodup_cons]
      refine ⟨?_, hfs.nodup⟩
      intro hmem
      obtain ⟨l, l', rfl⟩ := List.append_of_mem hmem
      obtain ⟨w, -, -, -, hl'⟩ := hfs.drop
      have hlen := congrArg List.length (hfs.unique hl')
      simp at hlen
      omega

/-- `pmm_alloc` takes the first frame of the stack. -/
theorem FreeStack.alloc {s : Machine} {f : Nat} {fs : List Nat} (hrun : s.pmmRunning = true)
    (h : FreeStack s.mem s.pmmStack (f :: fs)) :
  ∃ s', pmmAlloc s = some (frame f, s') ∧ s'.mem = s.mem ∧ s'.pmmRunning = true
    ∧ FreeStack s'.mem s'.pmmStack fs
  := by
  obtain ⟨hne, hv, hf, hfs⟩ := h
  have hframe : v2p s.pmmStack = frame f := by
    rw [hv, v2p_p2v hf]
  refine ⟨{ s.take (frame f) with pmmStack := s.mem.load (frame f) 8 }, ?_, rfl, hrun, hfs⟩
  rw [pmmAlloc_running hrun hne, hframe]

/-- The frames of the stack are the frames to come. -/
theorem FreeStack.supply :
  ∀ {fs : List Nat} {s : Machine}, s.pmmRunning = true → FreeStack s.mem s.pmmStack fs →
    Supply fs s
  | [], _, _, _ => trivial
  | _ :: _, _, hrun, h => by
      obtain ⟨s', halloc, -, hrun', hfs⟩ := h.alloc hrun
      exact ⟨s', halloc, hfs.supply hrun'⟩

section Push

variable (s : Machine) (a p f : Nat)

theorem Machine.push_mem :
  (s.push a p f).mem = s.mem.store a 8 s.pmmStack
  := rfl

theorem Machine.push_stack :
  (s.push a p f).pmmStack = p
  := rfl

theorem Machine.push_running :
  (s.push a p f).pmmRunning = true
  := rfl

theorem Machine.push_history :
  (s.push a p f).taken = s.taken ∧ (s.push a p f).freed = f :: s.freed
  := ⟨rfl, rfl⟩

end Push

/-- `pmm_free` writes to the first word of the frame. -/
theorem pmmFree_mem {s : Machine} {page : Nat} (hpage : page < 2 ^ 64) :
  (pmmFree s page).mem = s.mem.store (frame (page / pageSize)) 8 s.pmmStack
  := by
  have hstrip : stripFlags page < 2 ^ 64 := Nat.lt_of_le_of_lt (Nat.div_mul_le_self page _) hpage
  rw [pmmFree, Machine.push_mem, v2p_p2v hstrip, stripFlags_eq]

/-- `pmm_free` writes down the frame. -/
theorem pmmFree_history (s : Machine) (page : Nat) :
  (pmmFree s page).taken = s.taken ∧ (pmmFree s page).freed = page / pageSize :: s.freed
  := Machine.push_history _ _ _ _

theorem pmmFree_running (s : Machine) (page : Nat) :
  (pmmFree s page).pmmRunning = true
  := Machine.push_running _ _ _ _

theorem pmmFree_stack (s : Machine) (page : Nat) :
  (pmmFree s page).pmmStack = p2v (frame (page / pageSize))
  := by
  rw [pmmFree, Machine.push_stack, stripFlags_eq]

/-- The words after `pmm_free`: the first word of the frame is the old head of the stack. -/
theorem words_pmmFree {s : Machine} {page : Nat} (hpage : page < 2 ^ 64)
    (hstack : s.pmmStack < 2 ^ 64) :
  words (pmmFree s page).mem = setWord (words s.mem) (page / pageSize) 0 s.pmmStack
  := by
  rw [pmmFree_mem hpage]
  apply words_store _ _ 0 hstack

/-- The words other than the first one of the frame are kept by `pmm_free`. -/
theorem words_pmmFree_of_ne {s : Machine} {page n : Nat} {j : Fin 512} (hpage : page < 2 ^ 64)
    (h : n ≠ page / pageSize ∨ j ≠ 0) :
  words (pmmFree s page).mem n j = words s.mem n j
  := by
  rw [pmmFree_mem hpage]
  apply Memory.load_store_of_disjoint
  have hj := j.isLt
  simp only [frame]
  rw [pageSize] at h ⊢
  by_cases hn : n = page / 0x1000
  · have hval : j.val ≠ 0 := fun hval => h.resolve_left (not_not_intro hn) (Fin.ext hval)
    omega
  · omega

/-- `pmm_free` puts a frame that is not on the stack on the stack. -/
theorem FreeStack.free {s : Machine} {page : Nat} {fs : List Nat} (hpage : page < 2 ^ 64)
    (hne : p2v (stripFlags page) ≠ 0) (h : FreeStack s.mem s.pmmStack fs)
    (hnot : page / pageSize ∉ fs) :
  FreeStack (pmmFree s page).mem (pmmFree s page).pmmStack (page / pageSize :: fs)
  := by
  have hwords := words_pmmFree hpage h.lt
  have hstrip : stripFlags page < 2 ^ 64 := Nat.lt_of_le_of_lt (Nat.div_mul_le_self page _) hpage
  rw [stripFlags_eq] at hne hstrip
  rw [pmmFree_stack]
  refine ⟨hne, rfl, hstrip, ?_⟩
  rw [hwords, setWord_self]
  apply h.congr
  intro f hf
  rw [hwords, setWord_of_ne]
  left
  rintro rfl
  apply hnot hf

end Mem
