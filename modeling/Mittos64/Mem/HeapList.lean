import Mathlib.Data.List.Chain
import Mittos64.Mem.Heap

/-!
# The chunks of the heap

The heap seen as the sequence of its chunks.  `Linked m p cs n` says that the headers in
the memory link the chunks `cs` in this order, the first back to `p` and the last on to
`n`, and hold their sizes and flags; `Tiles lo cs hi` says that the chunks fill the
addresses from `lo` to `hi` without a gap.  A function of the heap that takes a list of
chunks to another one writes the headers of these chunks only.
-/

namespace Heap

/-- A chunk: the address of its header, the number of its bytes, and whether it is free. -/
@[ext]
structure Chunk where
  addr : Nat
  size : Nat
  free : Bool
  deriving DecidableEq, Repr

/-- The address of the first byte of the chunk, behind its header. -/
def Chunk.data (c : Chunk) : Nat :=
  c.addr + chunkHeader

/-- The first address behind the chunk. -/
def Chunk.stop (c : Chunk) : Nat :=
  c.data + c.size

/-- The flags of the chunk. -/
def Chunk.flags (c : Chunk) : UInt8 :=
  if c.free then chunkFree else 0

/-- The address of the first chunk, or `n` when there is none. -/
def firstAddr (cs : List Chunk) (n : Nat) : Nat :=
  match cs with
  | [] => n
  | c :: _ => c.addr

/-- The address of the last chunk, or `p` when there is none. -/
def lastAddr (p : Nat) (cs : List Chunk) : Nat :=
  match cs with
  | [] => p
  | c :: cs => lastAddr c.addr cs

/-- The headers of the chunks `cs` link them in order, the first back to `p`, the last on
to `n`. -/
def Linked (m : Memory) : Nat → List Chunk → Nat → Prop
  | _, [], _ => True
  | p, c :: cs, n =>
      header m c.addr = ⟨p, firstAddr cs n, c.flags, c.size⟩ ∧ Linked m c.addr cs n

/-- The chunks `cs` fill the addresses from `lo` to `hi`. -/
def Tiles : Nat → List Chunk → Nat → Prop
  | lo, [], hi => lo = hi
  | lo, c :: cs, hi => c.addr = lo ∧ Tiles c.stop cs hi

/-- No two neighbours are free. -/
def NoFreeNeighbours (cs : List Chunk) : Prop :=
  cs.IsChain fun c c' => ¬ (c.free ∧ c'.free)

@[simp]
theorem firstAddr_append (l r : List Chunk) (n : Nat) :
  firstAddr (l ++ r) n = firstAddr l (firstAddr r n)
  := by
  cases l with
  | nil => rfl
  | cons c l => rfl

@[simp]
theorem lastAddr_append (p : Nat) (l r : List Chunk) :
  lastAddr p (l ++ r) = lastAddr (lastAddr p l) r
  := by
  induction l generalizing p with
  | nil => rfl
  | cons c l ih => exact ih c.addr

/-- Linked chunks split at any place. -/
theorem linked_append {m : Memory} {r : List Chunk} {n : Nat} :
  ∀ {p : Nat} {l : List Chunk},
    Linked m p (l ++ r) n ↔ Linked m p l (firstAddr r n) ∧ Linked m (lastAddr p l) r n
  | p, [] => by simp [Linked, lastAddr]
  | p, c :: l => by
      rw [List.cons_append, Linked, Linked, linked_append, lastAddr, firstAddr_append, and_assoc]

/-- Linked chunks depend on their own headers only. -/
theorem Linked.congr {m m' : Memory} {n : Nat} :
  ∀ {p : Nat} {cs : List Chunk}, Linked m p cs n →
    (∀ c ∈ cs, header m' c.addr = header m c.addr) → Linked m' p cs n
  | _, [], _, _ => trivial
  | _, c :: _, ⟨hc, hcs⟩, h => by
      constructor
      · rw [h c List.mem_cons_self, hc]
      · apply hcs.congr
        intro c' hc'
        exact h c' (List.mem_cons_of_mem c hc')

/-- Tiled chunks split at any place. -/
theorem tiles_append {r : List Chunk} {hi : Nat} :
  ∀ {lo : Nat} {l : List Chunk},
    Tiles lo (l ++ r) hi ↔ ∃ mid, Tiles lo l mid ∧ Tiles mid r hi
  | lo, [] => by simp [Tiles]
  | lo, c :: l => by
      simp only [List.cons_append, Tiles, tiles_append]
      constructor
      · rintro ⟨hc, mid, hl, hr⟩
        exact ⟨mid, ⟨hc, hl⟩, hr⟩
      · rintro ⟨mid, ⟨hc, hl⟩, hr⟩
        exact ⟨hc, mid, hl, hr⟩

/-- Tiles go upwards. -/
theorem Tiles.le :
  ∀ {lo hi : Nat} {cs : List Chunk}, Tiles lo cs hi → lo ≤ hi
  | _, _, [], h => Nat.le_of_eq h
  | _, _, c :: _, ⟨hc, hcs⟩ => by
      have hle := hcs.le
      simp only [Chunk.stop, Chunk.data] at hle
      omega

/-- A tile lies between the ends. -/
theorem Tiles.mem_le :
  ∀ {lo hi : Nat} {cs : List Chunk}, Tiles lo cs hi →
    ∀ c ∈ cs, lo ≤ c.addr ∧ c.stop ≤ hi
  | _, _, [], _, _, hmem => absurd hmem List.not_mem_nil
  | _, _, c :: _, ⟨hc, hcs⟩, c', hmem => by
      obtain rfl | hmem := List.mem_cons.mp hmem
      · exact ⟨Nat.le_of_eq hc.symm, hcs.le⟩
      · have hle := hcs.mem_le c' hmem
        simp only [Chunk.stop, Chunk.data] at hle ⊢
        omega

/-- The first tile starts below the upper end. -/
theorem Tiles.firstAddr_le {lo hi : Nat} {cs : List Chunk} (h : Tiles lo cs hi) :
  firstAddr cs 0 ≤ hi
  := by
  cases cs with
  | nil => exact Nat.zero_le hi
  | cons c cs =>
      have hle := h.mem_le c List.mem_cons_self
      simp only [Chunk.stop, Chunk.data] at hle
      rw [firstAddr]
      omega

/-- The first tile starts at the lower end. -/
theorem Tiles.firstAddr_eq {lo hi : Nat} {cs : List Chunk} (h : Tiles lo cs hi) (hlt : lo < hi) :
  firstAddr cs 0 = lo
  := by
  cases cs with
  | nil => exact absurd h (Nat.ne_of_lt hlt)
  | cons c cs => exact h.1

/-- The tiles come in the order of their addresses and do not overlap. -/
theorem Tiles.pairwise :
  ∀ {lo hi : Nat} {cs : List Chunk}, Tiles lo cs hi → cs.Pairwise fun c c' => c.stop ≤ c'.addr
  | _, _, [], _ => List.Pairwise.nil
  | _, _, _ :: _, ⟨_, hcs⟩ => by
      constructor
      · intro c' hc'
        exact (hcs.mem_le c' hc').1
      · exact hcs.pairwise

/-- Different tiles are the same chunk or have headers and bytes apart. -/
theorem Tiles.apart {lo hi : Nat} {cs : List Chunk} (h : Tiles lo cs hi) {c c' : Chunk}
    (hc : c ∈ cs) (hc' : c' ∈ cs) :
  c = c' ∨ c.stop ≤ c'.addr ∨ c'.stop ≤ c.addr
  := by
  induction cs generalizing lo with
  | nil => exact absurd hc List.not_mem_nil
  | cons d cs ih =>
      have hd := List.pairwise_cons.mp h.pairwise
      obtain rfl | hmem := List.mem_cons.mp hc
      · obtain rfl | hmem' := List.mem_cons.mp hc'
        · exact Or.inl rfl
        · exact Or.inr (Or.inl (hd.1 c' hmem'))
      · obtain rfl | hmem' := List.mem_cons.mp hc'
        · exact Or.inr (Or.inr (hd.1 c hmem))
        · exact ih h.2 hmem hmem'

/-- Tiles with the same address are the same. -/
theorem Tiles.addr_inj {lo hi : Nat} {cs : List Chunk} (h : Tiles lo cs hi) {c c' : Chunk}
    (hc : c ∈ cs) (hc' : c' ∈ cs) (haddr : c.addr = c'.addr) :
  c = c'
  := by
  have hapart := h.apart hc hc'
  simp only [Chunk.stop, Chunk.data, chunkHeader] at hapart
  obtain heq | hlt | hlt := hapart
  · exact heq
  · omega
  · omega

/-- The memories differ in the headers of the chunks at most. -/
def SameButHeaders (cs : List Chunk) (m m' : Memory) : Prop :=
  ∀ x, (∀ c ∈ cs, x < c.addr ∨ c.data ≤ x) → m' x = m x

theorem SameButHeaders.refl (cs : List Chunk) (m : Memory) :
  SameButHeaders cs m m
  := fun _ _ => rfl

theorem SameButHeaders.trans {cs : List Chunk} {m m' m'' : Memory}
    (h : SameButHeaders cs m m') (h' : SameButHeaders cs m' m'') :
  SameButHeaders cs m m''
  := by
  intro x hx
  rw [h' x hx, h x hx]

/-- The headers written may be those of more chunks. -/
theorem SameButHeaders.mono {cs cs' : List Chunk} {m m' : Memory}
    (h : SameButHeaders cs m m') (hcs : ∀ c ∈ cs, ∃ c' ∈ cs', c'.addr = c.addr) :
  SameButHeaders cs' m m'
  := by
  intro x hx
  apply h
  intro c hc
  obtain ⟨c', hc', haddr⟩ := hcs c hc
  have hx' := hx c' hc'
  rw [Chunk.data] at hx' ⊢
  rw [← haddr]
  exact hx'

theorem SameBut.sameButHeaders {cs : List Chunk} {m m' : Memory} {c : Chunk}
    (h : SameBut c.addr m m') (hc : c ∈ cs) :
  SameButHeaders cs m m'
  := by
  intro x hx
  exact h x (hx c hc)

/-- Linked chunks depend on the bytes they fill only. -/
theorem Linked.frame {m m' : Memory} {p n lo hi : Nat} {cs : List Chunk}
    (h : Linked m p cs n) (ht : Tiles lo cs hi) (hm : ∀ x, lo ≤ x → x < hi → m' x = m x) :
  Linked m' p cs n
  := by
  apply h.congr
  intro c hc
  have hle := ht.mem_le c hc
  simp only [Chunk.stop, Chunk.data] at hle
  apply header_congr
  intro x hx hx'
  exact hm x (by omega) (by omega)

/-- `if(n) n->p = v`, for the address `n` of the first chunk or null. -/
theorem Linked.setFirstP {m : Memory} {q v lo hi : Nat} {r : List Chunk} (h : Linked m q r 0)
    (ht : Tiles lo r hi) (hlo : 0 < lo) (hv : v < 2 ^ 64) :
  ∃ m', (if firstAddr r 0 ≠ 0 then setP m (firstAddr r 0) v else m) = m'
    ∧ Linked m' v r 0 ∧ SameButHeaders r m m' ∧ ∀ x, x < lo → m' x = m x
  := by
  cases r with
  | nil => exact ⟨m, rfl, trivial, SameButHeaders.refl [] m, fun _ _ => rfl⟩
  | cons c r =>
      obtain ⟨rfl, htr⟩ := ht
      obtain ⟨hc, hr⟩ := h
      have hsame := setP_sameBut m c.addr v
      refine ⟨setP m c.addr v, if_pos (Nat.ne_of_gt hlo), ⟨?_, ?_⟩, ?_, ?_⟩
      · rw [header_setP, hc, Nat.mod_eq_of_lt hv]
      · apply hr.frame htr
        intro x hx hx'
        simp only [Chunk.stop, Chunk.data] at hx
        exact hsame x (by omega)
      · exact hsame.sameButHeaders List.mem_cons_self
      · intro x hx
        exact hsame x (Or.inl hx)

/-! ### Joining chunks -/

/-- The chunk `c` with the chunk `d` behind it. -/
def Chunk.join (c d : Chunk) : Chunk :=
  { c with size := c.size + d.size + chunkHeader }

theorem Chunk.join_stop {c d : Chunk} (h : d.addr = c.stop) :
  (c.join d).stop = d.stop
  := by
  simp only [Chunk.stop, Chunk.data, Chunk.join] at h ⊢
  omega

/-- Joining two neighbours leaves the same addresses filled. -/
theorem Tiles.join {lo hi : Nat} {l r : List Chunk} {c d : Chunk}
    (h : Tiles lo (l ++ c :: d :: r) hi) :
  Tiles lo (l ++ c.join d :: r) hi
  := by
  obtain ⟨mid, hl, hc, hd, hr⟩ := tiles_append.mp h
  apply tiles_append.mpr
  refine ⟨mid, hl, hc, ?_⟩
  rw [Chunk.join_stop hd]
  exact hr

/-- `absorb` joins two neighbours. -/
theorem absorb_spec {m : Memory} {p lo hi : Nat} {l r : List Chunk} {c d : Chunk}
    (h : Linked m p (l ++ c :: d :: r) 0) (ht : Tiles lo (l ++ c :: d :: r) hi)
    (hlo : 0 < lo) (hhi : hi < 2 ^ 64) :
  Linked (absorb m c.addr d.addr) p (l ++ c.join d :: r) 0
    ∧ SameButHeaders (l ++ c :: d :: r) m (absorb m c.addr d.addr)
  := by
  obtain ⟨hl, hc, hd, hr⟩ := linked_append.mp h
  obtain ⟨mid, htl, rfl, hcd, htr⟩ := tiles_append.mp ht
  have hle := htl.le
  have hle' := htr.le
  have hcm : c ∈ l ++ c :: d :: r := by simp
  simp only [Chunk.stop, Chunk.data] at hcd htr hle'
  have hapart : Apart d.addr c.addr := by
    rw [Apart]
    omega
  -- the writes to the header of `c`
  obtain ⟨m₁, hm₁⟩ : ∃ m₁, m₁ =
      setSize m c.addr (((header m c.addr).size + (header m d.addr).size + chunkHeader) % 2 ^ 64) :=
    ⟨_, rfl⟩
  have hsame₁ : SameBut c.addr m m₁ := by
    rw [hm₁]
    exact setSize_sameBut m c.addr _
  have hd₁ : header m₁ d.addr = ⟨c.addr, firstAddr r 0, d.flags, d.size⟩ := by
    rw [hsame₁.header hapart, hd]
  obtain ⟨m₂, hm₂⟩ : ∃ m₂, m₂ = setN m₁ c.addr (firstAddr r 0) := ⟨_, rfl⟩
  have hsame₂ : SameBut c.addr m₁ m₂ := by
    rw [hm₂]
    exact setN_sameBut m₁ c.addr _
  have hsame : SameBut c.addr m m₂ := hsame₁.trans hsame₂
  -- the write to the header of the chunk behind `d`
  have hr₂ : Linked m₂ d.addr r 0 := by
    apply hr.frame htr
    intro x hx hx'
    exact hsame x (by omega)
  obtain ⟨m₃, hm₃, hr₃, hheaders, hbelow⟩ :=
    hr₂.setFirstP htr (by omega) (v := c.addr) (by omega)
  have habsorb : absorb m c.addr d.addr = m₃ := by
    simp only [absorb]
    rw [← hm₁, hd₁, ← hm₂]
    exact hm₃
  rw [habsorb]
  constructor
  · apply linked_append.mpr
    refine ⟨?_, ?_, hr₃⟩
    · apply hl.frame htl
      intro x hx hx'
      rw [hbelow x (by omega), hsame x (by omega)]
    · have hfirst := htr.firstAddr_le
      have hheader : header m₃ c.addr = header m₂ c.addr := by
        apply header_congr
        intro x hx hx'
        exact hbelow x (by omega)
      show header m₃ c.addr = _
      rw [hheader, hm₂, header_setN, hm₁, header_setSize, hc, hd,
        Nat.mod_eq_of_lt (Nat.lt_of_le_of_lt hfirst hhi), Nat.mod_mod,
        Nat.mod_eq_of_lt (by simp only; omega)]
      rfl
  · apply (hsame.sameButHeaders hcm).trans
    apply hheaders.mono
    intro z hz
    exact ⟨z, by simp [hz], rfl⟩

/-- A free chunk has the bit `CHUNK_FREE` set, a used one has not. -/
theorem isFree_of_header {m : Memory} {p n : Nat} {c : Chunk}
    (h : header m c.addr = ⟨p, n, c.flags, c.size⟩) :
  isFree m c.addr = c.free
  := by
  rw [isFree, h]
  have hflags : ∀ free : Bool,
      decide ((if free then chunkFree else 0) &&& chunkFree ≠ 0) = free := by
    decide
  exact hflags c.free

/-- The memory determines the chunks of a list. -/
theorem Linked.unique {m : Memory} :
  ∀ {p lo lo' hi hi' : Nat} {cs cs' : List Chunk}, Linked m p cs 0 → Linked m p cs' 0 →
    Tiles lo cs hi → Tiles lo' cs' hi' → 0 < lo → 0 < lo' → firstAddr cs 0 = firstAddr cs' 0 →
    cs = cs'
  | _, _, _, _, _, [], [], _, _, _, _, _, _, _ => rfl
  | _, _, _, _, _, [], d :: _, _, _, _, ht', _, hlo', hfirst => by
      rw [firstAddr, firstAddr, ht'.1] at hfirst
      omega
  | _, _, _, _, _, c :: _, [], _, _, ht, _, hlo, _, hfirst => by
      rw [firstAddr, firstAddr, ht.1] at hfirst
      omega
  | _, _, _, _, _, c :: cs, d :: cs', ⟨hc, hcs⟩, ⟨hd, hcs'⟩, ⟨haddr, ht⟩, ⟨haddr', ht'⟩, hlo, hlo',
    hfirst => by
      have hsame : c.addr = d.addr := hfirst
      have hfree := isFree_of_header hc
      rw [hsame, isFree_of_header hd] at hfree
      rw [hsame, hd, Header.mk.injEq] at hc
      obtain ⟨-, hnext, -, hsize⟩ := hc
      rw [hsame] at hcs
      have hrest := hcs.unique hcs' ht ht' (by rw [Chunk.stop, Chunk.data]; omega)
        (by rw [Chunk.stop, Chunk.data]; omega) hnext.symm
      have hcd : c = d := by
        rw [Chunk.mk.injEq]
        exact ⟨hsame, hsize.symm, hfree.symm⟩
      rw [hcd, hrest]

/-- The first branch of `merge_chunk` joins the chunk with a free chunk behind it. -/
theorem mergeNext_spec {m : Memory} {p lo hi : Nat} {l r : List Chunk} {c : Chunk}
    (h : Linked m p (l ++ c :: r) 0) (ht : Tiles lo (l ++ c :: r) hi) (hlo : 0 < lo)
    (hhi : hi < 2 ^ 64) (hfree : c.free = true) (hr : NoFreeNeighbours r) :
  ∃ m' c' r', mergeNext m c.addr = m'
    ∧ c'.addr = c.addr ∧ c'.free = true
    ∧ Linked m' p (l ++ c' :: r') 0 ∧ Tiles lo (l ++ c' :: r') hi
    ∧ NoFreeNeighbours (c' :: r')
    ∧ (∀ d ∈ r', d ∈ r) ∧ (∀ d ∈ r, d.free = false → d ∈ r')
    ∧ SameButHeaders (l ++ c :: r) m m'
  := by
  obtain ⟨-, hc, hlr⟩ := linked_append.mp h
  simp only [mergeNext, hc]
  cases r with
  | nil =>
      refine ⟨m, c, [], ?_, rfl, hfree, h, ht, List.isChain_singleton _, fun _ hd => hd,
        fun _ hd _ => hd, SameButHeaders.refl _ m⟩
      exact if_neg (by simp [firstAddr])
  | cons d r =>
      obtain ⟨mid, hl, rfl, hcd, -⟩ := tiles_append.mp ht
      have hle := hl.le
      have hne : d.addr ≠ 0 := by
        simp only [Chunk.stop, Chunk.data] at hcd
        omega
      rw [show firstAddr (d :: r) 0 = d.addr from rfl, isFree_of_header hlr.1]
      by_cases hd : d.free = true
      · obtain ⟨hlinked, hsame⟩ := absorb_spec h ht hlo hhi
        refine ⟨absorb m c.addr d.addr, c.join d, r, if_pos ⟨hne, hd⟩, rfl, hfree, hlinked,
          ht.join, ?_, fun _ => List.mem_cons_of_mem d, ?_, hsame⟩
        · cases r with
          | nil => exact List.isChain_singleton _
          | cons e r =>
              obtain ⟨hde, hr⟩ := List.isChain_cons_cons.mp hr
              apply List.isChain_cons_cons.mpr
              refine ⟨?_, hr⟩
              rintro ⟨-, he⟩
              exact hde ⟨hd, he⟩
        · intro e hmem he
          obtain rfl | hmem := List.mem_cons.mp hmem
          · rw [hd] at he
            cases he
          · exact hmem
      · refine ⟨m, c, d :: r, if_neg (fun hif => hd hif.2), rfl, hfree, h, ht, ?_,
          fun _ he => he, fun _ he _ => he, SameButHeaders.refl _ m⟩
        apply List.isChain_cons_cons.mpr
        refine ⟨?_, hr⟩
        rintro ⟨-, hd'⟩
        exact hd hd'

/-- The second branch of `merge_chunk` joins the chunk with a free chunk before it. -/
theorem mergePrev_spec {m : Memory} {lo hi : Nat} {l r : List Chunk} {c : Chunk}
    (h : Linked m 0 (l ++ c :: r) 0) (ht : Tiles lo (l ++ c :: r) hi) (hlo : 0 < lo)
    (hhi : hi < 2 ^ 64) (hfree : c.free = true) (hl : NoFreeNeighbours l)
    (hr : NoFreeNeighbours (c :: r)) :
  ∃ m' cs', mergePrev m c.addr = m'
    ∧ Linked m' 0 cs' 0 ∧ Tiles lo cs' hi ∧ NoFreeNeighbours cs'
    ∧ (∀ d, d.free = false → (d ∈ cs' ↔ d ∈ l ∨ d ∈ r))
    ∧ SameButHeaders (l ++ c :: r) m m'
  := by
  obtain ⟨hll, hc, hlr⟩ := linked_append.mp h
  simp only [mergePrev, hc]
  obtain rfl | ⟨l, e, rfl⟩ := l.eq_nil_or_concat
  · refine ⟨m, c :: r, if_neg (by simp [lastAddr]), h, ht, hr, ?_, SameButHeaders.refl _ m⟩
    intro d hd
    have hne : d ≠ c := by
      rintro rfl
      rw [hfree] at hd
      cases hd
    simp [hne]
  · rw [List.concat_eq_append] at h ht hl hll ⊢
    obtain ⟨-, he, -⟩ := linked_append.mp hll
    rw [List.append_assoc, List.singleton_append] at h ht ⊢
    obtain ⟨mid, htl, rfl, hec, htr⟩ := tiles_append.mp ht
    have hle := htl.le
    have hne : e.addr ≠ 0 := by
      omega
    rw [show lastAddr 0 (l ++ [e]) = e.addr by rw [lastAddr_append]; rfl, isFree_of_header he]
    obtain ⟨hll, -, hle⟩ := List.isChain_append.mp hl
    by_cases hfe : e.free = true
    · obtain ⟨hlinked, hsame⟩ := absorb_spec h ht hlo hhi
      refine ⟨absorb m e.addr c.addr, l ++ e.join c :: r, if_pos ⟨hne, hfe⟩, hlinked, ht.join,
        ?_, ?_, hsame⟩
      · apply List.isChain_append.mpr
        refine ⟨hll, ?_, ?_⟩
        · cases r with
          | nil => exact List.isChain_singleton _
          | cons d r =>
              obtain ⟨hcd, hr⟩ := List.isChain_cons_cons.mp hr
              apply List.isChain_cons_cons.mpr
              refine ⟨?_, hr⟩
              rintro ⟨-, hd⟩
              exact hcd ⟨hfree, hd⟩
        · intro x hx y hy
          obtain rfl : e.join c = y := by simpa using hy
          exact hle x hx e (by simp)
      · intro d hd
        have hne : d ≠ e.join c ∧ d ≠ e := by
          constructor
          · rintro rfl
            rw [show (e.join c).free = e.free from rfl, hfe] at hd
            cases hd
          · rintro rfl
            rw [hfe] at hd
            cases hd
        simp [hne.1, hne.2]
    · refine ⟨m, l ++ e :: c :: r, if_neg (fun hif => hfe hif.2), h, ht, ?_, ?_,
        SameButHeaders.refl _ m⟩
      · rw [← List.singleton_append, ← List.append_assoc]
        apply List.isChain_append.mpr
        refine ⟨hl, hr, ?_⟩
        intro x hx y hy
        obtain rfl : e = x := by simpa using hx
        rintro ⟨he, -⟩
        exact hfe he
      · intro d hd
        have hne : d ≠ c := by
          rintro rfl
          rw [hfree] at hd
          cases hd
        simp [hne, or_assoc]

/-- `merge_chunk` on a free chunk joins it with its free neighbours. -/
theorem mergeChunk_spec {m : Memory} {lo hi : Nat} {l r : List Chunk} {c : Chunk}
    (h : Linked m 0 (l ++ c :: r) 0) (ht : Tiles lo (l ++ c :: r) hi) (hlo : 0 < lo)
    (hhi : hi < 2 ^ 64) (hfree : c.free = true) (hl : NoFreeNeighbours l)
    (hr : NoFreeNeighbours r) :
  ∃ cs', Linked (mergeChunk m c.addr) 0 cs' 0 ∧ Tiles lo cs' hi ∧ NoFreeNeighbours cs'
    ∧ (∀ d, d.free = false → (d ∈ cs' ↔ d ∈ l ∨ d ∈ r))
    ∧ SameButHeaders (l ++ c :: r) m (mergeChunk m c.addr)
  := by
  obtain ⟨m₁, c', r', hm₁, haddr, hfree', hlinked₁, ht₁, hr₁, hr', hused₁, hsame₁⟩ :=
    mergeNext_spec h ht hlo hhi hfree hr
  obtain ⟨m₂, cs', hm₂, hlinked₂, ht₂, hcs₂, hused₂, hsame₂⟩ :=
    mergePrev_spec hlinked₁ ht₁ hlo hhi hfree' hl hr₁
  rw [haddr] at hm₂
  rw [mergeChunk, hm₁, hm₂]
  refine ⟨cs', hlinked₂, ht₂, hcs₂, ?_, ?_⟩
  · intro d hd
    rw [hused₂ d hd]
    exact or_congr_right ⟨hr' d, fun hmem => hused₁ d hmem hd⟩
  · apply hsame₁.trans
    apply hsame₂.mono
    intro d hd
    obtain hd | hd := List.mem_append.mp hd
    · exact ⟨d, List.mem_append_left _ hd, rfl⟩
    · obtain rfl | hd := List.mem_cons.mp hd
      · exact ⟨c, by simp, haddr.symm⟩
      · exact ⟨d, by simp [hr' d hd], rfl⟩

/-! ### Splitting chunks -/

/-- What is left of the chunk `c` when `size` bytes of it are used. -/
def Chunk.rest (c : Chunk) (size : Nat) : Chunk :=
  ⟨c.data + size, c.size - size - chunkHeader, true⟩

/-- The chunk `c` cut to `size` bytes, in use. -/
def Chunk.cut (c : Chunk) (size : Nat) : Chunk :=
  ⟨c.addr, size, false⟩

/-- The chunk `c` as a whole, in use. -/
def Chunk.used (c : Chunk) : Chunk :=
  ⟨c.addr, c.size, false⟩

/-- The chunks that stand for the free chunk `c` after `size` bytes of it are allocated. -/
def allocated (c : Chunk) (size : Nat) : List Chunk :=
  if c.size ≤ size + chunkHeader then [c.used] else [c.cut size, c.rest size]

/-- Allocating from a chunk leaves the same addresses filled. -/
theorem Tiles.allocated {lo hi size : Nat} {l r : List Chunk} {c : Chunk}
    (h : Tiles lo (l ++ c :: r) hi) :
  Tiles lo (l ++ (allocated c size ++ r)) hi
  := by
  obtain ⟨mid, hl, hc, hr⟩ := tiles_append.mp h
  apply tiles_append.mpr
  refine ⟨mid, hl, ?_⟩
  rw [Heap.allocated]
  split_ifs with hsize
  · exact ⟨hc, hr⟩
  · refine ⟨hc, rfl, ?_⟩
    have hstop : (c.rest size).stop = c.stop := by
      simp only [Chunk.stop, Chunk.data, Chunk.rest]
      omega
    rw [hstop]
    exact hr

/-- A chunk that is not large enough to be split is left as it is. -/
theorem splitChunk_of_le {m : Memory} {c size : Nat} (hsize : size + chunkHeader < 2 ^ 64)
    (h : (header m c).size ≤ size + chunkHeader) :
  splitChunk m c size = m
  := by
  rw [splitChunk, Nat.mod_eq_of_lt hsize, if_pos h]

/-- `split_chunk` on a chunk that is large enough, with the write of the flags that follows
it in `kmalloc`. -/
theorem splitChunk_spec {m : Memory} {lo hi size : Nat} {l r : List Chunk} {c : Chunk}
    (h : Linked m 0 (l ++ c :: r) 0) (ht : Tiles lo (l ++ c :: r) hi) (hlo : 0 < lo)
    (hhi : hi < 2 ^ 64) (hsize : size + chunkHeader < c.size) :
  Linked (setFlags (splitChunk m c.addr size) c.addr 0) 0 (l ++ c.cut size :: c.rest size :: r) 0
    ∧ SameButHeaders (l ++ c.cut size :: c.rest size :: r) m
        (setFlags (splitChunk m c.addr size) c.addr 0)
  := by
  obtain ⟨hl, hc, hr⟩ := linked_append.mp h
  obtain ⟨mid, htl, rfl, htr⟩ := tiles_append.mp ht
  have hle := htl.le
  have hle' := htr.le
  have hfirst := htr.firstAddr_le
  simp only [Chunk.stop, Chunk.data] at htr hle'
  obtain ⟨c₂, hc₂⟩ : ∃ c₂, c₂ = c.addr + chunkHeader + size := ⟨_, rfl⟩
  have hapart : Apart c.addr c₂ := by
    rw [Apart]
    omega
  have hapart' : Apart c₂ c.addr := by
    rw [Apart]
    omega
  -- the header of the new chunk
  obtain ⟨m₃, hm₃⟩ : ∃ m₃, m₃ = setN (setFlags (setSize m c₂
      ((c.size + 2 ^ 65 - size - chunkHeader) % 2 ^ 64)) c₂ chunkFree) c₂ (firstAddr r 0) :=
    ⟨_, rfl⟩
  have hflags : SameBut c₂ m (setFlags (setSize m c₂
      ((c.size + 2 ^ 65 - size - chunkHeader) % 2 ^ 64)) c₂ chunkFree) :=
    (setSize_sameBut m c₂ _).trans (setFlags_sameBut _ c₂ _)
  have hsame₃ : SameBut c₂ m m₃ := by
    rw [hm₃]
    exact hflags.trans (setN_sameBut _ c₂ _)
  have hsizes : (c.size + 2 ^ 65 - size - chunkHeader) % 2 ^ 64 = c.size - size - chunkHeader := by
    omega
  have hnew₃ : header m₃ c₂ =
      ⟨(header m c₂).p, firstAddr r 0, chunkFree, c.size - size - chunkHeader⟩ := by
    rw [hm₃, header_setN, header_setFlags, header_setSize, hsizes,
      Nat.mod_eq_of_lt (Nat.lt_of_le_of_lt hfirst hhi), Nat.mod_eq_of_lt (by omega)]
  -- the header of the chunk behind it
  have hr₃ : Linked m₃ c.addr r 0 := by
    apply hr.frame htr
    intro x hx hx'
    exact hsame₃ x (by omega)
  obtain ⟨m₄, hm₄, hr₄, hheaders, hbelow⟩ := hr₃.setFirstP htr (by omega) (v := c₂) (by omega)
  -- the headers of both parts
  obtain ⟨m₈, hm₈⟩ : ∃ m₈, m₈ =
      setFlags (setSize (setP (setN m₄ c.addr c₂) c₂ c.addr) c.addr size) c.addr 0 := ⟨_, rfl⟩
  have hsplit : setFlags (splitChunk m c.addr size) c.addr 0 = m₈ := by
    rw [splitChunk, hc, Nat.mod_eq_of_lt (by omega), if_neg (by simp only; omega),
      incptr_of_lt (p := c.addr) (by omega), incptr_of_lt (by omega), ← hc₂]
    simp only [hflags.header hapart, hc, ← hm₃, hm₄]
    exact hm₈.symm
  have hwrites : ∀ x, (x < c.addr ∨ c.addr + chunkHeader ≤ x) → (x < c₂ ∨ c₂ + chunkHeader ≤ x) →
      m₈ x = m₄ x := by
    intro x hx hx'
    rw [hm₈, setFlags_sameBut _ _ _ x hx, setSize_sameBut _ _ _ x hx, setP_sameBut _ _ _ x hx',
      setN_sameBut _ _ _ x hx]
  have hkeep : ∀ a, a + chunkHeader ≤ c.addr + chunkHeader + c.size →
      header m₄ a = header m₃ a := by
    intro a ha
    apply header_congr
    intro x hx hx'
    exact hbelow x (by omega)
  have hold : header m₈ c.addr = ⟨lastAddr 0 l, c₂, 0, size⟩ := by
    rw [hm₈, header_setFlags, header_setSize, (setP_sameBut _ c₂ _).header hapart, header_setN,
      hkeep _ (by omega), hsame₃.header hapart, hc, Nat.mod_eq_of_lt (by omega),
      Nat.mod_eq_of_lt (by omega)]
  have hnew : header m₈ c₂ =
      ⟨c.addr, firstAddr r 0, chunkFree, c.size - size - chunkHeader⟩ := by
    rw [hm₈, (setFlags_sameBut _ c.addr _).header hapart', (setSize_sameBut _ c.addr _).header hapart',
      header_setP, (setN_sameBut _ c.addr _).header hapart', hkeep _ (by omega), hnew₃,
      Nat.mod_eq_of_lt (by omega)]
  rw [hsplit]
  constructor
  · apply linked_append.mpr
    refine ⟨?_, ?_, ?_, ?_⟩
    · apply hl.frame htl
      intro x hx hx'
      rw [hwrites x (by omega) (by omega), hbelow x (by omega), hsame₃ x (by omega)]
    · rw [hc₂] at hold
      exact hold
    · rw [hc₂] at hnew
      exact hnew
    · rw [hc₂] at hr₄
      apply hr₄.frame htr
      intro x hx hx'
      exact hwrites x (by omega) (by omega)
  · intro x hx
    have hxc : x < c.addr ∨ c.addr + chunkHeader ≤ x := hx (c.cut size) (by simp)
    have hxc₂ : x < c₂ ∨ c₂ + chunkHeader ≤ x := by
      rw [hc₂]
      exact hx (c.rest size) (by simp)
    rw [hwrites x hxc hxc₂, hheaders x (fun d hd => hx d (by simp [hd])), hsame₃ x hxc₂]

/-- What `kmalloc` does to the free chunk it has found. -/
theorem allocate_spec {m : Memory} {lo hi size : Nat} {l r : List Chunk} {c : Chunk}
    (h : Linked m 0 (l ++ c :: r) 0) (ht : Tiles lo (l ++ c :: r) hi) (hlo : 0 < lo)
    (hhi : hi < 2 ^ 64) (hsize : size + chunkHeader < 2 ^ 64) :
  Linked (setFlags (splitChunk m c.addr size) c.addr 0) 0 (l ++ (allocated c size ++ r)) 0
    ∧ SameButHeaders (l ++ (allocated c size ++ r)) m
        (setFlags (splitChunk m c.addr size) c.addr 0)
  := by
  rw [allocated]
  split_ifs with hle
  · obtain ⟨hl, hc, hr⟩ := linked_append.mp h
    obtain ⟨mid, htl, rfl, htr⟩ := tiles_append.mp ht
    have hsame := setFlags_sameBut m c.addr 0
    rw [splitChunk_of_le hsize (by rw [hc]; exact hle)]
    constructor
    · apply linked_append.mpr
      refine ⟨?_, ?_, ?_⟩
      · apply hl.frame htl
        intro x hx hx'
        exact hsame x (Or.inl hx')
      · show header (setFlags m c.addr 0) c.addr = _
        rw [header_setFlags, hc]
        rfl
      · apply hr.frame htr
        intro x hx hx'
        simp only [Chunk.stop, Chunk.data] at hx
        exact hsame x (by omega)
    · exact hsame.sameButHeaders (c := c.used) (by simp)
  · exact splitChunk_spec h ht hlo hhi (by omega)

end Heap
