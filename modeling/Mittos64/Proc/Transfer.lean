import Mittos64.Lib.Blocks
import Mittos64.Mem.Follow
import Mittos64.Proc.Procmm

/-!
# What the copying loops write

`vmm_p4_memcpy` and `vmm_p4_memset` work in blocks that lie inside of a page, on both sides for
`vmm_p4_memcpy`.  They stop at the first hole: an entry without a frame, for which they take an
entry with the frame 0 as well.  All addresses before the hole have been written by then, but the
loops return 0.  This is so for any tables, and for ranges that wrap around the end of the address
space, as long as the loops do not write to the tables they go by.
-/

namespace Procmm

open Mem Blocks

/-! ### The loops as loops over blocks -/

section Blocks

variable (bootP4 : Nat)

/-- A turn of `vmm_p4_memcpy`, on the machine, `dst` and `src`. -/
def memcpyBlock (dstP4 srcP4 : Nat) :
    Machine × Nat × Nat → Nat → Option (Nat × Machine × Nat × Nat)
  | (s, dst, src), n =>
      let dOffset := dst % pageSize
      let sOffset := src % pageSize
      let bytes := min (min (pageSize - dOffset) (pageSize - sOffset)) n
      let dPage := stripFlags (vmmGetPage bootP4 s dstP4 dst)
      let sPage := stripFlags (vmmGetPage bootP4 s srcP4 src)
      if dPage = 0 ∨ sPage = 0 then none
      else
        some (bytes,
          s.withMem (s.mem.write (dPage + dOffset) (s.mem.read (sPage + sOffset) bytes)),
          incptr dst bytes, incptr src bytes)

/-- A turn of `vmm_p4_memset`, on the machine and `s`. -/
def memsetBlock (P4 : Nat) (c : UInt8) : Machine × Nat → Nat → Option (Nat × Machine × Nat)
  | (s, a), n =>
      let offset := a % pageSize
      let bytes := min (pageSize - offset) n
      let page := stripFlags (vmmGetPage bootP4 s P4 a)
      if page = 0 then none
      else some (bytes, s.withMem (s.mem.fill (page + offset) c bytes), incptr a bytes)

theorem memcpyLoop_eq (dstP4 srcP4 : Nat) (fuel : Nat) (s : Machine) (dst src n copied : Nat) :
  memcpyLoop bootP4 dstP4 srcP4 fuel s dst src n copied
    = ((loop (memcpyBlock bootP4 dstP4 srcP4) fuel (s, dst, src) n copied).1,
      (loop (memcpyBlock bootP4 dstP4 srcP4) fuel (s, dst, src) n copied).2.1)
  := by
  induction fuel generalizing s dst src n copied with
  | zero => rfl
  | succ fuel ih =>
      rw [memcpyLoop, loop, memcpyBlock]
      dsimp only
      split_ifs with hn hhole
      · rfl
      · rfl
      · rw [ih]

theorem memsetLoop_eq (P4 : Nat) (c : UInt8) (fuel : Nat) (s : Machine) (a n set : Nat) :
  memsetLoop bootP4 P4 c fuel s a n set
    = ((loop (memsetBlock bootP4 P4 c) fuel (s, a) n set).1,
      (loop (memsetBlock bootP4 P4 c) fuel (s, a) n set).2.1)
  := by
  induction fuel generalizing s a n set with
  | zero => rfl
  | succ fuel ih =>
      rw [memsetLoop, loop, memsetBlock]
      dsimp only
      split_ifs with hn hhole
      · rfl
      · rfl
      · rw [ih]

theorem memcpyBlock_proper (dstP4 srcP4 : Nat) :
  Proper (memcpyBlock bootP4 dstP4 srcP4)
  := by
  rintro ⟨s, dst, src⟩ n k x hn h
  have hd : dst % pageSize < pageSize := Nat.mod_lt _ (by decide)
  have hs : src % pageSize < pageSize := Nat.mod_lt _ (by decide)
  rw [memcpyBlock] at h
  split_ifs at h
  have hk := (Prod.mk.inj (Option.some.inj h)).1
  omega

theorem memsetBlock_proper (P4 : Nat) (c : UInt8) :
  Proper (memsetBlock bootP4 P4 c)
  := by
  rintro ⟨s, a⟩ n k x hn h
  have ha : a % pageSize < pageSize := Nat.mod_lt _ (by decide)
  rw [memsetBlock] at h
  split_ifs at h
  have hk := (Prod.mk.inj (Option.some.inj h)).1
  omega

end Blocks

/-! ### The bytes of an address space -/

/-- The physical address that the loops compute for the address `a` of the address space `r`. -/
def spot (T : Words) (r a : Nat) : Nat :=
  frame (entryAt T r a / pageSize) + a % pageSize

/-- The address `a` of the address space `r` lies in a hole: its entry has no frame, or the frame 0. -/
def Hole (T : Words) (r a : Nat) : Prop :=
  entryAt T r a / pageSize = 0

theorem spot_div (T : Words) (r a : Nat) :
  spot T r a / pageSize = entryAt T r a / pageSize
  := by
  rw [spot, frame, Nat.mul_add_div (by decide), Nat.div_eq_of_lt (Nat.mod_lt a (by decide)),
    Nat.add_zero]

theorem spot_mod (T : Words) (r a : Nat) :
  spot T r a % pageSize = a % pageSize
  := by
  rw [spot, frame, Nat.mul_add_mod, Nat.mod_mod]

theorem incptr_incptr (p n k : Nat) :
  incptr (incptr p n) k = incptr p (n + k)
  := by
  rw [incptr, incptr, incptr, Nat.mod_add_mod, Nat.add_assoc]

/-- A page does not wrap around the end of the address space. -/
theorem incptr_inside {a i : Nat} (ha : a < 2 ^ 64) (h : a % pageSize + i < pageSize) :
  incptr a i = a + i ∧ (a + i) / pageSize = a / pageSize
    ∧ (a + i) % pageSize = a % pageSize + i
  := by
  rw [pageSize] at h ⊢
  rw [incptr]
  omega

/-- The places of the addresses of a page follow one another. -/
theorem spot_incptr (T : Words) (r : Nat) {a i : Nat} (ha : a < 2 ^ 64)
    (h : a % pageSize + i < pageSize) :
  spot T r (incptr a i) = spot T r a + i
  := by
  obtain ⟨hadd, hdiv, hmod⟩ := incptr_inside ha h
  rw [hadd, spot, spot, entryAt_of_div_eq T r hdiv, hmod, Nat.add_assoc]

theorem hole_incptr (T : Words) (r : Nat) {a i : Nat} (ha : a < 2 ^ 64)
    (h : a % pageSize + i < pageSize) :
  Hole T r (incptr a i) ↔ Hole T r a
  := by
  obtain ⟨hadd, hdiv, -⟩ := incptr_inside ha h
  rw [hadd, Hole, Hole, entryAt_of_div_eq T r hdiv]

theorem stripFlags_eq_zero (e : Nat) :
  stripFlags e = 0 ↔ e / pageSize = 0
  := by
  rw [stripFlags_eq, frame, Nat.mul_eq_zero]
  constructor
  · rintro (hzero | hzero)
    · cases hzero
    · exact hzero
  · exact Or.inr

/-! ### The frames that are written -/

/-- A byte of the `n` addresses from `dst` on lies in the frame `f`. -/
def InFrame (T : Words) (q dst n f : Nat) : Prop :=
  f ≠ 0 ∧ ∃ i < n, entryAt T q (incptr dst i) / pageSize = f

/-- The tables by which the `m` addresses from `a` on are found are not among the frames of the
`n` addresses from `dst` on of the address space `q`. -/
def TablesApart (T : Words) (q dst n r a m : Nat) : Prop :=
  ∀ i < m, ∀ t ∈ found T r (tablePath (incptr a i)), ¬ InFrame T q dst n t

/-- The pages of the `n` addresses from `dst` on have frames of their own, which are not among
the tables by which they are found. -/
structure Target (T : Words) (q dst n : Nat) : Prop where
  tables : TablesApart T q dst n q dst n
  distinct : ∀ i j, i < n → j < n → incptr dst i / pageSize ≠ incptr dst j / pageSize →
    ¬ Hole T q (incptr dst i) →
    entryAt T q (incptr dst i) / pageSize ≠ entryAt T q (incptr dst j) / pageSize

/-- The `n` addresses from `src` on of the address space `q'` can be read while the `n` addresses
from `dst` on are written. -/
structure SourceApart (T : Words) (q dst n q' src : Nat) : Prop where
  tables : TablesApart T q dst n q' src n
  frames : ∀ i < n, ¬ InFrame T q dst n (entryAt T q' (incptr src i) / pageSize)

section Target

variable {T : Words} {q dst n : Nat}

/-- The places of a target are different ones. -/
theorem Target.spot_ne (h : Target T q dst n) (hn : n ≤ 2 ^ 64) {i j : Nat} (hi : i < n)
    (hj : j < n) (hij : i ≠ j) (hole : ¬ Hole T q (incptr dst i)) :
  spot T q (incptr dst i) ≠ spot T q (incptr dst j)
  := by
  intro heq
  have hmod : incptr dst i % pageSize = incptr dst j % pageSize := by
    rw [← spot_mod T q, ← spot_mod T q (incptr dst j), heq]
  have hne : incptr dst i ≠ incptr dst j := by
    rw [incptr, incptr]
    omega
  have hdiv : incptr dst i / pageSize ≠ incptr dst j / pageSize := by
    intro hdiv
    apply hne
    rw [← Nat.div_add_mod (incptr dst i) pageSize, hdiv, hmod, Nat.div_add_mod]
  apply h.distinct i j hi hj hdiv hole
  rw [← spot_div, ← spot_div, heq]

variable {m m' : Memory} {d : Nat} {bytes : Nat → UInt8}

/-- Memory outside of the frames of a range keeps its bytes when a part of the range is
written. -/
theorem wrote_other (hd : d ≤ n)
    (hw : m.Wrote m' (fun i => spot T q (incptr dst i)) d bytes)
    (hole : ∀ i < d, ¬ Hole T q (incptr dst i)) {x : Nat} (hx : ¬ InFrame T q dst n (x / pageSize)) :
  m' x = m x
  := by
  apply hw.other
  rintro i hi rfl
  apply hx
  rw [spot_div]
  exact ⟨hole i hi, i, by omega, rfl⟩

/-- What the loops find in tables apart from the range does not change when a part of the range is
written. -/
theorem entryAt_wrote {r a k : Nat} (htables : TablesApart T q dst n r a n) (hm : words m = T)
    (hd : d ≤ n) (hw : m.Wrote m' (fun i => spot T q (incptr dst i)) d bytes)
    (hole : ∀ i < d, ¬ Hole T q (incptr dst i)) (hk : k < n) :
  entryAt (words m') r (incptr a k) = entryAt T r (incptr a k)
  := by
  apply entryAt_congr
  intro t ht
  rw [← hm]
  funext i
  apply words_congr
  intro x hx hx'
  have hframe : x / pageSize = t := by
    rw [frame] at hx hx'
    rw [pageSize] at hx hx' ⊢
    omega
  apply wrote_other hd hw hole
  rw [hframe]
  exact htables k hk t ht

/-- Writing the next block. -/
theorem Target.append (h : Target T q dst n) (hn : n ≤ 2 ^ 64) {k : Nat} {m'' : Memory}
    (hk : d + k ≤ n) (hole : ∀ i < d, ¬ Hole T q (incptr dst i))
    (hw : m.Wrote m' (fun i => spot T q (incptr dst i)) d bytes)
    (hw' : m'.Wrote m'' (fun i => spot T q (incptr dst (d + i))) k fun i => bytes (d + i)) :
  m.Wrote m'' (fun i => spot T q (incptr dst i)) (d + k) bytes
  := by
  apply hw.append hw'
  intro i j hi hj
  exact h.spot_ne hn (by omega) (by omega) (by omega) (hole i hi)

end Target

/-! ### The turns of `vmm_p4_memcpy` -/

section Memcpy

variable {bootP4 dstP4 srcP4 q q' dst src n : Nat} {s : Machine}

/-- The memory when `vmm_p4_memcpy` has copied `d` bytes: those bytes of the target have been
written, and there was no hole before. -/
structure CopyTurn (s : Machine) (q dst q' src d : Nat) (m : Memory) : Prop where
  wrote : s.mem.Wrote m (fun i => spot (words s.mem) q (incptr dst i)) d
    fun i => s.mem (spot (words s.mem) q' (incptr src i))
  target : ∀ i < d, ¬ Hole (words s.mem) q (incptr dst i)
  source : ∀ i < d, ¬ Hole (words s.mem) q' (incptr src i)

/-- The next block of `vmm_p4_memcpy`, when `d` bytes have been copied. -/
theorem CopyTurn.block {d : Nat} {m : Memory} (h : CopyTurn s q dst q' src d m)
    (htarget : Target (words s.mem) q dst n) (hread : SourceApart (words s.mem) q dst n q' src)
    (hq : resolveP4 bootP4 dstP4 = frame q) (hq' : resolveP4 bootP4 srcP4 = frame q') (hd : d < n)
    {k : Nat} (hk : k
      = min (min (pageSize - incptr dst d % pageSize) (pageSize - incptr src d % pageSize)) (n - d)) :
  memcpyBlock bootP4 dstP4 srcP4 (s.withMem m, incptr dst d, incptr src d) (n - d)
    = if entryAt (words s.mem) q (incptr dst d) / pageSize = 0
        ∨ entryAt (words s.mem) q' (incptr src d) / pageSize = 0 then none
      else some (k, s.withMem (m.write (spot (words s.mem) q (incptr dst d))
        (m.read (spot (words s.mem) q' (incptr src d)) k)), incptr dst (d + k), incptr src (d + k))
  := by
  have hdentry := entryAt_wrote htarget.tables rfl (Nat.le_of_lt hd) h.wrote h.target hd
  have hsentry := entryAt_wrote hread.tables rfl (Nat.le_of_lt hd) h.wrote h.target hd
  rw [memcpyBlock, vmmGetPage_follow _ hq, vmmGetPage_follow _ hq', Machine.withMem_mem, hdentry,
    hsentry, ← hk, incptr_incptr, incptr_incptr]
  simp only [stripFlags_eq_zero]
  rw [stripFlags_eq, stripFlags_eq]
  rfl

theorem CopyTurn.start (s : Machine) (q dst q' src : Nat) :
  CopyTurn s q dst q' src 0 s.mem
  := by
  constructor
  · apply Memory.Wrote.refl
  · intro i hi
    cases hi
  · intro i hi
    cases hi

/-- A block without a hole. -/
theorem CopyTurn.turn {d k : Nat} {m : Memory} (h : CopyTurn s q dst q' src d m)
    (htarget : Target (words s.mem) q dst n) (hread : SourceApart (words s.mem) q dst n q' src)
    (hn : n ≤ 2 ^ 64) (hk : d + k ≤ n) (hkd : incptr dst d % pageSize + k ≤ pageSize)
    (hks : incptr src d % pageSize + k ≤ pageSize)
    (hdst : ¬ Hole (words s.mem) q (incptr dst d)) (hsrc : ¬ Hole (words s.mem) q' (incptr src d)) :
  CopyTurn s q dst q' src (d + k) (m.write (spot (words s.mem) q (incptr dst d))
    (m.read (spot (words s.mem) q' (incptr src d)) k))
  := by
  have hlt : ∀ a, incptr a d < 2 ^ 64 := fun a => Nat.mod_lt _ (by decide)
  have hdspot : ∀ i < k, spot (words s.mem) q (incptr dst (d + i))
      = spot (words s.mem) q (incptr dst d) + i := by
    intro i hi
    rw [← incptr_incptr, spot_incptr _ _ (hlt dst) (by omega)]
  have hsspot : ∀ i < k, spot (words s.mem) q' (incptr src (d + i))
      = spot (words s.mem) q' (incptr src d) + i := by
    intro i hi
    rw [← incptr_incptr, spot_incptr _ _ (hlt src) (by omega)]
  constructor
  · apply htarget.append hn hk h.target h.wrote
    apply Memory.wrote_write
    · apply Memory.read_length
    · exact hdspot
    · -- the bytes of the source are still those of the first machine
      intro i hi
      have hsame : m (spot (words s.mem) q' (incptr src (d + i)))
          = s.mem (spot (words s.mem) q' (incptr src (d + i))) := by
        apply wrote_other (Nat.le_of_add_right_le hk) h.wrote h.target
        rw [spot_div]
        exact hread.frames (d + i) (by omega)
      have hi' : i < (m.read (spot (words s.mem) q' (incptr src d)) k).length := by
        rwa [Memory.read_length]
      rw [← hsame, hsspot i hi, ← Memory.read_getElem m hi']
      simp [hi]
  · intro i hi
    by_cases hid : i < d
    · exact h.target i hid
    · obtain ⟨j, rfl⟩ := Nat.exists_eq_add_of_le (Nat.le_of_not_lt hid)
      rw [← incptr_incptr, hole_incptr _ _ (hlt dst) (by omega)]
      exact hdst
  · intro i hi
    by_cases hid : i < d
    · exact h.source i hid
    · obtain ⟨j, rfl⟩ := Nat.exists_eq_add_of_le (Nat.le_of_not_lt hid)
      rw [← incptr_incptr, hole_incptr _ _ (hlt src) (by omega)]
      exact hsrc

/-- What `vmm_p4_memcpy` has done after some turns. -/
theorem copyTurn_of_done {d : Nat} {x : Machine × Nat × Nat}
    (htarget : Target (words s.mem) q dst n) (hread : SourceApart (words s.mem) q dst n q' src)
    (hq : resolveP4 bootP4 dstP4 = frame q) (hq' : resolveP4 bootP4 srcP4 = frame q')
    (hn : n ≤ 2 ^ 64) (hdst : dst < 2 ^ 64) (hsrc : src < 2 ^ 64)
    (h : Done (memcpyBlock bootP4 dstP4 srcP4) (s, dst, src) n d x) :
  ∃ m, x = (s.withMem m, incptr dst d, incptr src d) ∧ CopyTurn s q dst q' src d m
  := by
  induction h with
  | start =>
      refine ⟨s.mem, ?_, .start s q dst q' src⟩
      rw [incptr_of_lt hdst, incptr_of_lt hsrc]
      rfl
  | @turn d k _ _ _ hd hblock ih =>
      obtain ⟨m, rfl, hturn⟩ := ih
      rw [hturn.block htarget hread hq hq' hd rfl] at hblock
      split_ifs at hblock with hole
      obtain ⟨hdhole, hshole⟩ := not_or.mp hole
      obtain ⟨hk, rfl⟩ := Prod.mk.inj (Option.some.inj hblock)
      rw [hk]
      refine ⟨_, rfl, ?_⟩
      have hmod : ∀ a, a % pageSize < pageSize := fun a => Nat.mod_lt a (by decide)
      have hdmod := hmod (incptr dst d)
      have hsmod := hmod (incptr src d)
      have hkmin := hk.symm.le
      rw [le_min_iff, le_min_iff] at hkmin
      exact hturn.turn htarget hread hn (by omega) (by omega) (by omega) hdhole hshole

/-- The number of bytes that `vmm_p4_memcpy` writes. -/
def memcpyWritten (bootP4 : Nat) (s : Machine) (dstP4 dst srcP4 src n : Nat) : Nat :=
  count (memcpyBlock bootP4 dstP4 srcP4) n (s, dst, src) n

/-- `vmm_p4_memcpy` copies all bytes, or those before the first hole, and then returns 0. -/
theorem vmmP4Memcpy_spec (htarget : Target (words s.mem) q dst n)
    (hread : SourceApart (words s.mem) q dst n q' src) (hq : resolveP4 bootP4 dstP4 = frame q)
    (hq' : resolveP4 bootP4 srcP4 = frame q') (hn : n ≤ 2 ^ 64) (hdst : dst < 2 ^ 64)
    (hsrc : src < 2 ^ 64) :
  ∃ d m, CopyTurn s q dst q' src d m ∧ memcpyWritten bootP4 s dstP4 dst srcP4 src n = d
    ∧ ((d = n ∧ vmmP4Memcpy bootP4 s dstP4 dst srcP4 src n = (n, s.withMem m))
      ∨ (d < n ∧ (Hole (words s.mem) q (incptr dst d) ∨ Hole (words s.mem) q' (incptr src d))
        ∧ vmmP4Memcpy bootP4 s dstP4 dst srcP4 src n = (0, s.withMem m)))
  := by
  have hproper := memcpyBlock_proper bootP4 dstP4 srcP4
  obtain ⟨d, x, hd, hend⟩ :=
    @Done.ends _ (memcpyBlock bootP4 dstP4 srcP4) (s, dst, src) _ n 0 hproper .start
  obtain ⟨m, rfl, hturn⟩ := copyTurn_of_done htarget hread hq hq' hn hdst hsrc hd
  refine ⟨d, m, hturn, ?_⟩
  rw [memcpyWritten, vmmP4Memcpy, memcpyLoop_eq]
  obtain rfl | ⟨hlt, hstuck⟩ := hend
  · obtain ⟨hloop, hcount⟩ := hd.loop_all hproper (Nat.le_refl _)
    rw [hloop]
    exact ⟨hcount, .inl ⟨rfl, rfl⟩⟩
  · obtain ⟨hloop, hcount⟩ := hd.loop_stuck hproper hlt hstuck (Nat.le_refl _)
    rw [hturn.block htarget hread hq hq' hlt rfl] at hstuck
    split_ifs at hstuck with hole
    rw [hloop]
    exact ⟨hcount, .inr ⟨hlt, hole, rfl⟩⟩

end Memcpy

/-! ### The turns of `vmm_p4_memset` -/

section Memset

variable {bootP4 P4 q a n : Nat} {c : UInt8} {s : Machine}

/-- The memory when `vmm_p4_memset` has set `d` bytes: there was no hole before. -/
structure FillTurn (s : Machine) (q a : Nat) (c : UInt8) (d : Nat) (m : Memory) : Prop where
  wrote : s.mem.Wrote m (fun i => spot (words s.mem) q (incptr a i)) d fun _ => c
  target : ∀ i < d, ¬ Hole (words s.mem) q (incptr a i)

/-- The next block of `vmm_p4_memset`, when `d` bytes have been set. -/
theorem FillTurn.block {d : Nat} {m : Memory} (h : FillTurn s q a c d m)
    (htarget : Target (words s.mem) q a n) (hq : resolveP4 bootP4 P4 = frame q) (hd : d < n)
    {k : Nat} (hk : k = min (pageSize - incptr a d % pageSize) (n - d)) :
  memsetBlock bootP4 P4 c (s.withMem m, incptr a d) (n - d)
    = if entryAt (words s.mem) q (incptr a d) / pageSize = 0 then none
      else some (k, s.withMem (m.fill (spot (words s.mem) q (incptr a d)) c k), incptr a (d + k))
  := by
  have hentry := entryAt_wrote htarget.tables rfl (Nat.le_of_lt hd) h.wrote h.target hd
  rw [memsetBlock, vmmGetPage_follow _ hq, Machine.withMem_mem, hentry, ← hk, incptr_incptr]
  simp only [stripFlags_eq_zero]
  rw [stripFlags_eq]
  rfl

theorem FillTurn.start (s : Machine) (q a : Nat) (c : UInt8) :
  FillTurn s q a c 0 s.mem
  := by
  constructor
  · apply Memory.Wrote.refl
  · intro i hi
    cases hi

/-- A block without a hole. -/
theorem FillTurn.turn {d k : Nat} {m : Memory} (h : FillTurn s q a c d m)
    (htarget : Target (words s.mem) q a n) (hn : n ≤ 2 ^ 64) (hk : d + k ≤ n)
    (hka : incptr a d % pageSize + k ≤ pageSize) (hole : ¬ Hole (words s.mem) q (incptr a d)) :
  FillTurn s q a c (d + k) (m.fill (spot (words s.mem) q (incptr a d)) c k)
  := by
  have hlt : incptr a d < 2 ^ 64 := Nat.mod_lt _ (by decide)
  constructor
  · apply htarget.append hn hk h.target h.wrote
    apply Memory.wrote_fill
    intro i hi
    rw [← incptr_incptr, spot_incptr _ _ hlt (by omega)]
  · intro i hi
    by_cases hid : i < d
    · exact h.target i hid
    · obtain ⟨j, rfl⟩ := Nat.exists_eq_add_of_le (Nat.le_of_not_lt hid)
      rw [← incptr_incptr, hole_incptr _ _ hlt (by omega)]
      exact hole

/-- What `vmm_p4_memset` has done after some turns. -/
theorem fillTurn_of_done {d : Nat} {x : Machine × Nat} (htarget : Target (words s.mem) q a n)
    (hq : resolveP4 bootP4 P4 = frame q) (hn : n ≤ 2 ^ 64) (ha : a < 2 ^ 64)
    (h : Done (memsetBlock bootP4 P4 c) (s, a) n d x) :
  ∃ m, x = (s.withMem m, incptr a d) ∧ FillTurn s q a c d m
  := by
  induction h with
  | start =>
      refine ⟨s.mem, ?_, .start s q a c⟩
      rw [incptr_of_lt ha]
      rfl
  | @turn d k _ _ _ hd hblock ih =>
      obtain ⟨m, rfl, hturn⟩ := ih
      rw [hturn.block htarget hq hd rfl] at hblock
      split_ifs at hblock with hole
      obtain ⟨hk, rfl⟩ := Prod.mk.inj (Option.some.inj hblock)
      rw [hk]
      refine ⟨_, rfl, ?_⟩
      have hmod : incptr a d % pageSize < pageSize := Nat.mod_lt _ (by decide)
      have hkmin := hk.symm.le
      rw [le_min_iff] at hkmin
      exact hturn.turn htarget hn (by omega) (by omega) hole

/-- The number of bytes that `vmm_p4_memset` writes. -/
def memsetWritten (bootP4 : Nat) (s : Machine) (P4 a : Nat) (c : UInt8) (n : Nat) : Nat :=
  count (memsetBlock bootP4 P4 c) n (s, a) n

/-- `vmm_p4_memset` sets all bytes, or those before the first hole, and then returns 0. -/
theorem vmmP4Memset_spec (c : UInt8) (htarget : Target (words s.mem) q a n)
    (hq : resolveP4 bootP4 P4 = frame q) (hn : n ≤ 2 ^ 64) (ha : a < 2 ^ 64) :
  ∃ d m, FillTurn s q a c d m ∧ memsetWritten bootP4 s P4 a c n = d
    ∧ ((d = n ∧ vmmP4Memset bootP4 s P4 a c n = (n, s.withMem m))
      ∨ (d < n ∧ Hole (words s.mem) q (incptr a d)
        ∧ vmmP4Memset bootP4 s P4 a c n = (0, s.withMem m)))
  := by
  have hproper := memsetBlock_proper bootP4 P4 c
  obtain ⟨d, x, hd, hend⟩ := @Done.ends _ (memsetBlock bootP4 P4 c) (s, a) _ n 0 hproper .start
  obtain ⟨m, rfl, hturn⟩ := fillTurn_of_done htarget hq hn ha hd
  refine ⟨d, m, hturn, ?_⟩
  rw [memsetWritten, vmmP4Memset, memsetLoop_eq]
  obtain rfl | ⟨hlt, hstuck⟩ := hend
  · obtain ⟨hloop, hcount⟩ := hd.loop_all hproper (Nat.le_refl _)
    rw [hloop]
    exact ⟨hcount, .inl ⟨rfl, rfl⟩⟩
  · obtain ⟨hloop, hcount⟩ := hd.loop_stuck hproper hlt hstuck (Nat.le_refl _)
    rw [hturn.block htarget hq hlt rfl] at hstuck
    split_ifs at hstuck with hole
    rw [hloop]
    exact ⟨hcount, .inr ⟨hlt, hole, rfl⟩⟩

end Memset

/-! ### Copying and filling whole ranges -/

/-- The call returns `n`, and the `n` bytes from `dst` on, and no others, have become `bytes`. -/
structure Transfers (s : Machine) (q dst n : Nat) (bytes : Nat → UInt8) (r : Nat × Machine) : Prop where
  returned : r.1 = n
  machine : r.2 = s.withMem r.2.mem
  wrote : s.mem.Wrote r.2.mem (fun i => spot (words s.mem) q (incptr dst i)) n bytes

section Whole

variable {bootP4 dstP4 srcP4 q q' dst src n : Nat} {s : Machine}

theorem memcpy_transfers_iff (htarget : Target (words s.mem) q dst n)
    (hread : SourceApart (words s.mem) q dst n q' src) (hq : resolveP4 bootP4 dstP4 = frame q)
    (hq' : resolveP4 bootP4 srcP4 = frame q') (hn : n < 2 ^ 64) (hdst : dst < 2 ^ 64)
    (hsrc : src < 2 ^ 64) :
  Transfers s q dst n (fun i => s.mem (spot (words s.mem) q' (incptr src i)))
      (vmmP4Memcpy bootP4 s dstP4 dst srcP4 src n)
    ↔ ∀ i < n, ¬ Hole (words s.mem) q (incptr dst i) ∧ ¬ Hole (words s.mem) q' (incptr src i)
  := by
  obtain ⟨d, m, hturn, -, ⟨rfl, hresult⟩ | ⟨hlt, hole, hresult⟩⟩ :=
    vmmP4Memcpy_spec htarget hread hq hq' (Nat.le_of_lt hn) hdst hsrc
  · rw [hresult]
    constructor
    · intro _ i hi
      exact ⟨hturn.target i hi, hturn.source i hi⟩
    · intro _
      exact ⟨rfl, rfl, hturn.wrote⟩
  · rw [hresult]
    constructor
    · intro h
      have hzero : 0 = n := h.returned
      omega
    · intro hnone
      obtain ⟨hdhole, hshole⟩ := hnone d hlt
      apply absurd hole (not_or.mpr ⟨hdhole, hshole⟩)

theorem memset_transfers_iff (c : UInt8) (htarget : Target (words s.mem) q dst n)
    (hq : resolveP4 bootP4 dstP4 = frame q) (hn : n < 2 ^ 64) (hdst : dst < 2 ^ 64) :
  Transfers s q dst n (fun _ => c) (vmmP4Memset bootP4 s dstP4 dst c n)
    ↔ ∀ i < n, ¬ Hole (words s.mem) q (incptr dst i)
  := by
  obtain ⟨d, m, hturn, -, ⟨rfl, hresult⟩ | ⟨hlt, hole, hresult⟩⟩ :=
    vmmP4Memset_spec c htarget hq (Nat.le_of_lt hn) hdst
  · rw [hresult]
    constructor
    · intro _
      exact hturn.target
    · intro _
      exact ⟨rfl, rfl, hturn.wrote⟩
  · rw [hresult]
    constructor
    · intro h
      have hzero : 0 = n := h.returned
      omega
    · intro hnone
      apply absurd hole (hnone d hlt)

/-- `vmm_p4_memcpy` and `vmm_p4_memset` end after at most `n` turns.  When the pages of the target
have frames of their own, apart from those of the source and from the tables, they copy and fill
the whole range, and nothing else, if and only if no page of it is missing or mapped to the
frame 0. -/
theorem transfers_iff (c : UInt8) (htarget : Target (words s.mem) q dst n)
    (hq : resolveP4 bootP4 dstP4 = frame q) (hn : n < 2 ^ 64) (hdst : dst < 2 ^ 64) :
  (∀ fuel, n ≤ fuel →
      memsetLoop bootP4 dstP4 c fuel s dst n 0 = vmmP4Memset bootP4 s dstP4 dst c n)
    ∧ (Transfers s q dst n (fun _ => c) (vmmP4Memset bootP4 s dstP4 dst c n)
      ↔ ∀ i < n, ¬ Hole (words s.mem) q (incptr dst i))
    ∧ ∀ srcP4 q' src, resolveP4 bootP4 srcP4 = frame q' → src < 2 ^ 64 →
      SourceApart (words s.mem) q dst n q' src →
        (∀ fuel, n ≤ fuel → memcpyLoop bootP4 dstP4 srcP4 fuel s dst src n 0
          = vmmP4Memcpy bootP4 s dstP4 dst srcP4 src n)
        ∧ (Transfers s q dst n (fun i => s.mem (spot (words s.mem) q' (incptr src i)))
            (vmmP4Memcpy bootP4 s dstP4 dst srcP4 src n)
          ↔ ∀ i < n, ¬ Hole (words s.mem) q (incptr dst i)
            ∧ ¬ Hole (words s.mem) q' (incptr src i))
  := by
  refine ⟨?_, memset_transfers_iff c htarget hq hn hdst, ?_⟩
  · intro fuel hfuel
    rw [vmmP4Memset, memsetLoop_eq, memsetLoop_eq, loop_fuel (memsetBlock_proper _ _ _) _ hfuel]
  · intro srcP4 q' src hq' hsrc hread
    refine ⟨?_, memcpy_transfers_iff htarget hread hq hq' hn hdst hsrc⟩
    intro fuel hfuel
    rw [vmmP4Memcpy, memcpyLoop_eq, memcpyLoop_eq, loop_fuel (memcpyBlock_proper _ _ _) _ hfuel]

end Whole

/-! ### The value returned at a hole -/

/-- The call returns the number of bytes it has written, and has changed nothing when it
returns 0. -/
structure Honest (s : Machine) (n written : Nat) (r : Nat × Machine) : Prop where
  returned : r.1 = written
  unchanged : r.1 = 0 → 0 < n → r.2.mem = s.mem

section Honest

variable {bootP4 dstP4 srcP4 q q' dst src n : Nat} {s : Machine}

theorem memcpy_honest_iff_returned :
  Honest s n (memcpyWritten bootP4 s dstP4 dst srcP4 src n)
      (vmmP4Memcpy bootP4 s dstP4 dst srcP4 src n)
    ↔ (vmmP4Memcpy bootP4 s dstP4 dst srcP4 src n).1 = memcpyWritten bootP4 s dstP4 dst srcP4 src n
  := by
  constructor
  · exact Honest.returned
  · intro heq
    refine ⟨heq, ?_⟩
    intro hzero _
    rw [heq, memcpyWritten] at hzero
    rw [vmmP4Memcpy, memcpyLoop_eq, loop_of_count (memcpyBlock_proper _ _ _) _ hzero]

theorem memset_honest_iff_returned (c : UInt8) :
  Honest s n (memsetWritten bootP4 s dstP4 dst c n) (vmmP4Memset bootP4 s dstP4 dst c n)
    ↔ (vmmP4Memset bootP4 s dstP4 dst c n).1 = memsetWritten bootP4 s dstP4 dst c n
  := by
  constructor
  · exact Honest.returned
  · intro heq
    refine ⟨heq, ?_⟩
    intro hzero _
    rw [heq, memsetWritten] at hzero
    rw [vmmP4Memset, memsetLoop_eq, loop_of_count (memsetBlock_proper _ _ _) _ hzero]

theorem memcpy_honest_iff_hole (htarget : Target (words s.mem) q dst n)
    (hread : SourceApart (words s.mem) q dst n q' src) (hq : resolveP4 bootP4 dstP4 = frame q)
    (hq' : resolveP4 bootP4 srcP4 = frame q') (hn : n < 2 ^ 64) (hdst : dst < 2 ^ 64)
    (hsrc : src < 2 ^ 64) :
  s.mem.Wrote (vmmP4Memcpy bootP4 s dstP4 dst srcP4 src n).2.mem
      (fun i => spot (words s.mem) q (incptr dst i))
      (memcpyWritten bootP4 s dstP4 dst srcP4 src n)
      (fun i => s.mem (spot (words s.mem) q' (incptr src i)))
    ∧ (Honest s n (memcpyWritten bootP4 s dstP4 dst srcP4 src n)
        (vmmP4Memcpy bootP4 s dstP4 dst srcP4 src n)
      ↔ (∀ i < n, ¬ Hole (words s.mem) q (incptr dst i) ∧ ¬ Hole (words s.mem) q' (incptr src i))
        ∨ Hole (words s.mem) q dst ∨ Hole (words s.mem) q' src)
  := by
  rw [memcpy_honest_iff_returned]
  obtain ⟨d, m, hturn, hwritten, ⟨rfl, hresult⟩ | ⟨hlt, hole, hresult⟩⟩ :=
    vmmP4Memcpy_spec htarget hread hq hq' (Nat.le_of_lt hn) hdst hsrc
  · rw [hresult, hwritten]
    refine ⟨hturn.wrote, ?_⟩
    constructor
    · intro _
      left
      intro i hi
      exact ⟨hturn.target i hi, hturn.source i hi⟩
    · intro _
      rfl
  · rw [hresult, hwritten]
    refine ⟨hturn.wrote, ?_⟩
    constructor
    · intro hzero
      obtain rfl : 0 = d := hzero
      rw [incptr_of_lt hdst, incptr_of_lt hsrc] at hole
      right
      exact hole
    · rintro (hnone | hfirst)
      · obtain ⟨hdhole, hshole⟩ := hnone d hlt
        apply absurd hole (not_or.mpr ⟨hdhole, hshole⟩)
      · by_contra hne
        have hpos : 0 < d := Nat.pos_of_ne_zero (Ne.symm hne)
        have hdhole := hturn.target 0 hpos
        have hshole := hturn.source 0 hpos
        rw [incptr_of_lt hdst] at hdhole
        rw [incptr_of_lt hsrc] at hshole
        apply absurd hfirst (not_or.mpr ⟨hdhole, hshole⟩)

theorem memset_honest_iff_hole (c : UInt8) (htarget : Target (words s.mem) q dst n)
    (hq : resolveP4 bootP4 dstP4 = frame q) (hn : n < 2 ^ 64) (hdst : dst < 2 ^ 64) :
  s.mem.Wrote (vmmP4Memset bootP4 s dstP4 dst c n).2.mem
      (fun i => spot (words s.mem) q (incptr dst i)) (memsetWritten bootP4 s dstP4 dst c n)
      (fun _ => c)
    ∧ (Honest s n (memsetWritten bootP4 s dstP4 dst c n) (vmmP4Memset bootP4 s dstP4 dst c n)
      ↔ (∀ i < n, ¬ Hole (words s.mem) q (incptr dst i)) ∨ Hole (words s.mem) q dst)
  := by
  rw [memset_honest_iff_returned]
  obtain ⟨d, m, hturn, hwritten, ⟨rfl, hresult⟩ | ⟨hlt, hole, hresult⟩⟩ :=
    vmmP4Memset_spec c htarget hq (Nat.le_of_lt hn) hdst
  · rw [hresult, hwritten]
    refine ⟨hturn.wrote, ?_⟩
    constructor
    · intro _
      left
      exact hturn.target
    · intro _
      rfl
  · rw [hresult, hwritten]
    refine ⟨hturn.wrote, ?_⟩
    constructor
    · intro hzero
      obtain rfl : 0 = d := hzero
      rw [incptr_of_lt hdst] at hole
      right
      exact hole
    · rintro (hnone | hfirst)
      · apply absurd hole (hnone d hlt)
      · by_contra hne
        have hdhole := hturn.target 0 (Nat.pos_of_ne_zero (Ne.symm hne))
        rw [incptr_of_lt hdst] at hdhole
        apply absurd hfirst hdhole

end Honest

/-- The words of one path of tables, from the P4 in the frame 1 on, with a page in the frame `f` and
a page in the frame `g` after it. -/
def twoPageWords (f g n : Nat) (i : Fin 512) : Nat :=
  if n = 4 then
    if i = 0 then addFlags (frame f) userFlags
    else if i = 1 then addFlags (frame g) userFlags
    else 0
  else if 1 ≤ n ∧ n ≤ 3 ∧ i = 0 then addFlags (frame (n + 1)) tableFlags
  else 0

/-- A machine with these tables. -/
def twoPageMachine (f g : Nat) : Machine where
  mem := ofWords (twoPageWords f g)
  pmmRunning := true
  pmmPos := 0
  pmmStack := 0
  taken := []
  freed := []

theorem words_twoPageMachine {f g : Nat} (hf : frame f < 2 ^ 64) (hg : frame g < 2 ^ 64) :
  words (twoPageMachine f g).mem = twoPageWords f g
  := by
  funext n i
  apply words_ofWords
  rw [twoPageWords]
  split_ifs with h4 h0 h1 hpath
  · apply addFlags_lt _ hf
  · apply addFlags_lt _ hg
  · decide
  · apply addFlags_lt
    rw [frame, pageSize]
    omega
  · decide

section TwoPages

variable {g dst n f : Nat}

theorem inFrame_twoPage
    (hframe : ∀ i < n, entryAt (twoPageWords 5 g) 1 (incptr dst i) / pageSize = 6
      ∨ entryAt (twoPageWords 5 g) 1 (incptr dst i) / pageSize = 0)
    (h : InFrame (twoPageWords 5 g) 1 dst n f) :
  f = 6
  := by
  obtain ⟨hne, i, hi, rfl⟩ := h
  exact (hframe i hi).resolve_right hne

/-- The tables are in the frames 1 to 4. -/
theorem tablesApart_twoPage {a : Nat}
    (hframe : ∀ i < n, entryAt (twoPageWords 5 g) 1 (incptr dst i) / pageSize = 6
      ∨ entryAt (twoPageWords 5 g) 1 (incptr dst i) / pageSize = 0)
    (hfound : ∀ i < n, found (twoPageWords 5 g) 1 (tablePath (incptr a i)) = [1, 2, 3, 4]) :
  TablesApart (twoPageWords 5 g) 1 dst n 1 a n
  := by
  intro i hi t ht hin
  rw [hfound i hi, inFrame_twoPage hframe hin] at ht
  simp at ht

end TwoPages

/-- Copying from the first page to the second one, and filling the second one. -/
theorem transfers_iff_twoPage :
  Transfers (twoPageMachine 5 6) 1 0x1000 2 (fun _ => 7)
      (vmmP4Memset 0x9000 (twoPageMachine 5 6) 0x1000 0x1000 7 2)
    ∧ Transfers (twoPageMachine 5 6) 1 0x1000 2
      (fun i => (twoPageMachine 5 6).mem (spot (words (twoPageMachine 5 6).mem) 1 (incptr 0 i)))
      (vmmP4Memcpy 0x9000 (twoPageMachine 5 6) 0x1000 0x1000 0x1000 0 2)
  := by
  have hwords : words (twoPageMachine 5 6).mem = twoPageWords 5 6 :=
    words_twoPageMachine (by decide) (by decide)
  have hdframe : ∀ i < 2, entryAt (twoPageWords 5 6) 1 (incptr 0x1000 i) / pageSize = 6 := by decide
  have hsframe : ∀ i < 2, entryAt (twoPageWords 5 6) 1 (incptr 0 i) / pageSize = 5 := by decide
  have hdfound : ∀ i < 2, found (twoPageWords 5 6) 1 (tablePath (incptr 0x1000 i)) = [1, 2, 3, 4] := by
    decide
  have hsfound : ∀ i < 2, found (twoPageWords 5 6) 1 (tablePath (incptr 0 i)) = [1, 2, 3, 4] := by
    decide
  have hdpage : ∀ i < 2, incptr 0x1000 i / pageSize = 1 := by decide
  have htarget : Target (words (twoPageMachine 5 6).mem) 1 0x1000 2 := by
    rw [hwords]
    constructor
    · apply tablesApart_twoPage (fun i hi => Or.inl (hdframe i hi)) hdfound
    · intro i j hi hj hdiv
      apply absurd ((hdpage i hi).trans (hdpage j hj).symm) hdiv
  have hread : SourceApart (words (twoPageMachine 5 6).mem) 1 0x1000 2 1 0 := by
    rw [hwords]
    constructor
    · apply tablesApart_twoPage (fun i hi => Or.inl (hdframe i hi)) hsfound
    · intro i hi hin
      rw [hsframe i hi] at hin
      have hfive := inFrame_twoPage (fun i hi => Or.inl (hdframe i hi)) hin
      cases hfive
  obtain ⟨-, hset, hcopy⟩ :=
    @transfers_iff 0x9000 0x1000 1 0x1000 2 _ 7 htarget rfl (by decide) (by decide)
  have hd : ∀ i < 2, ¬ Hole (words (twoPageMachine 5 6).mem) 1 (incptr 0x1000 i) := by
    intro i hi
    rw [hwords, Hole, hdframe i hi]
    decide
  have hs : ∀ i < 2, ¬ Hole (words (twoPageMachine 5 6).mem) 1 (incptr 0 i) := by
    intro i hi
    rw [hwords, Hole, hsframe i hi]
    decide
  refine ⟨hset.mpr hd, ?_⟩
  apply (hcopy 0x1000 1 0 rfl (by decide) hread).2.mpr
  intro i hi
  exact ⟨hd i hi, hs i hi⟩

/-- A page in the frame 0 is mapped, and `vmm_p4_memcpy` does not copy to it. -/
theorem memcpy_frame_zero :
  entryAt (words (twoPageMachine 5 0).mem) 1 0x1000 = 0x7
    ∧ entryAt (words (twoPageMachine 5 0).mem) 1 0 = 0x5007
    ∧ Target (words (twoPageMachine 5 0).mem) 1 0x1000 1
    ∧ SourceApart (words (twoPageMachine 5 0).mem) 1 0x1000 1 1 0
    ∧ ¬ Transfers (twoPageMachine 5 0) 1 0x1000 1
      (fun i => (twoPageMachine 5 0).mem (spot (words (twoPageMachine 5 0).mem) 1 (incptr 0 i)))
      (vmmP4Memcpy 0x9000 (twoPageMachine 5 0) 0x1000 0x1000 0x1000 0 1)
  := by
  have hwords : words (twoPageMachine 5 0).mem = twoPageWords 5 0 :=
    words_twoPageMachine (by decide) (by decide)
  have hentry : entryAt (twoPageWords 5 0) 1 0x1000 = 0x7 := by decide
  have hnone : ∀ f, ¬ InFrame (twoPageWords 5 0) 1 0x1000 1 f := by
    rintro f ⟨hne, i, hi, rfl⟩
    obtain rfl : i = 0 := Nat.lt_one_iff.mp hi
    apply hne
    decide
  rw [hwords]
  refine ⟨hentry, by decide, ⟨?_, ?_⟩, ⟨?_, ?_⟩, ?_⟩
  · intro i _ t _
    apply hnone
  · intro i j hi hj hdiv
    rw [Nat.lt_one_iff.mp hi, Nat.lt_one_iff.mp hj] at hdiv
    exact absurd rfl hdiv
  · intro i _ t _
    apply hnone
  · intro i _
    apply hnone
  intro h
  have hreturned := h.returned
  rw [vmmP4Memcpy, memcpyLoop, if_neg Nat.one_ne_zero] at hreturned
  dsimp only at hreturned
  have hhole : stripFlags (vmmGetPage 0x9000 (twoPageMachine 5 0) 0x1000 0x1000) = 0 := by
    rw [@vmmGetPage_follow 0x9000 0x1000 1 _ rfl, hwords, hentry]
    rfl
  rw [if_pos (.inl hhole)] at hreturned
  cases hreturned

/-- From the end of the second page on, the next address is in a hole. -/
theorem target_twoPage_hole :
  Target (words (twoPageMachine 5 6).mem) 1 0x1fff 2
    ∧ ¬ Hole (words (twoPageMachine 5 6).mem) 1 0x1fff
    ∧ Hole (words (twoPageMachine 5 6).mem) 1 (incptr 0x1fff 1)
  := by
  have hwords : words (twoPageMachine 5 6).mem = twoPageWords 5 6 :=
    words_twoPageMachine (by decide) (by decide)
  have hfirst : entryAt (twoPageWords 5 6) 1 0x1fff / pageSize = 6 := by decide
  have hsecond : entryAt (twoPageWords 5 6) 1 (incptr 0x1fff 1) / pageSize = 0 := by decide
  have hframe : ∀ i < 2, entryAt (twoPageWords 5 6) 1 (incptr 0x1fff i) / pageSize = 6
      ∨ entryAt (twoPageWords 5 6) 1 (incptr 0x1fff i) / pageSize = 0 := by
    decide
  have hfound : ∀ i < 2, found (twoPageWords 5 6) 1 (tablePath (incptr 0x1fff i)) = [1, 2, 3, 4] := by
    decide
  have hdistinct : ∀ i < 2, ∀ j < 2, incptr 0x1fff i / pageSize ≠ incptr 0x1fff j / pageSize →
      entryAt (twoPageWords 5 6) 1 (incptr 0x1fff i) / pageSize
        ≠ entryAt (twoPageWords 5 6) 1 (incptr 0x1fff j) / pageSize := by
    decide
  rw [hwords]
  refine ⟨⟨tablesApart_twoPage hframe hfound, ?_⟩, ?_, hsecond⟩
  · intro i j hi hj hdiv _
    exact hdistinct i hi j hj hdiv
  · rw [Hole, hfirst]
    decide

end Procmm
