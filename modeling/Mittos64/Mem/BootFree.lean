import Mittos64.Mem.PmmInit

/-!
# The free stack after `pmm_init`

While `pmm_init` runs, the frames on the free stack are frames that it has visited, and none of
them is a page table.  Its page tables are the boot tables, frames behind the kernel that
`pmm_alloc` has handed out before the first page was freed, and frames that were on the stack.
The writes of `vmm_set_page` to the first frames of the two mebibytes of the first gibibyte do no
harm as long as none of these frames is a page table.
-/

namespace Mem

open Trie (Forest Node)
open Boot (MemoryArea)

/-- There are no address spaces but that of the kernel. -/
def NoLive : Nat → Prop :=
  fun _ => False

/-- The frame is a page table of the kernel. -/
def IsTable (b : Nat) (T : Words) (t : Nat) : Prop :=
  Node child T (Tables (Roots b NoLive)) t

/-- The frame is one of the boot tables. -/
def IsBoot (b t : Nat) : Prop :=
  t = b ∨ t = b + 1 ∨ t = b + 2

/-! ### Where `pmm_alloc` takes frames from -/

/-- What a source has handed out and what is left make up one list. -/
theorem Source.taken {I : List Nat → Machine → Prop} (hI : Source I) (L : List Nat) :
  Source fun fs s => I fs s ∧ s.taken.reverse ++ fs = L
  := by
  constructor
  · rintro f fs s ⟨hfs, htaken⟩
    obtain ⟨s', halloc, hmem, hfs'⟩ := hI.alloc hfs
    refine ⟨s', halloc, hmem, hfs', ?_⟩
    rw [(pmmAlloc_taken halloc).1, frame_div, List.reverse_cons, List.append_assoc]
    exact htaken
  · rintro fs s mem ⟨hfs, htaken⟩ hmem
    refine ⟨hI.withMem hfs hmem, ?_⟩
    rw [(Machine.withMem_history s mem).1, htaken]

/-- The free stack of a running allocator, which leaves `pmm_pos` alone. -/
def StackedAt (pos : Nat) (fs : List Nat) (s : Machine) : Prop :=
  Stacked fs s ∧ s.pmmPos = pos

theorem stackedAt_source (pos : Nat) :
  Source (StackedAt pos)
  := by
  constructor
  · rintro f fs s ⟨hstack, hpos⟩
    obtain ⟨s', halloc, hmem, hstack'⟩ := stacked_source.alloc hstack
    refine ⟨s', halloc, hmem, hstack', ?_⟩
    obtain ⟨-, -, -, rfl⟩ | ⟨hrun, -⟩ := pmmAlloc_cases halloc
    · exact hpos
    · exact absurd hstack.1 hrun
  · rintro fs s mem ⟨hstack, hpos⟩ hmem
    exact ⟨stacked_source.withMem hstack hmem, hpos⟩

/-- The next frames from `pmm_pos` on, before the allocator runs, when it has started at the
frame `e`. -/
def Bumped (e : Nat) (fs : List Nat) (s : Machine) : Prop :=
  s.pmmRunning = false ∧ s.pmmStack = 0 ∧ s.pmmPos = p2v (frame (e + s.taken.length)) ∧
    fs = List.range' (e + s.taken.length) fs.length ∧
    frame (e + s.taken.length + fs.length) < 2 ^ 64

theorem incptr_p2v (n : Nat) :
  incptr (p2v (frame n)) pageSize = p2v (frame (n + 1))
  := by
  simp only [incptr, p2v, frame, pageSize]
  omega

theorem bumped_source (e : Nat) :
  Source (Bumped e)
  := by
  constructor
  · rintro f fs s ⟨hrun, hstack, hpos, hfs, hbound⟩
    have hnot : s.pmmRunning ≠ true := by
      rw [hrun]
      exact Bool.false_ne_true
    rw [List.length_cons] at hfs hbound
    rw [List.range'_succ] at hfs
    obtain ⟨rfl, hrest⟩ := List.cons.inj hfs
    have hlt : frame (e + s.taken.length) < 2 ^ 64 := by
      simp only [frame, pageSize] at hbound ⊢
      omega
    refine ⟨{ s.take (frame (e + s.taken.length)) with pmmPos := incptr s.pmmPos pageSize }, ?_,
      rfl, ?_⟩
    · rw [pmmAlloc_boot hnot, hpos, v2p_p2v hlt]
    · refine ⟨hrun, hstack, ?_, hrest, ?_⟩
      · rw [hpos]
        exact incptr_p2v _
      · have hcount : e + (s.taken.length + 1) + fs.length = e + s.taken.length + (fs.length + 1) := by
          omega
        rw [← hcount] at hbound
        exact hbound
  · rintro fs s mem ⟨hrun, hstack, hpos⟩ _
    exact ⟨hrun, hstack, hpos⟩

/-! ### Mapping a page above the first gibibyte -/

/-- What `vmm_set_page` on `BootP4` does with frames that are no tables: it takes the frames
`new`, which become tables, and keeps the tables that are there. -/
structure Linked (b a v : Nat) (T T' : Words) (new : List Nat) : Prop where
  half : KernelHalf b T' NoLive
  lookups : ∀ c, lookup T' b c = setLookup T b a v b c
  tables : ∀ n, IsTable b T' n ↔ IsTable b T n ∨ n ∈ new
  others : ∀ n, ¬ IsTable b T n → n ∉ new → T' n = T n
  kept : Kept b NoLive T T'
  present : Present b T NoLive → Present b T' NoLive
  walks : ∀ p t, p.length ≤ 3 → walk T' b p = some t → walk T b p = some t ∨ p <+: tablePath a

theorem vmmSetPage_linked {I : List Nat → Machine → Prop} (hI : Source I) {b a phys flags x : Nat}
    {s s' : Machine} {fs : List Nat} (h : KernelHalf b (words s.mem) NoLive) (ha : ¬ UnderHuge a)
    (hphys : phys < 2 ^ 64) (hfs : I fs s) (hnodup : fs.Nodup)
    (hfresh : ∀ f ∈ fs, frame f < 2 ^ 39 ∧ ¬ IsTable b (words s.mem) f)
    (henough : fs.length < missing (words s.mem) b (tablePath a) →
      ∀ u, I [] u → pmmAlloc u = none)
    (hset : vmmSetPage (frame b) s 0 a phys flags = some (x, s')) :
  ∃ new fs', fs = new ++ fs' ∧ I fs' s' ∧
    Linked b a (addFlags phys flags) (words s.mem) (words s'.mem) new
  := by
  have hroot : Roots b NoLive b := .inl rfl
  have hresolve : resolveP4 (frame b) 0 = frame b := if_pos rfl
  have hunused : ∀ f ∈ fs, Unused b (words s.mem) NoLive f := by
    intro f hf
    obtain ⟨hlt, htable⟩ := hfresh f hf
    refine ⟨hlt, htable, ?_⟩
    rintro ⟨r, -, hr, -⟩
    exact hr
  obtain ⟨s₁, new, fs', hsplit, hset', hhalf, hlookup, hnode, hother, hkept, hpresent, -, hfs'⟩ |
      ⟨hlen, u, hu, hnone⟩ :=
    h.vmmSetPage hI flags hroot hresolve ha hphys hfs hnodup hunused (fun hlive => hlive.elim)
  · obtain ⟨-, rfl⟩ := Prod.mk.inj (Option.some.inj (hset.symm.trans hset'))
    refine ⟨new, fs', hsplit, hfs', hhalf, fun c => hlookup b c hroot, hnode, ?_, hkept, hpresent,
      ?_⟩
    · intro n hn hnew
      exact hother n hn hnew
    · obtain ⟨s₂, t, T', new', -, -, hset₂, hgrown, ht, hwords, -⟩ | ⟨hlen, u, hu, hnone⟩ :=
        vmmSetPage_spec hI (fun p j hp => hp.append j) flags h.forest (tables_tablePath hroot a)
          hresolve (h.noHuge hroot ha) (fun t ht => h.pointer hroot ht) hfs hnodup
          (fun f hf => ⟨(p2v_ne_zero (hfresh f hf).1).2, (p2v_ne_zero (hfresh f hf).1).1,
            (hfresh f hf).2⟩) hphys
      · obtain ⟨-, rfl⟩ := Prod.mk.inj (Option.some.inj (hset.symm.trans hset₂))
        intro p u hp hu
        have hdom : Tables (Roots b NoLive) b p := ⟨hroot, hp⟩
        rw [hwords, walk_setWord hgrown.forest (tables_tablePath hroot a) (fun _ _ hs => hs.2) ht
          hdom] at hu
        obtain hsame | ⟨-, hhead, -⟩ := hgrown.walks hdom
        · left
          rw [← hsame]
          exact hu
        · right
          exact hhead
      · rw [hnone (henough hlen u hu)] at hset
        cases hset
  · rw [hnone (henough hlen u hu)] at hset
    cases hset

/-! ### How many tables there are -/

/-- The paths of the tables that the kernel half can have. -/
def kernelPaths : List (List (Fin 512)) :=
  [[], [511]] ++ (List.finRange 512).map (fun i => [511, i]) ++
    (List.finRange 512).flatMap fun i => (List.finRange 512).map fun j => [511, i, j]

theorem kernelPaths_length :
  kernelPaths.length = 2 + 512 + 512 * 512
  := by
  simp only [kernelPaths, List.length_append, List.length_map, List.length_flatMap,
    List.length_finRange, List.length_cons, List.length_nil, List.map_const', List.sum_replicate_nat]

theorem mem_kernelPaths {p : List (Fin 512)} (hlen : p.length ≤ 3) (hp : p = [] ∨ UnderKernel p) :
  p ∈ kernelPaths
  := by
  simp only [kernelPaths, List.mem_append, List.mem_cons, List.not_mem_nil, or_false, List.mem_map,
    List.mem_finRange, true_and, List.mem_flatMap]
  match p, hlen, hp with
  | [], _, _ => exact .inl (.inl (.inl rfl))
  | [i], _, .inr hi =>
      obtain rfl := Option.some.inj hi
      exact .inl (.inl (.inr rfl))
  | [i, j], _, .inr hi =>
      obtain rfl := Option.some.inj hi
      exact .inl (.inr ⟨j, rfl⟩)
  | [i, j, l], _, .inr hi =>
      obtain rfl := Option.some.inj hi
      exact .inr ⟨j, l, rfl⟩

/-- The kernel half has room for its tables below `2 ^ 31`. -/
theorem length_le_of_tables {b : Nat} {T : Words}
    (hunder : ∀ p t, p.length ≤ 3 → walk T b p = some t → p = [] ∨ UnderKernel p) {l : List Nat}
    (hl : l.Nodup) (htable : ∀ f ∈ l, IsTable b T f) :
  l.length ≤ 2 + 512 + 512 * 512
  := by
  have hsub : l ⊆ kernelPaths.filterMap (walk T b) := by
    intro f hf
    obtain ⟨r, p, ⟨hr, hlen⟩, hwalk⟩ := htable f hf
    obtain rfl := hr.resolve_right id
    rw [List.mem_filterMap]
    exact ⟨p, mem_kernelPaths hlen (hunder p f hlen hwalk), hwalk⟩
  calc l.length ≤ (kernelPaths.filterMap (walk T b)).length := (hl.subperm hsub).length_le
    _ ≤ kernelPaths.length := List.length_filterMap_le _ _
    _ = 2 + 512 + 512 * 512 := kernelPaths_length

/-! ### The invariant -/

/-- Where the kernel is: its image is made of whole frames of the first gibibyte, holds the boot
tables, and none of these is the first frame of two mebibytes. -/
structure Placed (k : BootInfo) : Prop where
  startAligned : pageSize ∣ k.kernelStart
  endAligned : pageSize ∣ k.kernelEnd
  tables : k.kernelStart ≤ frame k.bootP4 ∧ frame (k.bootP4 + 3) ≤ k.kernelEnd
  low : k.kernelEnd ≤ 2 ^ 30
  inner : ∀ t, IsBoot k.bootP4 t → ¬ 512 ∣ t

/-- The page is one that `pmm_init` may free. -/
def Freeable (k : BootInfo) (v : Nat × Nat) : Prop :=
  v.1 = mbootMmapFree ∧ k.pageUsed v.2 = false ∧ ¬ (k.kernelStart ≤ v.2 ∧ v.2 < k.kernelEnd)

/-- Where the tables are, when the pages `vs` have been visited and the frame at `pmm_pos` is
`n`. -/
def Known (k : BootInfo) (vs : List (Nat × Nat)) (n t : Nat) : Prop :=
  IsBoot k.bootP4 t ∨ (k.kernelEnd ≤ frame t ∧ t < n) ∨ ∃ v ∈ vs, v.2 / pageSize = t

/-- The frame is that of a visited page that may be freed, and no table. -/
def FreeFrame (k : BootInfo) (vs : List (Nat × Nat)) (T : Words) (f : Nat) : Prop :=
  ¬ IsTable k.bootP4 T f ∧ ∃ v ∈ vs, v.2 / pageSize = f ∧ Freeable k v

/-- The state of `pmm_init` when it has visited the pages `vs`: `fs` are the frames on the stack,
and `n` is the frame at `pmm_pos`. -/
structure Inv (k : BootInfo) (vs : List (Nat × Nat)) (fs : List Nat) (n : Nat) (s : Machine) :
    Prop where
  half : KernelHalf k.bootP4 (words s.mem) NoLive
  present : Present k.bootP4 (words s.mem) NoLive
  boot : BootEntries k.bootP4 (words s.mem)
  under : ∀ p t, p.length ≤ 3 → walk (words s.mem) k.bootP4 p = some t → p = [] ∨ UnderKernel p
  stack : FreeStack s.mem s.pmmStack fs
  pos : s.pmmPos = p2v (frame n)
  behind : k.kernelEnd ≤ frame n ∧ frame n < 2 ^ 39
  idle : s.pmmRunning = false → fs = [] ∧ frame n = k.kernelEnd + frame s.taken.length ∧
    ∀ t, IsTable k.bootP4 (words s.mem) t → t < n
  takenNodup : s.taken.Nodup
  taken : ∀ f ∈ s.taken, IsTable k.bootP4 (words s.mem) f
  tables : ∀ t, IsTable k.bootP4 (words s.mem) t → Known k vs n t
  nodup : fs.Nodup
  free : ∀ f ∈ fs, FreeFrame k vs (words s.mem) f
  direct : ∀ v ∈ vs, v.2 < 2 ^ 39
  mapped : ∀ v ∈ vs, 2 ^ 30 ≤ v.2 →
    lookup (words s.mem) k.bootP4 (p2v v.2) = addFlags v.2 (pagePresent ||| pageWrite)
  early : (∀ v ∈ vs, v.2 < 2 ^ 30) → ∀ t, IsTable k.bootP4 (words s.mem) t → IsBoot k.bootP4 t

/-- The tables on the way to the first gibibyte. -/
theorem BootEntries.walks {b : Nat} {T : Words} (h : BootEntries b T) :
  walk T b [511] = some (b + 1) ∧ walk T b [511, 0] = some (b + 2)
  := by
  constructor
  · rw [walk_cons, h.p4, (child_boot _).1]
    rfl
  · rw [walk_cons, h.p4, (child_boot _).1, Option.bind_some, walk_cons, h.p3, (child_boot _).1]
    rfl

section Inv

variable {k : BootInfo} {vs : List (Nat × Nat)} {fs : List Nat} {n : Nat} {s : Machine}

/-- Writes to frames that are no tables and changes of the stack. -/
theorem Inv.congr (h : Inv k vs fs n s) {s' : Machine} {fs' : List Nat}
    (hT : ∀ t, IsTable k.bootP4 (words s.mem) t → words s'.mem t = words s.mem t)
    (hpos : s'.pmmPos = s.pmmPos) (htaken : s'.taken = s.taken)
    (hidle : s'.pmmRunning = false → s.pmmRunning = false ∧ fs' = fs)
    (hstack : FreeStack s'.mem s'.pmmStack fs') (hnodup : fs'.Nodup)
    (hfree : ∀ f ∈ fs', FreeFrame k vs (words s.mem) f) :
  Inv k vs fs' n s'
  := by
  have hroot : Roots k.bootP4 NoLive k.bootP4 := .inl rfl
  have htable : ∀ t, IsTable k.bootP4 (words s'.mem) t ↔ IsTable k.bootP4 (words s.mem) t :=
    fun t => h.half.toKernelTables.node_congr hT
  have hwalk : ∀ p, p.length ≤ 3 →
      walk (words s'.mem) k.bootP4 p = walk (words s.mem) k.bootP4 p :=
    fun p hp => h.half.toKernelTables.walk_congr hT ⟨hroot, hp⟩
  have hp4 : words s'.mem k.bootP4 = words s.mem k.bootP4 := hT _ (roots_node hroot)
  have hp3 : words s'.mem (k.bootP4 + 1) = words s.mem (k.bootP4 + 1) :=
    hT _ ⟨k.bootP4, [511], ⟨hroot, by decide⟩, h.boot.walks.1⟩
  have hp2 : words s'.mem (k.bootP4 + 2) = words s.mem (k.bootP4 + 2) :=
    hT _ ⟨k.bootP4, [511, 0], ⟨hroot, by decide⟩, h.boot.walks.2⟩
  constructor
  · exact h.half.congr hT
  · exact h.half.toKernelTables.present_congr hT h.present
  · constructor
    · exact (congrFun hp4 511).trans h.boot.p4
    · exact (congrFun hp3 0).trans h.boot.p3
    · intro i
      exact (congrFun hp2 i).trans (h.boot.p2 i)
  · intro p t hp ht
    exact h.under p t hp ((hwalk p hp).symm.trans ht)
  · exact hstack
  · exact hpos.trans h.pos
  · exact h.behind
  · intro hrun
    obtain ⟨hrun', rfl⟩ := hidle hrun
    obtain ⟨hempty, hn, hbelow⟩ := h.idle hrun'
    rw [htaken]
    exact ⟨hempty, hn, fun t ht => hbelow t ((htable t).mp ht)⟩
  · rw [htaken]
    exact h.takenNodup
  · intro f hf
    rw [htaken] at hf
    exact (htable f).mpr (h.taken f hf)
  · intro t ht
    exact h.tables t ((htable t).mp ht)
  · exact hnodup
  · intro f hf
    obtain ⟨hnot, hv⟩ := hfree f hf
    exact ⟨fun ht => hnot ((htable f).mp ht), hv⟩
  · exact h.direct
  · intro v hv hhigh
    rw [← h.mapped v hv hhigh]
    exact h.half.toKernelTables.lookup_congr hT hroot _
  · intro hlow t ht
    exact h.early hlow t ((htable t).mp ht)

/-- Writes to frames that are no tables, other than to the links of the stack. -/
theorem Inv.withMem (h : Inv k vs fs n s) {m : Memory}
    (hT : ∀ t, IsTable k.bootP4 (words s.mem) t → words m t = words s.mem t)
    (hfs : ∀ f ∈ fs, words m f 0 = words s.mem f 0) :
  Inv k vs fs n (s.withMem m)
  := by
  have hstack : FreeStack (s.withMem m).mem (s.withMem m).pmmStack fs := h.stack.congr hfs
  exact h.congr hT rfl rfl (fun hrun => ⟨hrun, rfl⟩) hstack h.nodup h.free

theorem Known.cons {v : Nat × Nat} {t : Nat} (h : Known k vs n t) :
  Known k (v :: vs) n t
  := by
  obtain hboot | hbehind | ⟨w, hw, heq⟩ := h
  · exact .inl hboot
  · exact .inr (.inl hbehind)
  · exact .inr (.inr ⟨w, List.mem_cons_of_mem _ hw, heq⟩)

theorem FreeFrame.cons {v : Nat × Nat} {T : Words} {f : Nat} (h : FreeFrame k vs T f) :
  FreeFrame k (v :: vs) T f
  := by
  obtain ⟨hnot, w, hw, heq, hfree⟩ := h
  exact ⟨hnot, w, List.mem_cons_of_mem _ hw, heq, hfree⟩

/-- A page of the first gibibyte has been visited. -/
theorem Inv.visit (h : Inv k vs fs n s) {v : Nat × Nat} (hlow : v.2 < 2 ^ 30) :
  Inv k (v :: vs) fs n s
  := by
  refine ⟨h.half, h.present, h.boot, h.under, h.stack, h.pos, h.behind, h.idle, h.takenNodup,
    h.taken, ?_, h.nodup, ?_, ?_, ?_, ?_⟩
  · intro t ht
    exact (h.tables t ht).cons
  · intro f hf
    exact (h.free f hf).cons
  · rw [List.forall_mem_cons]
    exact ⟨by omega, h.direct⟩
  · rw [List.forall_mem_cons]
    exact ⟨fun hhigh => absurd hlow (Nat.not_lt.mpr hhigh), h.mapped⟩
  · intro hvs
    rw [List.forall_mem_cons] at hvs
    exact h.early hvs.2

/-! ### Setting the page -/

/-- The page `v` has been set, and is not freed yet.  The stack `fs` and the frame `n` at
`pmm_pos` were those before. -/
def PageSet (k : BootInfo) (vs : List (Nat × Nat)) (fs : List Nat) (n : Nat) (v : Nat × Nat)
    (s : Machine) : Prop :=
  ∃ fs' n', Inv k (v :: vs) fs' n' s ∧
    (∀ t, IsTable k.bootP4 (words s.mem) t → Known k vs n' t) ∧ v.2 / pageSize ∉ fs' ∧
    (v.2 < 2 ^ 30 → fs' = fs ∧ n' = n)

/-- The frames on the stack are not that of a page that has not been visited. -/
theorem Inv.not_mem (h : Inv k vs fs n s) {v : Nat × Nat}
    (hnew : ∀ w ∈ vs, w.2 / pageSize ≠ v.2 / pageSize) :
  v.2 / pageSize ∉ fs
  := by
  intro hf
  obtain ⟨-, w, hw, heq, -⟩ := h.free _ hf
  exact hnew w hw heq

/-- A page of the first gibibyte: an entry is written to a frame that is no table. -/
theorem Inv.setLow (h : Inv k vs fs n s) (hk : Placed k) {v : Nat × Nat} (hlow : v.2 < 2 ^ 30)
    (hbefore : ∀ w ∈ vs, w.2 < 2 ^ 30) (hnew : ∀ w ∈ vs, w.2 / pageSize ≠ v.2 / pageSize)
    {x : Nat} {s' : Machine}
    (hset : vmmSetPage (frame k.bootP4) s 0 (p2v v.2) v.2 (pagePresent ||| pageWrite) =
      some (x, s')) :
  PageSet k vs fs n v s'
  := by
  have hlow' : v.2 < 2 ^ 39 := by omega
  have hvalue : addFlags v.2 (pagePresent ||| pageWrite) < 2 ^ 64 := addFlags_lt _ (by omega)
  rw [vmmSetPage_underHuge h.boot hlow] at hset
  obtain ⟨-, rfl⟩ := Prod.mk.inj (Option.some.inj hset)
  have hwords := words_setEntry s (hugeFrame v.2) (p1Offset (p2v v.2)) hvalue
  rw [setEntry] at hwords ⊢
  generalize s.mem.store (frame (hugeFrame v.2) + 8 * (p1Offset (p2v v.2)).val) 8
    (addFlags v.2 (pagePresent ||| pageWrite)) = m at hwords ⊢
  rw [Machine.withMem_mem] at hwords
  have hT : ∀ t, IsTable k.bootP4 (words s.mem) t → words m t = words s.mem t := by
    intro t ht
    funext i
    rw [hwords, setWord_of_ne]
    left
    rintro rfl
    apply hk.inner _ (h.early hbefore _ ht)
    rw [hugeFrame]
    apply Nat.dvd_mul_left
  have hfs : ∀ f ∈ fs, words m f 0 = words s.mem f 0 := by
    intro f hf
    rw [hwords, setWord_of_ne]
    by_contra hsame
    -- the first entry is the one of the frame itself, which is not on the stack
    rw [not_or, not_not, not_not] at hsame
    obtain ⟨rfl, hoff⟩ := hsame
    have hval := congrArg Fin.val hoff
    have hzero : (0 : Fin 512).val = 0 := rfl
    rw [p1Offset_p2v hlow', hzero] at hval
    apply h.not_mem hnew
    have hself : v.2 / pageSize = hugeFrame v.2 := by
      simp only [hugeFrame, pageSize] at hval ⊢
      omega
    rw [hself]
    exact hf
  have hinv := h.withMem hT hfs
  exact ⟨fs, n, hinv.visit hlow, hinv.tables, h.not_mem hnew, fun _ => ⟨rfl, rfl⟩⟩

/-- A page above the first gibibyte: the frames `new` become tables. -/
theorem Inv.linked (h : Inv k vs fs n s) {v : Nat × Nat} (hhigh : 2 ^ 30 ≤ v.2)
    (hdirect : v.2 < 2 ^ 39) (hnew : ∀ w ∈ vs, w.2 / pageSize ≠ v.2 / pageSize) {s' : Machine}
    {new fs' : List Nat} {n' : Nat}
    (hlinked : Linked k.bootP4 (p2v v.2) (addFlags v.2 (pagePresent ||| pageWrite))
      (words s.mem) (words s'.mem) new)
    (hstack : FreeStack s'.mem s'.pmmStack fs') (hpos : s'.pmmPos = p2v (frame n')) (hle : n ≤ n')
    (hbehind : frame n' < 2 ^ 39)
    (hidle : s'.pmmRunning = false → fs' = [] ∧ frame n' = k.kernelEnd + frame s'.taken.length ∧
      ∀ t, IsTable k.bootP4 (words s.mem) t ∨ t ∈ new → t < n')
    (htaken : s'.taken = new.reverse ++ s.taken) (hnodup : (new ++ fs').Nodup) (hsub : fs' ⊆ fs)
    (hfresh : ∀ f ∈ new, ¬ IsTable k.bootP4 (words s.mem) f ∧ Known k vs n' f) :
  PageSet k vs fs n v s'
  := by
  have hroot : Roots k.bootP4 NoLive k.bootP4 := .inl rfl
  have hflags : pagePresent ||| pageWrite = 3 := rfl
  have hflags' : pagePresent ||| pageWrite ||| pageHuge = 0x83 := rfl
  obtain ⟨hnodup₁, hnodup₂, hapart⟩ := List.nodup_append.mp hnodup
  have hknown : ∀ t, IsTable k.bootP4 (words s'.mem) t → Known k vs n' t := by
    intro t ht
    obtain ht | ht := (hlinked.tables t).mp ht
    · obtain hboot | ⟨hend, hlt⟩ | hvisited := h.tables t ht
      · exact .inl hboot
      · exact .inr (.inl ⟨hend, by omega⟩)
      · exact .inr (.inr hvisited)
    · exact (hfresh t ht).2
  refine ⟨fs', n', ?_, hknown, fun hf => h.not_mem hnew (hsub hf),
    fun hlow => absurd hlow (Nat.not_lt.mpr hhigh)⟩
  constructor
  · exact hlinked.half
  · exact hlinked.present h.present
  · constructor
    · rw [@hlinked.kept k.bootP4 [] k.bootP4 511 hroot (Nat.zero_le 2) rfl]
      · exact h.boot.p4
      · rw [h.boot.p4, hflags]
        omega
    · rw [hlinked.kept hroot (by decide) h.boot.walks.1]
      · exact h.boot.p3
      · rw [h.boot.p3, hflags]
        omega
    · intro i
      rw [hlinked.kept hroot (by decide) h.boot.walks.2]
      · exact h.boot.p2 i
      · rw [h.boot.p2, hflags']
        omega
  · intro p t hp ht
    obtain hold | hhead := hlinked.walks p t hp ht
    · exact h.under p t hp hold
    · cases p with
      | nil => exact .inl rfl
      | cons i p =>
          right
          rw [tablePath, List.cons_prefix_cons, p4Offset_p2v hdirect] at hhead
          rw [hhead.1]
          rfl
  · exact hstack
  · exact hpos
  · have hend := h.behind.1
    refine ⟨?_, hbehind⟩
    simp only [frame, pageSize] at hend ⊢
    omega
  · intro hrun
    obtain ⟨hempty, hn, hbelow⟩ := hidle hrun
    exact ⟨hempty, hn, fun t ht => hbelow t ((hlinked.tables t).mp ht)⟩
  · rw [htaken, List.nodup_append]
    refine ⟨List.nodup_reverse.mpr hnodup₁, h.takenNodup, ?_⟩
    rintro f hf _ hf' rfl
    exact (hfresh f (List.mem_reverse.mp hf)).1 (h.taken f hf')
  · intro f hf
    rw [htaken, List.mem_append, List.mem_reverse] at hf
    rw [hlinked.tables]
    exact hf.symm.imp (h.taken f) id
  · intro t ht
    exact (hknown t ht).cons
  · exact hnodup₂
  · intro f hf
    obtain ⟨hnot, hv⟩ := h.free f (hsub hf)
    apply FreeFrame.cons
    refine ⟨?_, hv⟩
    rw [hlinked.tables, not_or]
    exact ⟨hnot, fun hf' => hapart f hf' f hf rfl⟩
  · rw [List.forall_mem_cons]
    exact ⟨hdirect, h.direct⟩
  · intro w hw hw'
    rw [hlinked.lookups, setLookup]
    obtain rfl | hw := List.mem_cons.mp hw
    · rw [if_pos ⟨⟨rfl, rfl⟩, .inl rfl⟩]
    · rw [if_neg]
      · exact h.mapped w hw hw'
      · rintro ⟨⟨hpath, hoff⟩, -⟩
        exact hnew w hw (frame_eq_of_path (h.direct w hw) hdirect hpath hoff)
  · intro hlow
    exact absurd (hlow v List.mem_cons_self) (Nat.not_lt.mpr hhigh)

section High

variable {v : Nat × Nat} (hhigh : 2 ^ 30 ≤ v.2) (hdirect : v.2 < 2 ^ 39)
  (hnew : ∀ w ∈ vs, w.2 / pageSize ≠ v.2 / pageSize) {x : Nat} {s' : Machine}
  (hset : vmmSetPage (frame k.bootP4) s 0 (p2v v.2) v.2 (pagePresent ||| pageWrite) = some (x, s'))

include hhigh hdirect hnew hset

/-- The tables are taken from the stack. -/
theorem Inv.setRunning (h : Inv k vs fs n s) (hrun : s.pmmRunning = true) :
  PageSet k vs fs n v s'
  := by
  have hhuge : ¬ UnderHuge (p2v v.2) := by
    rw [underHuge_p2v hdirect]
    exact Nat.not_lt.mpr hhigh
  have hfresh : ∀ f ∈ fs, frame f < 2 ^ 39 ∧ ¬ IsTable k.bootP4 (words s.mem) f := by
    intro f hf
    obtain ⟨hnot, w, hw, rfl, -⟩ := h.free f hf
    have hlt := h.direct w hw
    refine ⟨?_, hnot⟩
    simp only [frame, pageSize]
    omega
  obtain ⟨new, fs', rfl, ⟨⟨⟨hrun', hstack'⟩, hpos'⟩, htaken'⟩, hlinked⟩ :=
    vmmSetPage_linked ((stackedAt_source s.pmmPos).taken (s.taken.reverse ++ fs)) h.half hhuge
      (by omega) ⟨⟨⟨hrun, h.stack⟩, rfl⟩, rfl⟩ h.nodup hfresh (fun _ u hu => hu.1.1.alloc_empty)
      hset
  have htaken : s'.taken = new.reverse ++ s.taken := by
    rw [← List.append_assoc] at htaken'
    have heq := List.append_cancel_right htaken'
    rw [← List.reverse_reverse s'.taken, heq, List.reverse_append, List.reverse_reverse]
  apply h.linked hhigh hdirect hnew hlinked hstack' (hpos'.trans h.pos) (Nat.le_refl n) h.behind.2
    _ htaken h.nodup (List.subset_append_right _ _)
  · intro f hf
    obtain ⟨hnot, w, hw, heq, -⟩ := h.free f (List.mem_append_left _ hf)
    exact ⟨hnot, .inr (.inr ⟨w, hw, heq⟩)⟩
  · intro hidle
    rw [hrun'] at hidle
    cases hidle

/-- The tables are taken from behind the kernel. -/
theorem Inv.setIdle (h : Inv k vs fs n s) (hk : Placed k) (hidle : s.pmmRunning = false) :
  PageSet k vs fs n v s'
  := by
  obtain ⟨rfl, hn, hbelow⟩ := h.idle hidle
  have hhuge : ¬ UnderHuge (p2v v.2) := by
    rw [underHuge_p2v hdirect]
    exact Nat.not_lt.mpr hhigh
  obtain ⟨e, he⟩ := hk.endAligned
  have hend : k.kernelEnd = frame e := he
  have hlow := hk.low
  have hlen := length_le_of_tables h.under h.takenNodup h.taken
  rw [hend] at hn hlow
  obtain rfl : n = e + s.taken.length := by
    apply frame_inj
    rw [hn, frame, frame, frame, Nat.mul_add]
  have hbound : frame (e + s.taken.length + 3) < 2 ^ 39 := by
    simp only [frame, pageSize] at hlow ⊢
    omega
  have hfresh : ∀ f ∈ List.range' (e + s.taken.length) 3,
      frame f < 2 ^ 39 ∧ ¬ IsTable k.bootP4 (words s.mem) f := by
    intro f hf
    rw [List.mem_range'_1] at hf
    constructor
    · simp only [frame, pageSize] at hbound ⊢
      omega
    · intro ht
      have hlt := hbelow f ht
      omega
  have hmissing : ¬ (List.range' (e + s.taken.length) 3).length <
      missing (words s.mem) k.bootP4 (tablePath (p2v v.2)) := by
    rw [List.length_range', Nat.not_lt]
    exact missing_le _ _ _
  have hstack : s.pmmStack = 0 := h.stack
  have hsupply : Bumped e (List.range' (e + s.taken.length) 3) s := by
    refine ⟨hidle, hstack, h.pos, ?_, ?_⟩
    · rw [List.length_range']
    · rw [List.length_range']
      omega
  obtain ⟨new, fs', hsplit, ⟨⟨hrun', hstack', hpos', hfs', -⟩, htaken'⟩, hlinked⟩ :=
    vmmSetPage_linked ((bumped_source e).taken
        (s.taken.reverse ++ List.range' (e + s.taken.length) 3)) h.half hhuge
      (by omega) ⟨hsupply, rfl⟩ List.nodup_range' hfresh (fun hlt => absurd hlt hmissing) hset
  have htaken : s'.taken = new.reverse ++ s.taken := by
    rw [hsplit, ← List.append_assoc] at htaken'
    have heq := List.append_cancel_right htaken'
    rw [← List.reverse_reverse s'.taken, heq, List.reverse_append, List.reverse_reverse]
  have hcount : s'.taken.length = s.taken.length + new.length := by
    rw [htaken, List.length_append, List.length_reverse, Nat.add_comm]
  have hle : new.length ≤ 3 := by
    have hthree := congrArg List.length hsplit
    rw [List.length_range', List.length_append] at hthree
    omega
  have hnew' : ∀ f ∈ new, f ∈ List.range' (e + s.taken.length) 3 ∧ f < e + s'.taken.length := by
    have htake : new = List.range' (e + s.taken.length) new.length := by
      rw [← List.take_range'_of_length_ge hle, hsplit, List.take_left]
    intro f hf
    refine ⟨hsplit ▸ List.mem_append_left _ hf, ?_⟩
    rw [htake, List.mem_range'_1] at hf
    omega
  have hempty : FreeStack s'.mem s'.pmmStack [] := hstack'
  have hnodup : (new ++ fs').Nodup := by
    rw [← hsplit]
    exact List.nodup_range'
  apply h.linked hhigh hdirect hnew hlinked hempty hpos' (by omega) _ _ htaken _
    (List.nil_subset _)
  · intro f hf
    obtain ⟨hrange, hlt⟩ := hnew' f hf
    refine ⟨(hfresh f hrange).2, .inr (.inl ⟨?_, hlt⟩)⟩
    rw [List.mem_range'_1] at hrange
    rw [hend, frame, frame]
    exact Nat.mul_le_mul_left _ (by omega)
  · simp only [frame, pageSize] at hbound ⊢
    omega
  · intro _
    refine ⟨rfl, ?_, ?_⟩
    · rw [hend, frame, frame, frame, Nat.mul_add]
    · rintro t (ht | ht)
      · have hlt := hbelow t ht
        omega
      · exact (hnew' t ht).2
  · rw [List.append_nil]
    exact (List.nodup_append.mp hnodup).1

end High

/-- The page has been set, wherever it is. -/
theorem Inv.setPage (h : Inv k vs fs n s) (hk : Placed k) {v : Nat × Nat} (hdirect : v.2 < 2 ^ 39)
    (hbefore : v.2 < 2 ^ 30 → ∀ w ∈ vs, w.2 < 2 ^ 30)
    (hnew : ∀ w ∈ vs, w.2 / pageSize ≠ v.2 / pageSize) {x : Nat} {s' : Machine}
    (hset : vmmSetPage (frame k.bootP4) s 0 (p2v v.2) v.2 (pagePresent ||| pageWrite) =
      some (x, s')) :
  PageSet k vs fs n v s'
  := by
  by_cases hlow : v.2 < 2 ^ 30
  · exact h.setLow hk hlow (hbefore hlow) hnew hset
  · rw [Nat.not_lt] at hlow
    cases hrun : s.pmmRunning with
    | true => exact h.setRunning hlow hdirect hnew hset hrun
    | false => exact h.setIdle hlow hdirect hnew hset hk hrun

/-! ### Freeing the page -/

/-- A frame outside of the kernel that has not been visited before is no table. -/
theorem Known.not_outside {v : Nat × Nat} (hk : Placed k)
    (hnew : ∀ w ∈ vs, w.2 / pageSize ≠ v.2 / pageSize)
    (hout : ¬ (k.kernelStart ≤ v.2 ∧ v.2 < frame n)) (hend : k.kernelEnd ≤ frame n) :
  ¬ Known k vs n (v.2 / pageSize)
  := by
  obtain ⟨hstart, hstop⟩ := hk.tables
  rintro (hboot | ⟨hle, hlt⟩ | ⟨w, hw, heq⟩)
  · simp only [IsBoot, frame, pageSize] at hboot hstart hstop hout hend
    omega
  · simp only [frame, pageSize] at hle hlt hstart hstop hout hend
    omega
  · exact hnew w hw heq

theorem Machine.push_pos (s : Machine) (a p f : Nat) :
  (s.push a p f).pmmPos = s.pmmPos
  := rfl

theorem pmmFree_pos (s : Machine) (page : Nat) :
  (pmmFree s page).pmmPos = s.pmmPos
  := Machine.push_pos _ _ _ _

theorem Inv.freePage {v : Nat × Nat} (h : Inv k (v :: vs) fs n s) (hfree : Freeable k v)
    (htable : ¬ IsTable k.bootP4 (words s.mem) (v.2 / pageSize)) (hnot : v.2 / pageSize ∉ fs) :
  Inv k (v :: vs) (v.2 / pageSize :: fs) n (pmmFree s v.2)
  := by
  have hdirect := h.direct v List.mem_cons_self
  have hpage : v.2 < 2 ^ 64 := by omega
  have hframe : frame (v.2 / pageSize) < 2 ^ 39 := by
    simp only [frame, pageSize]
    omega
  have hne : p2v (stripFlags v.2) ≠ 0 := by
    rw [stripFlags_eq]
    exact (p2v_ne_zero hframe).1
  apply h.congr _ (pmmFree_pos s v.2) (pmmFree_history s v.2).1 _ (h.stack.free hpage hne hnot)
  · exact List.nodup_cons.mpr ⟨hnot, h.nodup⟩
  · rw [List.forall_mem_cons]
    exact ⟨⟨htable, v, List.mem_cons_self, rfl, hfree⟩, h.free⟩
  · intro t ht
    funext j
    apply words_pmmFree_of_ne hpage
    left
    intro heq
    rw [heq] at ht
    exact htable ht
  · intro hrun
    rw [pmmFree_running] at hrun
    cases hrun

/-- Visits of pages of the first gibibyte take no frames, and free all that may be freed. -/
def Filled (k : BootInfo) (n n' : Nat) (fs fs' : List Nat) (ws : List (Nat × Nat)) : Prop :=
  (∀ w ∈ ws, w.2 < 2 ^ 30) → frame n = k.kernelEnd →
    n' = n ∧ fs ⊆ fs' ∧ ∀ w ∈ ws, Freeable k w → w.2 / pageSize ∈ fs'

theorem Filled.cons {n₀ n₁ n₂ : Nat} {fs₀ fs₁ fs₂ : List Nat} {v : Nat × Nat}
    {ws : List (Nat × Nat)} (h : Filled k n₀ n₁ fs₀ fs₁ [v]) (h' : Filled k n₁ n₂ fs₁ fs₂ ws) :
  Filled k n₀ n₂ fs₀ fs₂ (v :: ws)
  := by
  intro hlow hn
  rw [List.forall_mem_cons] at hlow ⊢
  obtain ⟨rfl, hsub, hfree⟩ := h (List.forall_mem_singleton.mpr hlow.1) hn
  obtain ⟨rfl, hsub', hfree'⟩ := h' hlow.2 hn
  rw [List.forall_mem_singleton] at hfree
  exact ⟨rfl, fun _ hf => hsub' (hsub hf), fun hv => hsub' (hfree hv), hfree'⟩

/-- One turn of the inner loop. -/
theorem Inv.step (h : Inv k vs fs n s) (hk : Placed k) {v : Nat × Nat} (hdirect : v.2 < 2 ^ 39)
    (hbefore : v.2 < 2 ^ 30 → ∀ w ∈ vs, w.2 < 2 ^ 30)
    (hnew : ∀ w ∈ vs, w.2 / pageSize ≠ v.2 / pageSize) {s' : Machine} (hvisit : Visit k s v s') :
  ∃ fs' n', Inv k (v :: vs) fs' n' s' ∧ Filled k n n' fs fs' [v]
  := by
  rw [Visit, initPage] at hvisit
  cases hset : vmmSetPage (frame k.bootP4) s 0 (p2v v.2) v.2 (pagePresent ||| pageWrite) with
  | none =>
      rw [hset] at hvisit
      cases hvisit
  | some xs =>
      obtain ⟨x, s₁⟩ := xs
      rw [hset] at hvisit
      obtain ⟨fs₁, n₁, h₁, hknown, hnot, hsame⟩ := h.setPage hk hdirect hbefore hnew hset
      have hend := h₁.behind.1
      have hpos : v2p s₁.pmmPos = frame n₁ := by
        rw [h₁.pos, v2p_p2v]
        exact Nat.lt_trans h₁.behind.2 (by decide)
      -- a page that is not freed is one that may not be freed
      have hskip : (frame n₁ = k.kernelEnd → ¬ Freeable k v) → Filled k n n₁ fs fs₁ [v] := by
        intro hskip hlow hn
        rw [List.forall_mem_singleton] at hlow ⊢
        obtain ⟨rfl, rfl⟩ := hsame hlow
        exact ⟨rfl, List.Subset.refl _, fun hv => absurd hv (hskip hn)⟩
      dsimp only at hvisit
      rw [hpos] at hvisit
      split_ifs at hvisit with hkernel hused hfree
      · obtain rfl := Option.some.inj hvisit
        refine ⟨fs₁, n₁, h₁, hskip ?_⟩
        intro hn hv
        rw [hn] at hkernel
        exact hv.2.2 hkernel
      · obtain rfl := Option.some.inj hvisit
        refine ⟨fs₁, n₁, h₁, hskip ?_⟩
        intro _ hv
        rw [hv.2.1] at hused
        cases hused
      · obtain rfl := Option.some.inj hvisit
        refine ⟨_, n₁, h₁.freePage ⟨hfree, ?_, ?_⟩ ?_ hnot, ?_⟩
        · simpa using hused
        · rintro ⟨hstart, hstop⟩
          exact hkernel ⟨hstart, Nat.lt_of_lt_of_le hstop hend⟩
        · intro ht
          exact Known.not_outside hk hnew hkernel hend (hknown _ ht)
        · intro hlow _
          rw [List.forall_mem_singleton] at hlow ⊢
          obtain ⟨rfl, rfl⟩ := hsame hlow
          exact ⟨rfl, List.subset_cons_self _ _, fun _ => List.mem_cons_self⟩
      · obtain rfl := Option.some.inj hvisit
        refine ⟨fs₁, n₁, h₁, hskip ?_⟩
        intro _ hv
        exact hfree hv.1

/-- The pages of the run, in the order in which they are visited. -/
structure Ordered (vs : List (Nat × Nat)) : Prop where
  direct : ∀ v ∈ vs, v.2 < 2 ^ 39
  once : vs.Pairwise fun v w => v.2 / pageSize ≠ w.2 / pageSize
  low : vs.Pairwise fun v w => w.2 < 2 ^ 30 → v.2 < 2 ^ 30

/-- A whole run of `pmm_init`. -/
theorem Inv.run (hk : Placed k) {s s' : Machine} {ws : List (Nat × Nat)}
    (hrun : Runs (Visit k) s ws s') :
  ∀ {vs : List (Nat × Nat)} {fs : List Nat} {n : Nat}, Inv k vs fs n s →
    Ordered (vs.reverse ++ ws) →
    ∃ fs' n', Inv k (ws.reverse ++ vs) fs' n' s' ∧ Filled k n n' fs fs' ws
  := by
  induction hrun with
  | nil s =>
      intro vs fs n h _
      exact ⟨fs, n, h, fun _ _ => ⟨rfl, List.Subset.refl _, fun _ hw => (List.not_mem_nil hw).elim⟩⟩
  | @cons s s₁ s' v ws hvisit _ ih =>
      intro vs fs n h horder
      have hdirect := horder.direct v (by simp)
      have honce := (List.pairwise_append.mp horder.once).2.2
      have hlow := (List.pairwise_append.mp horder.low).2.2
      obtain ⟨fs₁, n₁, h₁, hfilled⟩ := h.step hk hdirect
        (fun hv w hw => hlow w (List.mem_reverse.mpr hw) v List.mem_cons_self hv)
        (fun w hw => honce w (List.mem_reverse.mpr hw) v List.mem_cons_self) hvisit
      have hrest : Ordered ((v :: vs).reverse ++ ws) := by
        rw [List.reverse_cons, List.append_assoc]
        exact horder
      obtain ⟨fs', n', h', hfilled'⟩ := ih h₁ hrest
      refine ⟨fs', n', ?_, hfilled.cons hfilled'⟩
      rw [List.reverse_cons, List.append_assoc]
      exact h'

end Inv

/-! ### After `pmm_init` -/

/-- The machine when `pmm_init` is called. -/
structure AtInit (k : BootInfo) (s : Machine) : Prop where
  tables : BootTables k.bootP4 (words s.mem)
  running : s.pmmRunning = false
  stack : s.pmmStack = 0
  pos : s.pmmPos = p2v k.kernelEnd
  taken : s.taken = []

/-- The byte lies in one of the free areas. -/
def InFree (as : List MemoryArea) (x : Nat) : Prop :=
  ∃ a ∈ as, a.type = mbootMmapFree ∧ a.start ≤ x ∧ x < a.stop

/-- The frames on the stack are what a free list is made of: they are distinct, in free memory,
apart from the kernel and from the frames in use, and the kernel reaches them at `P2V`. -/
structure GoodStack (k : BootInfo) (as : List MemoryArea) (s : Machine) (fs : List Nat) : Prop where
  stack : FreeStack s.mem s.pmmStack fs
  nodup : fs.Nodup
  free : ∀ f ∈ fs, ∀ x, x / pageSize = f → InFree as x
  kernel : ∀ f ∈ fs, ∀ x, x / pageSize = f → ¬ (k.kernelStart ≤ x ∧ x < k.kernelEnd)
  taken : ∀ f ∈ fs, f ∉ s.taken
  mapped : ∀ f ∈ fs, translate (words s.mem) k.bootP4 (p2v (frame f)) = some f

/-- Where a free area starts inside of a frame, with a page that may be freed, the frame is free
from its own start on. -/
def StartsFree (k : BootInfo) (as : List MemoryArea) : Prop :=
  ∀ a ∈ as, a.start + pageSize < a.stop → Freeable k (a.type, a.start) →
    ∀ x, x / pageSize = a.start / pageSize → x < a.start → InFree as x

section Final

variable {k : BootInfo} {s : Machine} {as : List MemoryArea}

theorem AtInit.inv (h : AtInit k s) (hk : Placed k) :
  Inv k [] [] (k.kernelEnd / pageSize) s
  := by
  obtain ⟨hstart, hstop⟩ := hk.tables
  have hlow := hk.low
  obtain ⟨e, he⟩ := hk.endAligned
  have hend : frame (k.kernelEnd / pageSize) = k.kernelEnd := by
    rw [frame, Nat.mul_div_cancel' hk.endAligned]
  have hb : frame (k.bootP4 + 2) < 2 ^ 39 := by
    simp only [frame, pageSize] at hstop ⊢
    omega
  have hboot : ∀ t, IsTable k.bootP4 (words s.mem) t → IsBoot k.bootP4 t := by
    rintro t ⟨r, p, ⟨hr, -⟩, ht⟩
    obtain rfl := hr.resolve_right id
    obtain ⟨-, rfl⟩ | ⟨-, rfl⟩ | ⟨-, rfl⟩ := h.tables.walk_eq ht
    · exact .inl rfl
    · exact .inr (.inl rfl)
    · exact .inr (.inr rfl)
  constructor
  · exact h.tables.kernelHalf hb
  · exact h.tables.present
  · constructor
    · rw [h.tables.p4, if_pos rfl]
    · rw [h.tables.p3, if_pos rfl]
    · exact h.tables.p2
  · intro p t _ ht
    obtain ⟨rfl, -⟩ | ⟨rfl, -⟩ | ⟨rfl, -⟩ := h.tables.walk_eq ht
    · exact .inl rfl
    · exact .inr rfl
    · exact .inr rfl
  · exact h.stack
  · rw [h.pos, hend]
  · rw [hend]
    exact ⟨Nat.le_refl _, by omega⟩
  · intro _
    refine ⟨rfl, ?_, ?_⟩
    · rw [hend, h.taken]
      rfl
    · intro t ht
      have ht := hboot t ht
      simp only [IsBoot, frame, pageSize] at ht hstop ⊢
      omega
  · rw [h.taken]
    exact List.nodup_nil
  · rw [h.taken]
    exact fun _ hf => (List.not_mem_nil hf).elim
  · exact fun t ht => .inl (hboot t ht)
  · exact List.nodup_nil
  · exact fun _ hf => (List.not_mem_nil hf).elim
  · exact fun _ hv => (List.not_mem_nil hv).elim
  · exact fun _ hv => (List.not_mem_nil hv).elim
  · exact fun _ => hboot

/-- The frame of a page of a free area that may be freed is free, from the start of the area on. -/
theorem inFree_of_visited {a : MemoryArea} {p x : Nat} (ha : a ∈ as) (hp : p ∈ pages a)
    (hfree : Freeable k (a.type, p)) (hstarts : StartsFree k as) (hx : x / pageSize = p / pageSize) :
  InFree as x
  := by
  obtain ⟨i, rfl, hlt⟩ := mem_pages.mp hp
  by_cases hstart : a.start ≤ x
  · refine ⟨a, ha, hfree.1, hstart, ?_⟩
    simp only [pageSize] at hx hlt
    omega
  · obtain rfl : i = 0 := by
      simp only [pageSize] at hx
      omega
    rw [Nat.mul_zero, Nat.add_zero] at hfree hx hlt
    exact hstarts a ha hlt hfree x hx (Nat.not_le.mp hstart)

/-- A page of 4 KiB at its `P2V` address. -/
theorem translate_mapped {b p : Nat} {T : Words} (h : KernelTables b T NoLive)
    (hpresent : Present b T NoLive) (hhigh : 2 ^ 30 ≤ p) (hdirect : p < 2 ^ 39)
    (hmapped : lookup T b (p2v p) = addFlags p (pagePresent ||| pageWrite)) :
  translate T b (p2v (frame (p / pageSize))) = some (p / pageSize)
  := by
  have hstrip : p2v (frame (p / pageSize)) = stripFlags (p2v p) := by
    rw [p2v_eq hdirect, p2v_eq, stripFlags]
    · simp only [frame, kernelOffset, pageSize]
      omega
    · simp only [frame, pageSize]
      omega
  have hlookup : lookup T b (stripFlags (p2v p)) = addFlags p (pagePresent ||| pageWrite) := by
    rw [← hmapped, lookup, lookup, tablePath_stripFlags, p1Offset, p1Offset,
      tableOffset_stripFlags _ (Nat.le_refl 12)]
  have hhuge : ¬ UnderHuge (stripFlags (p2v p)) := by
    rw [← hstrip, underHuge_p2v]
    · simp only [frame, pageSize]
      omega
    · simp only [frame, pageSize]
      omega
  have hpage : isPresent (lookup T b (stripFlags (p2v p))) = true := by
    rw [hlookup, isPresent, addFlags, Nat.testBit_or, Bool.or_eq_true]
    right
    decide
  rw [hstrip, h.translate_eq (.inl rfl) hpresent hhuge hpage, hlookup, frameOf_eq, addFlags_div]
  rw [addFlags_div, pageSize]
  omega

/-- What the invariant means for the frames on the stack. -/
theorem Inv.goodStack {vs : List (Nat × Nat)} {fs : List Nat} {n : Nat} (h : Inv k vs fs n s)
    (hk : Placed k) (hvs : ∀ v ∈ vs, v ∈ visits as) (hstarts : StartsFree k as) :
  GoodStack k as s fs
  := by
  obtain ⟨hstart, hstop⟩ := hk.tables
  obtain ⟨c, hc⟩ := hk.startAligned
  obtain ⟨e, he⟩ := hk.endAligned
  have hlow := hk.low
  refine ⟨h.stack, h.nodup, ?_, ?_, ?_, ?_⟩
  · intro f hf x hx
    obtain ⟨-, v, hv, rfl, hfree⟩ := h.free f hf
    obtain ⟨a, ha, htype, hp⟩ := mem_visits.mp (hvs v hv)
    apply inFree_of_visited ha hp _ hstarts hx
    rw [← htype]
    exact hfree
  · rintro f hf x hx
    obtain ⟨-, v, -, rfl, -, -, hout⟩ := h.free f hf
    simp only [pageSize] at hc he hx
    omega
  · intro f hf htaken
    exact (h.free f hf).1 (h.taken f htaken)
  · intro f hf
    obtain ⟨-, v, hv, rfl, -⟩ := h.free f hf
    have hdirect := h.direct v hv
    by_cases hhigh : 2 ^ 30 ≤ v.2
    · exact translate_mapped h.half.toKernelTables h.present hhigh hdirect (h.mapped v hv hhigh)
    · have hb : frame (k.bootP4 + 2) < 2 ^ 39 := by
        simp only [frame, pageSize] at hstop ⊢
        omega
      rw [translate_underHuge h.boot hb, frame_div]
      simp only [frame, pageSize]
      omega

/-- The order in which `pmm_init` visits the pages. -/
theorem ordered_visits (hdirect : ∀ a ∈ as, Direct a) (hapart : as.Pairwise NoOverlap)
    (hlow : (visits as).Pairwise fun v w => w.2 < 2 ^ 30 → v.2 < 2 ^ 30) :
  Ordered (visits as)
  := by
  refine ⟨?_, visits_pairwise hapart, hlow⟩
  intro v hv
  obtain ⟨a, ha, -, hp⟩ := mem_visits.mp hv
  obtain ⟨i, heq, hlt⟩ := mem_pages.mp hp
  have hstop := (hdirect a ha).2
  omega

section Init

variable (hk : Placed k) (hs : AtInit k s) (hdirect : ∀ a ∈ as, Direct a)
  (hapart : as.Pairwise NoOverlap)
  (hlow : (visits as).Pairwise fun v w => w.2 < 2 ^ 30 → v.2 < 2 ^ 30) {fuel : Nat} {s' : Machine}
  (hinit : pmmInit k fuel as s = some s')

include hk hs hdirect hapart hlow hinit

theorem goodStack_of_startsFree (hstarts : StartsFree k as) :
  ∃ fs, GoodStack k as s' fs
  := by
  obtain ⟨fs, n, hinv, -⟩ :=
    Inv.run hk (pmmInit_runs hdirect hinit) (hs.inv hk) (ordered_visits hdirect hapart hlow)
  rw [List.append_nil] at hinv
  exact ⟨fs, hinv.goodStack hk (fun v hv => List.mem_reverse.mp hv) hstarts⟩

/-- Without memory above the first gibibyte, every page that may be freed is on the stack. -/
theorem startsFree_of_goodStack (hsmall : ∀ a ∈ as, a.stop ≤ 2 ^ 30) {fs : List Nat}
    (hgood : GoodStack k as s' fs) :
  StartsFree k as
  := by
  obtain ⟨fs', n, hinv, hfilled⟩ :=
    Inv.run hk (pmmInit_runs hdirect hinit) (hs.inv hk) (ordered_visits hdirect hapart hlow)
  obtain rfl := hinv.stack.unique hgood.stack
  have hvisits : ∀ v ∈ visits as, v.2 < 2 ^ 30 := by
    intro v hv
    obtain ⟨a, ha, -, hp⟩ := mem_visits.mp hv
    obtain ⟨i, heq, hlt⟩ := mem_pages.mp hp
    have hstop := hsmall a ha
    omega
  have hend : frame (k.kernelEnd / pageSize) = k.kernelEnd := by
    rw [frame, Nat.mul_div_cancel' hk.endAligned]
  obtain ⟨-, -, hall⟩ := hfilled hvisits hend
  intro a ha hlt hfree x hx _
  have hvisit : (a.type, a.start) ∈ visits as :=
    mem_visits.mpr ⟨a, ha, rfl, mem_pages.mpr ⟨0, rfl, hlt⟩⟩
  exact hgood.free _ (hall _ hvisit hfree) x hx

end Init

end Final

/-! ### Two memory maps -/

/-- A kernel in the frames from 8 to 31. -/
def smallKernel : BootInfo where
  bootP4 := 16
  kernelStart := frame 8
  kernelEnd := frame 32
  pageUsed := fun _ => false

theorem placed_smallKernel :
  Placed smallKernel
  := by
  refine ⟨by decide, by decide, by decide, by decide, ?_⟩
  rintro t (rfl | rfl | rfl)
  · decide
  · decide
  · decide

theorem atInit_smallKernel :
  AtInit smallKernel bootSpace.machine
  := ⟨booted_bootSpace.2.1, rfl, rfl, rfl, rfl⟩

/-- Reserved memory, free memory in the first gibibyte, and free memory above it. -/
def alignedMap : List MemoryArea :=
  [⟨0, 0x1800, 2⟩, ⟨0x2000, 0x5000, 1⟩, ⟨2 ^ 30, 2 ^ 30 + 0x3001, 1⟩]

theorem visits_alignedMap :
  visits alignedMap =
    [(2, 0), (1, 0x2000), (1, 0x3000), (1, 2 ^ 30), (1, 2 ^ 30 + 0x1000), (1, 2 ^ 30 + 0x2000)]
  := by
  decide +kernel

/-- Reserved memory that ends, and free memory that starts, in the middle of a frame. -/
def straddlingMap : List MemoryArea :=
  [⟨0, 0x1800, 2⟩, ⟨0x1800, 0x4000, 1⟩]

theorem visits_straddlingMap :
  visits straddlingMap = [(2, 0), (1, 0x1800), (1, 0x2800)]
  := by
  decide +kernel

end Mem
