import Mittos64.Mem.KernelRun
import Mittos64.Boot.Multiboot
import Mathlib.Data.List.Perm.Subperm

/-!
# `pmm_init`

The loops of `pmm_init` over the areas of the memory map and over the pages of an area.  Every
page is mapped at its `P2V` address and, unless it is in use, freed when its area is free.  For a
page of the first gibibyte `vmm_set_page` passes an entry of `BootP2` and takes the first frame of
the two mebibytes for a table.

Where the areas do not overlap, no frame is visited twice.
-/

namespace Mem

open Trie (Forest Node)
open Boot (MemoryArea)

/-- `MBOOT_MMAP_FREE` -/
def mbootMmapFree : Nat := 1

/-- What `pmm_init` is linked with and told: the frame of `BootP4`, the physical addresses of
`kernel_start` and `kernel_end`, and `multiboot_page_used`. -/
structure BootInfo where
  bootP4 : Nat
  kernelStart : Nat
  kernelEnd : Nat
  pageUsed : Nat → Bool

variable (k : BootInfo)

/-- The body of the inner loop of `pmm_init`, for a page of an area of the given type. -/
def initPage (s : Machine) (type p : Nat) : Option Machine :=
  match vmmSetPage (frame k.bootP4) s 0 (p2v p) p (pagePresent ||| pageWrite) with
  | none => none
  | some (_, s) =>
      if k.kernelStart ≤ p ∧ p < v2p s.pmmPos then some s
      else if k.pageUsed p then some s
      else if type = mbootMmapFree then some (pmmFree s p)
      else some s

/-- The inner loop of `pmm_init` from the page `p` on, or `none` when it does not end in `fuel`
turns. -/
def initArea (a : MemoryArea) : Nat → Machine → Nat → Option Machine
  | 0, _, _ => none
  | fuel + 1, s, p =>
      if incptr p pageSize < a.stop then
        match initPage k s a.type p with
        | none => none
        | some s => initArea a fuel s (incptr p pageSize)
      else some s

/-- `pmm_init`, for the areas that `multiboot_get_memory_area` gives. -/
def pmmInit (fuel : Nat) : List MemoryArea → Machine → Option Machine
  | [], s => some s
  | a :: as, s =>
      match initArea k a fuel s a.start with
      | none => none
      | some s => pmmInit fuel as s

/-! ### The pages that are visited -/

/-- The pages of an area. -/
def pages (a : MemoryArea) : List Nat :=
  (List.range ((a.stop - 1 - a.start) / pageSize)).map fun i => a.start + pageSize * i

/-- The pages of the areas, each with the type of its area, in the order of `pmm_init`. -/
def visits (as : List MemoryArea) : List (Nat × Nat) :=
  as.flatMap fun a => (pages a).map fun p => (a.type, p)

/-- One turn of the inner loop. -/
def Visit (s : Machine) (v : Nat × Nat) (s' : Machine) : Prop :=
  initPage k s v.1 v.2 = some s'

theorem mem_pages {a : MemoryArea} {p : Nat} :
  p ∈ pages a ↔ ∃ i, p = a.start + pageSize * i ∧ p + pageSize < a.stop
  := by
  simp only [pages, List.mem_map, List.mem_range, pageSize]
  constructor
  · rintro ⟨i, hi, rfl⟩
    exact ⟨i, rfl, by omega⟩
  · rintro ⟨i, rfl, hi⟩
    exact ⟨i, by omega, rfl⟩

/-- The areas lie in the part of the memory that the kernel reaches at `P2V`, and do not end
before they start. -/
def Direct (a : MemoryArea) : Prop :=
  a.start ≤ a.stop ∧ a.stop ≤ 2 ^ 39

/-- Two areas do not overlap. -/
def NoOverlap (a a' : MemoryArea) : Prop :=
  a.stop ≤ a'.start ∨ a'.stop ≤ a.start

theorem mem_visits {as : List MemoryArea} {v : Nat × Nat} :
  v ∈ visits as ↔ ∃ a ∈ as, v.1 = a.type ∧ v.2 ∈ pages a
  := by
  simp only [visits, List.mem_flatMap, List.mem_map]
  constructor
  · rintro ⟨a, ha, p, hp, rfl⟩
    exact ⟨a, ha, rfl, hp⟩
  · rintro ⟨a, ha, htype, hp⟩
    exact ⟨a, ha, v.2, hp, by rw [← htype]⟩

/-- No frame is visited twice. -/
theorem visits_pairwise {as : List MemoryArea} (h : as.Pairwise NoOverlap) :
  (visits as).Pairwise fun v w => v.2 / pageSize ≠ w.2 / pageSize
  := by
  rw [visits, List.pairwise_flatMap]
  constructor
  · intro a _
    rw [pages, List.map_map, List.pairwise_map]
    apply List.nodup_range.imp
    intro i j hne heq
    simp only [Function.comp_apply, pageSize] at heq
    omega
  · apply h.imp
    rintro a a' hapart _ hv _ hw
    obtain ⟨p, hp, rfl⟩ := List.mem_map.mp hv
    obtain ⟨q, hq, rfl⟩ := List.mem_map.mp hw
    obtain ⟨i, rfl, hi⟩ := mem_pages.mp hp
    obtain ⟨j, rfl, hj⟩ := mem_pages.mp hq
    rw [NoOverlap] at hapart
    simp only [pageSize] at hi hj ⊢
    omega

section Loops

variable {k}

/-- The inner loop visits the pages of its area that are left. -/
theorem initArea_runs {a : MemoryArea} (ha : Direct a) {s' : Machine} :
  ∀ {fuel : Nat} {s : Machine} {i : Nat}, i ≤ (a.stop - 1 - a.start) / pageSize →
    initArea k a fuel s (a.start + pageSize * i) = some s' →
    Runs (Visit k) s ((List.range' i ((a.stop - 1 - a.start) / pageSize - i)).map
      fun j => (a.type, a.start + pageSize * j)) s'
  | 0, _, _, _, h => by
      cases h
  | fuel + 1, s, i, hi, h => by
      obtain ⟨hle, hstop⟩ := ha
      have hnext : incptr (a.start + pageSize * i) pageSize = a.start + pageSize * (i + 1) := by
        rw [incptr_of_lt]
        · rw [Nat.mul_succ, Nat.add_assoc]
        · simp only [pageSize] at hi ⊢
          omega
      rw [initArea, hnext] at h
      split_ifs at h with hlt
      · have hcount : (a.stop - 1 - a.start) / pageSize - i =
            ((a.stop - 1 - a.start) / pageSize - (i + 1)) + 1 := by
          simp only [pageSize] at hlt ⊢
          omega
        rw [hcount, List.range'_succ, List.map_cons]
        cases hpage : initPage k s a.type (a.start + pageSize * i) with
        | none =>
            rw [hpage] at h
            cases h
        | some s₁ =>
            rw [hpage] at h
            apply Runs.cons hpage
            apply initArea_runs ⟨hle, hstop⟩ _ h
            simp only [pageSize] at hlt ⊢
            omega
      · obtain rfl := Option.some.inj h
        have hcount : (a.stop - 1 - a.start) / pageSize - i = 0 := by
          simp only [pageSize] at hlt ⊢
          omega
        rw [hcount]
        exact .nil s

/-- `pmm_init` visits the pages of the areas. -/
theorem pmmInit_runs {fuel : Nat} {s' : Machine} :
  ∀ {as : List MemoryArea} {s : Machine}, (∀ a ∈ as, Direct a) → pmmInit k fuel as s = some s' →
    Runs (Visit k) s (visits as) s'
  | [], s, _, h => by
      obtain rfl := Option.some.inj h
      exact .nil s
  | a :: as, s, hdirect, h => by
      rw [pmmInit] at h
      cases harea : initArea k a fuel s a.start with
      | none =>
          rw [harea] at h
          cases h
      | some s₁ =>
          rw [harea] at h
          have hfirst := @initArea_runs k a (hdirect a List.mem_cons_self) s₁ fuel s 0
            (Nat.zero_le _) harea
          have hrest := pmmInit_runs (fun a ha => hdirect a (List.mem_cons_of_mem _ ha)) h
          rw [visits, List.flatMap_cons, pages, List.map_map]
          rw [Nat.sub_zero, ← List.range_eq_range'] at hfirst
          exact hfirst.append hrest

end Loops

/-! ### The addresses at `P2V` -/

section Address

variable {p : Nat} (hp : p < 2 ^ 39)
include hp

theorem p2v_eq :
  p2v p = p + kernelOffset
  := by
  simp only [p2v, kernelOffset]
  omega

theorem p4Offset_p2v :
  p4Offset (p2v p) = 511
  := by
  apply Fin.ext
  rw [p4Offset, tableOffset_val, p2v_eq hp, kernelOffset]
  have hval : (511 : Fin 512).val = 511 := rfl
  omega

theorem p3Offset_p2v :
  (p3Offset (p2v p)).val = p / 2 ^ 30
  := by
  rw [p3Offset, tableOffset_val, p2v_eq hp, kernelOffset]
  omega

theorem p2Offset_p2v :
  (p2Offset (p2v p)).val = p / 2 ^ 21 % 512
  := by
  rw [p2Offset, tableOffset_val, p2v_eq hp, kernelOffset]
  omega

theorem p1Offset_p2v :
  (p1Offset (p2v p)).val = p / pageSize % 512
  := by
  rw [p1Offset, tableOffset_val, p2v_eq hp, kernelOffset, pageSize]
  omega

/-- The first gibibyte is under the entries of `BootP2`. -/
theorem underHuge_p2v :
  UnderHuge (p2v p) ↔ p < 2 ^ 30
  := by
  have hval : (0 : Fin 512).val = 0 := rfl
  rw [UnderHuge, p4Offset_p2v hp, Fin.ext_iff (b := 0), p3Offset_p2v hp, hval]
  constructor
  · rintro ⟨-, h⟩
    omega
  · intro h
    exact ⟨rfl, by omega⟩

/-- Addresses of different frames have different entries. -/
theorem frame_eq_of_path {q : Nat} (hq : q < 2 ^ 39) (hpath : tablePath (p2v p) = tablePath (p2v q))
    (hoff : p1Offset (p2v p) = p1Offset (p2v q)) :
  p / pageSize = q / pageSize
  := by
  simp only [tablePath, List.cons.injEq, and_true] at hpath
  have h3 := congrArg Fin.val hpath.2.1
  have h2 := congrArg Fin.val hpath.2.2
  have h1 := congrArg Fin.val hoff
  rw [p3Offset_p2v hp, p3Offset_p2v hq] at h3
  rw [p2Offset_p2v hp, p2Offset_p2v hq] at h2
  rw [p1Offset_p2v hp, p1Offset_p2v hq] at h1
  simp only [pageSize] at h1 ⊢
  omega

end Address

/-! ### Pages of the first gibibyte -/

/-- The entries of the boot tables on the way to the first gibibyte. -/
structure BootEntries (b : Nat) (T : Words) : Prop where
  p4 : T b 511 = frame (b + 1) + (pagePresent ||| pageWrite)
  p3 : T (b + 1) 0 = frame (b + 2) + (pagePresent ||| pageWrite)
  p2 : ∀ i, T (b + 2) i = i.val <<< 21 + (pagePresent ||| pageWrite ||| pageHuge)

/-- The first frame of the two mebibytes of an address. -/
def hugeFrame (p : Nat) : Nat :=
  p / 2 ^ 21 * 512

theorem findTable_of_ne {s : Machine} {t : Nat} {i : Fin 512} {path : List (Fin 512)}
    (h : words s.mem t i ≠ 0) :
  findTable true s (frame t) (i :: path) = findTable true s (stripFlags (words s.mem t i)) path
  := by
  rw [findTable, nextTable_of_ne h]
  simp only [if_neg h]

theorem stripFlags_boot (n : Nat) :
  stripFlags (frame n + (pagePresent ||| pageWrite)) = frame n
  := by
  have hflags : pagePresent ||| pageWrite = 3 := rfl
  rw [hflags, stripFlags, frame, pageSize]
  omega

theorem stripFlags_huge (i : Nat) :
  stripFlags (i <<< 21 + (pagePresent ||| pageWrite ||| pageHuge)) = frame (i * 512)
  := by
  have hflags : pagePresent ||| pageWrite ||| pageHuge = 0x83 := rfl
  rw [hflags, stripFlags, frame, pageSize, Nat.shiftLeft_eq]
  omega

/-- For a page of the first gibibyte, `vmm_set_page` writes to the first frame of its two
mebibytes. -/
theorem vmmSetPage_underHuge {b : Nat} {s : Machine} (h : BootEntries b (words s.mem)) {p : Nat}
    (hp : p < 2 ^ 30) (flags : Nat) :
  vmmSetPage (frame b) s 0 (p2v p) p flags =
    some (addFlags p flags,
      setEntry s (frame (hugeFrame p)) (p1Offset (p2v p)) (addFlags p flags))
  := by
  have hp' : p < 2 ^ 39 := by omega
  have hflags : pagePresent ||| pageWrite = 3 := rfl
  have hflags' : pagePresent ||| pageWrite ||| pageHuge = 0x83 := rfl
  obtain ⟨h4, h3⟩ := (underHuge_p2v hp').mpr hp
  have h2 : (p2Offset (p2v p)).val = p / 2 ^ 21 := by
    rw [p2Offset_p2v hp']
    omega
  have hfind : vmmFindPage s (frame b) (p2v p) true = some (p2v (frame (hugeFrame p)), s) := by
    rw [vmmFindPage, tablePath_stripFlags, tablePath, h4, h3, findTable_of_ne, h.p4, stripFlags_boot,
      findTable_of_ne, h.p3, stripFlags_boot, findTable_of_ne, h.p2, stripFlags_huge, h2, findTable]
    · rfl
    · rw [h.p2]
      omega
    · rw [h.p3]
      omega
    · rw [h.p4]
      omega
  have hframe : frame (hugeFrame p) < 2 ^ 39 := by
    rw [frame, hugeFrame, pageSize]
    omega
  obtain ⟨hne, hlt⟩ := p2v_ne_zero hframe
  have hvalue : addFlags p flags < 2 ^ 64 := addFlags_lt flags (by omega)
  have hroot : resolveP4 (frame b) 0 = frame b := if_pos rfl
  rw [vmmSetPage, hroot, hfind]
  simp only [if_neg hne, v2p_p2v hlt, entry_frame]
  rw [words_setEntry s _ _ hvalue, setWord_self]

theorem isPresent_boot (n : Nat) :
  isPresent (frame n + (pagePresent ||| pageWrite)) = true
  := by
  have hflags : pagePresent ||| pageWrite = 3 := rfl
  rw [isPresent, Nat.testBit_eq_decide_div_mod_eq, decide_eq_true_iff, hflags, frame, pageSize]
  omega

theorem isPresent_huge (i : Nat) :
  isPresent (i <<< 21 + (pagePresent ||| pageWrite ||| pageHuge)) = true
  := by
  have hflags : pagePresent ||| pageWrite ||| pageHuge = 0x83 := rfl
  rw [isPresent, Nat.testBit_eq_decide_div_mod_eq, decide_eq_true_iff, hflags, Nat.shiftLeft_eq]
  omega

theorem frameOf_boot {n : Nat} (h : frame n < 2 ^ 39) :
  frameOf (frame n + (pagePresent ||| pageWrite)) = n
  := by
  have hflags : pagePresent ||| pageWrite = 3 := rfl
  simp only [frameOf, hflags, frame, pageSize] at h ⊢
  omega

theorem frameOf_huge (i : Fin 512) :
  frameOf (i.val <<< 21 + (pagePresent ||| pageWrite ||| pageHuge)) = i.val * 512
  := by
  have hflags : pagePresent ||| pageWrite ||| pageHuge = 0x83 := rfl
  have hi := i.isLt
  simp only [frameOf, hflags, Nat.shiftLeft_eq, pageSize]
  omega

/-- The processor finds the first gibibyte at `P2V`. -/
theorem translate_underHuge {b : Nat} {T : Words} (h : BootEntries b T) (hb : frame (b + 2) < 2 ^ 39)
    {p : Nat} (hp : p < 2 ^ 30) :
  translate T b (p2v p) = some (p / pageSize)
  := by
  have hp' : p < 2 ^ 39 := by omega
  have hb' : frame (b + 1) < 2 ^ 39 := by
    simp only [frame, pageSize] at hb ⊢
    omega
  obtain ⟨h4, h3⟩ := (underHuge_p2v hp').mpr hp
  have h2 := p2Offset_p2v hp'
  have h1 := p1Offset_p2v hp'
  have hoffset : ∀ i : Fin 512, offsetIn [i] = i.val := by
    intro i
    simp [offsetIn]
  rw [translate, tablePath, h4, h3, List.cons_append, List.cons_append, List.cons_append,
    List.nil_append, h.p4, (child_boot _).2, if_neg Bool.false_ne_true, descend, h.p4,
    if_pos (isPresent_boot _), (child_boot _).2, if_neg (by simp), frameOf_boot hb', descend, h.p3,
    if_pos (isPresent_boot _), (child_boot _).2, if_neg (by simp), frameOf_boot hb, descend, h.p2,
    if_pos (isPresent_huge _), if_pos ⟨isHuge_boot _, List.cons_ne_nil _ _⟩, frameOf_huge, hoffset,
    List.length_singleton, h2, h1]
  congr 1
  simp only [pageSize]
  omega

end Mem
