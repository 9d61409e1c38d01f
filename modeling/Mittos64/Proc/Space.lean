import Mittos64.Proc.AreaList
import Mittos64.Proc.Copy

/-!
# The address spaces of the kernel

A kernel is ready when its machine is sound for the address spaces of its live maps.  `kcalloc`
and `procmm_map` keep a kernel ready: they take frames off the free stack, and return unless
there are too few of them.
-/

open DList

namespace Procmm

open Mem

/-- The frame is the P4 of a live map. -/
def Kernel.Root (k : Kernel) (r : Nat) : Prop :=
  ∃ m, k.live m = true ∧ (k.map m).P4 = frame r

/-- A kernel with the free frames `fs`. -/
structure Ready (b : Nat) (own : Nat → Prop) (fs : List Nat) (k : Kernel) : Prop where
  sound : Sound b own k.Root fs k.machine
  heap : kernelHeapS ≤ k.heapBrk ∧ k.heapBrk % pageSize = 0 ∧ k.heapBrk ≤ 2 ^ 64
  aligned : ∀ {m}, k.live m = true → m < k.maps ∧ ∃ r, (k.map m).P4 = frame r
  own : ∀ {m m'}, k.live m = true → k.live m' = true → (k.map m).P4 = (k.map m').P4 → m = m'

/-- The kernel `k'` is the kernel `k` with a larger heap, more areas and more pages, for which
it has used the frames `used`. -/
structure Keeps (b : Nat) (used : List Nat) (k k' : Kernel) : Prop where
  grows : Grows b k.Root used k.machine k'.machine
  live : k'.live = k.live
  maps : k'.maps = k.maps
  P4 : ∀ m, (k'.map m).P4 = (k.map m).P4
  heap : k.heapBrk ≤ k'.heapBrk

/-- The pages that `n` allocations on the heap map, from the allocation number `i` on. -/
def heapPages (grow : Nat → Nat) : Nat → Nat → Nat
  | _, 0 => 0
  | i, n + 1 => grow i + heapPages grow (i + 1) n

theorem heapPages_add (grow : Nat → Nat) (i n l : Nat) :
  heapPages grow i (n + l) = heapPages grow i n + heapPages grow (i + n) l
  := by
  induction n generalizing i with
  | zero => rw [Nat.zero_add, heapPages, Nat.zero_add, Nat.add_zero]
  | succ n ih =>
      have hcount : i + 1 + n = i + (n + 1) := by omega
      rw [Nat.succ_add, heapPages, heapPages, ih, hcount, Nat.add_assoc]

section Keeps

variable {b : Nat} {own : Nat → Prop} {used used' : List Nat} {k k' k'' : Kernel}

theorem Keeps.root (h : Keeps b used k k') :
  k'.Root = k.Root
  := by
  funext r
  simp only [Kernel.Root, h.live, h.P4]

theorem Keeps.refl :
  Keeps b [] k k
  := ⟨Grows.refl, rfl, rfl, fun _ => rfl, Nat.le_refl _⟩

theorem Keeps.trans (h : Keeps b used k k') (h' : Keeps b used' k' k'') :
  Keeps b (used ++ used') k k''
  := by
  have hgrows := h'.grows
  rw [h.root] at hgrows
  refine ⟨h.grows.trans hgrows, ?_, ?_, ?_, Nat.le_trans h.heap h'.heap⟩
  · rw [h'.live, h.live]
  · rw [h'.maps, h.maps]
  · intro m
    rw [h'.P4, h.P4]

/-- A kernel is ready when its machine is, and its maps are as before. -/
theorem Ready.of_sound {fs fs' : List Nat} (h : Ready b own fs k) (hlive : k'.live = k.live)
    (hmaps : k'.maps = k.maps) (hP4 : ∀ m, (k'.map m).P4 = (k.map m).P4)
    (hheap : kernelHeapS ≤ k'.heapBrk ∧ k'.heapBrk % pageSize = 0 ∧ k'.heapBrk ≤ 2 ^ 64)
    (hsound : Sound b own k.Root fs' k'.machine) :
  Ready b own fs' k'
  := by
  have hroot : k'.Root = k.Root := by
    funext r
    simp only [Kernel.Root, hlive, hP4]
  refine ⟨?_, hheap, ?_, ?_⟩
  · rw [hroot]
    exact hsound
  · intro m hm
    rw [hlive] at hm
    rw [hmaps, hP4]
    exact h.aligned hm
  · intro m m' hm hm' heq
    rw [hlive] at hm hm'
    rw [hP4, hP4] at heq
    exact h.own hm hm' heq

end Keeps

section Calls

variable {b : Nat} {own : Nat → Prop} {fs : List Nat} {k : Kernel}

/-- `kcalloc` with a heap that grows by `n` pages. -/
theorem Ready.kcalloc {n : Nat} (h : Ready b own fs k) (hroom : k.heapBrk + pageSize * n ≤ 2 ^ 64) :
  (∃ k' used fs', fs = used ++ fs' ∧ used.length ≤ 4 * n ∧ kcalloc (frame b) n k = some k'
      ∧ Ready b own fs' k' ∧ Keeps b used k k' ∧ k'.heapBrk = k.heapBrk + pageSize * n
      ∧ ∀ q c, Roots b k.Root q → ¬ Stepped k.heapBrk k'.heapBrk c →
          lookup (words k'.machine.mem) q c = lookup (words k.machine.mem) q c)
    ∨ (fs.length < 4 * n ∧ Procmm.kcalloc (frame b) n k = none)
  := by
  obtain ⟨s, used, fs', rfl, hused, hgrow, hsound, hgrows, hlookup⟩ | ⟨hlen, hnone⟩ :=
    h.sound.growHeap h.heap.1 hroom
  · left
    have hle : k.heapBrk ≤ k.heapBrk + pageSize * n := Nat.le_add_right _ _
    refine ⟨{ k with machine := s, heapBrk := k.heapBrk + pageSize * n }, used, fs', rfl, hused,
      ?_, ?_, ?_, rfl, hlookup⟩
    · rw [Procmm.kcalloc, hgrow]
    · apply h.of_sound _ _ _ _ hsound
      · rfl
      · rfl
      · exact fun _ => rfl
      · refine ⟨Nat.le_trans h.heap.1 hle, ?_, hroom⟩
        have haligned := h.heap.2.1
        dsimp only
        rw [Nat.add_mul_mod_self_left, haligned]
    · exact ⟨hgrows, rfl, rfl, fun _ => rfl, hle⟩
  · right
    refine ⟨hlen, ?_⟩
    rw [Procmm.kcalloc, hnone]

/-- The pages after a call of `procmm_map` for the area `a`, in the map with the P4 `r`. -/
structure Paged (b r start stop : Nat) (used : List Nat) (a : Option Nat) (k k' : Kernel) :
    Prop where
  other : ∀ {q c}, Roots b k.Root q → ¬ Stepped k.heapBrk k'.heapBrk c →
    ¬ (a ≠ none ∧ q = r ∧ Stepped start stop c) →
    lookup (words k'.machine.mem) q c = lookup (words k.machine.mem) q c
  page : a ≠ none → ∀ {c}, Stepped start stop c → ∃ f ∈ used,
    lookup (words k'.machine.mem) r c = addFlags (frame f) userFlags

/-- The P4s of the maps with another area list and one more area. -/
theorem withLists_P4 {area : Area} {m : Nat} {head : Link Nat}
    (link : Nat → Link Nat) (m' : Nat) :
  (((k.addArea area).withLists m head link).map m').P4 = (k.map m').P4
  := by
  rw [Kernel.withLists_map]
  by_cases hm : m' = m
  · rw [hm, Function.update_self, Kernel.addArea_map]
  · rw [Function.update_of_ne hm, Kernel.addArea_map]

/-- The kernel `k'` has the areas of the kernel `k` and a new one, and the map `m` has the list with
the given head and links. -/
structure Inserts (k : Kernel) (m : Nat) (area : Area) (head : Link Nat) (link : Nat → Link Nat)
    (k' : Kernel) : Prop where
  area : k'.area = (k.addArea area).area
  link : k'.link = link
  map : k'.map = Function.update k.map m { k.map m with areas := head }
  areas : k'.areas = k.areas + 1

/-- `procmm_map`, for an area that is put in the list when `ok`. -/
theorem Ready.procmmMap_insert {grow : Nat → Nat} {m r start stop flags : Nat} {ok : Bool}
    {head : Link Nat} {link : Nat → Link Nat} (h : Ready b own fs k) (hlive : k.live m = true)
    (hP4 : (k.map m).P4 = frame r)
    (hinsert : insertArea (k.addArea ⟨start, stop, flags, m⟩).area k.areas
      (2 * (k.areas + 1) + 1) (k.map m).areas k.link = some (ok, head, link))
    (hstop : stop ≤ userspaceTop) (hroom : k.heapBrk + pageSize * k.demand grow ≤ 2 ^ 64) :
  (∃ k' used fs', fs = used ++ fs' ∧ used.length ≤ 4 * (k.demand grow + turns start stop)
      ∧ procmmMap (frame b) grow k m start stop flags
        = some (if ok then some k.areas else none, k')
      ∧ Ready b own fs' k' ∧ Keeps b used k k'
      ∧ Paged b r start stop used (if ok then some k.areas else none) k k'
      ∧ k'.heapBrk = k.heapBrk + pageSize * k.demand grow
      ∧ Inserts k m ⟨start, stop, flags, m⟩ head link k')
    ∨ (fs.length < 4 * (k.demand grow + turns start stop)
      ∧ Procmm.procmmMap (frame b) grow k m start stop flags = none)
  := by
  obtain ⟨k₁, used₁, fs₁, rfl, hused₁, hcalloc, hready₁, hkeeps₁, hheap₁, hlookup₁⟩ | ⟨hlen, hnone⟩ :=
    h.kcalloc hroom
  · obtain ⟨harea, hlink, hmap, -, hareas, -⟩ := kcalloc_fields hcalloc
    have haddArea : (k₁.addArea ⟨start, stop, flags, m⟩).area
        = (k.addArea ⟨start, stop, flags, m⟩).area := by
      funext a
      rw [Kernel.addArea_area, Kernel.addArea_area, harea, hareas]
    have hinsert₁ : insertArea (k₁.addArea ⟨start, stop, flags, m⟩).area k₁.areas
        (2 * (k₁.areas + 1) + 1) (k₁.map m).areas k₁.link = some (ok, head, link) := by
      rw [haddArea, hareas, hmap, hlink]
      exact hinsert
    have hmap' : ((k₁.addArea ⟨start, stop, flags, m⟩).withLists m head link).map
        = Function.update k.map m { k.map m with areas := head } := by
      rw [← hmap]
      rfl
    cases ok with
    | false =>
        left
        refine ⟨(k₁.addArea ⟨start, stop, flags, m⟩).withLists m head link, used₁, fs₁, rfl, ?_,
          procmmMap_of_false hcalloc hinsert₁, ?_, ?_, ?_, hheap₁, ?_⟩
        · omega
        · exact hready₁.of_sound rfl rfl (withLists_P4 link) hready₁.heap hready₁.sound
        · refine ⟨hkeeps₁.grows, hkeeps₁.live, hkeeps₁.maps, ?_, hkeeps₁.heap⟩
          intro m'
          rw [withLists_P4, hkeeps₁.P4]
        · constructor
          · intro q c hq hnot _
            exact hlookup₁ q c hq hnot
          · intro hne
            exact absurd rfl hne
        · exact ⟨haddArea, rfl, hmap', congrArg Nat.succ hareas⟩
    | true =>
        have hlive₁ : k₁.live m = true := by
          rw [hkeeps₁.live]
          exact hlive
        have hP4₁ : (k₁.map m).P4 = frame r := by
          rw [hmap]
          exact hP4
        obtain ⟨s, used, fs', rfl, hused, hpages, hsound, hgrows, hmapping⟩ | ⟨hlen, hnone⟩ :=
          hready₁.sound.mapPages (r := r) ⟨m, hlive₁, hP4₁⟩ hstop
            (Nat.lt_succ_self (turns start stop))
        · left
          refine ⟨((k₁.addArea ⟨start, stop, flags, m⟩).withLists m head link).withMachine s,
            used₁ ++ used, fs', by rw [List.append_assoc], ?_, ?_, ?_, ?_, ?_, hheap₁, ?_⟩
          · rw [List.length_append]
            omega
          · rw [procmmMap_of_true hcalloc hinsert₁, hP4₁, hpages, Option.map_some, hareas,
              if_pos rfl]
          · exact hready₁.of_sound rfl rfl (withLists_P4 link) hready₁.heap hsound
          · apply hkeeps₁.trans
            exact ⟨hgrows, rfl, rfl, withLists_P4 link, Nat.le_refl _⟩
          · have hroots : ∀ {q}, Roots b k.Root q → Roots b k₁.Root q := by
              intro q hq
              rw [hkeeps₁.root]
              exact hq
            constructor
            · intro q c hq hnot hpage
              have hpage' : ¬ (q = r ∧ Stepped start stop c) :=
                fun hand => hpage ⟨Option.some_ne_none _, hand⟩
              rw [Kernel.withMachine_machine, hmapping.other (hroots hq) hpage',
                hlookup₁ q c hq hnot]
            · intro _ c hstep
              obtain ⟨f, hf, heq⟩ := hmapping.page hstep
              exact ⟨f, List.mem_append_right _ hf, heq⟩
          · exact ⟨haddArea, rfl, hmap', congrArg Nat.succ hareas⟩
        · right
          constructor
          · rw [List.length_append]
            omega
          · rw [procmmMap_of_true hcalloc hinsert₁, hP4₁, hnone, Option.map_none]
  · right
    refine ⟨by omega, ?_⟩
    rw [Procmm.procmmMap, hnone]

/-- `procmm_map`, for an area that lies above all others or meets one of them. -/
theorem Ready.procmmMap {grow : Nat → Nat} {m r start stop : Nat} {xs : List Nat}
    (h : Ready b own fs k) (hlist : AreaList k m xs) (hlive : k.live m = true)
    (hP4 : (k.map m).P4 = frame r) (hfits : Fits k.area xs start stop)
    (hstop : stop ≤ userspaceTop) (hroom : k.heapBrk + pageSize * k.demand grow ≤ 2 ^ 64)
    (flags : Nat) :
  (∃ a k' used fs', fs = used ++ fs' ∧ used.length ≤ 4 * (k.demand grow + turns start stop)
      ∧ procmmMap (frame b) grow k m start stop flags = some (a, k')
      ∧ Ready b own fs' k' ∧ Keeps b used k k' ∧ Paged b r start stop used a k k'
      ∧ k'.heapBrk = k.heapBrk + pageSize * k.demand grow
      ∧ (a = none ↔ ∃ o ∈ xs, Meets k.area start stop o))
    ∨ (fs.length < 4 * (k.demand grow + turns start stop)
      ∧ Procmm.procmmMap (frame b) grow k m start stop flags = none)
  := by
  obtain ⟨hmeets, hinsert⟩ | ⟨hbelow, head, link, hinsert, -⟩ :=
    @AreaList.insertArea k m start stop flags xs hlist hfits
  · obtain ⟨k', used, fs', hfs, hused, hcall, hready, hkeeps, hpaged, hheap, -⟩ | hnone :=
      h.procmmMap_insert hlive hP4 hinsert hstop hroom
    · left
      exact ⟨none, k', used, fs', hfs, hused, hcall, hready, hkeeps, hpaged, hheap,
        fun _ => hmeets, fun _ => rfl⟩
    · right
      exact hnone
  · obtain ⟨k', used, fs', hfs, hused, hcall, hready, hkeeps, hpaged, hheap, -⟩ | hnone :=
      h.procmmMap_insert hlive hP4 hinsert hstop hroom
    · left
      refine ⟨some k.areas, k', used, fs', hfs, hused, hcall, hready, hkeeps, hpaged, hheap, ?_⟩
      constructor
      · intro hnone
        nomatch hnone
      · rintro ⟨o, ho, hmeet⟩
        have hb := hbelow o ho
        rw [Meets] at hmeet
        rw [Below] at hb
        omega
    · right
      exact hnone

/-- The user pages after a call of `procmm_map`. -/
theorem Paged.user {r start stop : Nat} {used : List Nat} {a : Option Nat} {k' : Kernel}
    (h : Paged b r start stop used a k k') (hready : Ready b own fs k) {fs' : List Nat}
    (hready' : Ready b own fs' k') {q c : Nat} (hq : Roots b k.Root q) (hc : p4Offset c ≠ 511)
    (hnot : ¬ (q = r ∧ Stepped start stop c)) :
  lookup (words k'.machine.mem) q c = lookup (words k.machine.mem) q c
  := h.other hq (not_stepped_heap hready.heap.1 hready'.heap.2.2 hc) fun hand => hnot hand.2

/-- The bytes of the pages of users are kept when pages are mapped. -/
theorem Keeps.mem_eq {used fs' : List Nat} {k' : Kernel} (h : Keeps b used k k')
    (hready : Ready b own fs' k') {q c x : Nat} (hq : k'.Root q) (hc : p4Offset c ≠ 511)
    (hne : lookup (words k'.machine.mem) q c ≠ 0)
    (hx : x / pageSize = lookup (words k'.machine.mem) q c / pageSize) :
  k'.machine.mem x = k.machine.mem x
  := by
  apply bytes_of_words
  apply h.grows.words_eq
  rw [← h.root, hx]
  exact hready.sound.half.mapped ⟨q, c, hq, hc, hne, rfl⟩

/-- A page of a user that stays where it is keeps its bytes. -/
theorem Keeps.byteAt_eq {used fs' : List Nat} {k' : Kernel} (h : Keeps b used k k')
    (hready : Ready b own fs' k') {q c : Nat} (hq : k'.Root q) (hc : p4Offset c ≠ 511)
    (hne : lookup (words k'.machine.mem) q c ≠ 0)
    (hsame : lookup (words k'.machine.mem) q c = lookup (words k.machine.mem) q c) :
  byteAt k'.machine q c = byteAt k.machine q c
  := by
  have hplace : place (words k'.machine.mem) q c = place (words k.machine.mem) q c :=
    place_congr hsame
  rw [byteAt, byteAt, ← hplace]
  exact h.mem_eq hready hq hc hne (place_div _ _ _)

/-- The P4s of the live maps with a new one. -/
theorem addMap_root {s : Machine} {f : Nat} (hnot : k.live k.maps = false) :
  ((k.withMachine s).addMap ⟨frame f, nil, none, none⟩).Root = withRoot f k.Root
  := by
  funext q
  apply propext
  constructor
  · rintro ⟨m, hlive, hP4⟩
    rw [Kernel.addMap_live, Kernel.withMachine_maps] at hlive
    rw [Kernel.addMap_map, Kernel.withMachine_maps] at hP4
    by_cases hm : m = k.maps
    · rw [hm, Function.update_self] at hP4
      exact Or.inl (frame_inj hP4).symm
    · rw [Function.update_of_ne hm] at hlive hP4
      exact Or.inr ⟨m, hlive, hP4⟩
  · rintro (rfl | ⟨m, hlive, hP4⟩)
    · refine ⟨k.maps, ?_, ?_⟩
      · rw [Kernel.addMap_live, Kernel.withMachine_maps, Function.update_self]
      · rw [Kernel.addMap_map, Kernel.withMachine_maps, Function.update_self]
    · have hm : m ≠ k.maps := by
        rintro rfl
        rw [hnot] at hlive
        nomatch hlive
      refine ⟨m, ?_, ?_⟩
      · rw [Kernel.addMap_live, Kernel.withMachine_maps, Function.update_of_ne hm]
        exact hlive
      · rw [Kernel.addMap_map, Kernel.withMachine_maps, Function.update_of_ne hm]
        exact hP4

/-- A new map with a new address space. -/
theorem Ready.newMap {f : Nat} (h : Ready b own (f :: fs) k) (hf : f ≠ 0) :
  ∃ s, vmmNewP4 (frame b) k.machine = some (frame f, s)
    ∧ Ready b (withRoot f own) fs ((k.withMachine s).addMap ⟨frame f, nil, none, none⟩)
    ∧ s.freed = k.machine.freed
    ∧ (∀ n, IsTable b (withRoot f k.Root) s n ↔ IsTable b k.Root k.machine n ∨ n = f)
    ∧ (∀ n, n ≠ f → words s.mem n = words k.machine.mem n)
    ∧ (∀ q c, Roots b k.Root q → lookup (words s.mem) q c = lookup (words k.machine.mem) q c)
    ∧ ∀ c, p4Offset c ≠ 511 → lookup (words s.mem) f c = 0
  := by
  obtain ⟨s, hnew, hsound, hfreed, htable, hother, hlookup, hself⟩ := h.sound.newP4 hf
  have hnot : k.live k.maps = false := by
    apply Bool.eq_false_iff.mpr
    intro hlive
    exact Nat.lt_irrefl _ (h.aligned hlive).1
  have hroot := @addMap_root k s f hnot
  have hf' : ¬ k.Root f := by
    intro hroot
    exact (h.sound.unused f List.mem_cons_self).2.1 (roots_node (Or.inr hroot))
  -- a live map is the new one, or an old one with another P4
  have hcase : ∀ {m}, ((k.withMachine s).addMap ⟨frame f, nil, none, none⟩).live m = true →
      (m = k.maps ∧ (((k.withMachine s).addMap ⟨frame f, nil, none, none⟩).map m).P4 = frame f)
        ∨ (k.live m = true ∧ (k.map m).P4 ≠ frame f
          ∧ (((k.withMachine s).addMap ⟨frame f, nil, none, none⟩).map m).P4 = (k.map m).P4) := by
    intro m hlive
    rw [Kernel.addMap_live, Kernel.withMachine_maps] at hlive
    rw [Kernel.addMap_map, Kernel.withMachine_maps]
    by_cases hm : m = k.maps
    · left
      rw [hm, Function.update_self]
      exact ⟨rfl, rfl⟩
    · right
      rw [Function.update_of_ne hm] at hlive
      rw [Function.update_of_ne hm]
      exact ⟨hlive, fun heq => hf' ⟨m, hlive, heq⟩, rfl⟩
  refine ⟨s, hnew, ⟨?_, h.heap, ?_, ?_⟩, hfreed, htable, hother, hlookup, hself⟩
  · rw [hroot]
    exact hsound
  · intro m hlive
    rw [Kernel.addMap_maps, Kernel.withMachine_maps]
    obtain ⟨rfl, hP4⟩ | ⟨hold, -, hP4⟩ := hcase hlive
    · exact ⟨Nat.lt_succ_self _, f, hP4⟩
    · rw [hP4]
      exact ⟨Nat.lt_succ_of_lt (h.aligned hold).1, (h.aligned hold).2⟩
  · intro m m' hlive hlive' heq
    obtain ⟨rfl, hP4⟩ | ⟨hold, hne, hP4⟩ := hcase hlive
    · obtain ⟨rfl, -⟩ | ⟨-, hne', hP4'⟩ := hcase hlive'
      · rfl
      · rw [hP4, hP4'] at heq
        exact absurd heq.symm hne'
    · obtain ⟨rfl, hP4'⟩ | ⟨hold', -, hP4'⟩ := hcase hlive'
      · rw [hP4, hP4'] at heq
        exact absurd heq hne
      · rw [hP4, hP4'] at heq
        exact h.own hold hold' heq

/-- The kernel `k'` is the kernel `k` with a new map, whose P4 is the frame `f`. -/
structure NewMap (b : Nat) (k : Kernel) (f : Nat) (k' : Kernel) : Prop where
  map_new : k'.map k.maps = ⟨frame f, nil, none, none⟩
  map_old : ∀ m ≠ k.maps, k'.map m = k.map m
  live : k'.live = Function.update k.live k.maps true
  area : k'.area = k.area
  link : k'.link = k.link
  areas : k'.areas = k.areas
  maps : k'.maps = k.maps + 1
  ne : ∀ {q}, k.Root q → q ≠ f
  entries : ∀ {q c}, k.Root q → p4Offset c ≠ 511 →
    lookup (words k'.machine.mem) q c = lookup (words k.machine.mem) q c
  bytes : ∀ {q c}, k.Root q → p4Offset c ≠ 511 → lookup (words k.machine.mem) q c ≠ 0 →
    byteAt k'.machine q c = byteAt k.machine q c
  empty : ∀ {c}, p4Offset c ≠ 511 → lookup (words k'.machine.mem) f c = 0
  mono : ∀ {n}, IsTable b k.Root k.machine n → IsTable b k'.Root k'.machine n
  words_eq : ∀ {n}, ¬ IsTable b k'.Root k'.machine n →
    words k'.machine.mem n = words k.machine.mem n

/-- The part of `procmm_new_map` before the areas of the source, when `kcalloc` has returned and the
next free frame is `f`. -/
theorem Ready.newMap_of_kcalloc {grow : Nat → Nat} {f : Nat} {used : List Nat} {k₁ : Kernel}
    (h : Ready b own (used ++ f :: fs) k) (hcalloc : Procmm.kcalloc (frame b) (k.demand grow) k = some k₁)
    (hready : Ready b own (f :: fs) k₁) (hkeeps : Keeps b used k k₁)
    (huser : ∀ {q c}, k.Root q → p4Offset c ≠ 511 →
      lookup (words k₁.machine.mem) q c = lookup (words k.machine.mem) q c) (hf : f ≠ 0) :
  ∃ k', procmmNewMap (frame b) grow k none = some (k.maps, k')
    ∧ (∀ src, procmmNewMap (frame b) grow k (some src)
        = (copyAreas (frame b) grow k.maps src (2 * k'.areas + 1) k' (k'.map src).areas.next).map
            fun k' => (k.maps, k'))
    ∧ Ready b (withRoot f own) fs k' ∧ NewMap b k f k' ∧ k'.Root = withRoot f k.Root
    ∧ Kept b k.Root (words k.machine.mem) (words k'.machine.mem) ∧ k'.heapBrk = k₁.heapBrk
  := by
  obtain ⟨harea, hlink, hmap, hlive, hareas, hmaps⟩ := kcalloc_fields hcalloc
  obtain ⟨s, hnew, hready₂, -, htable, hother, hlookup, hself⟩ := hready.newMap hf
  have hunused := hready.sound.unused f List.mem_cons_self
  have hroot : ∀ {q}, k.Root q → k₁.Root q := by
    intro q hq
    rw [hkeeps.root]
    exact hq
  have hroot' := @addMap_root k₁ s f (by
    apply Bool.eq_false_iff.mpr
    intro hlive'
    exact Nat.lt_irrefl _ (hready.aligned hlive').1)
  refine ⟨(k₁.withMachine s).addMap ⟨frame f, nil, none, none⟩, ?_, ?_, hready₂, ?_, ?_, ?_, rfl⟩
  · rw [Procmm.procmmNewMap, hcalloc]
    dsimp only
    rw [hnew]
    dsimp only
    rw [hmaps]
  · intro src
    rw [Procmm.procmmNewMap, hcalloc]
    dsimp only
    rw [hnew]
    dsimp only
    rw [hmaps]
    split
    · rename_i hnone
      rw [hnone, Option.map_none]
    · rename_i k₂ hsome
      rw [hsome, Option.map_some]
  · constructor
    · rw [Kernel.addMap_map, Kernel.withMachine_maps, hmaps, Function.update_self]
    · intro m hm
      rw [Kernel.addMap_map, Kernel.withMachine_maps, hmaps, Function.update_of_ne hm,
        Kernel.withMachine_map, hmap]
    · rw [← hlive, ← hmaps]
      rfl
    · exact harea
    · exact hlink
    · exact hareas
    · exact congrArg Nat.succ hmaps
    · rintro q hq rfl
      exact hunused.2.1 (roots_node (Or.inr (hroot hq)))
    · intro q c hq hc
      rw [Kernel.addMap_machine, Kernel.withMachine_machine, hlookup q c (Or.inr (hroot hq)),
        huser hq hc]
    · intro q c hq hc hmapped
      rw [← huser hq hc] at hmapped
      rw [← hkeeps.byteAt_eq hready (hroot hq) hc hmapped (huser hq hc), byteAt, byteAt,
        Kernel.addMap_machine, Kernel.withMachine_machine]
      have hplace : place (words s.mem) q c = place (words k₁.machine.mem) q c :=
        place_congr (hlookup q c (Or.inr (hroot hq)))
      rw [hplace]
      apply bytes_of_words
      apply hother
      rw [place_div]
      intro heq
      exact hunused.2.2 ⟨q, c, hroot hq, hc, hmapped, heq.symm⟩
    · intro c hc
      exact hself c hc
    · intro n hn
      rw [hroot']
      apply (htable n).mpr
      left
      rw [hkeeps.root]
      exact hkeeps.grows.mono hn
    · intro n hn
      rw [hroot'] at hn
      have hn' := mt (htable n).mpr hn
      rw [not_or] at hn'
      rw [Kernel.addMap_machine, Kernel.withMachine_machine, hother n hn'.2]
      apply hkeeps.grows.words_eq
      rw [← hkeeps.root]
      exact hn'.1
  · rw [hroot', hkeeps.root]
  · intro q p t i hq hp hwalk hne
    rw [Kernel.addMap_machine, Kernel.withMachine_machine, hother t, hkeeps.grows.kept hq hp hwalk hne]
    rintro rfl
    apply (h.sound.unused t (List.mem_append_right used List.mem_cons_self)).2.1
    exact ⟨q, p, ⟨hq, by omega⟩, hwalk⟩

/-- The frames that the first of two steps uses. -/
theorem notMem_take {used fs' : List Nat} {n n' : Nat} (h : 0 ∉ (used ++ fs').take (n + n'))
    (hlen : used.length ≤ n) :
  0 ∉ used ∧ 0 ∉ fs'.take n'
  := by
  rw [List.take_append, List.mem_append, not_or] at h
  constructor
  · intro hmem
    apply h.1
    rw [List.take_of_length_le (by omega)]
    exact hmem
  · intro hmem
    apply h.2
    exact List.take_subset_take_left fs' (by omega) hmem

/-- The part of `procmm_new_map` before the areas of the source. -/
theorem Ready.procmmNewMap {grow : Nat → Nat} {n : Nat} (h : Ready b own fs k)
    (hroom : k.heapBrk + pageSize * k.demand grow ≤ 2 ^ 64)
    (hlen : 4 * k.demand grow + (1 + n) ≤ fs.length)
    (hzero : 0 ∉ fs.take (4 * k.demand grow + (1 + n))) :
  ∃ k' f used fs', fs = used ++ [f] ++ fs' ∧ used.length ≤ 4 * k.demand grow
    ∧ n ≤ fs'.length ∧ 0 ∉ fs'.take n
    ∧ procmmNewMap (frame b) grow k none = some (k.maps, k')
    ∧ (∀ src, Procmm.procmmNewMap (frame b) grow k (some src)
        = (copyAreas (frame b) grow k.maps src (2 * k'.areas + 1) k' (k'.map src).areas.next).map
            fun k' => (k.maps, k'))
    ∧ Ready b (withRoot f own) fs' k' ∧ NewMap b k f k'
    ∧ k'.heapBrk = k.heapBrk + pageSize * k.demand grow
  := by
  obtain ⟨k₁, used₁, fs₁, rfl, hused₁, hcalloc, hready₁, hkeeps₁, hheap₁, hlookup₁⟩ | ⟨hlt, -⟩ :=
    h.kcalloc hroom
  · obtain ⟨-, hzero₁⟩ := notMem_take hzero hused₁
    rw [List.length_append] at hlen
    obtain ⟨f, fs₂, rfl⟩ : ∃ f fs₂, fs₁ = f :: fs₂ := by
      apply List.exists_cons_of_length_pos
      omega
    obtain ⟨hf, hzero₂⟩ := @notMem_take [f] fs₂ 1 n hzero₁ (Nat.le_refl 1)
    have hf' : f ≠ 0 := by
      rintro rfl
      exact hf List.mem_cons_self
    obtain ⟨k', hnone, hsome, hready', hnew, -, -, hheap⟩ :=
      h.newMap_of_kcalloc hcalloc hready₁ hkeeps₁ (fun hq hc => hlookup₁ _ _ (Or.inr hq)
        (not_stepped_heap h.heap.1 hready₁.heap.2.2 hc)) hf'
    refine ⟨k', f, used₁, fs₂, ?_, hused₁, ?_, hzero₂, hnone, hsome, hready', hnew, ?_⟩
    · rw [List.append_assoc]
      rfl
    · rw [List.length_cons] at hlen
      omega
    · rw [hheap, hheap₁]
  · omega

end Calls

end Procmm
