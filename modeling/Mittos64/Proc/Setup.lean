import Mittos64.Proc.Space

/-!
# Setting up a process

`procmm_setup` maps two areas behind those of the program: one for the break, from the next page
on, and an empty one for the stack at `USERSPACE_TOP`.
-/

open DList

namespace Procmm

open Mem

section Calls

variable {b : Nat} {own : Nat → Prop} {fs : List Nat} {grow : Nat → Nat} {k k' : Kernel}

/-- The heap stays in the address space. -/
theorem growHeap_room {bootP4 n brk brk' : Nat} {s s' : Machine}
    (h : growHeap bootP4 n s brk = some (s', brk')) (hbrk : brk ≤ 2 ^ 64) :
  brk + pageSize * n ≤ 2 ^ 64
  := by
  induction n generalizing s brk with
  | zero => exact hbrk
  | succ n ih =>
      rw [growHeap] at h
      split_ifs at h with hle
      split at h
      · cases h
      · have hrest := ih h hle
        rw [Nat.mul_succ]
        omega

theorem procmmMap_room {bootP4 m start stop flags : Nat} {a : Option Nat}
    (h : procmmMap bootP4 grow k m start stop flags = some (a, k')) (hbrk : k.heapBrk ≤ 2 ^ 64) :
  k.heapBrk + pageSize * k.demand grow ≤ 2 ^ 64
  := by
  obtain ⟨k₁, head, link, hcalloc, -⟩ := procmmMap_cases h
  rw [kcalloc] at hcalloc
  split at hcalloc
  · cases hcalloc
  · rename_i hgrow
    exact growHeap_room hgrow hbrk

/-- What a call of `procmm_map` that returns has done to the pages. -/
theorem Ready.procmmMap_call {m r start stop flags : Nat} {a : Option Nat} (h : Ready b own fs k)
    (hlive : k.live m = true) (hP4 : (k.map m).P4 = frame r) (hstop : stop ≤ userspaceTop)
    (hcall : Procmm.procmmMap (frame b) grow k m start stop flags = some (a, k')) :
  ∃ used fs', fs = used ++ fs' ∧ Ready b own fs' k' ∧ Keeps b used k k'
    ∧ Paged b r start stop used a k k'
  := by
  have hroom := procmmMap_room hcall h.heap.2.2
  obtain ⟨k₁, head, link, hcalloc, hcase⟩ := procmmMap_cases hcall
  obtain ⟨harea, hlink, hmap, -, hareas, -⟩ := kcalloc_fields hcalloc
  have haddArea : (k₁.addArea ⟨start, stop, flags, m⟩).area
      = (k.addArea ⟨start, stop, flags, m⟩).area := by
    funext a
    rw [Kernel.addArea_area, Kernel.addArea_area, harea, hareas]
  rw [haddArea, hareas, hmap, hlink] at hcase
  obtain ⟨ok, hinsert⟩ : ∃ ok, insertArea (k.addArea ⟨start, stop, flags, m⟩).area k.areas
      (2 * (k.areas + 1) + 1) (k.map m).areas k.link = some (ok, head, link) := by
    obtain ⟨hinsert, -⟩ | ⟨s, hinsert, -⟩ := hcase
    · exact ⟨false, hinsert⟩
    · exact ⟨true, hinsert⟩
  obtain ⟨k₂, used, fs', hfs, -, hcall', hready, hkeeps, hpaged, -, -⟩ | ⟨-, hnone⟩ :=
    h.procmmMap_insert hlive hP4 hinsert hstop hroom
  · rw [hcall] at hcall'
    obtain ⟨rfl, rfl⟩ := Prod.mk.inj (Option.some.inj hcall')
    exact ⟨used, fs', hfs, hready, hkeeps, hpaged⟩
  · rw [hcall] at hnone
    nomatch hnone

theorem setBrk_P4 {m : Nat} (a : Option Nat) (m' : Nat) :
  ((k.setBrk m a).map m').P4 = (k.map m').P4
  := by
  rw [Kernel.setBrk_map]
  by_cases hm : m' = m
  · rw [hm, Function.update_self]
  · rw [Function.update_of_ne hm]

theorem setStack_P4 {m : Nat} (a : Option Nat) (m' : Nat) :
  ((k.setStack m a).map m').P4 = (k.map m').P4
  := by
  rw [Kernel.setStack_map]
  by_cases hm : m' = m
  · rw [hm, Function.update_self]
  · rw [Function.update_of_ne hm]

/-- The pointer to the break is not for the page tables. -/
theorem Ready.setBrk (h : Ready b own fs k) (m : Nat) (a : Option Nat) :
  Ready b own fs (k.setBrk m a) ∧ Keeps b [] k (k.setBrk m a)
  := ⟨h.of_sound rfl rfl (setBrk_P4 a) h.heap h.sound,
    ⟨Grows.refl, rfl, rfl, setBrk_P4 a, Nat.le_refl _⟩⟩

theorem Ready.setStack (h : Ready b own fs k) (m : Nat) (a : Option Nat) :
  Ready b own fs (k.setStack m a) ∧ Keeps b [] k (k.setStack m a)
  := ⟨h.of_sound rfl rfl (setStack_P4 a) h.heap h.sound,
    ⟨Grows.refl, rfl, rfl, setStack_P4 a, Nat.le_refl _⟩⟩

/-- What a call of `procmm_setup` that returns has done. -/
theorem procmmSetup_cases {bootP4 m size start : Nat}
    (h : procmmSetup bootP4 grow k m size = some (start, k')) :
  ∃ last brk k₁ stack k₂, (k.map m).areas.prev = some last ∧ start = nextPage (k.area last).stop
    ∧ procmmMap bootP4 grow k m start (incptr start size) 0 = some (brk, k₁)
    ∧ procmmMap bootP4 grow (k₁.setBrk m brk) m userspaceTop userspaceTop 0 = some (stack, k₂)
    ∧ k' = k₂.setStack m stack ∧ (k'.map m).brk = brk ∧ (k'.map m).stack = stack
  := by
  rw [procmmSetup] at h
  split at h
  · nomatch h
  · rename_i last hlast
    dsimp only at h
    split at h
    · nomatch h
    · rename_i brk k₁ hbrk
      split at h
      · nomatch h
      · rename_i stack k₂ hstack
        obtain ⟨rfl, rfl⟩ := Prod.mk.inj (Option.some.inj h)
        have hpointers := (procmmMap_pointers hstack m).1
        rw [Kernel.setBrk_map, Function.update_self] at hpointers
        refine ⟨last, brk, k₁, stack, k₂, hlast, rfl, hbrk, hstack, rfl, ?_, ?_⟩
        · rw [Kernel.setStack_map, Function.update_self]
          exact congrArg Prod.fst hpointers
        · rw [Kernel.setStack_map, Function.update_self]

/-- The areas of the break and of the stack after a call of `procmm_setup` that returns. -/
theorem procmmSetup_areas {bootP4 m size start : Nat}
    (h : procmmSetup bootP4 grow k m size = some (start, k')) :
  (∀ brk ∈ (k'.map m).brk, brk = k.areas ∧ k'.area brk = ⟨start, incptr start size, 0, m⟩)
    ∧ ∀ stack ∈ (k'.map m).stack, k'.area stack = ⟨userspaceTop, userspaceTop, 0, m⟩
  := by
  obtain ⟨last, brk, k₁, stack, k₂, -, -, hmap₁, hmap₂, rfl, hbrk, hstack⟩ := procmmSetup_cases h
  have hadded₁ := procmmMap_areas hmap₁
  have hadded₂ := procmmMap_areas hmap₂
  have hareas : (k₁.setBrk m brk).areas = k.areas + 1 := hadded₁.areas
  rw [hbrk, hstack]
  constructor
  · intro x hx
    obtain rfl := hadded₁.result x hx
    refine ⟨rfl, ?_⟩
    rw [Kernel.setStack_area, hadded₂.old _ (by rw [hareas]; exact Nat.lt_succ_self _),
      Kernel.setBrk_area, hadded₁.new]
  · intro x hx
    obtain rfl := hadded₂.result x hx
    rw [Kernel.setStack_area, hadded₂.new]

end Calls

/-! ### The break and the stack behind the other areas -/

/-- The first page behind an address. -/
theorem nextPage_eq {stop : Nat} (h : stop + pageSize < 2 ^ 64) :
  nextPage stop = pageSize * (stop / pageSize + 1)
  := by
  rw [nextPage, incptr_of_lt h, stripFlags_eq, frame, Nat.add_div_right _ (by decide)]

theorem lt_nextPage {stop : Nat} (h : stop + pageSize < 2 ^ 64) :
  stop < nextPage stop ∧ nextPage stop % pageSize = 0 ∧ nextPage stop ≤ stop + pageSize
  := by
  rw [nextPage_eq h, pageSize]
  omega

/-- The kernel `k'` is the kernel `k` with the areas of the break and of the stack behind the areas
`xs` of the map `m`; the break goes from `start` to `stop`, and its pages are in frames of `used`. -/
structure SetUp (b r m start stop : Nat) (xs used : List Nat) (k k' : Kernel) : Prop where
  keeps : Keeps b used k k'
  list : AreaList k' m (xs ++ [k.areas, k.areas + 1])
  old : ∀ a < k.areas, k'.area a = k.area a
  brk : (k'.map m).brk = some k.areas ∧ k'.area k.areas = ⟨start, stop, 0, m⟩
  stack : (k'.map m).stack = some (k.areas + 1)
    ∧ k'.area (k.areas + 1) = ⟨userspaceTop, userspaceTop, 0, m⟩
  other : ∀ {q c}, Roots b k.Root q → p4Offset c ≠ 511 → ¬ (q = r ∧ Stepped start stop c) →
    lookup (words k'.machine.mem) q c = lookup (words k.machine.mem) q c
  page : ∀ {c}, Stepped start stop c → ∃ f ∈ used,
    lookup (words k'.machine.mem) r c = addFlags (frame f) userFlags

section SetUp

variable {b m r size last : Nat} {own : Nat → Prop} {fs xs : List Nat} {grow : Nat → Nat}
  {k k' : Kernel}

/-- The last area of the list ends above all others. -/
theorem AreaList.stop_le (h : AreaList k m xs) (hlast : xs.getLast? = some last) {a : Nat}
    (ha : a ∈ xs) :
  (k.area a).start ≤ (k.area a).stop ∧ (k.area a).stop ≤ (k.area last).stop
  := by
  obtain ⟨ys, rfl⟩ := List.getLast?_eq_some_iff.mp hlast
  have hle := h.asc.1 last (List.mem_append_right _ List.mem_cons_self)
  refine ⟨h.asc.1 a ha, ?_⟩
  obtain ha | ha := List.mem_append.mp ha
  · have hgap := (List.pairwise_append.mp h.asc.2).2.2 a ha last List.mem_cons_self
    omega
  · rw [List.mem_singleton.mp ha]

/-- The pointer to the break is not part of the list. -/
theorem AreaList.setBrk (h : AreaList k m xs) (a : Option Nat) :
  AreaList (k.setBrk m a) m xs
  := by
  have hareas : k.areas ≤ (k.setBrk m a).areas := Nat.le_refl _
  apply h.congr hareas
  · rw [Kernel.setBrk_map, Function.update_self]
  · exact fun _ _ => rfl
  · exact fun _ _ => rfl

theorem AreaList.setStack (h : AreaList k m xs) (a : Option Nat) :
  AreaList (k.setStack m a) m xs
  := by
  have hareas : k.areas ≤ (k.setStack m a).areas := Nat.le_refl _
  apply h.congr hareas
  · rw [Kernel.setStack_map, Function.update_self]
  · exact fun _ _ => rfl
  · exact fun _ _ => rfl

/-- An area above all others has a place behind them. -/
theorem AreaList.fits {start stop : Nat} (h : AreaList k m xs) (hle : start ≤ stop)
    (hbelow : ∀ o ∈ xs, Below k.area start o) :
  Fits k.area xs start stop
  := by
  refine ⟨hle, Or.inr ?_⟩
  intro o ho
  have hlt := hbelow o ho
  have hord := h.asc.1 o ho
  rw [Below] at hlt
  omega

/-- The list after a call of `procmm_map` for an area above all others. -/
structure Placed (m : Nat) (area : Area) (xs : List Nat) (k k' : Kernel) : Prop where
  list : AreaList k' m (xs ++ [k.areas])
  old : ∀ a < k.areas, k'.area a = k.area a
  new : k'.area k.areas = area
  areas : k'.areas = k.areas + 1
  pointers : (k'.map m).brk = (k.map m).brk ∧ (k'.map m).stack = (k.map m).stack

/-- A call of `procmm_map` that returns, for an area above all others. -/
theorem Ready.procmmMap_above {start stop flags : Nat} {a : Option Nat} (h : Ready b own fs k)
    (hlist : AreaList k m xs) (hlive : k.live m = true) (hP4 : (k.map m).P4 = frame r)
    (hle : start ≤ stop) (hbelow : ∀ o ∈ xs, Below k.area start o) (hstop : stop ≤ userspaceTop)
    (hcall : Procmm.procmmMap (frame b) grow k m start stop flags = some (a, k')) :
  ∃ used fs', fs = used ++ fs' ∧ used.length ≤ 4 * (k.demand grow + turns start stop)
    ∧ a = some k.areas ∧ Ready b own fs' k' ∧ Keeps b used k k'
    ∧ Paged b r start stop used (some k.areas) k k' ∧ Placed m ⟨start, stop, flags, m⟩ xs k k'
  := by
  have hfits := hlist.fits hle hbelow
  obtain ⟨a', k₁, used, fs', rfl, hused, hcall', hready, hkeeps, hpaged, -, hnone⟩ | ⟨-, hnone⟩ :=
    h.procmmMap hlist hlive hP4 hfits hstop (procmmMap_room hcall h.heap.2.2) flags
  · rw [hcall] at hcall'
    obtain ⟨rfl, rfl⟩ := Prod.mk.inj (Option.some.inj hcall')
    obtain ⟨hlist', hold, hnew, hareas, -, -⟩ := hlist.procmmMap hfits hcall
    have hpointers := procmmMap_pointers hcall m
    cases a with
    | none =>
        obtain ⟨o, ho, hmeets⟩ := hnone.mp rfl
        exact absurd (Or.inl (hbelow o ho)) hmeets
    | some a =>
        obtain ⟨rfl, harea⟩ := hnew a rfl
        exact ⟨used, fs', rfl, hused, rfl, hready, hkeeps, hpaged, hlist', hold, harea, hareas,
          Prod.mk.inj hpointers.1⟩
  · rw [hcall] at hnone
    nomatch hnone

/-- `procmm_map` returns for an area above all others, when there are frames for it. -/
theorem Ready.exists_procmmMap {start stop : Nat} (h : Ready b own fs k) (hlist : AreaList k m xs)
    (hlive : k.live m = true) (hP4 : (k.map m).P4 = frame r) (hle : start ≤ stop)
    (hbelow : ∀ o ∈ xs, Below k.area start o) (hstop : stop ≤ userspaceTop)
    (hroom : k.heapBrk + pageSize * k.demand grow ≤ 2 ^ 64)
    (hlen : 4 * (k.demand grow + turns start stop) ≤ fs.length) (flags : Nat) :
  ∃ a k' used fs', fs = used ++ fs' ∧ used.length ≤ 4 * (k.demand grow + turns start stop)
    ∧ Procmm.procmmMap (frame b) grow k m start stop flags = some (a, k')
    ∧ k'.heapBrk = k.heapBrk + pageSize * k.demand grow ∧ Ready b own fs' k'
  := by
  have hfits := hlist.fits hle hbelow
  obtain ⟨a, k', used, fs', hfs, hused, hcall, hready, -, -, hheap, -⟩ | ⟨hlt, -⟩ :=
    h.procmmMap hlist hlive hP4 hfits hstop hroom flags
  · exact ⟨a, k', used, fs', hfs, hused, hcall, hheap, hready⟩
  · omega

/-- The areas of the program lie below the break. -/
theorem AreaList.below_break (h : AreaList k m xs) (hlast : xs.getLast? = some last)
    (hstop : (k.area last).stop ≤ userspaceTop) :
  ∀ a ∈ xs, Below k.area (nextPage (k.area last).stop) a
  := by
  intro a ha
  have hle := h.stop_le hlast ha
  have hnext := lt_nextPage (show (k.area last).stop + pageSize < 2 ^ 64 by
    rw [userspaceTop] at hstop
    rw [pageSize]
    omega)
  rw [Below]
  omega

/-- The break and the areas below it lie below `USERSPACE_TOP`. -/
theorem Placed.below_top {area : Area} (h : Placed m area xs k k') (hlist : AreaList k m xs)
    (hle : area.start ≤ area.stop) (htop : area.stop < userspaceTop)
    (hbelow : ∀ o ∈ xs, Below k.area area.start o) :
  ∀ o ∈ xs ++ [k.areas], Below k'.area userspaceTop o
  := by
  intro o ho
  rw [Below]
  obtain ho | ho := List.mem_append.mp ho
  · have hlt := hbelow o ho
    rw [Below] at hlt
    rw [h.old o (hlist.lt o ho)]
    omega
  · rw [List.mem_singleton.mp ho, h.new]
    exact htop

/-- The pages that the heap grows by for the area of the stack. -/
theorem Placed.demand_setBrk {area : Area} (h : Placed m area xs k k') (hmaps : k'.maps = k.maps)
    (grow : Nat → Nat) :
  (k'.setBrk m (some k.areas)).demand grow = grow (k.areas + k.maps + 1)
  := by
  rw [Kernel.demand, Kernel.setBrk_areas, Kernel.setBrk_maps, h.areas, hmaps]
  congr 1
  omega

/-- `procmm_setup` behind the areas `xs`. -/
theorem Ready.procmmSetup {start : Nat} (h : Ready b own fs k) (hlist : AreaList k m xs)
    (hlast : xs.getLast? = some last) (hlive : k.live m = true) (hP4 : (k.map m).P4 = frame r)
    (hstop : (k.area last).stop ≤ userspaceTop)
    (htop : nextPage (k.area last).stop + size < userspaceTop)
    (hcall : procmmSetup (frame b) grow k m size = some (start, k')) :
  ∃ used fs', fs = used ++ fs'
    ∧ used.length ≤ 4 * (grow (k.areas + k.maps) + grow (k.areas + k.maps + 1)
      + turns start (start + size))
    ∧ Ready b own fs' k' ∧ start = nextPage (k.area last).stop
    ∧ SetUp b r m start (start + size) xs used k k'
  := by
  obtain ⟨last', brk, k₁, stack, k₂, hlast', rfl, hbrk, hstack, rfl, -⟩ := procmmSetup_cases hcall
  rw [hlist.rep.last, hlast] at hlast'
  obtain rfl := Option.some.inj hlast'
  have hbelow := hlist.below_break hlast hstop
  obtain ⟨start, hstart⟩ : ∃ start, start = nextPage (k.area last).stop := ⟨_, rfl⟩
  rw [← hstart] at hbrk hbelow htop ⊢
  have hinc : incptr start size = start + size := by
    apply incptr_of_lt
    rw [userspaceTop] at htop
    omega
  rw [hinc] at hbrk
  -- the area of the break
  obtain ⟨used₁, fs₁, rfl, hused₁, rfl, hready₁, hkeeps₁, hpaged₁, hplaced₁⟩ :=
    h.procmmMap_above hlist hlive hP4 (Nat.le_add_right _ _) hbelow (Nat.le_of_lt htop) hbrk
  obtain ⟨hready₁', hkeeps₁'⟩ := hready₁.setBrk m (some k.areas)
  have hkeeps := hkeeps₁.trans hkeeps₁'
  rw [List.append_nil] at hkeeps
  -- the area of the stack
  have hlive' : (k₁.setBrk m (some k.areas)).live m = true := by
    rw [hkeeps.live]
    exact hlive
  have hP4' : ((k₁.setBrk m (some k.areas)).map m).P4 = frame r := by
    rw [hkeeps.P4]
    exact hP4
  have hbelow' := hplaced₁.below_top hlist (Nat.le_add_right _ _) htop hbelow
  obtain ⟨used₂, fs₂, rfl, hused₂, rfl, hready₂, hkeeps₂, hpaged₂, hplaced₂⟩ :=
    hready₁'.procmmMap_above (hplaced₁.list.setBrk (some k.areas)) hlive' hP4' (Nat.le_refl _)
      hbelow' (Nat.le_refl _) hstack
  have hareas : (k₁.setBrk m (some k.areas)).areas = k.areas + 1 := hplaced₁.areas
  have hdemand := hplaced₁.demand_setBrk hkeeps₁.maps grow
  have hturns : turns userspaceTop userspaceTop = 0 := turns_of_le (Nat.le_refl _)
  have hlist₂ := hplaced₂.list
  have hnew₂ := hplaced₂.new
  have hbrk₂ := hplaced₂.pointers.1
  rw [hareas] at hlist₂ hnew₂ ⊢
  rw [Kernel.setBrk_map, Function.update_self] at hbrk₂
  obtain ⟨hready₃, hkeeps₃⟩ := hready₂.setStack m (some (k.areas + 1))
  have hkeeps' := (hkeeps.trans hkeeps₂).trans hkeeps₃
  rw [List.append_nil] at hkeeps'
  have hold : ∀ a < k.areas + 1, k₂.area a = k₁.area a := by
    intro a ha
    rw [← hareas] at ha
    rw [hplaced₂.old a ha, Kernel.setBrk_area]
  -- the area of the stack has no pages
  have hstay : ∀ {q c}, Roots b k.Root q → p4Offset c ≠ 511 →
      lookup (words k₂.machine.mem) q c = lookup (words k₁.machine.mem) q c := by
    intro q c hq hc
    rw [← hkeeps.root] at hq
    apply hpaged₂.user hready₁' hready₂ hq hc
    rintro ⟨-, hstep⟩
    exact not_stepped_of_le (Nat.le_refl _) hstep
  have hroot : k.Root r := ⟨m, hlive, hP4⟩
  refine ⟨used₁ ++ used₂, fs₂, by rw [List.append_assoc], ?_, hready₃, rfl, hkeeps', ?_, ?_, ?_,
    ?_, ?_, ?_⟩
  · rw [Kernel.demand] at hused₁
    rw [hdemand, hturns] at hused₂
    rw [List.length_append]
    omega
  · have hlist₃ := hlist₂.setStack (some (k.areas + 1))
    rw [List.append_assoc] at hlist₃
    exact hlist₃
  · intro a ha
    rw [Kernel.setStack_area, hold a (Nat.lt_succ_of_lt ha), hplaced₁.old a ha]
  · rw [Kernel.setStack_map, Function.update_self, Kernel.setStack_area,
      hold k.areas (Nat.lt_succ_self _), hplaced₁.new]
    exact ⟨hbrk₂, rfl⟩
  · rw [Kernel.setStack_map, Function.update_self, Kernel.setStack_area, hnew₂]
    exact ⟨rfl, rfl⟩
  · intro q c hq hc hnot
    rw [Kernel.setStack_machine, hstay hq hc, hpaged₁.user h hready₁ hq hc hnot]
  · intro c hstep
    obtain ⟨f, hf, heq⟩ := hpaged₁.page (Option.some_ne_none _) hstep
    refine ⟨f, List.mem_append_left _ hf, ?_⟩
    have hc : p4Offset c ≠ 511 := hstep.user (Nat.le_of_lt htop)
    rw [Kernel.setStack_machine, hstay (Or.inr hroot) hc, heq]

/-- `procmm_setup` returns, when there are frames for the break. -/
theorem Ready.exists_procmmSetup (h : Ready b own fs k) (hlist : AreaList k m xs)
    (hlast : xs.getLast? = some last) (hlive : k.live m = true) (hP4 : (k.map m).P4 = frame r)
    (hstop : (k.area last).stop ≤ userspaceTop)
    (htop : nextPage (k.area last).stop + size < userspaceTop)
    (hroom : k.heapBrk
      + pageSize * (grow (k.areas + k.maps) + grow (k.areas + k.maps + 1)) ≤ 2 ^ 64)
    (hlen : 4 * (grow (k.areas + k.maps) + grow (k.areas + k.maps + 1)
      + turns (nextPage (k.area last).stop) (nextPage (k.area last).stop + size)) ≤ fs.length) :
  ∃ start k', Procmm.procmmSetup (frame b) grow k m size = some (start, k')
  := by
  have hbelow := hlist.below_break hlast hstop
  have hprev : (k.map m).areas.prev = some last := by
    rw [hlist.rep.last, hlast]
  obtain ⟨start, hstart⟩ : ∃ start, start = nextPage (k.area last).stop := ⟨_, rfl⟩
  rw [← hstart] at hbelow htop hlen
  have hinc : incptr start size = start + size := by
    apply incptr_of_lt
    rw [userspaceTop] at htop
    omega
  have hdemand : k.demand grow = grow (k.areas + k.maps) := rfl
  rw [Nat.mul_add] at hroom
  obtain ⟨brk, k₁, used, fs₁, rfl, hused, hbrk, hheap, hready₁⟩ :=
    h.exists_procmmMap hlist hlive hP4 (Nat.le_add_right start size) hbelow (Nat.le_of_lt htop)
      (by rw [hdemand]; omega) (by rw [hdemand]; omega) 0
  obtain ⟨used₁, fs', -, -, rfl, -, hkeeps₁, -, hplaced⟩ :=
    h.procmmMap_above hlist hlive hP4 (Nat.le_add_right start size) hbelow (Nat.le_of_lt htop) hbrk
  obtain ⟨hready₁', hkeeps₁'⟩ := hready₁.setBrk m (some k.areas)
  have hkeeps := hkeeps₁.trans hkeeps₁'
  have hlive' : (k₁.setBrk m (some k.areas)).live m = true := by
    rw [hkeeps.live]
    exact hlive
  have hP4' : ((k₁.setBrk m (some k.areas)).map m).P4 = frame r := by
    rw [hkeeps.P4]
    exact hP4
  have hbelow' := hplaced.below_top hlist (Nat.le_add_right _ _) htop hbelow
  have hdemand' := hplaced.demand_setBrk hkeeps₁.maps grow
  have hturns : turns userspaceTop userspaceTop = 0 := turns_of_le (Nat.le_refl _)
  obtain ⟨stack, k₂, -, -, -, -, hstack, -, -⟩ :=
    hready₁'.exists_procmmMap (hplaced.list.setBrk (some k.areas)) hlive' hP4' (Nat.le_refl _)
      hbelow' (Nat.le_refl _)
      (by rw [hdemand', Kernel.setBrk_heapBrk, hheap, hdemand]; omega)
      (by
        rw [List.length_append] at hlen
        rw [hdemand', hturns]
        omega) 0
  refine ⟨start, k₂.setStack m stack, ?_⟩
  rw [Procmm.procmmSetup, hprev]
  dsimp only
  rw [← hstart, hinc, hbrk]
  dsimp only
  rw [hstack]

end SetUp

end Procmm
