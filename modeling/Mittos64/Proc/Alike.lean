import Mittos64.Mem.Twins
import Mittos64.Proc.Load

/-!
# Kernels that agree in what they read

The calls that map pages read the page tables and the pointers of the free stack, and go by the
areas and the maps.  On two kernels that agree in these they do the same: one returns when the other
does, and afterwards the kernels agree again.  Nothing is asked of the frames of users and of the
other bytes of free frames.
-/

open DList

namespace Procmm

open Mem

/-- The addresses that the calls read: the page tables, and the pointers of the free frames `fs`. -/
def Seen (b : Nat) (live : Nat → Prop) (fs : List Nat) (s : Machine) (x : Nat) : Prop :=
  IsTable b live s (x / pageSize) ∨ (x / pageSize ∈ fs ∧ x % pageSize < 8)

/-- The kernels agree in the areas, in the maps, and in what the calls read. -/
structure Alike (b : Nat) (fs : List Nat) (k k' : Kernel) : Prop where
  kernel : k' = k.withMachine k'.machine
  twins : Twins (Seen b k.Root fs k.machine) k.machine k'.machine

/-! ### Mapping pages -/

section Twins

variable {b r a P4 flags stop : Nat} {own live : Nat → Prop} {fs : List Nat} {s s' s₁ : Machine}

/-- The walk to the entry of a page reads page tables. -/
theorem Sound.inView (h : Sound b own live fs s) (hr : Roots b live r) (ha : ¬ UnderHuge a) :
  InView (Seen b live fs s) fs s r (tablePath a)
  := by
  refine ⟨h.stack, ?_, ?_⟩
  · intro f hf i hi
    right
    rw [frame, pageSize]
    constructor
    · rw [Nat.mul_add_div (by decide), Nat.div_eq_of_lt (by omega), Nat.add_zero]
      exact hf
    · omega
  · intro n hn
    obtain ⟨p, ⟨q, hq⟩, hwalk⟩ := walk_of_found (h.half.noHuge hr ha) hn
    have hdom : Tables (Roots b live) r p := by
      apply h.half.forest.closed_append q
      rw [hq]
      exact tables_tablePath hr a
    have htable : IsTable b live s n := ⟨r, p, hdom, hwalk⟩
    refine ⟨fun hmem => (h.unused n hmem).2.1 htable, ?_, ?_⟩
    · exact (p2v_ne_zero (h.half.direct hdom hwalk)).2
    · rintro x rfl
      exact Or.inl htable

/-- `mapPage` takes the same frames. -/
theorem Sound.mapPage_twins (h : Sound b own live fs s) (hr : Roots b live r)
    (hroot : resolveP4 (frame b) P4 = frame r) (ha : ¬ UnderHuge a)
    (htwins : Twins (Seen b live fs s) s s')
    (hcall : Procmm.mapPage (frame b) flags s P4 a = some s₁) :
  ∃ fs₁ s₁', Sound b own live fs₁ s₁ ∧ Procmm.mapPage (frame b) flags s' P4 a = some s₁'
    ∧ Twins (Seen b live fs₁ s₁) s₁ s₁'
  := by
  obtain ⟨s₂, f, new, fs₁, rfl, hmap, -, hsound, hgrows, hftable, -⟩ | ⟨-, hnone⟩ :=
    h.mapPage hr hroot ha flags
  · obtain rfl := Option.some.inj (hmap.symm.trans hcall)
    have hview := h.inView hr ha
    obtain ⟨s₃, halloc, hmem, hstack⟩ := stacked_source.alloc h.stack
    obtain ⟨s₃', halloc', htwins'⟩ := htwins.pmmAlloc (hview.links f List.mem_cons_self) halloc
    have hview' : InView (Seen b live (f :: new ++ fs₁) s) (new ++ fs₁) s₃ r (tablePath a) := by
      refine ⟨hstack, fun g hg => hview.links g (List.mem_cons_of_mem f hg), ?_⟩
      rw [hmem]
      intro n hn
      obtain ⟨hnot, hrest⟩ := hview.tables n hn
      exact ⟨fun hmem' => hnot (List.mem_cons_of_mem f hmem'), hrest⟩
    rw [Procmm.mapPage, halloc] at hcall
    obtain ⟨⟨v, u⟩, hset, heq⟩ := Option.map_eq_some_iff.mp hcall
    obtain rfl : u = s₂ := heq
    have hphys : frame f < 2 ^ 64 := h.stack.2.2.2.1
    obtain ⟨new', fs₂, s₁', v', hnew, hset', hstack', htwins₁⟩ :=
      hview'.vmmSetPage htwins' hroot hphys hset
    obtain rfl := hstack'.2.unique hsound.stack.2
    obtain rfl := List.append_cancel_right hnew
    refine ⟨fs₂, s₁', hsound, ?_, htwins₁.mono ?_⟩
    · rw [Procmm.mapPage, halloc']
      simp only [hset', Option.map_some]
    · rintro x (hx | ⟨hx, hlt⟩)
      · obtain hold | hused := hgrows.new hx
        · exact Or.inl (Or.inl hold)
        · obtain heq' | hused := List.mem_cons.mp hused
          · rw [heq'] at hx
            exact absurd hx hftable
          · exact Or.inr hused
      · exact Or.inl (Or.inr ⟨List.mem_append_right _ hx, hlt⟩)
  · rw [hcall] at hnone
    cases hnone

/-- The loop that maps the pages of an area. -/
theorem Sound.mapPages_twins {p fuel : Nat} (h : Sound b own live fs s) (hr : live r)
    (hstop : stop ≤ userspaceTop) (htwins : Twins (Seen b live fs s) s s')
    (hcall : Procmm.mapPages (frame b) fuel s (frame r) p stop = some s₁) :
  ∃ fs₁ s₁', Sound b own live fs₁ s₁ ∧ Procmm.mapPages (frame b) fuel s' (frame r) p stop = some s₁'
    ∧ Twins (Seen b live fs₁ s₁) s₁ s₁'
  := by
  induction fuel generalizing fs s s' p with
  | zero => cases hcall
  | succ fuel ih =>
      rw [Procmm.mapPages] at hcall ⊢
      split_ifs at hcall ⊢ with hlt
      · split at hcall
        · cases hcall
        · rename_i s₂ hmap
          have hne : r ≠ 0 := by
            rintro rfl
            exact h.nonzero hr
          obtain ⟨fs₂, s₂', hsound, hmap', htwins'⟩ := h.mapPage_twins (Or.inr hr)
            (resolveP4_frame hne) (user_ne_kernel (Nat.lt_of_lt_of_le hlt hstop)).2 htwins hmap
          rw [hmap']
          exact ih hsound htwins' hcall
      · obtain rfl := Option.some.inj hcall
        exact ⟨fs, s', h, rfl, htwins⟩

/-- The loop of `ksbrk`. -/
theorem Sound.growHeap_twins {n brk brk' : Nat} (h : Sound b own live fs s)
    (hbrk : kernelHeapS ≤ brk) (htwins : Twins (Seen b live fs s) s s')
    (hcall : Procmm.growHeap (frame b) n s brk = some (s₁, brk')) :
  ∃ fs₁ s₁', Sound b own live fs₁ s₁ ∧ Procmm.growHeap (frame b) n s' brk = some (s₁', brk')
    ∧ Twins (Seen b live fs₁ s₁) s₁ s₁'
  := by
  induction n generalizing fs s s' brk with
  | zero =>
      obtain ⟨rfl, rfl⟩ := Prod.mk.inj (Option.some.inj hcall)
      exact ⟨fs, s', h, rfl, htwins⟩
  | succ n ih =>
      rw [Procmm.growHeap] at hcall ⊢
      split_ifs at hcall ⊢ with hle
      split at hcall
      · cases hcall
      · rename_i s₂ hmap
        have hlt : brk < 2 ^ 64 := by
          rw [pageSize] at hle
          omega
        obtain ⟨fs₂, s₂', hsound, hmap', htwins'⟩ := h.mapPage_twins (Or.inl rfl) (if_pos rfl)
          (heap_not_huge hbrk hlt).2 htwins hmap
        rw [hmap']
        exact ih hsound (Nat.le_add_right_of_le hbrk) htwins' hcall

end Twins

/-! ### Calls -/

section Calls

variable {b m r : Nat} {own : Nat → Prop} {fs fs₁ : List Nat} {grow : Nat → Nat}
  {k k' k₁ : Kernel} {p : PHead}

/-- The kernels differ in their machines only. -/
theorem Alike.machine (h : Alike b fs k k') :
  ∃ s, k' = k.withMachine s ∧ Twins (Seen b k.Root fs k.machine) k.machine s
  := ⟨k'.machine, h.kernel, h.twins⟩

/-- The free frames are those of the free stack. -/
theorem Ready.alike {live : Nat → Prop} {s : Machine} (h : Ready b own fs k) (hlive : live = k.Root)
    (hsound : Sound b own live fs₁ k.machine)
    (htwins : Twins (Seen b live fs₁ k.machine) k.machine s) :
  Alike b fs k (k.withMachine s)
  := by
  obtain rfl := h.sound.stack.2.unique hsound.stack.2
  refine ⟨rfl, ?_⟩
  rw [← hlive]
  exact htwins

/-- What is ready on one kernel is ready on the other. -/
theorem Alike.ready (h : Alike b fs k k') (hready : Ready b own fs k) :
  Ready b own fs k'
    ∧ (∀ n, IsTable b k.Root k'.machine n ↔ IsTable b k.Root k.machine n)
    ∧ ∀ q c, Roots b k.Root q →
      lookup (words k'.machine.mem) q c = lookup (words k.machine.mem) q c
  := by
  have htable : ∀ n, IsTable b k.Root k.machine n →
      words k'.machine.mem n = words k.machine.mem n := by
    intro n hn
    apply h.twins.words
    rintro x rfl
    exact Or.inl hn
  have hlink : ∀ f ∈ fs, words k'.machine.mem f 0 = words k.machine.mem f 0 := by
    intro f hf
    apply Memory.load_congr
    intro x hx hx'
    rw [Fin.val_zero, Nat.mul_zero, Nat.add_zero] at hx hx'
    apply h.twins.bytes
    have hplace : x / pageSize = f ∧ x % pageSize < 8 := by
      rw [frame, pageSize] at hx hx'
      rw [pageSize]
      omega
    exact Or.inr ⟨hplace.1.symm ▸ hf, hplace.2⟩
  obtain ⟨hsound, hnode, hlookup⟩ := hready.sound.withMem htable hlink
  rw [← h.twins.machine] at hsound hnode
  rw [h.kernel]
  exact ⟨hready.of_sound rfl rfl (fun _ => rfl) hready.heap hsound, hnode, hlookup⟩

/-- `kcalloc` grows the heap by the same pages. -/
theorem Alike.kcalloc {n : Nat} (h : Alike b fs k k') (hready : Ready b own fs k)
    (hcall : Procmm.kcalloc (frame b) n k = some k₁) :
  ∃ fs₁ s, Ready b own fs₁ k₁ ∧ Procmm.kcalloc (frame b) n k' = some (k₁.withMachine s)
    ∧ Twins (Seen b k₁.Root fs₁ k₁.machine) k₁.machine s
  := by
  obtain ⟨s', rfl, htwins⟩ := h.machine
  have hgrow := hcall
  rw [Procmm.kcalloc] at hgrow
  split at hgrow
  · cases hgrow
  · rename_i s₁ brk hgrow'
    obtain rfl := Option.some.inj hgrow
    obtain ⟨fs₁, s, hsound, hgrow₂, htwins₁⟩ :=
      hready.sound.growHeap_twins hready.heap.1 htwins hgrow'
    obtain ⟨k₂, used, fs₂, -, -, hcall', hready₂, -⟩ | ⟨-, hnone⟩ :=
      hready.kcalloc (growHeap_room hgrow' hready.heap.2.2)
    · obtain rfl := Option.some.inj (hcall.symm.trans hcall')
      refine ⟨fs₂, s, hready₂, ?_, (hready₂.alike rfl hsound htwins₁).twins⟩
      rw [Procmm.kcalloc]
      simp only [Kernel.withMachine_machine, Kernel.withMachine_heapBrk, hgrow₂]
      rfl
    · rw [hcall] at hnone
      cases hnone

/-- `procmm_map` puts the same area in the same place. -/
theorem Alike.procmmMap {start stop flags : Nat} {a : Option Nat} (h : Alike b fs k k')
    (hready : Ready b own fs k) (hlive : k.live m = true) (hP4 : (k.map m).P4 = frame r)
    (hstop : stop ≤ userspaceTop)
    (hcall : Procmm.procmmMap (frame b) grow k m start stop flags = some (a, k₁)) :
  ∃ used fs₁ k₁', fs = used ++ fs₁ ∧ Ready b own fs₁ k₁ ∧ Keeps b used k k₁
    ∧ Procmm.procmmMap (frame b) grow k' m start stop flags = some (a, k₁') ∧ Alike b fs₁ k₁ k₁'
  := by
  obtain ⟨used, fs₁, hfs, hready₁, hkeeps, -⟩ := hready.procmmMap_call hlive hP4 hstop hcall
  obtain ⟨k₂, head, link, hcalloc, hcase⟩ := procmmMap_cases hcall
  obtain ⟨fs₂, s₂, hready₂, hcalloc', htwins⟩ := h.kcalloc hready hcalloc
  obtain ⟨-, -, hmap, hlive₂, -, -⟩ := kcalloc_fields hcalloc
  have hroot₂ : k₂.Root = k.Root := by
    funext q
    simp only [Kernel.Root, hmap, hlive₂]
  have hdemand : k'.demand grow = k.demand grow := by
    rw [h.kernel]
    rfl
  rw [← hdemand] at hcalloc'
  have hroot₁ : k₂.Root = k₁.Root := hroot₂.trans hkeeps.root.symm
  obtain ⟨hinsert, rfl, rfl⟩ | ⟨s, hinsert, hpages, rfl, rfl⟩ := hcase
  · exact ⟨used, fs₁, _, hfs, hready₁, hkeeps, procmmMap_of_false hcalloc' hinsert,
      hready₁.alike hroot₁ hready₂.sound htwins⟩
  · have hP4₂ : (k₂.map m).P4 = frame r := by
      rw [hmap]
      exact hP4
    have hr : k₂.Root r := by
      rw [hroot₂]
      exact ⟨m, hlive, hP4⟩
    rw [hP4₂] at hpages
    obtain ⟨fs₃, s₃, hsound, hpages', htwins'⟩ :=
      hready₂.sound.mapPages_twins hr hstop htwins hpages
    have hcall' := procmmMap_of_true hcalloc' hinsert
    rw [Kernel.withMachine_machine, Kernel.withMachine_map, hP4₂, hpages', Option.map_some]
      at hcall'
    exact ⟨used, fs₁, _, hfs, hready₁, hkeeps, hcall', hready₁.alike hroot₁ hsound htwins'⟩

/-- Bytes of the frames of a process change in both. -/
theorem Alike.touched {mem mem' : Memory} (h : Alike b fs k k') (hready : Ready b own fs k)
    (hroot : k.Root r) (htouch : Touches (words k.machine.mem) r k.machine.mem mem)
    (htouch' : Touches (words k'.machine.mem) r k'.machine.mem mem') :
  Alike b fs (k.withMachine (k.machine.withMem mem)) (k'.withMachine (k'.machine.withMem mem'))
  := by
  obtain ⟨-, -, hlookup⟩ := h.ready hready
  obtain ⟨-, hspends, -⟩ := hready.touched hroot htouch
  obtain ⟨s', rfl, htwins⟩ := h.machine
  have hnot : ∀ x, Seen b k.Root fs k.machine x →
      ¬ Owns (words k.machine.mem) r (x / pageSize) := by
    rintro x (hx | ⟨hx, -⟩) ⟨c, hc, hne, heq⟩
    · exact hready.sound.half.mapped ⟨r, c, hroot, hc, hne, heq⟩ hx
    · exact (hready.sound.unused _ hx).2.2 ⟨r, c, hroot, hc, hne, heq⟩
  refine ⟨rfl, htwins.withMem ?_⟩
  intro x hx
  have hseen : Seen b k.Root fs k.machine x := by
    obtain hx | hx := hx
    · exact Or.inl ((hspends.table hx).resolve_right List.not_mem_nil)
    · exact Or.inr hx
  have hnot' : ¬ Owns (words s'.mem) r (x / pageSize) := by
    rintro ⟨c, hc, hne, heq⟩
    have hsame : lookup (words s'.mem) r c = lookup (words k.machine.mem) r c :=
      hlookup r c (Or.inr hroot)
    rw [hsame] at hne heq
    exact hnot x hseen ⟨c, hc, hne, heq⟩
  have hbyte : mem' x = s'.mem x := htouch' x hnot'
  rw [hbyte, htouch x (hnot x hseen)]
  exact htwins.bytes x hseen

/-- `load_elf_segment` returns on both, and copies to the frames of the process. -/
theorem Alike.loadElfSegment {data : Nat} (h : Alike b fs k k') (hready : Ready b own fs k)
    (hlive : k.live m = true) (hP4 : (k.map m).P4 = frame r) (hp : p.Loadable)
    (hcall : Procmm.loadElfSegment (frame b) grow k m data p = some k₁) :
  ∃ fs₁ k₁', Ready b own fs₁ k₁ ∧ k₁.live m = true ∧ (k₁.map m).P4 = frame r
    ∧ Procmm.loadElfSegment (frame b) grow k' m data p = some k₁' ∧ Alike b fs₁ k₁ k₁'
  := by
  rw [loadElfSegment_eq hp] at hcall ⊢
  obtain ⟨⟨a, k₂⟩, hmap, rfl⟩ := Option.map_eq_some_iff.mp hcall
  obtain ⟨used, fs₁, k₂', -, hready₂, hkeeps, hmap', halike⟩ :=
    h.procmmMap hready hlive hP4 hp.2 hmap
  have hlive₂ : k₂.live m = true := by
    rw [hkeeps.live]
    exact hlive
  have hP4₂ : (k₂.map m).P4 = frame r := by
    rw [hkeeps.P4]
    exact hP4
  have hroot : k₂.Root r := ⟨m, hlive₂, hP4₂⟩
  obtain ⟨mem, hfill, htouch⟩ := @Ready.fill_touches b r m data own fs₁ k₂ p hready₂ hlive₂ hP4₂ hp
  obtain ⟨hready₂', -⟩ := halike.ready hready₂
  have hlive₂' : k₂'.live m = true := by
    rw [halike.kernel]
    exact hlive₂
  have hP4₂' : (k₂'.map m).P4 = frame r := by
    rw [halike.kernel]
    exact hP4₂
  obtain ⟨mem', hfill', htouch'⟩ :=
    @Ready.fill_touches b r m data own fs₁ k₂' p hready₂' hlive₂' hP4₂' hp
  rw [hmap', Option.map_some]
  dsimp only
  rw [hfill, hfill']
  exact ⟨fs₁, _, (hready₂.touched hroot htouch).1, hlive₂, hP4₂, rfl,
    halike.touched hready₂ hroot htouch htouch'⟩

/-- Loading the same segments. -/
theorem Alike.loadAll {data : Nat} {ps : List PHead} (h : Alike b fs k k')
    (hready : Ready b own fs k) (hlive : k.live m = true) (hP4 : (k.map m).P4 = frame r) (hps : ∀ p ∈ ps, p.Loadable)
    (hcall : Procmm.loadAll (frame b) grow m data k ps = some k₁) :
  ∃ fs₁ k₁', Ready b own fs₁ k₁ ∧ k₁.live m = true ∧ (k₁.map m).P4 = frame r
    ∧ Procmm.loadAll (frame b) grow m data k' ps = some k₁' ∧ Alike b fs₁ k₁ k₁'
  := by
  induction ps generalizing fs k k' with
  | nil =>
      obtain rfl := Option.some.inj hcall
      exact ⟨fs, k', hready, hlive, hP4, rfl, h⟩
  | cons p ps ih =>
      rw [List.forall_mem_cons] at hps
      rw [Procmm.loadAll] at hcall ⊢
      split at hcall
      · cases hcall
      · rename_i k₂ hload
        obtain ⟨fs₂, k₂', hready₂, hlive₂, hP4₂, hload', halike⟩ :=
          h.loadElfSegment hready hlive hP4 hps.1 hload
        rw [hload']
        exact ih halike hready₂ hlive₂ hP4₂ hps.2 hcall

/-- `procmm_setup` returns on both. -/
theorem Alike.procmmSetup {size start : Nat} (h : Alike b fs k k') (hready : Ready b own fs k)
    (hlive : k.live m = true) (hP4 : (k.map m).P4 = frame r)
    (htop : ∀ last ∈ (k.map m).areas.prev,
      incptr (nextPage (k.area last).stop) size ≤ userspaceTop)
    (hcall : Procmm.procmmSetup (frame b) grow k m size = some (start, k₁)) :
  ∃ fs₁ k₁', Ready b own fs₁ k₁ ∧ Procmm.procmmSetup (frame b) grow k' m size = some (start, k₁')
    ∧ Alike b fs₁ k₁ k₁'
  := by
  obtain ⟨last, brk, k₂, stack, k₃, hlast, rfl, hmap₁, hmap₂, rfl, -, -⟩ := procmmSetup_cases hcall
  obtain ⟨used, fs₂, k₂', -, hready₂, hkeeps, hmap₁', halike₂⟩ :=
    h.procmmMap hready hlive hP4 (htop last hlast) hmap₁
  obtain ⟨s₂, rfl, htwins₂⟩ := halike₂.machine
  obtain ⟨hready₂', hkeeps'⟩ := hready₂.setBrk m brk
  have halike₂' := hready₂'.alike hkeeps'.root.symm hready₂.sound htwins₂
  have hlive₂ : (k₂.setBrk m brk).live m = true := by
    rw [hkeeps'.live, hkeeps.live]
    exact hlive
  have hP4₂ : ((k₂.setBrk m brk).map m).P4 = frame r := by
    rw [hkeeps'.P4, hkeeps.P4]
    exact hP4
  obtain ⟨used', fs₃, k₃', -, hready₃, -, hmap₂', halike₃⟩ :=
    halike₂'.procmmMap hready₂' hlive₂ hP4₂ (Nat.le_refl _) hmap₂
  obtain ⟨s₃, rfl, htwins₃⟩ := halike₃.machine
  obtain ⟨hready₃', hkeeps₃⟩ := hready₃.setStack m stack
  refine ⟨fs₃, _, hready₃', ?_, hready₃'.alike hkeeps₃.root.symm hready₃.sound htwins₃⟩
  have hlast' : (k'.map m).areas.prev = some last := by
    rw [h.kernel]
    exact hlast
  have harea : k'.area last = k.area last := by
    rw [h.kernel]
    rfl
  have hbrk : (k₂.withMachine s₂).setBrk m brk = (k₂.setBrk m brk).withMachine s₂ := rfl
  rw [Procmm.procmmSetup, hlast']
  dsimp only
  rw [harea, hmap₁']
  dsimp only
  rw [hbrk, hmap₂']
  rfl

end Calls

end Procmm
