import Mittos64.Proc.SpaceRun
import Mittos64.Proc.Start

/-!
# Runs after boot

Runs of calls from the kernel after boot, with a heap that does not grow: new maps, and areas above
those that are there.
-/

open DList

namespace Procmm

open Mem

/-- A kernel that a run has led to, with the free frames `fs`. -/
structure Stage (fs : List Nat) (k : Kernel) : Prop where
  run : Reachable (Empty 16) (fun k k' => ∃ e, FreshStep 16 (fun _ => 0) k e k') k
  held : Held 16 fs k
  heap : k.heapBrk = kernelHeapS

variable {f m r start stop : Nat} {fs xs : List Nat} {k k' : Kernel}

theorem stage_start {data : Words} (hdata : ∀ n i, data n i < 2 ^ 64) (hfs : Spare fs) :
  Stage fs (startKernel data fs)
  := by
  have hready := ready_start hdata hfs
  exact ⟨.start ⟨⟨fs, hready⟩, rfl, rfl⟩, (held_of_ready hready rfl rfl).1, rfl⟩

/-- A sorted list of areas is the list that a walk passes. -/
theorem Arranged.listed (h : Arranged k) (hlive : k.live m = true) (hlist : AreaList k m xs) :
  Listed k m xs
  := by
  obtain ⟨ys, hys⟩ := h.exists_listed hlive
  have hchain : Chain k.link (k.map m).areas.next xs := by
    rw [hlist.rep.first]
    exact hlist.rep.linked.chain
  rwa [hys.chain.unique hchain] at hys

/-- The list of a new map. -/
theorem NewMap.areaList {b : Nat} (hnew : NewMap b k f k') :
  AreaList k' k.maps []
  := by
  refine ⟨?_, nofun, nofun, List.Pairwise.nil⟩
  rw [hnew.map_new]
  exact Represents.empty

/-- A new map without areas. -/
theorem Stage.newMap (h : Stage (f :: fs) k) (hf : f ≠ 0) :
  ∃ k', FreshStep 16 (fun _ => 0) k (.newMap none) k' ∧ Stage fs k' ∧ NewMap 16 k f k'
  := by
  have hready := h.held.steady.ready
  have hcalloc : Procmm.kcalloc (frame 16) (k.demand (fun _ => 0)) k = some k := rfl
  have hnone : Ready 16 k.Root ([] ++ f :: fs) k := hready
  obtain ⟨k', hcall, -, hready', hnew, hroot, -, hbrk⟩ :=
    hnone.newMap_of_kcalloc hcalloc hready Keeps.refl (fun _ _ => rfl) hf
  have hproper : k.Proper 16 (fun _ => 0) (.newMap none) := by
    refine ⟨?_, nofun⟩
    intro k₁ P4 s hcalloc₁ hP4
    obtain rfl := Option.some.inj hcalloc₁
    obtain ⟨s', hP4', -⟩ := hready.sound.newP4 hf
    rw [hP4] at hP4'
    obtain ⟨rfl, -⟩ := Prod.mk.inj (Option.some.inj hP4')
    intro hzero
    apply hf
    rw [← Nat.zero_div pageSize, ← hzero, frame_div]
  have hstep : FreshStep 16 (fun _ => 0) k (.newMap none) k' := by
    refine ⟨hproper, trivial, trivial, ?_⟩
    rw [Kernel.step, hcall]
    rfl
  obtain ⟨⟨fs', hheld⟩, -⟩ := h.held.newMap hproper.1 hproper.2 hcall
  refine ⟨k', hstep, ⟨h.run.next ⟨_, hstep⟩, ⟨⟨?_, hheld.steady.low⟩, hheld.arranged⟩, ?_⟩, hnew⟩
  · rw [hroot]
    exact hready'
  · rw [hbrk, h.heap]

/-- A call of `procmm_map` for an area above those that are there. -/
theorem Stage.map (h : Stage fs k) (hlive : k.live m = true) (hP4 : (k.map m).P4 = frame r)
    (hlist : AreaList k m xs) (hbelow : ∀ o ∈ xs, Below k.area start o) (hle : start ≤ stop)
    (hstop : stop ≤ userspaceTop) (hlen : 4 * turns start stop ≤ fs.length)
    (hfresh : ∀ c, Stepped start stop c → lookup (words k.machine.mem) r c = 0) :
  ∃ k' used fs', procmmMap (frame 16) (fun _ => 0) k m start stop 0 = some (some k.areas, k')
    ∧ FreshStep 16 (fun _ => 0) k (.map m start stop 0) k' ∧ Stage fs' k'
    ∧ fs = used ++ fs' ∧ used.length ≤ 4 * turns start stop ∧ SameMaps k k'
    ∧ AddsArea m ⟨start, stop, 0, m⟩ k k' ∧ MapsPages 16 r (Stepped start stop) used k k'
    ∧ AreaList k' m (xs ++ [k.areas])
  := by
  have hready := h.held.steady.ready
  have harranged := h.held.arranged
  have hbelow' : ∀ o ∈ xs, ¬ Meets k.area start stop o := fun o ho hmeets =>
    hmeets (Or.inl (hbelow o ho))
  have hfits : Fits k.area xs start stop := by
    refine ⟨hle, Or.inr fun o ho => ?_⟩
    have hlt := hbelow o ho
    have hord := hlist.asc.1 o ho
    rw [Below] at hlt
    omega
  have hdemand : k.demand (fun _ => 0) = 0 := rfl
  have hroom : k.heapBrk + pageSize * k.demand (fun _ => 0) ≤ 2 ^ 64 := by
    rw [h.heap, hdemand]
    decide
  have hunique : ∀ ys, Listed k m ys → ys = xs := fun ys hys =>
    hys.chain.unique (harranged.listed hlive hlist).chain
  have hclear : ∀ ys, Listed k m ys → Clear k.area ys start stop := by
    intro ys hys zs o us hsplit hmeets
    have ho : o ∈ ys := by
      rw [hsplit]
      simp
    rw [hunique ys hys] at ho
    exact absurd hmeets (hbelow' o ho)
  obtain ⟨a, k', used, fs', hfs, hused, hcall, hready', hkeeps, hpaged, hbrk, hnone⟩ | ⟨hlt, -⟩ :=
    hready.procmmMap hlist hlive hP4 hfits hstop hroom 0
  · obtain ⟨hlist', -, hnew, -, -, -⟩ := hlist.procmmMap hfits hcall
    cases a with
    | none =>
        obtain ⟨o, ho, hmeets⟩ := hnone.mp rfl
        exact absurd hmeets (hbelow' o ho)
    | some a =>
        obtain ⟨rfl, -⟩ := hnew a rfl
        have hmaps := h.held.steady.paged hready' hkeeps hpaged
        have hmaps' : MapsPages 16 r (Stepped start stop) used k k' := by
          refine ⟨hmaps.root, hmaps.kept, fun hc => hmaps.mapped ⟨Option.some_ne_none _, hc⟩, ?_⟩
          exact fun hq hc hnot => hmaps.other hq hc fun hand => hnot ⟨hand.1, hand.2.2⟩
        have hsteady : Steady 16 (used ++ fs') k := by
          rw [← hfs]
          exact h.held.steady
        obtain ⟨harranged', hadds⟩ :=
          harranged.procmmMap hlive (hready.aligned hlive).1 ⟨hle, hstop⟩ hclear hcall
        have hstep : FreshStep 16 (fun _ => 0) k (.map m start stop 0) k' := by
          refine ⟨⟨hlive, hle, hstop, hclear⟩, ?_, trivial, ?_⟩
          · intro q ys hq _ _ c hc
            obtain rfl := frame_inj (hq.symm.trans hP4)
            exact hfresh c hc
          · rw [Kernel.step, hcall]
            rfl
        refine ⟨k', used, fs', hcall, hstep, ⟨h.run.next ⟨_, hstep⟩, ?_, ?_⟩, hfs, ?_,
          hkeeps.sameMaps, hadds, hmaps', hlist'⟩
        · exact ⟨hsteady.mapsPages hready' hmaps', harranged'⟩
        · rw [hbrk, h.heap, hdemand, Nat.mul_zero, Nat.add_zero]
        · rwa [hdemand, Nat.zero_add] at hused
  · rw [hdemand, Nat.zero_add] at hlt
    omega

/-- The kernel `k'` is the kernel `k` with a new process, which has the P4 `f` and one page, in the
frame `g`. -/
structure NewProcess (f g : Nat) (k k' : Kernel) : Prop where
  live : k'.live = Function.update k.live k.maps true
  P4_new : (k'.map k.maps).P4 = frame f
  P4_old : ∀ m ≠ k.maps, (k'.map m).P4 = (k.map m).P4
  maps : k'.maps = k.maps + 1
  areas : k'.areas = k.areas + 1
  page : lookup (words k'.machine.mem) f 0x1000 = addFlags (frame g) userFlags
  empty : ∀ {c}, p4Offset c ≠ 511 → ¬ Stepped 0x1000 0x2000 c → lookup (words k'.machine.mem) f c = 0
  entries : ∀ {q c}, k.Root q → p4Offset c ≠ 511 →
    lookup (words k'.machine.mem) q c = lookup (words k.machine.mem) q c
  list : AreaList k' k.maps [k.areas]
  area : k'.area k.areas = ⟨0x1000, 0x2000, 0, k.maps⟩

/-- A call of `procmm_new_map`, and a call of `procmm_map` for one page. -/
theorem Stage.newProcess {g : Nat} (h : Stage (f :: g :: fs) k) (hf : f ≠ 0) (hlen : 3 ≤ fs.length) :
  ∃ k₁ k' new fs', FreshStep 16 (fun _ => 0) k (.newMap none) k₁
    ∧ FreshStep 16 (fun _ => 0) k₁ (.map k.maps 0x1000 0x2000 0) k'
    ∧ k₁.live k.maps = true ∧ (k₁.map k.maps).P4 = frame f
    ∧ Stage fs' k' ∧ fs = new ++ fs' ∧ new.length ≤ 3 ∧ NewProcess f g k k'
  := by
  obtain ⟨k₁, hstep₁, h₁, hnew⟩ := h.newMap hf
  have hlive : k₁.live k.maps = true := by
    rw [hnew.live, Function.update_self]
  have hP4 : (k₁.map k.maps).P4 = frame f := by
    rw [hnew.map_new]
  have hroot : k₁.Root f := ⟨k.maps, hlive, hP4⟩
  have hturns : turns 0x1000 0x2000 = 1 := rfl
  obtain ⟨k', used, fs', hcall, hstep, h', hfs, hused, hsame, hadds, hmaps, hlist⟩ :=
    h₁.map hlive hP4 hnew.areaList nofun (show 0x1000 ≤ 0x2000 by decide) (by decide)
      (by rw [hturns, List.length_cons]; omega) (fun c hc => hnew.empty (hc.user (by decide)))
  have hfirst := h₁.held.steady.ready.first_frame hlive hP4 (by decide) (by decide) (by decide) hcall
  rw [hturns] at hused
  cases used with
  | nil =>
      -- the page needs a frame
      obtain ⟨f', hf', -⟩ := hmaps.mapped (⟨0, by decide, rfl, rfl⟩ : Stepped 0x1000 0x2000 0x1000)
      cases hf'
  | cons g' new =>
      obtain ⟨rfl, hrest⟩ := List.cons.inj hfs
      rw [List.length_cons] at hused
      refine ⟨k₁, k', new, fs', hstep₁, hstep, hlive, hP4, h', hrest, by omega, ?_⟩
      constructor
      · rw [hadds.live, hnew.live]
      · rw [hsame.P4, hP4]
      · intro m hm
        rw [hsame.P4, hnew.map_old m hm]
      · rw [hadds.maps, hnew.maps]
      · rw [hadds.areas, hnew.areas]
      · exact hfirst
      · intro c hc hnot
        rw [hmaps.other hroot hc (fun hand => hnot hand.2), hnew.empty hc]
      · rintro q c hq hc
        have hne : q ≠ f := hnew.ne hq
        have hq₁ : k₁.Root q := by
          obtain ⟨m, hm, hmP4⟩ := hq
          obtain ⟨-, hm', hmP4'⟩ := hnew.old h.held hm
          exact ⟨m, hm', hmP4'.trans hmP4⟩
        rw [hmaps.other hq₁ hc (fun hand => hne hand.1), hnew.entries hq hc]
      · rw [← hnew.areas]
        exact hlist
      · rw [← hnew.areas, hadds.area, addArea_new]

/-! ### An area with a page that is not mapped -/

/-- Two processes with the P4s `q` and `r` and one page each.  The page of the first one is in the
frame 0. -/
structure TwoProcesses (q r : Nat) (k : Kernel) : Prop where
  live : k.live 0 = true ∧ k.live 1 = true
  P4 : (k.map 0).P4 = frame q ∧ (k.map 1).P4 = frame r
  null : lookup (words k.machine.mem) q 0x1000 = addFlags (frame 0) userFlags
  page : lookup (words k.machine.mem) r 0x1000 ≠ 0
  hole : lookup (words k.machine.mem) r 0x2000 = 0
  list : AreaList k 1 [1]
  area : k.area 1 = ⟨0x1000, 0x2000, 0, 1⟩
  areas : k.areas = 2

theorem exists_twoProcesses :
  ∃ q r k fs, Stage fs k ∧ TwoProcesses q r k
  := by
  have hspare : Spare (32 :: 0 :: List.range' 33 12) := by
    refine ⟨by decide, ?_⟩
    decide
  obtain ⟨k₀, h₀, hmaps₀, hareas₀⟩ : ∃ k, Stage (32 :: 0 :: List.range' 33 12) k
      ∧ k.maps = 0 ∧ k.areas = 0 :=
    ⟨startKernel (fun _ _ => 0) _, stage_start (fun _ _ => by decide) hspare, rfl, rfl⟩
  -- the page of the first process is in the frame 0
  obtain ⟨-, k₁, new, fs₁, -, -, -, -, h₁, hfs₁, hlen₁, hfirst⟩ :=
    h₀.newProcess (by decide) (by decide)
  have hlen : new.length + fs₁.length = 12 := by
    rw [← List.length_append, ← hfs₁, List.length_range']
  obtain ⟨f, g, fs₂, rfl⟩ : ∃ f g fs₂, fs₁ = f :: g :: fs₂ := by
    match fs₁, hlen with
    | [], hlen => simp at hlen; omega
    | [_], hlen => simp at hlen; omega
    | f :: g :: fs₂, _ => exact ⟨f, g, fs₂, rfl⟩
  rw [List.length_cons, List.length_cons] at hlen
  have hf : f ≠ 0 := by
    rintro rfl
    have hmem : 0 ∈ List.range' 33 12 := by
      rw [hfs₁]
      simp
    revert hmem
    decide
  obtain ⟨-, k₂, -, fs₃, -, -, -, -, h₂, -, -, hsecond⟩ := h₁.newProcess hf (by omega)
  have hmaps₁ : k₁.maps = 1 := by rw [hfirst.maps, hmaps₀]
  have hareas₁ : k₁.areas = 1 := by rw [hfirst.areas, hareas₀]
  have hlive₁ := hfirst.live
  have hP4₁ := hfirst.P4_new
  have hlive₂ := hsecond.live
  have hP4₂ := hsecond.P4_new
  have hlist₂ := hsecond.list
  have harea₂ := hsecond.area
  rw [hmaps₀] at hlive₁ hP4₁
  rw [hmaps₁] at hlive₂ hP4₂ hlist₂ harea₂
  rw [hareas₁] at hlist₂ harea₂
  have hlive : k₁.live 0 = true := by
    rw [hlive₁, Function.update_self]
  have hroot : k₁.Root 32 := ⟨0, hlive, hP4₁⟩
  refine ⟨32, f, k₂, fs₃, h₂, ?_, ⟨?_, hP4₂⟩, ?_, ?_, ?_, hlist₂, harea₂, ?_⟩
  · rw [hlive₂, Function.update_self, Function.update_of_ne (by decide), hlive]
    exact ⟨rfl, rfl⟩
  · rw [hsecond.P4_old 0 (by rw [hmaps₁]; decide), hP4₁]
  · rw [hsecond.entries hroot (by decide), hfirst.page]
  · rw [hsecond.page]
    exact (userFlags_entry g).1
  · apply hsecond.empty (by decide)
    rw [stepped_iff (by decide) (by decide) (by decide)]
    decide
  · rw [hsecond.areas, hareas₁]

/-- `procmm_resize` maps nothing when the new end lies below the first page that it would map. -/
theorem procmmResize_empty {bootP4 a len stop : Nat}
    (hgrow : ((k.area a).stop + 2 ^ 64 - (k.area a).start) % 2 ^ 64 < len)
    (hstop : k.resizedStop a len = some stop) (hle : stop ≤ nextPage (k.area a).stop) :
  ∃ v, procmmResize bootP4 k m a len = some (v, (k.setStop a stop).withMachine k.machine)
  := by
  have hloop : ∀ fuel, mapPages bootP4 (fuel + 1) k.machine (k.map m).P4 (nextPage (k.area a).stop) stop
      = some k.machine := by
    intro fuel
    rw [mapPages, if_neg (Nat.not_lt.mpr hle)]
  obtain ⟨next, hnext, rfl⟩ := Option.map_eq_some_iff.mp hstop
  rw [procmmResize]
  dsimp only at hgrow hloop ⊢
  rw [if_pos hgrow, hnext]
  dsimp only
  rw [hloop]
  exact ⟨_, rfl⟩

/-- Two processes with the P4s `q` and `r`.  The first one has its page in the frame 0; the second one
has an area of two pages, of which only the first one is mapped. -/
structure Gap (q r : Nat) (k : Kernel) : Prop where
  run : Reachable (Empty 16) (WholeStep 16 (fun _ => 0)) k
  live : k.live 0 = true ∧ k.live 1 = true
  P4 : (k.map 0).P4 = frame q ∧ (k.map 1).P4 = frame r
  null : lookup (words k.machine.mem) q 0x1000 = addFlags (frame 0) userFlags
  page : lookup (words k.machine.mem) r 0x1000 ≠ 0
  hole : lookup (words k.machine.mem) r 0x2000 = 0
  list : Listed k 1 [1, 2]
  area : k.area 1 = ⟨0x1000, 0x3000, 0, 1⟩ ∧ k.area 2 = ⟨0x5000, 0x5000, 0, 1⟩

/-- The area of the second process ends at a page, so that `procmm_resize` does not map the page from
there on. -/
theorem exists_gap :
  ∃ q r k, Gap q r k
  := by
  obtain ⟨q, r, k₁, fs, h₁, htwo⟩ := exists_twoProcesses
  -- an area behind that of the second process
  have hempty : ∀ c, ¬ Stepped 0x5000 0x5000 c := fun c => not_stepped_of_le (Nat.le_refl _)
  have hbelow : ∀ o ∈ [1], Below k₁.area 0x5000 o := by
    intro o ho
    rw [List.mem_singleton.mp ho, Below, htwo.area]
    decide
  obtain ⟨k₂, used, fs₂, -, -, h₂, -, -, hsame, hadds, hmaps, hlist⟩ :=
    h₁.map htwo.live.2 htwo.P4.2 htwo.list hbelow (Nat.le_refl 0x5000) (by decide)
      (by rw [turns_of_le (Nat.le_refl _)]; omega) (fun c hc => absurd hc (hempty c))
  rw [htwo.areas] at hlist
  have hlookup : ∀ {p c}, k₁.Root p → p4Offset c ≠ 511 →
      lookup (words k₂.machine.mem) p c = lookup (words k₁.machine.mem) p c :=
    fun hp hc => hmaps.other hp hc fun hand => hempty _ hand.2
  have hroots : k₁.Root q ∧ k₁.Root r :=
    ⟨⟨0, htwo.live.1, htwo.P4.1⟩, ⟨1, htwo.live.2, htwo.P4.2⟩⟩
  have harea₁ : k₂.area 1 = ⟨0x1000, 0x2000, 0, 1⟩ := by
    rw [hadds.area, addArea_old (by rw [htwo.areas]; decide), htwo.area]
  have harea₂ : k₂.area 2 = ⟨0x5000, 0x5000, 0, 1⟩ := by
    rw [← htwo.areas, hadds.area, addArea_new]
  have hlinked : k₂.link 1 = ⟨none, some 2⟩ := hlist.rep.linked.1
  have hlive : k₂.live 0 = true ∧ k₂.live 1 = true := by
    rw [hsame.live]
    exact htwo.live
  have hstop : k₂.resizedStop 1 0x2000 = some 0x3000 := by
    rw [Kernel.resizedStop, hlinked, Option.map_some, harea₁, harea₂]
    decide
  obtain ⟨v, hresize⟩ : ∃ v, procmmResize (frame 16) k₂ 1 1 0x2000
      = some (v, (k₂.setStop 1 0x3000).withMachine k₂.machine) := by
    apply procmmResize_empty _ hstop
    · rw [harea₁]
      decide
    · rw [harea₁]
      decide
  have hproper : k₂.Proper 16 (fun _ => 0) (.resize 1 1 0x2000) := by
    refine ⟨hlive.2, ⟨?_, ?_⟩, ?_⟩
    · rw [hadds.areas, htwo.areas]
      decide
    · rw [harea₁]
    · intro stop hs
      obtain rfl := Option.some.inj (hstop.symm.trans hs)
      rw [harea₁]
      decide
  obtain ⟨hchain, -, hlt, hmap⟩ := h₂.held.arranged.listed hlive.2 hlist
  refine ⟨q, r, (k₂.setStop 1 0x3000).withMachine k₂.machine, ?_⟩
  constructor
  · apply (wholeRun_of_fresh h₂.run).next
    refine ⟨_, hproper, trivial, ?_⟩
    rw [Kernel.step, hresize]
    rfl
  · exact hlive
  · exact ⟨(hsame.P4 0).trans htwo.P4.1, (hsame.P4 1).trans htwo.P4.2⟩
  · exact (hlookup hroots.1 (by decide)).trans htwo.null
  · intro hzero
    exact htwo.page ((hlookup hroots.2 (by decide)).symm.trans hzero)
  · exact (hlookup hroots.2 (by decide)).trans htwo.hole
  · refine ⟨hchain, ?_, hlt, ?_⟩
    · intro x hx p hp
      obtain rfl := Option.some.inj hx
      have hprev : (k₂.link 1).prev = none := by rw [hlinked]
      cases hprev.symm.trans hp
    · intro a ha
      rw [Kernel.withMachine_area, Kernel.setStop_area]
      by_cases ha₁ : a = 1
      · rw [ha₁, Function.update_self, harea₁]
      · rw [Function.update_of_ne ha₁]
        exact hmap a ha
  · constructor
    · rw [Kernel.withMachine_area, Kernel.setStop_area, Function.update_self, harea₁]
    · rw [Kernel.withMachine_area, Kernel.setStop_area, Function.update_of_ne (by decide), harea₂]

end Procmm
