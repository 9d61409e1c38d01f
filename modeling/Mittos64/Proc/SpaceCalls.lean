import Mittos64.Proc.SpaceCopy

/-!
# Calls on all maps

Any number of maps, with calls of `procmm_new_map`, `procmm_map`, `procmm_resize`, `procmm_page_fault`
and `procmm_free_map` in any order.  `Held` is kept by all of them: the machine stays sound for the
address spaces of the live maps as long as every area stays in the user half, and `procmm_free_map`
is called only for maps whose page steps all meet pages of their own.
-/

open DList

namespace Procmm

open Mem

/-- A call on the maps, or something that happens between the calls: the heap grows, a process writes
to its pages, and the pointers to the areas of the break and of the stack are set.  `process_spawn` is
`kcalloc` and `procmm_new_map`, `process_free` is `procmm_free_map`, and `process_exit` is none of
these. -/
inductive Call where
  | kcalloc (n : Nat)
  | write (mem : Memory)
  | newMap (src : Option Nat)
  | map (m start stop flags : Nat)
  | setBrk (m : Nat) (a : Option Nat)
  | setStack (m : Nat) (a : Option Nat)
  | resize (m a len : Nat)
  | fault (m addr : Nat)
  | freeMap (m : Nat)

/-- The kernel after a call that returns. -/
def Kernel.step (bootP4 : Nat) (grow : Nat → Nat) (k : Kernel) : Call → Option Kernel
  | .kcalloc n => Procmm.kcalloc bootP4 n k
  | .write mem => some (k.withMachine (k.machine.withMem mem))
  | .newMap src => (procmmNewMap bootP4 grow k src).map Prod.snd
  | .map m start stop flags => (procmmMap bootP4 grow k m start stop flags).map Prod.snd
  | .setBrk m a => some (k.setBrk m a)
  | .setStack m a => some (k.setStack m a)
  | .resize m a len => (procmmResize bootP4 k m a len).map Prod.snd
  | .fault m addr => (procmmPageFault bootP4 k m addr).map Prod.snd
  | .freeMap m => procmmFreeMap bootP4 k m

/-- The end of the area `a` after a call of `procmm_resize`. -/
def Kernel.resizedStop (k : Kernel) (a len : Nat) : Option Nat :=
  (k.link a).next.map fun next =>
    let start := (k.area a).start
    let max := (k.area next).start
    let max := if max < start then kernelOffset else max
    incptr start (if incptr start len > max then (max + 2 ^ 64 - start) % 2 ^ 64 else len)

/-- The call is for a live map and leaves its areas in the user half, it links no area that it does
not return, and the P4 of a new map is not 0; processes write to their own pages. -/
def Kernel.Proper (b : Nat) (grow : Nat → Nat) (k : Kernel) : Call → Prop
  | .kcalloc _ => True
  | .write mem => ∃ r, k.Root r ∧ Touches (words k.machine.mem) r k.machine.mem mem
  | .newMap src =>
      (∀ k₁ P4 s, Procmm.kcalloc (frame b) (k.demand grow) k = some k₁ →
        vmmNewP4 (frame b) k₁.machine = some (P4, s) → P4 ≠ 0)
      ∧ ∀ m ∈ src, k.live m = true ∧ ∀ xs, Listed k m xs → CopyClear k.area xs
  | .map m start stop _ =>
      k.live m = true ∧ start ≤ stop ∧ stop ≤ userspaceTop
        ∧ ∀ xs, Listed k m xs → Clear k.area xs start stop
  | .setBrk m _ => k.live m = true
  | .setStack m a => k.live m = true ∧ ∀ x ∈ a, k.Of m x
  | .resize m a len =>
      k.live m = true ∧ k.Of m a
        ∧ ∀ stop ∈ k.resizedStop a len, (k.area a).start ≤ stop ∧ stop ≤ userspaceTop
  | .fault m addr =>
      k.live m = true ∧ ∀ a ∈ (k.map m).stack, (k.area a).start ≤ incptr addr pageSize →
        pageSize ≤ (k.area a).start
  | .freeMap m => k.live m = true

/-- The call maps no page of the map that is mapped already. -/
def Kernel.Fresh (k : Kernel) : Call → Prop
  | .map m start stop _ =>
      ∀ r xs, (k.map m).P4 = frame r → Listed k m xs → (∀ x ∈ xs, ¬ Meets k.area start stop x) →
        ∀ c, Stepped start stop c → lookup (words k.machine.mem) r c = 0
  | .resize m a len =>
      ∀ r, (k.map m).P4 = frame r → ∀ stop ∈ k.resizedStop a len,
        ∀ c, Stepped (nextPage (k.area a).stop) stop c → lookup (words k.machine.mem) r c = 0
  | .fault m addr =>
      ∀ r, (k.map m).P4 = frame r → ∀ a ∈ (k.map m).stack, (k.area a).start ≤ incptr addr pageSize →
        ∀ c, SamePage ((k.area a).start - pageSize) c → lookup (words k.machine.mem) r c = 0
  | _ => True

/-- The page steps through an area that `procmm_resize` makes larger meet the pages they have met
before and those that `procmm_resize` maps. -/
def Kernel.InStep (k : Kernel) : Call → Prop
  | .resize _ a len =>
      ∀ stop ∈ k.resizedStop a len, ∀ c, Stepped (k.area a).start stop c →
        (k.area a).Steps c ∨ Stepped (nextPage (k.area a).stop) stop c
  | _ => True

/-- When the map is freed, every page step through the areas of its list meets a page of its own. -/
def Kernel.Whole (k : Kernel) : Call → Prop
  | .freeMap m => ∀ r xs, (k.map m).P4 = frame r → Listed k m xs → Filled k r xs
  | _ => True

/-! ### What a call does -/

section Calls

variable {b m r : Nat} {fs : List Nat} {grow : Nat → Nat} {k k' : Kernel}

/-- A call of `procmm_resize` that returns has mapped pages, and moved the end of the area. -/
theorem procmmResize_cases {bootP4 a len v : Nat}
    (h : procmmResize bootP4 k m a len = some (v, k')) :
  ∃ stop s, k.resizedStop a len = some stop
    ∧ mapPages bootP4 (turns (nextPage (k.area a).stop) stop + 1) k.machine (k.map m).P4
      (nextPage (k.area a).stop) stop = some s
    ∧ k' = (k.setArea a { k.area a with stop := stop }).withMachine s
  := by
  rw [procmmResize] at h
  dsimp only at h
  split_ifs at h with hgrow
  cases hnext : (k.link a).next with
  | none =>
      rw [hnext] at h
      cases h
  | some next =>
      rw [hnext] at h
      dsimp only at h
      split at h
      · cases h
      · rename_i s hpages
        obtain ⟨-, rfl⟩ := Prod.mk.inj (Option.some.inj h)
        refine ⟨_, s, ?_, hpages, rfl⟩
        rw [Kernel.resizedStop, hnext]
        rfl

/-- A call of `procmm_page_fault` that returns has done nothing, or it has mapped the page below the
stack. -/
theorem procmmPageFault_cases {bootP4 addr : Nat} {handled : Bool}
    (h : procmmPageFault bootP4 k m addr = some (handled, k')) :
  k' = k ∨ ∃ a s, (k.map m).stack = some a ∧ (k.area a).start ≤ incptr addr pageSize
    ∧ mapPage bootP4 userFlags k.machine (k.map m).P4
        (((k.area a).start + 2 ^ 64 - pageSize) % 2 ^ 64) = some s
    ∧ k' = (k.setArea a { k.area a with
        start := ((k.area a).start + 2 ^ 64 - pageSize) % 2 ^ 64 }).withMachine s
  := by
  rw [procmmPageFault] at h
  split_ifs at h with hkernel
  · left
    exact (Prod.mk.inj (Option.some.inj h)).2.symm
  · cases hstack : (k.map m).stack with
    | none =>
        rw [hstack] at h
        left
        exact (Prod.mk.inj (Option.some.inj h)).2.symm
    | some a =>
        rw [hstack] at h
        dsimp only at h
        split_ifs at h with hnear
        · right
          split at h
          · cases h
          · rename_i s hpage
            obtain ⟨-, rfl⟩ := Prod.mk.inj (Option.some.inj h)
            exact ⟨a, s, rfl, hnear, hpage, rfl⟩
        · left
          exact (Prod.mk.inj (Option.some.inj h)).2.symm

/-! ### One call -/

/-- What a call keeps: the kernel stays in order; when no page is mapped anew, the maps keep their
frames, and when the page steps stay in step, the maps stay covered. -/
structure Advances (b : Nat) (k : Kernel) (e : Call) (k' : Kernel) : Prop where
  held : ∃ fs, Held b fs k'
  frames : ∀ {m r}, k.live m = true → (k.map m).P4 = frame r → k.Fresh e → e ≠ .freeMap m →
    k'.live m = true ∧ (k'.map m).P4 = frame r
      ∧ ∀ f, UserFrame (words k.machine.mem) r f → UserFrame (words k'.machine.mem) r f
  covering : k.Fresh e → k.InStep e → Covering k → Covering k'

/-- A call that maps pages of one address space. -/
theorem Held.advances {page : Nat → Prop} {used fs' : List Nat} {e : Call} (h : Held b fs k)
    (h' : Held b fs' k') (hsame : SameMaps k k') (hmaps : MapsPages b r page used k k')
    (hfresh : k.Fresh e → ∀ c, page c → lookup (words k.machine.mem) r c = 0)
    (hcovers : k.Fresh e → k.InStep e → ∀ m q, k.live m = true → (k.map m).P4 = frame q →
      (∃ Z, AreasMapped k m q Z) → ∃ Z, AreasMapped k' m q Z) :
  Advances b k e k'
  := by
  refine ⟨⟨fs', h'⟩, ?_, ?_⟩
  · intro m q hlive hP4 hf _
    refine ⟨?_, (hsame.P4 m).trans hP4, ?_⟩
    · rw [hsame.live]
      exact hlive
    · intro f hframe
      apply hmaps.userFrame h.steady h'.steady ⟨m, hlive, hP4⟩ _ hframe
      rintro rfl
      exact hfresh hf
  · intro hf hin hcovering m q hlive hP4
    rw [hsame.live] at hlive
    rw [hsame.P4] at hP4
    exact hcovers hf hin m q hlive hP4 (hcovering m q hlive hP4)

/-- A call that changes neither areas nor links nor pages. -/
theorem Held.advances_same {used fs' : List Nat} {e : Call} (h : Held b fs k) (h' : Held b fs' k')
    (hsame : SameMaps k k') (hmaps : MapsPages b b (fun _ => False) used k k')
    (hhead : ∀ m, (k'.map m).areas = (k.map m).areas) (hareas : k'.areas = k.areas)
    (harea : k'.area = k.area) (hlink : k'.link = k.link) :
  Advances b k e k'
  := by
  apply h.advances h' hsame hmaps fun _ _ => False.elim
  rintro - - m q hlive hP4 ⟨Z, hZ⟩
  refine ⟨Z, hZ.untouched h.arranged hlive ⟨hhead m, Nat.le_of_eq hareas.symm, ?_, ?_, ?_⟩⟩
  · intro z _
    rw [harea]
  · intro z _
    rw [hlink]
  · exact fun c hc hne => hmaps.ne_zero ⟨m, hlive, hP4⟩ hc hne

/-- A call of `procmm_map` -/
theorem Held.map_step {start stop flags : Nat} (h : Held b fs k)
    (hproper : k.Proper b grow (.map m start stop flags))
    (hcall : k.step (frame b) grow (.map m start stop flags) = some k') :
  Advances b k (.map m start stop flags) k'
  := by
  obtain ⟨hlive, hle, hstop, hclear⟩ := hproper
  obtain ⟨-, r, hP4⟩ := h.steady.ready.aligned hlive
  obtain ⟨⟨a, k₁⟩, hmap, rfl⟩ := Option.map_eq_some_iff.mp hcall
  obtain ⟨used, fs', -, hheld, hsame, hadds, hmaps⟩ := h.map hlive hP4 ⟨hle, hstop⟩ hclear hmap
  obtain ⟨xs, hlist⟩ := h.arranged.exists_listed hlive
  obtain ⟨-, -, -, hapart⟩ := (h.arranged.joined hlive).procmmMap (fun _ hz => hz) hlist
    (hclear xs hlist) hmap
  apply h.advances hheld hsame hmaps
  · rintro hfresh c ⟨ha, hc⟩
    exact hfresh r xs hP4 hlist (hapart ha) c hc
  · rintro hfresh - m' q hlive' hP4' ⟨Z, hZ⟩
    by_cases hm : m' = m
    · subst hm
      obtain rfl := frame_inj (hP4'.symm.trans hP4)
      have hroot : k.Root q := ⟨m', hlive, hP4⟩
      obtain ⟨Z', hZ', -⟩ := hZ.procmmMap h.arranged hlive hroot hlist (hclear xs hlist) hmaps
        (hfresh q xs hP4 hlist) hmap
      exact ⟨Z', hZ'⟩
    · exact ⟨Z, hZ.untouched h.arranged hlive' (hadds.untouched hmaps hm ⟨m', hlive', hP4'⟩)⟩

/-- An area of a live map gets other bounds, and the pages `page` are mapped. -/
theorem Held.setArea_step {a : Nat} (area : Area) {page : Nat → Prop} {used fs' : List Nat}
    {s : Machine} {e : Call} (h : Held b fs k) (hlive : k.live m = true)
    (hP4 : (k.map m).P4 = frame r) (hmap : area.map = (k.area a).map) (hof : k.Of m a)
    (huser : area.User) (hsteady : Steady b fs' ((k.setArea a area).withMachine s))
    (hkeeps : Keeps b used k ((k.setArea a area).withMachine s))
    (hmaps : MapsPages b r page used k ((k.setArea a area).withMachine s))
    (hfresh : k.Fresh e → ∀ c, page c → lookup (words k.machine.mem) r c = 0)
    (hsteps : k.InStep e → ∀ c, area.Steps c → (k.area a).Steps c ∨ page c) :
  Advances b k e ((k.setArea a area).withMachine s)
  := by
  have harranged : Arranged ((k.setArea a area).withMachine s) :=
    h.arranged.setArea area hmap huser
  apply h.advances ⟨hsteady, harranged⟩ hkeeps.sameMaps hmaps hfresh
  rintro hf hin m' q hlive' hP4' ⟨Z, hZ⟩
  by_cases hm : m' = m
  · subst hm
    obtain rfl := frame_inj (hP4'.symm.trans hP4)
    exact ⟨Z, hZ.setArea h.arranged hlive ⟨m', hlive, hP4⟩ hmap hmaps (hsteps hin) (hfresh hf)⟩
  · refine ⟨Z, hZ.untouched h.arranged hlive' ⟨rfl, Nat.le_refl _, ?_, fun _ _ => rfl, ?_⟩⟩
    · intro z hz
      rw [Kernel.withMachine_area, Kernel.setArea_area, Function.update_of_ne]
      rintro rfl
      exact hm (hz.2.symm.trans hof.2)
    · exact fun c hc hne => hmaps.ne_zero ⟨m', hlive', hP4'⟩ hc hne

/-- A call of `procmm_resize` -/
theorem Held.resize_step {a len : Nat} (h : Held b fs k)
    (hproper : k.Proper b grow (.resize m a len))
    (hcall : k.step (frame b) grow (.resize m a len) = some k') :
  Advances b k (.resize m a len) k'
  := by
  obtain ⟨hlive, hof, huser⟩ := hproper
  obtain ⟨-, r, hP4⟩ := h.steady.ready.aligned hlive
  obtain ⟨⟨v, k₁⟩, hresize, rfl⟩ := Option.map_eq_some_iff.mp hcall
  obtain ⟨stop, s, hstop, hpages, hk₁⟩ := procmmResize_cases hresize
  have huser₁ := huser stop hstop
  obtain ⟨used, fs', -, hsteady, hkeeps, hmaps⟩ :=
    h.steady.mapPages a { k.area a with stop := stop } hlive hP4 huser₁.2 (Nat.lt_succ_self _) hpages
  rw [hk₁]
  apply h.setArea_step { k.area a with stop := stop } hlive hP4 rfl hof huser₁ hsteady hkeeps hmaps
  · intro hfresh c hc
    exact hfresh r hP4 stop hstop c hc
  · intro hin c hc
    exact hin stop hstop c hc

/-- Nothing has happened. -/
theorem Held.advances_self {e : Call} (h : Held b fs k) :
  Advances b k e k
  := by
  have hmaps : MapsPages b b (fun _ => False) [] k k :=
    ⟨rfl, fun _ _ _ _ => rfl, False.elim, fun _ _ _ => rfl⟩
  exact h.advances_same h ⟨rfl, rfl, fun _ => rfl⟩ hmaps (fun _ => rfl) rfl rfl rfl

/-- A call of `procmm_page_fault` -/
theorem Held.fault_step {addr : Nat} (h : Held b fs k) (hproper : k.Proper b grow (.fault m addr))
    (hcall : k.step (frame b) grow (.fault m addr) = some k') :
  Advances b k (.fault m addr) k'
  := by
  obtain ⟨hlive, hroom⟩ := hproper
  obtain ⟨-, r, hP4⟩ := h.steady.ready.aligned hlive
  obtain ⟨⟨handled, k₁⟩, hfault, rfl⟩ := Option.map_eq_some_iff.mp hcall
  obtain heq | ⟨a, s, hstack, hnear, hpage, hk₁⟩ := procmmPageFault_cases hfault
  · dsimp only at heq ⊢
    rw [heq]
    exact h.advances_self
  · have hle := hroom a hstack hnear
    have hof := h.arranged.stack hlive hstack
    obtain ⟨horder, htop⟩ := h.arranged.user hlive hof
    obtain ⟨start, hstart⟩ : ∃ start, (k.area a).start = start + pageSize :=
      ⟨(k.area a).start - pageSize, by omega⟩
    have hmod : ((k.area a).start + 2 ^ 64 - pageSize) % 2 ^ 64 = start := by
      rw [userspaceTop] at htop
      rw [pageSize] at hstart ⊢
      omega
    rw [hmod] at hpage hk₁
    have hlt : start + pageSize < 2 ^ 64 := by
      rw [userspaceTop] at htop
      omega
    have hstop : start + 1 ≤ userspaceTop := by
      rw [pageSize] at hstart
      omega
    have hturns : turns start (start + 1) < 2 := by
      rw [turns, pageSize]
      omega
    obtain ⟨used, fs', -, hsteady, hkeeps, hmaps⟩ :=
      h.steady.mapPages a { k.area a with start := start } hlive hP4 hstop hturns
        (mapPages_one hlt hpage)
    rw [hk₁]
    apply h.setArea_step { k.area a with start := start } hlive hP4 rfl hof _ hsteady hkeeps hmaps
    · intro hfresh c hc
      apply hfresh r hP4 a hstack hnear
      rw [hstart, Nat.add_sub_cancel]
      obtain hsame | hlater := (stepped_of_lt (Nat.lt_succ_self start)).mp hc
      · exact hsame
      · apply absurd hlater
        apply not_stepped_of_le
        rw [pageSize]
        omega
    · intro _ c hc
      have hbelow : start < (k.area a).stop := by
        rw [pageSize] at hstart
        omega
      obtain hsame | hlater := (stepped_of_lt hbelow).mp hc
      · exact Or.inr ((stepped_of_lt (Nat.lt_succ_self start)).mpr (Or.inl hsame))
      · left
        rw [Area.Steps, hstart]
        exact hlater
    · refine ⟨?_, htop⟩
      dsimp only
      omega

/-- Setting the pointers of a map. -/
theorem Held.pointers {f : Nat → Map} {e : Call} (h : Held b fs k)
    (hP4 : ∀ m, (f m).P4 = (k.map m).P4) (hareas : ∀ m, (f m).areas = (k.map m).areas)
    (hstack : ∀ m a, k.live m = true → (f m).stack = some a → k.Of m a) :
  Advances b k e { k with map := f }
  := by
  have hsame : SameMaps k { k with map := f } := ⟨rfl, rfl, hP4⟩
  have hready : Ready b k.Root fs { k with map := f } :=
    h.steady.ready.of_sound rfl rfl hP4 h.steady.ready.heap h.steady.ready.sound
  have hmaps : MapsPages b b (fun _ => False) [] k { k with map := f } :=
    ⟨hsame.root, fun _ _ _ _ => rfl, False.elim, fun _ _ _ => rfl⟩
  have hnone : Steady b ([] ++ fs) k := h.steady
  have harranged : Arranged { k with map := f } := by
    refine ⟨?_, h.arranged.maps, h.arranged.user, fun hlive hs => hstack _ _ hlive hs⟩
    intro m hlive
    have hjoined := h.arranged.joined hlive
    rw [← hareas] at hjoined
    exact hjoined
  exact h.advances_same ⟨hnone.mapsPages hready hmaps, harranged⟩ hsame hmaps hareas rfl rfl rfl

/-- A call of `procmm_free_map` for a map whose page steps all meet pages of their own. -/
theorem Held.freeMap_step (h : Held b fs k) (hlive : k.live m = true)
    (hwhole : k.Whole (.freeMap m)) (hcall : k.step (frame b) grow (.freeMap m) = some k') :
  Advances b k (.freeMap m) k'
  := by
  obtain ⟨-, r, hP4⟩ := h.steady.ready.aligned hlive
  obtain ⟨xs, hlist⟩ := h.arranged.exists_listed hlive
  have hroot : k.Root r := ⟨m, hlive, hP4⟩
  obtain ⟨L, k₁, hcall', -, -, -, -, hready, hlow, hfreed⟩ :=
    h.steady.ready.procmmFreeMap h.steady.low hlive hP4 hroot hlist (hwhole r xs hP4 hlist)
  obtain rfl := Option.some.inj (hcall.symm.trans hcall')
  rw [← hfreed.root] at hready
  refine ⟨⟨L ++ fs, ⟨hready, hlow⟩, hfreed.arranged h.arranged⟩, ?_,
    fun _ _ => hfreed.covering h.arranged⟩
  intro m' q hlive' hP4' _ hne
  have hne' : m' ≠ m := by
    rintro rfl
    exact hne rfl
  have hq : k'.Root q := by
    rw [hfreed.root]
    refine ⟨⟨m', hlive', hP4'⟩, ?_⟩
    rintro rfl
    exact hne' (h.steady.ready.own hlive' hlive (hP4'.trans hP4.symm))
  refine ⟨?_, ?_, ?_⟩
  · rw [hfreed.live, Function.update_of_ne hne']
    exact hlive'
  · rw [hfreed.map m' hne']
    exact hP4'
  · intro f hf
    have hT := h.steady.ready.sound.half.toKernelTables
    have hT' := hready.sound.half.toKernelTables
    apply (userFrame_iff hT' hq).mpr
    obtain ⟨p, hp, hhead, hwalk⟩ | ⟨c, hc, hmapped, heq⟩ :=
      (userFrame_iff hT ⟨m', hlive', hP4'⟩).mp hf
    · exact Or.inl ⟨p, hp, hhead, (hfreed.walks ⟨Or.inr hq, hp⟩).trans hwalk⟩
    · right
      rw [← hfreed.entries hq] at hmapped heq
      exact ⟨c, hc, hmapped, heq⟩

/-- Every proper call keeps the kernel in order. -/
theorem Held.step {e : Call} (h : Held b fs k) (hproper : k.Proper b grow e) (hwhole : k.Whole e)
    (hcall : k.step (frame b) grow e = some k') :
  Advances b k e k'
  := by
  cases e with
  | kcalloc n =>
      obtain ⟨used, fs', -, hsteady, hmaps, hkeeps⟩ := h.steady.kcalloc hcall
      obtain ⟨harea, hlink, hmap, hlive, hareas, hcount⟩ := kcalloc_fields hcall
      have harranged : Arranged k' := by
        obtain ⟨hjoined, hmapsLt, huser, hstack⟩ := h.arranged
        have hof : k'.Of = k.Of := by
          funext m x
          rw [Kernel.Of, Kernel.Of, hareas, harea]
        constructor
        · rw [hlive, hmap, hlink, hof]
          exact hjoined
        · rw [hareas, harea, hcount]
          exact hmapsLt
        · rw [hlive, hof, harea]
          exact huser
        · rw [hlive, hmap, hof]
          exact hstack
      apply h.advances_same ⟨hsteady, harranged⟩ hkeeps.sameMaps hmaps _ hareas harea hlink
      intro m
      rw [hmap]
  | write mem =>
      obtain ⟨r, hroot, htouches⟩ := hproper
      obtain ⟨hsteady, hmaps⟩ := h.steady.touched hroot htouches
      obtain rfl := Option.some.inj hcall
      have hmaps' : MapsPages b b (fun _ => False) [] k (k.withMachine (k.machine.withMem mem)) :=
        ⟨hmaps.root, hmaps.kept, False.elim, fun hq hc _ => hmaps.other hq hc And.right⟩
      exact h.advances_same ⟨hsteady, h.arranged.withMachine _⟩ ⟨rfl, rfl, fun _ => rfl⟩ hmaps'
        (fun _ => rfl) rfl rfl rfl
  | newMap src =>
      obtain ⟨⟨new, k₁⟩, hnew, rfl⟩ := Option.map_eq_some_iff.mp hcall
      obtain ⟨hheld, hkeeps, hold, hcovers⟩ := h.newMap hproper.1 hproper.2 hnew
      refine ⟨hheld, ?_, fun _ _ => hcovers⟩
      intro m r hlive hP4 _ _
      obtain ⟨hlive', hP4'⟩ := hold m hlive
      exact ⟨hlive', hP4'.trans hP4, fun f hf => hkeeps r f ⟨m, hlive, hP4⟩ hf⟩
  | map m start stop flags => exact h.map_step hproper hcall
  | setBrk m a =>
      obtain rfl := Option.some.inj hcall
      apply h.pointers
      · exact setBrk_P4 a
      · intro m'
        by_cases hm : m' = m
        · rw [hm, Function.update_self]
        · rw [Function.update_of_ne hm]
      · intro m' x hlive hstack
        apply h.arranged.stack hlive
        by_cases hm : m' = m
        · rw [hm, Function.update_self] at hstack
          rw [hm]
          exact hstack
        · rwa [Function.update_of_ne hm] at hstack
  | setStack m a =>
      obtain rfl := Option.some.inj hcall
      apply h.pointers
      · exact setStack_P4 a
      · intro m'
        by_cases hm : m' = m
        · rw [hm, Function.update_self]
        · rw [Function.update_of_ne hm]
      · intro m' x hlive hstack
        by_cases hm : m' = m
        · rw [hm, Function.update_self] at hstack
          rw [hm]
          exact hproper.2 x hstack
        · rw [Function.update_of_ne hm] at hstack
          exact h.arranged.stack hlive hstack
  | resize m a len => exact h.resize_step hproper hcall
  | fault m addr => exact h.fault_step hproper hcall
  | freeMap m => exact h.freeMap_step hproper hwhole hcall

end Calls

end Procmm
