import Mittos64.Proc.Covered

/-!
# Copying a map

`procmm_map` and `procmm_new_map`, for any of the maps of the kernel.  `Held` is what the calls keep,
whatever the order of the calls is; a map keeps its frames when none of its pages is mapped anew, and
the copy of a covered map is covered.
-/

open DList

namespace Procmm

open Mem

/-- Of the areas `xs`, one that meets an earlier one lies below none of the earlier ones. -/
def CopyClear (area : Nat → Area) (xs : List Nat) : Prop :=
  ∀ ys o zs, xs = ys ++ o :: zs → (∃ y ∈ ys, Meets area (area o).start (area o).stop y) →
    ∀ y ∈ ys, (area y).start ≤ (area o).stop

/-- The machine is sound for all live maps, and the areas of the maps are in order. -/
structure Held (b : Nat) (fs : List Nat) (k : Kernel) : Prop where
  steady : Steady b fs k
  arranged : Arranged k

/-- The frames of the address spaces `live` of the kernel `k` are frames of them in the kernel `k'`. -/
def KeepsFrames (live : Nat → Prop) (k k' : Kernel) : Prop :=
  ∀ q f, live q → UserFrame (words k.machine.mem) q f → UserFrame (words k'.machine.mem) q f

section Calls

variable {b m r : Nat} {fs : List Nat} {grow : Nat → Nat} {k k' : Kernel}

/-- The kernels have the same live maps, with the same P4s. -/
structure SameMaps (k k' : Kernel) : Prop where
  live : k'.live = k.live
  maps : k'.maps = k.maps
  P4 : ∀ m, (k'.map m).P4 = (k.map m).P4

theorem SameMaps.root (h : SameMaps k k') :
  k'.Root = k.Root
  := by
  funext q
  simp only [Kernel.Root, h.live, h.P4]

theorem Keeps.sameMaps {used : List Nat} (h : Keeps b used k k') :
  SameMaps k k'
  := ⟨h.live, h.maps, h.P4⟩

/-- A call of `procmm_map`. -/
theorem Held.map {a : Option Nat} {start stop flags : Nat} (h : Held b fs k)
    (hlive : k.live m = true) (hP4 : (k.map m).P4 = frame r)
    (huser : (⟨start, stop, flags, m⟩ : Area).User)
    (hclear : ∀ xs, Listed k m xs → Clear k.area xs start stop)
    (hcall : procmmMap (frame b) grow k m start stop flags = some (a, k')) :
  ∃ used fs', fs = used ++ fs' ∧ Held b fs' k' ∧ SameMaps k k'
    ∧ AddsArea m ⟨start, stop, flags, m⟩ k k'
    ∧ MapsPages b r (fun c => a ≠ none ∧ Stepped start stop c) used k k'
  := by
  obtain ⟨used, fs', hfs, hsteady, hkeeps, hmaps⟩ :=
    h.steady.procmmMap hlive hP4 huser.2 hcall
  obtain ⟨harranged, hadds⟩ := h.arranged.procmmMap hlive (h.steady.ready.aligned hlive).1 huser
    hclear hcall
  exact ⟨used, fs', hfs, ⟨hsteady, harranged⟩, hkeeps.sameMaps, hadds, hmaps⟩

/-! ### Copying a map -/

/-- The call changes no other map than `m`. -/
def LeavesOthers (m : Nat) (k k' : Kernel) : Prop :=
  ∀ m' q, k.live m' = true → (k.map m').P4 = frame q → m' ≠ m → Untouched m' q k k'

/-- The map `m`, with the P4 `r`, has areas like the areas `ds` of the map `src`, whose areas are as in
the kernel `k₀`. -/
structure Like (k₀ : Kernel) (src m r : Nat) (ds : List Nat) (k : Kernel) : Prop where
  live : k.live src = true ∧ k.live m = true
  P4 : (k.map m).P4 = frame r
  ne : src ≠ m
  source : ∀ x, k₀.Of src x → k.Of src x ∧ k.area x = k₀.area x ∧ k.link x = k₀.link x
  target : ∀ z, k.Of m z → ∃ y ∈ ds,
    (k.area z).start = (k₀.area y).start ∧ (k.area z).stop = (k₀.area y).stop
  pages : ∀ c, p4Offset c ≠ 511 → lookup (words k.machine.mem) r c ≠ 0 →
    ∃ y ∈ ds, (k₀.area y).Steps c

/-- The page steps through different areas of the list meet different pages. -/
def StepsApart (area : Nat → Area) (xs : List Nat) : Prop :=
  xs.Pairwise fun y o => ∀ c, (area y).Steps c → ¬ (area o).Steps c

/-- The page steps through the areas of the list of a covered map meet different pages. -/
theorem AreasMapped.stepsApart {Z : Nat → Prop} {xs : List Nat} (h : AreasMapped k m r Z)
    (hlist : Listed k m xs) :
  StepsApart k.area xs
  := by
  have hZ : ∀ x ∈ xs, Z x := fun x hx => h.joined.mem hlist.chain hx
  apply hlist.chain.nodup.imp_of_mem
  intro y o hy ho hne c hc hc'
  exact hne (h.apart y o (hZ y hy) (hZ o ho) c hc hc')

/-- The copy of the next area links nothing that it does not return. -/
theorem Like.clear {k₀ : Kernel} {src o : Nat} {ds xs : List Nat} (h : Like k₀ src m r ds k)
    (hclear : (∃ y ∈ ds, Meets k₀.area (k₀.area o).start (k₀.area o).stop y) →
      ∀ y ∈ ds, (k₀.area y).start ≤ (k₀.area o).stop) (hlist : Listed k m xs) :
  Clear k.area xs (k₀.area o).start (k₀.area o).stop
  := by
  have hof : ∀ x ∈ xs, k.Of m x := fun x hx => ⟨hlist.lt x hx, hlist.map x hx⟩
  rintro ys z zs rfl hmeets - x hx
  obtain ⟨y, hy, hstart, hstop⟩ := h.target z (hof z (by simp))
  rw [Meets, hstart, hstop] at hmeets
  obtain ⟨y', hy', hstart', -⟩ := h.target x (hof x (List.mem_append_left _ hx))
  rw [hstart']
  exact hclear ⟨y, hy, hmeets⟩ y' hy'

/-- The copy of the bytes of an area. -/
theorem Held.copied {start stop P4 : Nat} (h : Held b fs k) (hlive : k.live m = true)
    (hP4 : (k.map m).P4 = frame r) (hle : start ≤ stop) (hstop : stop ≤ userspaceTop) :
  ∃ mem, (vmmP4Memcpy (frame b) k.machine (k.map m).P4 start P4 start
      ((stop + 2 ^ 64 - start) % 2 ^ 64)).2 = k.machine.withMem mem
    ∧ Held b fs (k.withMachine (k.machine.withMem mem))
    ∧ MapsPages b r (fun _ => False) [] k (k.withMachine (k.machine.withMem mem))
  := by
  have hroot : k.Root r := ⟨m, hlive, hP4⟩
  have hrne : r ≠ 0 := by
    rintro rfl
    exact h.steady.ready.sound.nonzero hroot
  have hP4' : resolveP4 (frame b) (k.map m).P4 = frame r := by
    rw [hP4]
    apply resolveP4_frame hrne
  have hend : start + (stop + 2 ^ 64 - start) % 2 ^ 64 ≤ userspaceTop := by
    rw [sub_mod hle hstop, Nat.add_sub_cancel' hle]
    exact hstop
  obtain ⟨mem, hcopy, htouches⟩ : ∃ mem, (vmmP4Memcpy (frame b) k.machine (k.map m).P4 start P4 start
        ((stop + 2 ^ 64 - start) % 2 ^ 64)).2 = k.machine.withMem mem
      ∧ Touches (words k.machine.mem) r k.machine.mem mem :=
    h.steady.ready.sound.memcpyLoop_touches hroot hP4' hend
  obtain ⟨hsteady, hmaps⟩ := h.steady.touched hroot htouches
  exact ⟨mem, hcopy, ⟨hsteady, h.arranged.withMachine _⟩, hmaps⟩

/-- Mapping the next area of the source, and copying its bytes. -/
theorem Like.step {k₀ : Kernel} {src o flags : Nat} {a : Option Nat} {ds : List Nat} (P4 : Nat)
    (hlike : Like k₀ src m r ds k) (h : Held b fs k) (ho : k₀.Of src o)
    (hclear : (∃ y ∈ ds, Meets k₀.area (k₀.area o).start (k₀.area o).stop y) →
      ∀ y ∈ ds, (k₀.area y).start ≤ (k₀.area o).stop)
    (hcall : procmmMap (frame b) grow k m (k₀.area o).start (k₀.area o).stop flags = some (a, k')) :
  ∃ fs' s, (vmmP4Memcpy (frame b) k'.machine (k'.map m).P4 (k₀.area o).start P4 (k₀.area o).start
      (((k₀.area o).stop + 2 ^ 64 - (k₀.area o).start) % 2 ^ 64)).2 = s
    ∧ Held b fs' (k'.withMachine s) ∧ SameMaps k (k'.withMachine s)
    ∧ Like k₀ src m r (ds ++ [o]) (k'.withMachine s)
    ∧ KeepsFrames (fun q => k.Root q ∧ q ≠ r) k (k'.withMachine s)
    ∧ LeavesOthers m k (k'.withMachine s)
    ∧ ((∀ y ∈ ds, ∀ c, (k₀.area y).Steps c → ¬ (k₀.area o).Steps c) → (∃ Z, AreasMapped k m r Z) →
        ∃ Z, AreasMapped (k'.withMachine s) m r Z)
  := by
  obtain ⟨hsrc, hlive⟩ := hlike.live
  have hroot : k.Root r := ⟨m, hlive, hlike.P4⟩
  have huser : (k₀.area o).User := by
    rw [← (hlike.source o ho).2.1]
    exact h.arranged.user hsrc (hlike.source o ho).1
  have hlike' : ∀ xs, Listed k m xs → Clear k.area xs (k₀.area o).start (k₀.area o).stop :=
    fun xs hlist => hlike.clear hclear hlist
  obtain ⟨used, fs', -, hheld, hsame, hadds, hmaps⟩ :=
    h.map hlive hlike.P4 huser hlike' hcall
  have hlive' : k'.live m = true := by
    rw [hsame.live]
    exact hlive
  obtain ⟨mem, hcopy, hheld', hmaps'⟩ : ∃ mem, (vmmP4Memcpy (frame b) k'.machine (k'.map m).P4
        (k₀.area o).start P4 (k₀.area o).start
        (((k₀.area o).stop + 2 ^ 64 - (k₀.area o).start) % 2 ^ 64)).2 = k'.machine.withMem mem
      ∧ Held b fs' (k'.withMachine (k'.machine.withMem mem))
      ∧ MapsPages b r (fun _ => False) [] k' (k'.withMachine (k'.machine.withMem mem)) :=
    hheld.copied hlive' ((hsame.P4 m).trans hlike.P4) huser.1 huser.2
  have hroots : ∀ {q}, k.Root q → k'.Root q := by
    intro q hq
    rwa [hsame.root]
  have huntouched : ∀ m' q, k'.Root q → Untouched m' q k' (k'.withMachine (k'.machine.withMem mem)) :=
    fun _ _ hq => ⟨rfl, Nat.le_refl _, fun _ _ => rfl, fun _ _ => rfl,
      fun c hc hne => hmaps'.ne_zero hq hc hne⟩
  have hof := fun m' x => hadds.of_iff rfl m' x
  refine ⟨fs', k'.machine.withMem mem, hcopy, hheld', ⟨hsame.live, hsame.maps, hsame.P4⟩, ?_, ?_, ?_,
    ?_⟩
  · refine ⟨?_, (hsame.P4 m).trans hlike.P4, hlike.ne, ?_, ?_, ?_⟩
    · have hsame' : (k'.withMachine (k'.machine.withMem mem)).live = k.live := hsame.live
      rw [hsame']
      exact hlike.live
    · intro x hx
      obtain ⟨hx', harea, hlink⟩ := hlike.source x hx
      refine ⟨(hof src x).mpr (Or.inl hx'), ?_, ?_⟩
      · rw [Kernel.withMachine_area, hadds.area, addArea_old hx'.1, harea]
      · have hmap : (k.area x).map ≠ m := by
          rw [hx'.2]
          exact hlike.ne
        exact (hadds.link x hx'.1 hmap).trans hlink
    · intro z hz
      obtain hz | ⟨-, rfl⟩ := (hof m z).mp hz
      · obtain ⟨y, hy, hbounds⟩ := hlike.target z hz
        refine ⟨y, List.mem_append_left _ hy, ?_⟩
        rw [Kernel.withMachine_area, hadds.area, addArea_old hz.1]
        exact hbounds
      · refine ⟨o, List.mem_append_right _ List.mem_cons_self, ?_⟩
        rw [Kernel.withMachine_area, hadds.area, addArea_new]
        exact ⟨rfl, rfl⟩
    · intro c hc hne
      rw [hmaps'.other (hroots hroot) hc And.right] at hne
      by_cases hpage : a ≠ none ∧ Stepped (k₀.area o).start (k₀.area o).stop c
      · exact ⟨o, List.mem_append_right _ List.mem_cons_self, hpage.2⟩
      · rw [hmaps.other hroot hc (fun hand => hpage hand.2)] at hne
        obtain ⟨y, hy, hsteps⟩ := hlike.pages c hc hne
        exact ⟨y, List.mem_append_left _ hy, hsteps⟩
  · rintro q f ⟨hq, hne⟩ hf
    have hf' := hmaps.userFrame h.steady hheld.steady hq (fun heq => absurd heq hne) hf
    exact hmaps'.userFrame hheld.steady hheld'.steady (hroots hq) (fun _ _ => False.elim) hf'
  · intro m' q hm' hP4' hne
    have hq : k.Root q := ⟨m', hm', hP4'⟩
    exact (hadds.untouched hmaps hne hq).trans (huntouched m' q (hroots hq))
  · rintro hdisj ⟨Z, hZ⟩
    obtain ⟨xs, hlist⟩ := h.arranged.exists_listed hlive
    have hfresh : ∀ c, Stepped (k₀.area o).start (k₀.area o).stop c →
        lookup (words k.machine.mem) r c = 0 := by
      intro c hc
      by_contra hne
      obtain ⟨y, hy, hsteps⟩ := hlike.pages c (hc.user huser.2) hne
      exact hdisj y hy c hsteps hc
    obtain ⟨Z', hZ', -⟩ := hZ.procmmMap h.arranged hlive hroot hlist (hlike' xs hlist) hmaps
      (fun _ => hfresh) hcall
    exact ⟨Z', hZ'.untouched hheld.arranged hlive' (huntouched m r (hroots hroot))⟩

/-- The loop of `procmm_new_map` over the areas of the source. -/
theorem Like.copyAreas {k₀ : Kernel} {src fuel : Nat} {ds ys : List Nat}
    (hlike : Like k₀ src m r ds k) (h : Held b fs k) (hys : ∀ y ∈ ys, k₀.Of src y)
    (hchain : Chain k₀.link ys.head? ys) (hclear : CopyClear k₀.area (ds ++ ys))
    (hcall : Procmm.copyAreas (frame b) grow m src fuel k ys.head? = some k') :
  ∃ fs', Held b fs' k' ∧ SameMaps k k' ∧ KeepsFrames (fun q => k.Root q ∧ q ≠ r) k k'
    ∧ LeavesOthers m k k'
    ∧ (StepsApart k₀.area (ds ++ ys) → (∃ Z, AreasMapped k m r Z) → ∃ Z, AreasMapped k' m r Z)
  := by
  induction ys generalizing ds fuel fs k with
  | nil =>
      cases fuel with
      | zero => cases hcall
      | succ fuel =>
          obtain rfl := Option.some.inj hcall
          refine ⟨fs, h, ⟨rfl, rfl, fun _ => rfl⟩, fun _ _ _ hf => hf, ?_, fun _ hZ => hZ⟩
          exact fun _ _ _ _ _ => ⟨rfl, Nat.le_refl _, fun _ _ => rfl, fun _ _ => rfl, fun _ _ hc => hc⟩
  | cons o ys ih =>
      cases fuel with
      | zero => cases hcall
      | succ fuel =>
          have ho := hys o List.mem_cons_self
          obtain ⟨-, harea, hlink⟩ := hlike.source o ho
          rw [List.head?_cons, Procmm.copyAreas, harea] at hcall
          dsimp only at hcall
          split at hcall
          · cases hcall
          · rename_i a k₁ hmap
            obtain ⟨fs₁, s, hs, hheld, hsame, hlike₁, hkeeps, hothers, hcovers⟩ :=
              hlike.step (k₁.map src).P4 h ho (hclear ds o ys rfl) hmap
            have hnext : (k₁.link o).next = ys.head? := by
              have hlink₁ := (hlike₁.source o ho).2.2
              rw [Kernel.withMachine_link] at hlink₁
              rw [hlink₁]
              exact hchain.2.head
            rw [hs, hnext] at hcall
            have hchain' : Chain k₀.link ys.head? ys := by
              have hrest := hchain.2
              rwa [hrest.head] at hrest
            rw [List.append_cons] at hclear
            obtain ⟨fs', hheld', hsame', hkeeps', hothers', hcovers'⟩ := ih hlike₁ hheld
              (fun y hy => hys y (List.mem_cons_of_mem o hy)) hchain' hclear hcall
            refine ⟨fs', hheld', ?_, ?_, ?_, ?_⟩
            · exact ⟨hsame'.live.trans hsame.live, hsame'.maps.trans hsame.maps,
                fun m' => (hsame'.P4 m').trans (hsame.P4 m')⟩
            · intro q f hq hf
              apply hkeeps' q f _ (hkeeps q f hq hf)
              rw [hsame.root]
              exact hq
            · intro m' q hm' hP4' hne
              apply (hothers m' q hm' hP4' hne).trans
              apply hothers' m' q _ ((hsame.P4 m').trans hP4') hne
              rw [hsame.live]
              exact hm'
            · intro hapart hZ
              have hdisj : ∀ y ∈ ds, ∀ c, (k₀.area y).Steps c → ¬ (k₀.area o).Steps c :=
                fun y hy => (List.pairwise_append.mp hapart).2.2 y hy o List.mem_cons_self
              rw [List.append_cons] at hapart
              exact hcovers' hapart (hcovers hdisj hZ)

/-- `procmm_new_map`, before the areas of the source. -/
theorem Held.emptyMap (h : Held b fs k)
    (hzero : ∀ k₁ P4 s, Procmm.kcalloc (frame b) (k.demand grow) k = some k₁ →
      vmmNewP4 (frame b) k₁.machine = some (P4, s) → P4 ≠ 0)
    {src : Option Nat} {new : Nat} (hcall : procmmNewMap (frame b) grow k src = some (new, k')) :
  ∃ f fs' k₂, Held b fs' k₂ ∧ NewMap b k f k₂ ∧ KeepsFrames k.Root k k₂
    ∧ (src = none → k' = k₂)
    ∧ ∀ m ∈ src, ∃ fuel, copyAreas (frame b) grow k.maps m fuel k₂ (k₂.map m).areas.next = some k'
  := by
  cases hcalloc : Procmm.kcalloc (frame b) (k.demand grow) k with
  | none =>
      rw [procmmNewMap, hcalloc] at hcall
      cases hcall
  | some k₁ =>
      obtain ⟨used, fs₁, hfs, hsteady, hmaps, hkeeps⟩ := h.steady.kcalloc hcalloc
      have hready : Ready b k.Root fs₁ k₁ := by
        rw [← hkeeps.root]
        exact hsteady.ready
      have hstack := hready.sound.stack
      cases fs₁ with
      | nil =>
          rw [procmmNewMap, hcalloc] at hcall
          dsimp only at hcall
          rw [vmmNewP4, hstack.alloc_empty] at hcall
          cases hcall
      | cons f fs₂ =>
          have hf : f ≠ 0 := by
            rintro rfl
            obtain ⟨s, halloc, -⟩ := stacked_source.alloc hstack
            obtain ⟨s', hP4⟩ : ∃ s', vmmNewP4 (frame b) k₁.machine = some (frame 0, s') := by
              rw [vmmNewP4, halloc]
              exact ⟨_, rfl⟩
            exact hzero k₁ (frame 0) s' hcalloc hP4 rfl
          have hbefore : Ready b k.Root (used ++ f :: fs₂) k := hfs ▸ h.steady.ready
          obtain ⟨k₂, hnone, hsome, hready₂, hnew, hroot, hkept, -⟩ :=
            hbefore.newMap_of_kcalloc hcalloc hready hkeeps
              (fun hq hc => hmaps.other hq hc And.right) hf
          have hsteady₂ : Steady b fs₂ k₂ := by
            constructor
            · rw [hroot]
              exact hready₂
            · rw [hroot]
              rintro g ⟨q, c, rfl | hq, hc, hne, rfl⟩
              · exact absurd (hnew.empty hc) hne
              · rw [hnew.entries hq hc] at hne ⊢
                exact h.steady.low ⟨q, c, hq, hc, hne, rfl⟩
          refine ⟨f, fs₂, k₂, ⟨hsteady₂, hnew.arranged h.arranged⟩, hnew, ?_, ?_, ?_⟩
          · intro q g hq hg
            have hq' : k₂.Root q := by
              rw [hroot]
              exact Or.inr hq
            exact userFrame_mono h.steady.ready.sound.half.toKernelTables
              hsteady₂.ready.sound.half.toKernelTables hq hq' hkept
              (fun c hc _ => hnew.entries hq hc) hg
          · rintro rfl
            rw [hcall] at hnone
            exact (Prod.mk.inj (Option.some.inj hnone)).2
          · rintro m rfl
            have hcopy := hsome m
            rw [hcall] at hcopy
            cases hloop : copyAreas (frame b) grow k.maps m (2 * k₂.areas + 1) k₂
                (k₂.map m).areas.next with
            | none =>
                rw [hloop] at hcopy
                cases hcopy
            | some k₃ =>
                rw [hloop] at hcopy
                have heq := (Prod.mk.inj (Option.some.inj hcopy)).2
                rw [heq]
                exact ⟨_, hloop⟩

/-- The old maps are live, and have their P4s. -/
theorem NewMap.old {f : Nat} (hnew : NewMap b k f k') (h : Held b fs k) (hlive : k.live m = true) :
  m ≠ k.maps ∧ k'.live m = true ∧ (k'.map m).P4 = (k.map m).P4
  := by
  have hne : m ≠ k.maps := Nat.ne_of_lt (h.steady.ready.aligned hlive).1
  refine ⟨hne, ?_, ?_⟩
  · rw [hnew.live, Function.update_of_ne hne]
    exact hlive
  · rw [hnew.map_old m hne]

/-- `procmm_new_map` -/
theorem Held.newMap {src : Option Nat} {new : Nat} (h : Held b fs k)
    (hzero : ∀ k₁ P4 s, Procmm.kcalloc (frame b) (k.demand grow) k = some k₁ →
      vmmNewP4 (frame b) k₁.machine = some (P4, s) → P4 ≠ 0)
    (hsrc : ∀ m ∈ src, k.live m = true ∧ ∀ xs, Listed k m xs → CopyClear k.area xs)
    (hcall : procmmNewMap (frame b) grow k src = some (new, k')) :
  (∃ fs', Held b fs' k') ∧ KeepsFrames k.Root k k'
    ∧ (∀ m, k.live m = true → k'.live m = true ∧ (k'.map m).P4 = (k.map m).P4)
    ∧ (Covering k → Covering k')
  := by
  obtain ⟨f, fs₂, k₂, hheld, hnew, hkeeps, hnone, hsome⟩ := h.emptyMap hzero hcall
  cases src with
  | none =>
      obtain rfl := hnone rfl
      exact ⟨⟨fs₂, hheld⟩, hkeeps, fun m hlive => (hnew.old h hlive).2, hnew.covering h.arranged⟩
  | some src =>
      obtain ⟨fuel, hcopy⟩ := hsome src rfl
      obtain ⟨hlive, hclear⟩ := hsrc src rfl
      obtain ⟨hne, hlive₂, hP4src⟩ := hnew.old h hlive
      obtain ⟨xs, hlist⟩ := hheld.arranged.exists_listed hlive₂
      have hold : Listed k src xs := by
        obtain ⟨hchain, hback, hlt, hmap⟩ := hlist
        rw [hnew.link, hnew.map_old src hne] at hchain
        rw [hnew.link, hnew.area] at hback
        rw [hnew.areas] at hlt
        rw [hnew.area] at hmap
        exact ⟨hchain, hback, hlt, hmap⟩
      have hP4 : (k₂.map k.maps).P4 = frame f := by
        rw [hnew.map_new]
      have hlike : Like k₂ src k.maps f [] k₂ := by
        refine ⟨⟨hlive₂, ?_⟩, hP4, hne, fun x hx => ⟨hx, rfl, rfl⟩, ?_, ?_⟩
        · rw [hnew.live, Function.update_self]
        · rintro z ⟨hlt, hmap⟩
          rw [hnew.areas] at hlt
          rw [hnew.area] at hmap
          have hlt' := h.arranged.maps z hlt
          rw [hmap] at hlt'
          exact absurd hlt' (Nat.lt_irrefl _)
        · exact fun c hc hmapped => absurd (hnew.empty hc) hmapped
      have hclear₂ : CopyClear k₂.area ([] ++ xs) := by
        rw [hnew.area]
        exact hclear xs hold
      have hchain : Chain k₂.link xs.head? xs := by
        have hwalk := hlist.chain
        rwa [hwalk.head] at hwalk
      rw [hlist.chain.head] at hcopy
      obtain ⟨fs', hheld', hsame, hkeeps', hothers, hcovers⟩ := hlike.copyAreas hheld
        (fun y hy => ⟨hlist.lt y hy, hlist.map y hy⟩) hchain hclear₂ hcopy
      refine ⟨⟨fs', hheld'⟩, ?_, ?_, ?_⟩
      · intro q g hq hg
        apply hkeeps' q g ⟨?_, hnew.ne hq⟩ (hkeeps q g hq hg)
        obtain ⟨m, hm, hmP4⟩ := hq
        obtain ⟨-, hm', hmP4'⟩ := hnew.old h hm
        exact ⟨m, hm', hmP4'.trans hmP4⟩
      · intro m hm
        obtain ⟨-, hm', hmP4⟩ := hnew.old h hm
        rw [hsame.live, hsame.P4]
        exact ⟨hm', hmP4⟩
      · intro hcovering
        have hcovering₂ := hnew.covering h.arranged hcovering
        obtain ⟨-, q, hq⟩ := h.steady.ready.aligned hlive
        obtain ⟨Y, hY⟩ := hcovering₂ src q hlive₂ (hP4src.trans hq)
        intro m r hm hmP4
        rw [hsame.live] at hm
        rw [hsame.P4] at hmP4
        by_cases hnewMap : m = k.maps
        · subst hnewMap
          have hr : frame r = frame f := hmP4.symm.trans hP4
          rw [frame_inj hr] at hmP4 ⊢
          apply hcovers _ (hcovering₂ k.maps f hm hP4)
          exact hY.stepsApart hlist
        · obtain ⟨Z, hZ⟩ := hcovering₂ m r hm hmP4
          exact ⟨Z, hZ.untouched hheld.arranged hm (hothers m r hm hmP4 hnewMap)⟩

end Calls

end Procmm
