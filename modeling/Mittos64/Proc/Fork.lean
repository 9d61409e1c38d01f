import Mittos64.Proc.Start

/-!
# Copying a map

`procmm_new_map` with a source goes through the areas of the source: it maps an area with the same
bounds in the new map, and copies its bytes.  `vmm_p4_memcpy` takes a page in the frame 0 for a
page that is not there, and stops; so the copy is complete when the frame 0 is neither in the
pages of the source nor among the frames that the call takes off the free stack.
-/

open DList

namespace Procmm

open Mem

/-- The bounds and the flags of an area. -/
def Area.shape (area : Area) : Nat × Nat × Nat :=
  (area.start, area.stop, area.flags)

/-- The address lies in the area. -/
def Area.Has (area : Area) (c : Nat) : Prop :=
  area.start ≤ c ∧ c < area.stop

/-- The page of the address meets the area, which starts at a page. -/
def Area.Meets (area : Area) (c : Nat) : Prop :=
  area.start ≤ c ∧ stripFlags c < area.stop

/-- The areas `xs` of a map with the P4 `r` lie below `USERSPACE_TOP`, start at a page, and have
all of their pages mapped. -/
structure Forkable (k : Kernel) (r : Nat) (xs : List Nat) : Prop where
  top : ∀ a ∈ xs, (k.area a).stop ≤ userspaceTop
  aligned : ∀ a ∈ xs, (k.area a).start % pageSize = 0
  mapped : ∀ a ∈ xs, ∀ c, (k.area a).Has c → lookup (words k.machine.mem) r c ≠ 0

/-- No page of the areas is in the frame 0. -/
def NoNull (k : Kernel) (r : Nat) (xs : List Nat) : Prop :=
  ∀ a ∈ xs, ∀ c, (k.area a).Has c → lookup (words k.machine.mem) r c / pageSize ≠ 0

/-- The pages of the areas. -/
def areaPages (area : Nat → Area) (xs : List Nat) : Nat :=
  (xs.map fun a => turns (area a).start (area a).stop).sum

/-! ### One area -/

/-- The map `m` with the P4 `r'` has areas `zs` like the areas `ds`, and the bytes of the areas `cs`;
these are among the areas `xs` that the map `src` with the P4 `r` has had since the kernel was
`k₀`. -/
structure Copying (k₀ : Kernel) (src m r r' : Nat) (xs ds cs zs : List Nat) (k : Kernel) :
    Prop where
  source : AreaList k src xs
  target : AreaList k m zs
  new : ∀ a ∈ xs, a ∉ zs
  area : ∀ a ∈ xs, k.area a = k₀.area a
  shapes : (zs.map fun a => (k.area a).shape) = ds.map fun a => (k₀.area a).shape
  live : k.live src = true ∧ k.live m = true
  P4 : (k.map src).P4 = frame r ∧ (k.map m).P4 = frame r'
  entries : ∀ c, p4Offset c ≠ 511 →
    lookup (words k.machine.mem) r c = lookup (words k₀.machine.mem) r c
  bytes : ∀ c, p4Offset c ≠ 511 → lookup (words k₀.machine.mem) r c ≠ 0 →
    byteAt k.machine r c = byteAt k₀.machine r c
  copied : ∀ a ∈ cs, ∀ c, (k₀.area a).Has c → byteAt k.machine r' c = byteAt k₀.machine r c
  pages : ∀ c, c < userspaceTop →
    (lookup (words k.machine.mem) r' c ≠ 0 ↔ ∃ a ∈ ds, (k₀.area a).Meets c)

section Area

variable {b : Nat} {own : Nat → Prop} {fs : List Nat} {grow : Nat → Nat} {k₀ k : Kernel}
  {src m r r' o : Nat} {xs ds ys zs : List Nat}

theorem Area.Has.meets {area : Area} {c : Nat} (h : area.Has c) :
  area.Meets c
  := ⟨h.1, Nat.lt_of_le_of_lt (Nat.div_mul_le_self c pageSize) h.2⟩

/-- An address of an area before the next one is not in a page of the next one. -/
theorem Copying.not_meets {ds' cs : List Nat} {a c : Nat} (h : Copying k₀ src m r r' xs ds' cs zs k)
    (hxs : xs = ds ++ o :: ys) (ha : a ∈ ds) (hc : (k₀.area a).Has c) :
  ¬ (k₀.area o).Meets c ∧ c < (k₀.area o).start
  := by
  have hmem : a ∈ xs ∧ o ∈ xs := by
    rw [hxs]
    exact ⟨List.mem_append_left _ ha, List.mem_append_right _ List.mem_cons_self⟩
  have hasc := h.source.asc.2
  rw [hxs] at hasc
  have hgap := (List.pairwise_append.mp hasc).2.2 a ha o List.mem_cons_self
  rw [h.area a hmem.1, h.area o hmem.2] at hgap
  have hlt : c < (k₀.area o).start := Nat.lt_trans hc.2 hgap
  exact ⟨fun hmeets => Nat.not_lt.mpr hmeets.1 hlt, hlt⟩

variable (h : Copying k₀ src m r r' xs ds ds zs k) (hxs : xs = ds ++ o :: ys)

include h hxs

/-- The copies lie below the next area. -/
theorem Copying.below :
  ∀ z ∈ zs, Below k.area (k.area o).start z
  := by
  subst hxs
  intro z hz
  have hshape : (k.area z).shape ∈ ds.map fun a => (k₀.area a).shape := by
    rw [← h.shapes]
    exact List.mem_map_of_mem hz
  obtain ⟨d, hd, heq⟩ := List.mem_map.mp hshape
  have hstop : (k₀.area d).stop = (k.area z).stop := (Prod.mk.inj (Prod.mk.inj heq).2).1
  have hgap := (List.pairwise_append.mp h.source.asc.2).2.2 d hd o List.mem_cons_self
  rw [h.area d (List.mem_append_left _ hd)] at hgap
  rw [Below, ← hstop]
  exact hgap

/-- Mapping the next area. -/
theorem Copying.map (hready : Ready b own fs k) (hne : r ≠ r') (hsrc : Forkable k₀ r xs)
    (hroom : k.heapBrk + pageSize * k.demand grow ≤ 2 ^ 64)
    (hlen : 4 * (k.demand grow + turns (k₀.area o).start (k₀.area o).stop) ≤ fs.length) :
  ∃ k' used fs', fs = used ++ fs'
    ∧ used.length ≤ 4 * (k.demand grow + turns (k₀.area o).start (k₀.area o).stop)
    ∧ procmmMap (frame b) grow k m (k₀.area o).start (k₀.area o).stop (k₀.area o).flags
        = some (some k.areas, k')
    ∧ Ready b own fs' k' ∧ Copying k₀ src m r r' xs (ds ++ [o]) ds (zs ++ [k.areas]) k'
    ∧ (0 ∉ used → ∀ c, (k₀.area o).Has c → lookup (words k'.machine.mem) r' c / pageSize ≠ 0)
    ∧ k'.heapBrk = k.heapBrk + pageSize * k.demand grow ∧ k'.areas = k.areas + 1
    ∧ k'.maps = k.maps ∧ Keeps b used k k'
  := by
  have ho : o ∈ xs := by
    rw [hxs]
    exact List.mem_append_right _ List.mem_cons_self
  have hbelow := h.below hxs
  rw [h.area o ho] at hbelow
  have hle : (k₀.area o).start ≤ (k₀.area o).stop := by
    rw [← h.area o ho]
    exact h.source.asc.1 o ho
  have hstart : ∀ z ∈ zs, (k.area z).start ≤ (k.area z).stop := h.target.asc.1
  have hfits : Fits k.area zs (k₀.area o).start (k₀.area o).stop := by
    refine ⟨hle, Or.inr ?_⟩
    intro z hz
    have hz' := hbelow z hz
    have hz'' := hstart z hz
    rw [Below] at hz'
    omega
  have htop := hsrc.top o ho
  have hstepped : ∀ c, c < userspaceTop → (Stepped (k₀.area o).start (k₀.area o).stop c
      ↔ (k₀.area o).Meets c) := fun c hc => stepped_iff (hsrc.aligned o ho) htop hc
  obtain ⟨a, k', used, fs', rfl, hused, hcall, hready', hkeeps, hpaged, hheap, hnone⟩ | ⟨hlt, -⟩ :=
    hready.procmmMap h.target h.live.2 h.P4.2 hfits htop hroom (k₀.area o).flags
  · have hroots : k.Root r ∧ k.Root r' := ⟨⟨src, h.live.1, h.P4.1⟩, ⟨m, h.live.2, h.P4.2⟩⟩
    have hroots' : k'.Root r ∧ k'.Root r' := by
      rw [hkeeps.root]
      exact hroots
    obtain ⟨hlist, hold, hnew, hareas, hmap, hlink⟩ := h.target.procmmMap hfits hcall
    obtain ⟨rfl, harea⟩ : a = some k.areas
        ∧ k'.area k.areas = ⟨(k₀.area o).start, (k₀.area o).stop, (k₀.area o).flags, m⟩ := by
      cases a with
      | none =>
          obtain ⟨z, hz, hmeets⟩ := hnone.mp rfl
          have hz' := hbelow z hz
          exact absurd (Or.inl hz') hmeets
      | some a =>
          obtain ⟨rfl, harea⟩ := hnew a rfl
          exact ⟨rfl, harea⟩
    have hsrcm : src ≠ m := by
      rintro rfl
      exact hne (frame_inj (h.P4.1.symm.trans h.P4.2))
    have hentries : ∀ c, p4Offset c ≠ 511 → lookup (words k'.machine.mem) r c
        = lookup (words k.machine.mem) r c := by
      intro c hc
      apply hpaged.user hready hready' (Or.inr hroots.1) hc
      exact fun hand => hne hand.1
    refine ⟨k', used, fs', rfl, hused, hcall, hready', ?_, ?_, hheap, hareas, hkeeps.maps, hkeeps⟩
    · constructor
      · apply h.source.congr (by omega)
        · rw [hmap src hsrcm]
        · intro a ha
          exact hlink a (h.source.lt a ha) (h.new a ha)
        · intro a ha
          exact hold a (h.source.lt a ha)
      · exact hlist
      · intro a ha hmem
        obtain hmem | hmem := List.mem_append.mp hmem
        · exact h.new a ha hmem
        · rw [List.mem_singleton] at hmem
          have := h.source.lt a ha
          omega
      · intro a ha
        rw [hold a (h.source.lt a ha), h.area a ha]
      · rw [List.map_append, List.map_append, ← h.shapes, List.map_singleton, List.map_singleton,
          harea]
        congr 1
        apply List.map_congr_left
        intro z hz
        rw [hold z (h.target.lt z hz)]
      · rw [hkeeps.live]
        exact h.live
      · rw [hkeeps.P4, hkeeps.P4]
        exact h.P4
      · intro c hc
        rw [hentries c hc, h.entries c hc]
      · intro c hc hc'
        have hsame := hentries c hc
        have hmapped : lookup (words k'.machine.mem) r c ≠ 0 := by
          rw [hsame, h.entries c hc]
          exact hc'
        rw [hkeeps.byteAt_eq hready' hroots'.1 hc hmapped hsame, h.bytes c hc hc']
      · intro a ha c hc
        have haxs : a ∈ xs := by
          rw [hxs]
          exact List.mem_append_left _ ha
        have hctop : c < userspaceTop := Nat.lt_of_lt_of_le hc.2 (hsrc.top a haxs)
        have huser := (user_ne_kernel hctop).1
        have hsame : lookup (words k'.machine.mem) r' c = lookup (words k.machine.mem) r' c := by
          apply hpaged.user hready hready' (Or.inr hroots.2) huser
          rintro ⟨-, hstep⟩
          exact (h.not_meets hxs ha hc).1 ((hstepped c hctop).mp hstep)
        have hmapped : lookup (words k'.machine.mem) r' c ≠ 0 := by
          rw [hsame]
          exact (h.pages c hctop).mpr ⟨a, ha, hc.meets⟩
        rw [hkeeps.byteAt_eq hready' hroots'.2 huser hmapped hsame, h.copied a ha c hc]
      · intro c hc
        by_cases hstep : Stepped (k₀.area o).start (k₀.area o).stop c
        · obtain ⟨f, -, hf⟩ := hpaged.page (Option.some_ne_none _) hstep
          rw [hf]
          constructor
          · intro _
            exact ⟨o, List.mem_append_right _ List.mem_cons_self, (hstepped c hc).mp hstep⟩
          · intro _
            exact (userFlags_entry f).1
        · rw [hpaged.user hready hready' (Or.inr hroots.2) (user_ne_kernel hc).1
            (fun hand => hstep hand.2), h.pages c hc]
          constructor
          · rintro ⟨a, ha, hmeets⟩
            exact ⟨a, List.mem_append_left _ ha, hmeets⟩
          · rintro ⟨a, ha, hmeets⟩
            obtain ha | ha := List.mem_append.mp ha
            · exact ⟨a, ha, hmeets⟩
            · rw [List.mem_singleton.mp ha] at hmeets
              exact absurd ((hstepped c hc).mpr hmeets) hstep
    · intro hzero c hc
      have hctop : c < userspaceTop := Nat.lt_of_lt_of_le hc.2 htop
      obtain ⟨f, hf, heq⟩ := hpaged.page (Option.some_ne_none _) ((hstepped c hctop).mpr hc.meets)
      rw [heq, (userFlags_entry f).2]
      rintro rfl
      exact hzero hf
  · omega

omit h in
/-- Copying the bytes of the next area. -/
theorem Copying.copy (h : Copying k₀ src m r r' xs (ds ++ [o]) ds zs k) (hready : Ready b own fs k)
    (hown : own r') (hne : r ≠ r') (hsrc : Forkable k₀ r xs) (hnull : NoNull k₀ r xs)
    (hpages : ∀ c, (k₀.area o).Has c → lookup (words k.machine.mem) r' c / pageSize ≠ 0) :
  ∃ mem, (vmmP4Memcpy (frame b) k.machine (frame r') (k₀.area o).start (frame r)
        (k₀.area o).start ((k₀.area o).stop - (k₀.area o).start)).2 = k.machine.withMem mem
    ∧ Ready b own fs (k.withMachine (k.machine.withMem mem))
    ∧ Copying k₀ src m r r' xs (ds ++ [o]) (ds ++ [o]) zs
        (k.withMachine (k.machine.withMem mem))
  := by
  have ho : o ∈ xs := by
    rw [hxs]
    exact List.mem_append_right _ List.mem_cons_self
  have htop := hsrc.top o ho
  have hroots : k.Root r ∧ k.Root r' := ⟨⟨src, h.live.1, h.P4.1⟩, ⟨m, h.live.2, h.P4.2⟩⟩
  have hle : (k₀.area o).start ≤ (k₀.area o).stop := by
    rw [← h.area o ho]
    exact h.source.asc.1 o ho
  have hhas : ∀ i < (k₀.area o).stop - (k₀.area o).start,
      (k₀.area o).Has ((k₀.area o).start + i) := by
    intro i hi
    exact ⟨Nat.le_add_right _ _, by omega⟩
  have huser : ∀ {c}, (k₀.area o).Has c → p4Offset c ≠ 511 ∧ ¬ UnderHuge c :=
    fun hc => user_ne_kernel (Nat.lt_of_lt_of_le hc.2 htop)
  have hP4 : ∀ {q}, k.Root q → resolveP4 (frame b) (frame q) = frame q := by
    intro q hq
    apply resolveP4_frame
    rintro rfl
    exact hready.sound.nonzero hq
  have hframes : ∀ {c c'}, p4Offset c ≠ 511 → p4Offset c' ≠ 511 →
      lookup (words k.machine.mem) r' c ≠ 0 → lookup (words k.machine.mem) r c' ≠ 0 →
      lookup (words k.machine.mem) r' c / pageSize
        ≠ lookup (words k.machine.mem) r c' / pageSize := by
    intro c c' hc hc' hc0 hc0' heq
    exact hne (hready.sound.distinct hown hroots.1 hc hc' hc0 hc0' heq).1.symm
  have hdst : Backed (words k.machine.mem) r' (k₀.area o).start
      ((k₀.area o).stop - (k₀.area o).start) :=
    fun i hi => ⟨(huser (hhas i hi)).2, hpages _ (hhas i hi)⟩
  have hback : Backed (words k.machine.mem) r (k₀.area o).start
      ((k₀.area o).stop - (k₀.area o).start) := by
    intro i hi
    rw [h.entries _ (huser (hhas i hi)).1]
    exact ⟨(huser (hhas i hi)).2, hnull o ho _ (hhas i hi)⟩
  have hd : (k₀.area o).start + ((k₀.area o).stop - (k₀.area o).start) ≤ userspaceTop := by omega
  obtain ⟨mem, hloop, hwritten⟩ := @Sound.memcpyLoop b r' (frame r') own k.Root fs r (frame r)
    ((k₀.area o).stop - (k₀.area o).start) ((k₀.area o).stop - (k₀.area o).start)
    (k₀.area o).start (k₀.area o).start 0 k.machine hready.sound hown (Or.inr hroots.1)
    (hP4 hroots.2) (hP4 hroots.1) hdst hback
    (fun i j hi hj => hframes (huser (hhas i hi)).1 (huser (hhas j hj)).1
      (lookup_ne_zero (hdst i hi).2) (lookup_ne_zero (hback j hj).2))
    hd (by rw [userspaceTop] at hd; omega) (Nat.le_refl _)
  obtain ⟨hsound, -, hlookup⟩ := hready.sound.written (hready.sound.owned hown) hd hdst hwritten
  have hplace : ∀ {q} c, k.Root q → place (words mem) q c = place (words k.machine.mem) q c := by
    intro q c hq
    rw [place, place, hlookup q c (Or.inr hq)]
  refine ⟨mem, ?_, ?_, ?_⟩
  · rw [vmmP4Memcpy, hloop]
  · exact hready.of_sound rfl rfl (fun _ => rfl) hready.heap hsound
  · refine ⟨⟨h.source.rep, h.source.lt, h.source.asc⟩, ⟨h.target.rep, h.target.lt, h.target.asc⟩,
      h.new, h.area, h.shapes, h.live, h.P4, ?_, ?_, ?_, ?_⟩
    · intro c hc
      rw [Kernel.withMachine_machine, Machine.withMem_mem, hlookup r c (Or.inr hroots.1),
        h.entries c hc]
    · intro c hc hc'
      rw [← h.bytes c hc hc', byteAt, byteAt, Kernel.withMachine_machine, Machine.withMem_mem,
        hplace c hroots.1]
      apply hwritten.other
      intro i hi heq
      have hc0 : lookup (words k.machine.mem) r c ≠ 0 := by
        rw [h.entries c hc]
        exact hc'
      apply hframes (huser (hhas i hi)).1 hc (lookup_ne_zero (hdst i hi).2) hc0
      rw [← place_div, ← place_div, heq]
    · intro a ha c hc
      obtain ha | ha := List.mem_append.mp ha
      · have haxs : a ∈ xs := by
          rw [hxs]
          exact List.mem_append_left _ ha
        have hctop : c < userspaceTop := Nat.lt_of_lt_of_le hc.2 (hsrc.top a haxs)
        rw [← h.copied a ha c hc, byteAt, byteAt, Kernel.withMachine_machine,
          Machine.withMem_mem, hplace c hroots.2]
        apply hwritten.other
        intro i hi heq
        have hc0 : lookup (words k.machine.mem) r' c ≠ 0 :=
          (h.pages c hctop).mpr ⟨a, List.mem_append_left _ ha, hc.meets⟩
        obtain ⟨-, heq'⟩ := hready.sound.place_inj hown hroots.2 hctop
          (Nat.lt_of_lt_of_le (hhas i hi).2 htop) hc0 (lookup_ne_zero (hdst i hi).2) heq
        have hlt := (h.not_meets hxs ha hc).2
        omega
      · rw [List.mem_singleton.mp ha] at hc
        obtain ⟨i, rfl⟩ := Nat.exists_eq_add_of_le hc.1
        have hi : i < (k₀.area o).stop - (k₀.area o).start := by
          have := hc.2
          omega
        have hold := h.bytes _ (huser hc).1
          (by rw [← h.entries _ (huser hc).1]; exact lookup_ne_zero (hback i hi).2)
        rw [← hold, byteAt, byteAt, Kernel.withMachine_machine, Machine.withMem_mem,
          hplace _ hroots.2]
        exact hwritten.written i hi
    · intro c hc
      rw [Kernel.withMachine_machine, Machine.withMem_mem, hlookup r' c (Or.inr hroots.2)]
      exact h.pages c hc

end Area

/-! ### All areas -/

section Loop

variable {b : Nat} {own : Nat → Prop} {fs : List Nat} {grow : Nat → Nat} {k₀ k : Kernel}
  {src m r r' : Nat} {xs ds ys zs : List Nat}

theorem sub_mod {start stop : Nat} (hle : start ≤ stop) (hstop : stop ≤ userspaceTop) :
  (stop + 2 ^ 64 - start) % 2 ^ 64 = stop - start
  := by
  rw [userspaceTop] at hstop
  omega

/-- The loop of `procmm_new_map` -/
theorem Copying.copyAreas {fuel : Nat} (h : Copying k₀ src m r r' xs ds ds zs k)
    (hxs : xs = ds ++ ys) (hready : Ready b own fs k) (hown : own r') (hne : r ≠ r')
    (hsrc : Forkable k₀ r xs) (hnull : NoNull k₀ r xs)
    (hroom : k.heapBrk + pageSize * heapPages grow (k.areas + k.maps) ys.length ≤ 2 ^ 64)
    (hlen : 4 * (heapPages grow (k.areas + k.maps) ys.length + areaPages k₀.area ys) ≤ fs.length)
    (hzero : 0 ∉ fs.take
      (4 * (heapPages grow (k.areas + k.maps) ys.length + areaPages k₀.area ys)))
    (hfuel : ys.length < fuel) :
  ∃ k' zs' used fs', fs = used ++ fs'
    ∧ copyAreas (frame b) grow m src fuel k ys.head? = some k'
    ∧ Ready b own fs' k' ∧ Copying k₀ src m r r' xs xs xs zs' k'
  := by
  induction ys generalizing fuel fs k ds zs with
  | nil =>
      obtain ⟨fuel, rfl⟩ := Nat.exists_eq_succ_of_ne_zero (Nat.ne_zero_of_lt hfuel)
      rw [List.append_nil] at hxs
      subst hxs
      exact ⟨k, zs, [], fs, rfl, rfl, hready, h⟩
  | cons o ys ih =>
      obtain ⟨fuel, rfl⟩ := Nat.exists_eq_succ_of_ne_zero (Nat.ne_zero_of_lt hfuel)
      have ho : o ∈ xs := by
        rw [hxs]
        exact List.mem_append_right _ List.mem_cons_self
      have hdemand : k.demand grow = grow (k.areas + k.maps) := rfl
      have hheap : heapPages grow (k.areas + k.maps) (o :: ys).length
          = k.demand grow + heapPages grow (k.areas + k.maps + 1) ys.length := rfl
      have hpages : areaPages k₀.area (o :: ys)
          = turns (k₀.area o).start (k₀.area o).stop + areaPages k₀.area ys := by
        rw [areaPages, areaPages, List.map_cons, List.sum_cons]
      have hneed : 4 * (heapPages grow (k.areas + k.maps) (o :: ys).length
            + areaPages k₀.area (o :: ys))
          = 4 * (k.demand grow + turns (k₀.area o).start (k₀.area o).stop)
            + 4 * (heapPages grow (k.areas + k.maps + 1) ys.length + areaPages k₀.area ys) := by
        rw [hheap, hpages]
        omega
      rw [hneed] at hlen hzero
      rw [hheap, Nat.mul_add] at hroom
      have hroom₁ : k.heapBrk + pageSize * k.demand grow ≤ 2 ^ 64 := by omega
      obtain ⟨k₁, used, fs₁, rfl, hused, hcall, hready₁, h₁, hpaged, hbrk, hareas, hmaps, -⟩ :=
        h.map hxs hready hne hsrc hroom₁ (by omega)
      obtain ⟨hzero₁, hzero'⟩ := notMem_take hzero hused
      obtain ⟨mem, hcopy, hready₂, h₂⟩ :=
        Copying.copy hxs h₁ hready₁ hown hne hsrc hnull (hpaged hzero₁)
      have hxs' : xs = (ds ++ [o]) ++ ys := by
        rw [hxs, List.append_assoc]
        rfl
      rw [List.length_append] at hlen
      have hcount : k.areas + k.maps + 1 = k₁.areas + k₁.maps := by
        rw [hareas, hmaps]
        omega
      rw [hcount] at hlen hzero' hroom
      have hroom₂ : k₁.heapBrk + pageSize * heapPages grow (k₁.areas + k₁.maps) ys.length
          ≤ 2 ^ 64 := by
        rw [hbrk, Nat.add_assoc]
        exact hroom
      have hlen₂ : 4 * (heapPages grow (k₁.areas + k₁.maps) ys.length + areaPages k₀.area ys)
          ≤ fs₁.length := by omega
      have hfuel₂ : ys.length < fuel := Nat.lt_of_succ_lt_succ hfuel
      obtain ⟨k', zs', used', fs', rfl, hloop, hready', h'⟩ :=
        ih h₂ hxs' hready₂ hroom₂ hlen₂ hzero' hfuel₂
      refine ⟨k', zs', used ++ used', fs', by rw [List.append_assoc], ?_, hready', h'⟩
      have hnext : (k₁.link o).next = ys.head? := by
        have hrep := h₁.source.rep
        rw [hxs] at hrep
        rw [hrep.links]
      have hle : (k₀.area o).start ≤ (k₀.area o).stop := by
        rw [← h.area o ho]
        exact h.source.asc.1 o ho
      rw [List.head?_cons, Procmm.copyAreas]
      dsimp only
      rw [h.area o ho, hcall]
      dsimp only
      rw [h₁.P4.1, h₁.P4.2, sub_mod hle (hsrc.top o ho), hcopy, hnext, hloop]

end Loop

/-! ### The new map -/

/-- The map `m` of the kernel `k'`, with the P4 `r'` and the areas `zs`, is a copy of the map with
the P4 `r` and the areas `xs` of the kernel `k`. -/
structure Forked (k : Kernel) (r : Nat) (xs : List Nat) (k' : Kernel) (m r' : Nat)
    (zs : List Nat) : Prop where
  P4 : (k'.map m).P4 = frame r'
  areas : AreaList k' m zs
  shapes : (zs.map fun a => (k'.area a).shape) = xs.map fun a => (k.area a).shape
  bytes : ∀ a ∈ xs, ∀ c, (k.area a).Has c →
    lookup (words k'.machine.mem) r' c ≠ 0 ∧ byteAt k'.machine r' c = byteAt k.machine r c
  distinct : ∀ c c', p4Offset c ≠ 511 → p4Offset c' ≠ 511 →
    lookup (words k'.machine.mem) r' c ≠ 0 → lookup (words k'.machine.mem) r' c' ≠ 0 →
    lookup (words k'.machine.mem) r' c / pageSize = lookup (words k'.machine.mem) r' c' / pageSize →
    SamePage c c'
  disjoint : ∀ c, p4Offset c ≠ 511 → lookup (words k'.machine.mem) r' c ≠ 0 →
    ¬ UserFrame (words k'.machine.mem) r (lookup (words k'.machine.mem) r' c / pageSize)
  unmapped : ∀ c < userspaceTop, (∀ a ∈ xs, ¬ (k.area a).Meets c) →
    lookup (words k'.machine.mem) r' c = 0
  source : ∀ c, p4Offset c ≠ 511 →
    lookup (words k'.machine.mem) r c = lookup (words k.machine.mem) r c
      ∧ (lookup (words k.machine.mem) r c ≠ 0 → byteAt k'.machine r c = byteAt k.machine r c)

/-- The frames that a copy takes off the free stack, at most. -/
def copyFrames (grow : Nat → Nat) (k : Kernel) (xs : List Nat) : Nat :=
  4 * k.demand grow
    + (1 + 4 * (heapPages grow (k.areas + k.maps + 1) xs.length + areaPages k.area xs))

section NewMap

variable {b : Nat} {own : Nat → Prop} {fs : List Nat} {grow : Nat → Nat} {k : Kernel}
  {src r : Nat} {xs : List Nat}

/-- A page of an address space that shares no frame is in none of the frames of another one. -/
theorem Sound.not_userFrame {live : Nat → Prop} {s : Machine} {r' c : Nat}
    (h : Sound b own live fs s) (hown : own r') (hr : live r) (hne : r ≠ r')
    (hc : p4Offset c ≠ 511) (hmapped : lookup (words s.mem) r' c ≠ 0) :
  ¬ UserFrame (words s.mem) r (lookup (words s.mem) r' c / pageSize)
  := by
  have hnot := h.half.mapped ⟨r', c, h.owned hown, hc, hmapped, rfl⟩
  rintro (heq | ⟨e, he, huser, heq⟩)
  · rw [heq] at hnot
    exact hnot (roots_node (Or.inr hr))
  · by_cases hlen : e.1.length ≤ 2
    · have hwalk := h.half.toKernelTables.walk_edge hr he huser hlen
      rw [heq] at hnot
      apply hnot
      refine ⟨r, e.path, ⟨Or.inr hr, ?_⟩, hwalk⟩
      rw [Edge.path, List.length_append, List.length_singleton]
      omega
    · obtain ⟨a, ha, hane, hframe⟩ := page_of_edge he huser hlen
      exact hne (h.distinct hown hr hc ha hmapped hane (heq.trans hframe.symm)).1.symm

/-- A complete copy. -/
theorem Copying.forked {k' : Kernel} {m r' : Nat} {zs : List Nat}
    (h : Copying k src m r r' xs xs xs zs k') (hready : Ready b own fs k') (hown : own r')
    (hne : r ≠ r') (hsrc : Forkable k r xs) :
  Forked k r xs k' m r' zs
  := by
  have hroots : k'.Root r ∧ k'.Root r' := ⟨⟨src, h.live.1, h.P4.1⟩, ⟨m, h.live.2, h.P4.2⟩⟩
  refine ⟨h.P4.2, h.target, h.shapes, ?_, ?_, ?_, ?_, ?_⟩
  · intro a ha c hc
    have hctop : c < userspaceTop := Nat.lt_of_lt_of_le hc.2 (hsrc.top a ha)
    exact ⟨(h.pages c hctop).mpr ⟨a, ha, hc.meets⟩, h.copied a ha c hc⟩
  · intro c c' hc hc' hc0 hc0' heq
    exact (hready.sound.distinct hown hroots.2 hc hc' hc0 hc0' heq).2
  · intro c hc hmapped
    exact hready.sound.not_userFrame hown hroots.1 hne hc hmapped
  · intro c hc hnot
    by_contra hmapped
    obtain ⟨a, ha, hmeets⟩ := (h.pages c hc).mp hmapped
    exact hnot a ha hmeets
  · intro c hc
    exact ⟨h.entries c hc, h.bytes c hc⟩

/-- The new map before the first area has been copied. -/
theorem NewMap.copying {f : Nat} {k' : Kernel} (h : NewMap b k f k') (hlive : k.live src = true)
    (hsrc : src < k.maps) (hP4 : (k.map src).P4 = frame r) (hlist : AreaList k src xs) :
  Copying k src k.maps r f xs [] [] [] k'
  := by
  have hroot : k.Root r := ⟨src, hlive, hP4⟩
  have hne : src ≠ k.maps := Nat.ne_of_lt hsrc
  refine ⟨?_, ?_, fun _ _ => List.not_mem_nil, ?_, rfl, ?_, ?_, fun c hc => h.entries hroot hc,
    fun c hc => h.bytes hroot hc, nofun, ?_⟩
  · apply hlist.congr (Nat.le_of_eq h.areas.symm)
    · rw [h.map_old src hne]
    · intro a _
      rw [h.link]
    · intro a _
      rw [h.area]
  · refine ⟨?_, nofun, nofun, List.Pairwise.nil⟩
    rw [h.map_new]
    exact Represents.empty
  · intro a _
    rw [h.area]
  · rw [h.live, Function.update_of_ne hne, Function.update_self]
    exact ⟨hlive, rfl⟩
  · rw [h.map_old src hne, h.map_new]
    exact ⟨hP4, rfl⟩
  · intro c hc
    rw [h.empty (user_ne_kernel hc).1]
    simp

/-- `procmm_new_map` with a source goes through all areas of the source. -/
theorem Ready.fork (h : Ready b own fs k) (hlive : k.live src = true)
    (hP4 : (k.map src).P4 = frame r) (hlist : AreaList k src xs) (hsrc : Forkable k r xs)
    (hroom : k.heapBrk + pageSize * heapPages grow (k.areas + k.maps) (xs.length + 1) ≤ 2 ^ 64)
    (hframes : copyFrames grow k xs ≤ fs.length) (hnull : NoNull k r xs)
    (hzero : 0 ∉ fs.take (copyFrames grow k xs)) :
  ∃ k' r' zs fs', Procmm.procmmNewMap (frame b) grow k (some src) = some (k.maps, k')
    ∧ Ready b (withRoot r' own) fs' k' ∧ r ≠ r' ∧ Copying k src k.maps r r' xs xs xs zs k'
  := by
  have hheap : heapPages grow (k.areas + k.maps) (xs.length + 1)
      = k.demand grow + heapPages grow (k.areas + k.maps + 1) xs.length := rfl
  rw [hheap, Nat.mul_add] at hroom
  obtain ⟨k₁, f, used, fs₁, rfl, -, hframes₁, hzero₁, -, hcall, hready₁, hnew, hbrk⟩ :=
    h.procmmNewMap (by omega) hframes hzero
  have hstart := hnew.copying hlive (h.aligned hlive).1 hP4 hlist
  have hcount : k₁.areas + k₁.maps = k.areas + k.maps + 1 := by
    rw [hnew.areas, hnew.maps, Nat.add_assoc]
  rw [← hcount] at hframes₁ hzero₁ hroom
  have hroom₁ : k₁.heapBrk + pageSize * heapPages grow (k₁.areas + k₁.maps) xs.length ≤ 2 ^ 64 := by
    rw [hbrk, Nat.add_assoc]
    exact hroom
  have hne : r ≠ f := hnew.ne ⟨src, hlive, hP4⟩
  have hfuel : xs.length < 2 * k₁.areas + 1 := by
    have hle := hstart.source.length_le
    omega
  obtain ⟨k', zs, used', fs', rfl, hloop, hready', hcopying⟩ :=
    hstart.copyAreas rfl hready₁ (Or.inl rfl) hne hsrc hnull hroom₁ hframes₁ hzero₁ hfuel
  refine ⟨k', f, zs, fs', ?_, hready', hne, hcopying⟩
  rw [hcall, hstart.source.rep.first, hloop, Option.map_some]

end NewMap

/-! ### A process with one page -/

section OnePage

variable {data : Words} {f g : Nat} {fs fs' : List Nat} {k : Kernel}

theorem OnePage.forkable (h : OnePage data f g fs fs' k) :
  Forkable k f [0]
  := by
  refine ⟨?_, ?_, ?_⟩
  · intro a ha
    rw [List.mem_singleton.mp ha, h.area]
    decide
  · intro a ha
    rw [List.mem_singleton.mp ha, h.area]
    decide
  · intro a ha c hc
    rw [List.mem_singleton.mp ha, h.area] at hc
    rw [h.page c hc.1 hc.2]
    exact (userFlags_entry g).1

theorem OnePage.copyFrames (h : OnePage data f g fs fs' k) :
  copyFrames (fun _ => 0) k [0] = 5
  := by
  have hpages : areaPages k.area [0] = 1 := by
    rw [areaPages, List.map_singleton, h.area]
    decide
  rw [Procmm.copyFrames, hpages, h.areas, h.maps]
  rfl

theorem OnePage.room (h : OnePage data f g fs fs' k) :
  k.heapBrk + pageSize * heapPages (fun _ => 0) (k.areas + k.maps) ([0].length + 1) ≤ 2 ^ 64
  := by
  rw [h.heap, h.areas, h.maps]
  decide

end OnePage

end Procmm
