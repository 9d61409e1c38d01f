import Mittos64.Lib.Run
import Mittos64.Proc.Procmm

/-!
# The areas of a map

`procmm_map` goes through the areas of the map, compares the new area with each of them, and
puts it in its place: with `LIST_INSERT_BEFORE` in front of an area that lies above it, and
with `LIST_APPEND` when the walk is over and the new area has no next one.  The first of these
writes the wrong link, so that the list is kept only when the new area lies above all others.
-/

open DList

namespace Procmm

open Mem

/-! ### One call -/

/-- The areas, in this order, lie above each other with a gap between them. -/
def Ascending (area : Nat → Area) (xs : List Nat) : Prop :=
  (∀ a ∈ xs, (area a).start ≤ (area a).stop)
    ∧ xs.Pairwise fun a b => (area a).stop < (area b).start

/-- The area `o` lies below the new one, ends before it starts. -/
def Below (area : Nat → Area) (start o : Nat) : Prop :=
  (area o).stop < start

/-- The area `o` overlaps or touches the new one. -/
def Meets (area : Nat → Area) (start stop o : Nat) : Prop :=
  ¬ ((area o).stop < start ∨ (area o).start > stop)

section Place

variable {area : Nat → Area} {a : Nat} {head : Link Nat} {link : Nat → Link Nat}

/-- The walk goes on over an area below the new one. -/
theorem placeArea_below {fuel o : Nat} (hle : (area a).start ≤ (area a).stop)
    (hord : (area o).start ≤ (area o).stop) (ho : Below area (area a).start o) :
  placeArea area a (fuel + 1) head link (some o)
    = placeArea area a fuel head link (link o).next
  := by
  have hstart : ¬ (area o).start > (area a).stop := by
    rw [Below] at ho
    omega
  have hbelow : (area o).stop < (area a).start ∨ (area o).start > (area a).stop := Or.inl ho
  rw [placeArea, if_pos hbelow]
  simp only [if_neg hstart]

/-- The walk over areas that all lie below the new one changes nothing. -/
theorem placeArea_all_below {fuel : Nat} {p : Option Nat} {xs : List Nat}
    (hle : (area a).start ≤ (area a).stop) (hseg : Segment link p xs none)
    (hord : ∀ o ∈ xs, (area o).start ≤ (area o).stop)
    (hbelow : ∀ o ∈ xs, Below area (area a).start o) (hfuel : xs.length < fuel) :
  placeArea area a fuel head link xs.head? = some (true, head, link)
  := by
  induction xs generalizing fuel p with
  | nil =>
      obtain ⟨n, rfl⟩ := Nat.exists_eq_succ_of_ne_zero (Nat.ne_zero_of_lt hfuel)
      rfl
  | cons o xs ih =>
      obtain ⟨n, rfl⟩ := Nat.exists_eq_succ_of_ne_zero (Nat.ne_zero_of_lt hfuel)
      obtain ⟨hlink, hseg⟩ := segment_cons.mp hseg
      rw [List.forall_mem_cons] at hord hbelow
      rw [List.head?_cons, placeArea_below hle hord.1 hbelow.1, hlink, Option.or_none]
      apply ih hseg hord.2 hbelow.2
      rw [List.length_cons] at hfuel
      omega

/-- The walk stops at the first area that meets the new one, and changes nothing. -/
theorem placeArea_meets {fuel : Nat} {p : Option Nat} {xs ys : List Nat} {o : Nat}
    (hle : (area a).start ≤ (area a).stop) (hseg : Segment link p (xs ++ o :: ys) none)
    (hord : ∀ o ∈ xs, (area o).start ≤ (area o).stop)
    (hbelow : ∀ o ∈ xs, Below area (area a).start o)
    (hmeets : Meets area (area a).start (area a).stop o) (hfuel : xs.length < fuel) :
  placeArea area a fuel head link (xs ++ o :: ys).head? = some (false, head, link)
  := by
  induction xs generalizing fuel p with
  | nil =>
      obtain ⟨n, rfl⟩ := Nat.exists_eq_succ_of_ne_zero (Nat.ne_zero_of_lt hfuel)
      rw [List.nil_append, List.head?_cons, placeArea, if_neg hmeets]
  | cons x xs ih =>
      obtain ⟨n, rfl⟩ := Nat.exists_eq_succ_of_ne_zero (Nat.ne_zero_of_lt hfuel)
      rw [List.cons_append] at hseg ⊢
      obtain ⟨hlink, hseg⟩ := segment_cons.mp hseg
      rw [List.forall_mem_cons] at hord hbelow
      rw [List.head?_cons, placeArea_below hle hord.1 hbelow.1, hlink, Option.or_none]
      apply ih hseg hord.2 hbelow.2
      rw [List.length_cons] at hfuel
      omega

end Place

/-- The area that the call is for lies above all areas of the list, or meets one of them. -/
def Fits (area : Nat → Area) (xs : List Nat) (start stop : Nat) : Prop :=
  start ≤ stop ∧ ((∃ o ∈ xs, Meets area start stop o) ∨ ∀ o ∈ xs, (area o).start ≤ stop)

/-- The first area that meets the new one. -/
theorem exists_first {area : Nat → Area} {xs : List Nat} {start stop o : Nat} (ho : o ∈ xs)
    (hmeets : Meets area start stop o) :
  ∃ o ys zs, xs = ys ++ o :: zs ∧ Meets area start stop o
    ∧ ∀ y ∈ ys, ¬ Meets area start stop y
  := by
  induction xs with
  | nil => nomatch ho
  | cons x xs ih =>
      by_cases hx : Meets area start stop x
      · exact ⟨x, [], xs, rfl, hx, nofun⟩
      · obtain rfl | ho := List.mem_cons.mp ho
        · exact absurd hmeets hx
        · obtain ⟨o, ys, zs, rfl, hmeets, hfirst⟩ := ih ho
          refine ⟨o, x :: ys, zs, rfl, hmeets, ?_⟩
          rw [List.forall_mem_cons]
          exact ⟨hx, hfirst⟩

section Insert

variable {area : Nat → Area} {a fuel : Nat} {head : Link Nat} {link : Nat → Link Nat}
  {xs : List Nat}

/-- The new area is put at the end when it lies above all others. -/
theorem insertArea_above (hrep : Represents head link xs) (hxs : Ascending area xs) (ha : a ∉ xs)
    (hle : (area a).start ≤ (area a).stop) (hbelow : ∀ o ∈ xs, Below area (area a).start o)
    (hfuel : xs.length < fuel) :
  ∃ head' link', insertArea area a fuel head link = some (true, head', link')
    ∧ Represents head' link' (xs ++ [a])
    ∧ ∀ o, o ∉ xs → o ≠ a → link' o = link o
  := by
  have hrep' : Represents head (Function.update link a nil) xs := hrep.update_of_notMem ha nil
  have hplace : placeArea area a fuel head (Function.update link a nil) head.next
      = some (true, head, Function.update link a nil) := by
    rw [hrep.first]
    apply placeArea_all_below hle hrep'.linked hxs.1 hbelow hfuel
  refine ⟨_, _, ?_, listAppend_represents hrep' ha, ?_⟩
  · rw [insertArea]
    simp only [hplace]
    rw [if_pos]
    rw [Function.update_self]
    rfl
  · intro o ho hoa
    rw [listAppend_of_notMem hrep' ho hoa, Function.update_of_ne hoa]

/-- Nothing is put in the list when the new area meets one that is there. -/
theorem insertArea_meets (hrep : Represents head link xs) (hxs : Ascending area xs) (ha : a ∉ xs)
    (hle : (area a).start ≤ (area a).stop) {o : Nat} (ho : o ∈ xs)
    (hmeets : Meets area (area a).start (area a).stop o) (hfuel : xs.length < fuel) :
  insertArea area a fuel head link = some (false, head, Function.update link a nil)
  := by
  have hrep' : Represents head (Function.update link a nil) xs := hrep.update_of_notMem ha nil
  -- the walk stops at the first area that meets the new one: those before it lie below it
  obtain ⟨o, ys, zs, rfl, hmeets, hfirst⟩ := exists_first ho hmeets
  have hbelow : ∀ y ∈ ys, Below area (area a).start y := by
    intro y hy
    have hgap := (List.pairwise_append.mp hxs.2).2.2 y hy o List.mem_cons_self
    have hy' := hxs.1 y (List.mem_append_left _ hy)
    have hnot := hfirst y hy
    rw [Meets] at hmeets hnot
    rw [Below]
    omega
  have hplace : placeArea area a fuel head (Function.update link a nil) head.next
      = some (false, head, Function.update link a nil) := by
    rw [hrep.first]
    apply placeArea_meets hle hrep'.linked _ hbelow hmeets
    · rw [List.length_append] at hfuel
      omega
    · intro y hy
      exact hxs.1 y (List.mem_append_left _ hy)
  rw [insertArea]
  simp only [hplace]

end Insert

section Map

variable {bootP4 : Nat} {grow : Nat → Nat} {k k' : Kernel}

theorem addArea_old {area : Area} {a : Nat} (ha : a < k.areas) :
  (k.addArea area).area a = k.area a
  := by
  rw [Kernel.addArea_area, Function.update_of_ne (Nat.ne_of_lt ha)]

theorem addArea_new {area : Area} :
  (k.addArea area).area k.areas = area
  := by
  rw [Kernel.addArea_area, Function.update_self]

/-- `kcalloc` changes the machine and the end of the heap only. -/
theorem kcalloc_fields {n : Nat} (h : kcalloc bootP4 n k = some k') :
  k'.area = k.area ∧ k'.link = k.link ∧ k'.map = k.map ∧ k'.live = k.live
    ∧ k'.areas = k.areas ∧ k'.maps = k.maps
  := by
  rw [kcalloc] at h
  split at h
  · nomatch h
  · obtain rfl := Option.some.inj h
    exact ⟨rfl, rfl, rfl, rfl, rfl, rfl⟩

/-- What a call of `procmm_map` that returns has done. -/
theorem procmmMap_cases {m start stop flags : Nat} {r : Option Nat}
    (h : procmmMap bootP4 grow k m start stop flags = some (r, k')) :
  ∃ k₁ head link, kcalloc bootP4 (k.demand grow) k = some k₁
    ∧ ((insertArea (k₁.addArea ⟨start, stop, flags, m⟩).area k₁.areas (2 * (k₁.areas + 1) + 1)
          (k₁.map m).areas k₁.link = some (false, head, link)
        ∧ r = none ∧ k' = (k₁.addArea ⟨start, stop, flags, m⟩).withLists m head link)
      ∨ ∃ s, insertArea (k₁.addArea ⟨start, stop, flags, m⟩).area k₁.areas
          (2 * (k₁.areas + 1) + 1) (k₁.map m).areas k₁.link = some (true, head, link)
        ∧ mapPages bootP4 (turns start stop + 1) k₁.machine (k₁.map m).P4 start stop = some s
        ∧ r = some k₁.areas
        ∧ k' = ((k₁.addArea ⟨start, stop, flags, m⟩).withLists m head link).withMachine s)
  := by
  rw [procmmMap] at h
  split at h
  · nomatch h
  · rename_i k₁ hcalloc
    dsimp only at h
    split at h
    · nomatch h
    · rename_i head link hinsert
      obtain ⟨rfl, rfl⟩ := Prod.mk.inj (Option.some.inj h)
      exact ⟨k₁, head, link, hcalloc, Or.inl ⟨hinsert, rfl, rfl⟩⟩
    · rename_i head link hinsert
      split at h
      · nomatch h
      · rename_i s hpages
        obtain ⟨rfl, rfl⟩ := Prod.mk.inj (Option.some.inj h)
        have hP4 : (((k₁.addArea ⟨start, stop, flags, m⟩).withLists m head link).map m).P4
            = (k₁.map m).P4 := by
          rw [Kernel.withLists_map, Function.update_self, Kernel.addArea_map]
        rw [hP4] at hpages
        exact ⟨k₁, head, link, hcalloc, Or.inr ⟨s, hinsert, hpages, rfl, rfl⟩⟩

/-- A call of `procmm_map` for an area that meets another one. -/
theorem procmmMap_of_false {m start stop flags : Nat} {head : Link Nat} {link : Nat → Link Nat}
    (hcalloc : kcalloc bootP4 (k.demand grow) k = some k')
    (hinsert : insertArea (k'.addArea ⟨start, stop, flags, m⟩).area k'.areas
      (2 * (k'.areas + 1) + 1) (k'.map m).areas k'.link = some (false, head, link)) :
  procmmMap bootP4 grow k m start stop flags
    = some (none, (k'.addArea ⟨start, stop, flags, m⟩).withLists m head link)
  := by
  have hlink : (k'.addArea ⟨start, stop, flags, m⟩).link = k'.link := rfl
  rw [procmmMap, hcalloc]
  dsimp only
  rw [Kernel.addArea_areas, Kernel.addArea_map, hlink, hinsert]

/-- A call of `procmm_map` for an area that gets a place in the list. -/
theorem procmmMap_of_true {m start stop flags : Nat} {head : Link Nat} {link : Nat → Link Nat}
    (hcalloc : kcalloc bootP4 (k.demand grow) k = some k')
    (hinsert : insertArea (k'.addArea ⟨start, stop, flags, m⟩).area k'.areas
      (2 * (k'.areas + 1) + 1) (k'.map m).areas k'.link = some (true, head, link)) :
  procmmMap bootP4 grow k m start stop flags
    = (mapPages bootP4 (turns start stop + 1) k'.machine (k'.map m).P4 start stop).map fun s =>
        (some k'.areas,
          ((k'.addArea ⟨start, stop, flags, m⟩).withLists m head link).withMachine s)
  := by
  have hlink : (k'.addArea ⟨start, stop, flags, m⟩).link = k'.link := rfl
  have hP4 : (((k'.addArea ⟨start, stop, flags, m⟩).withLists m head link).map m).P4
      = (k'.map m).P4 := by
    rw [Kernel.withLists_map, Function.update_self, Kernel.addArea_map]
  rw [procmmMap, hcalloc]
  dsimp only
  rw [Kernel.addArea_areas, Kernel.addArea_map, hlink, hinsert]
  dsimp only
  rw [hP4, Kernel.withLists_machine, Kernel.addArea_machine]
  cases mapPages bootP4 (turns start stop + 1) k'.machine (k'.map m).P4 start stop with
  | none => rfl
  | some s => rfl

/-- The pointers of the map to its break and its stack. -/
def Map.pointers (map : Map) : Option Nat × Option Nat :=
  (map.brk, map.stack)

theorem withLists_pointers (m' : Nat) {m : Nat} {head : Link Nat} {link : Nat → Link Nat} :
  ((k.withLists m head link).map m').pointers = (k.map m').pointers
  := by
  rw [Kernel.withLists_map]
  by_cases hm : m' = m
  · rw [hm, Function.update_self]
    rfl
  · rw [Function.update_of_ne hm]

/-- `procmm_map` keeps the pointers of all maps. -/
theorem procmmMap_pointers {m start stop flags : Nat} {a : Option Nat}
    (h : procmmMap bootP4 grow k m start stop flags = some (a, k')) (m' : Nat) :
  (k'.map m').pointers = (k.map m').pointers ∧ k'.maps = k.maps
  := by
  obtain ⟨k₁, head, link, hcalloc, ⟨-, -, rfl⟩ | ⟨s, -, -, -, rfl⟩⟩ := procmmMap_cases h
  · obtain ⟨-, -, hmap, -, -, hmaps⟩ := kcalloc_fields hcalloc
    rw [withLists_pointers, Kernel.addArea_map, hmap]
    exact ⟨rfl, hmaps⟩
  · obtain ⟨-, -, hmap, -, -, hmaps⟩ := kcalloc_fields hcalloc
    rw [Kernel.withMachine_map, withLists_pointers, Kernel.addArea_map, hmap]
    exact ⟨rfl, hmaps⟩

/-- The walk over the areas does not move the end of the list. -/
theorem placeArea_prev {area : Nat → Area} {a fuel : Nat} {o : Option Nat}
    {head head' : Link Nat} {link link' : Nat → Link Nat} {ok : Bool}
    (h : placeArea area a fuel head link o = some (ok, head', link')) :
  head'.prev = head.prev
  := by
  induction fuel generalizing head link o with
  | zero => nomatch h
  | succ fuel ih =>
      cases o with
      | none =>
          obtain ⟨-, rfl, -⟩ := Option.some.inj h
          rfl
      | some o =>
          rw [placeArea] at h
          split_ifs at h with hapart hafter
          · rw [ih h]
            simp only [listInsertBefore]
            split_ifs
            · rfl
            · rfl
          · exact ih h
          · obtain ⟨-, rfl, -⟩ := Option.some.inj h
            rfl

/-- The new area is the last one of the list, or the list ends as before. -/
theorem insertArea_prev {area : Nat → Area} {a fuel : Nat} {head head' : Link Nat}
    {link link' : Nat → Link Nat} {ok : Bool}
    (h : insertArea area a fuel head link = some (ok, head', link')) :
  head'.prev = head.prev ∨ head'.prev = some a
  := by
  rw [insertArea] at h
  split at h
  · nomatch h
  · rename_i hplace
    obtain ⟨-, rfl, -⟩ := Option.some.inj h
    exact Or.inl (placeArea_prev hplace)
  · rename_i hplace
    split_ifs at h
    · right
      obtain ⟨-, rfl, -⟩ := Option.some.inj h
      dsimp only
      split_ifs
      · rfl
      · rfl
    · left
      obtain ⟨-, rfl, -⟩ := Option.some.inj h
      exact placeArea_prev hplace

/-- The areas after a call of `procmm_map`, whether the new one is put in the list or not. -/
structure Added (m : Nat) (area : Area) (a : Option Nat) (k k' : Kernel) : Prop where
  old : ∀ o < k.areas, k'.area o = k.area o
  new : k'.area k.areas = area
  areas : k'.areas = k.areas + 1
  result : ∀ x ∈ a, x = k.areas
  last : (k'.map m).areas.prev = (k.map m).areas.prev ∨ (k'.map m).areas.prev = some k.areas

theorem procmmMap_areas {m start stop flags : Nat} {a : Option Nat}
    (h : procmmMap bootP4 grow k m start stop flags = some (a, k')) :
  Added m ⟨start, stop, flags, m⟩ a k k'
  := by
  obtain ⟨k₁, head, link, hcalloc, hcase⟩ := procmmMap_cases h
  obtain ⟨harea, hlink, hmap, -, hareas, -⟩ := kcalloc_fields hcalloc
  have hold : ∀ o < k.areas, (k₁.addArea ⟨start, stop, flags, m⟩).area o = k.area o := by
    intro o ho
    rw [← hareas] at ho
    rw [addArea_old ho, harea]
  have hnew : (k₁.addArea ⟨start, stop, flags, m⟩).area k.areas = ⟨start, stop, flags, m⟩ := by
    rw [← hareas, addArea_new]
  have hcount : (k₁.addArea ⟨start, stop, flags, m⟩).areas = k.areas + 1 := by
    rw [Kernel.addArea_areas, hareas]
  have hhead : (((k₁.addArea ⟨start, stop, flags, m⟩).withLists m head link).map m).areas = head := by
    rw [Kernel.withLists_map, Function.update_self]
  obtain ⟨hinsert, rfl, rfl⟩ | ⟨s, hinsert, -, rfl, rfl⟩ := hcase
  · refine ⟨hold, hnew, hcount, nofun, ?_⟩
    rw [hhead, ← hareas, ← hmap]
    exact insertArea_prev hinsert
  · refine ⟨hold, hnew, hcount, ?_, ?_⟩
    · rintro x hx
      rw [← Option.some.inj hx, hareas]
    · rw [Kernel.withMachine_map, hhead, ← hareas, ← hmap]
      exact insertArea_prev hinsert

end Map

/-- The list of the map is the sequence `xs` of areas, which lie above each other. -/
structure AreaList (k : Kernel) (m : Nat) (xs : List Nat) : Prop where
  rep : Represents (k.map m).areas k.link xs
  lt : ∀ a ∈ xs, a < k.areas
  asc : Ascending k.area xs

theorem AreaList.length_le {k : Kernel} {m : Nat} {xs : List Nat} (h : AreaList k m xs) :
  xs.length ≤ k.areas
  := by
  have hsub : xs ⊆ List.range k.areas := fun a ha => List.mem_range.mpr (h.lt a ha)
  have hlen := (List.subperm_of_subset h.rep.nodup hsub).length_le
  rwa [List.length_range] at hlen

theorem Ascending.congr {area area' : Nat → Area} {xs : List Nat} (h : Ascending area xs)
    (heq : ∀ a ∈ xs, area' a = area a) :
  Ascending area' xs
  := by
  constructor
  · intro a ha
    rw [heq a ha]
    exact h.1 a ha
  · apply h.2.imp_of_mem
    intro a b ha hb hab
    rwa [heq a ha, heq b hb]

theorem Ascending.concat {area : Nat → Area} {xs : List Nat} {a : Nat} (h : Ascending area xs)
    (hle : (area a).start ≤ (area a).stop) (hbelow : ∀ o ∈ xs, Below area (area a).start o) :
  Ascending area (xs ++ [a])
  := by
  constructor
  · intro b hb
    obtain hb | hb := List.mem_append.mp hb
    · exact h.1 b hb
    · rwa [List.mem_singleton.mp hb]
  · apply List.pairwise_append.mpr
    refine ⟨h.2, List.pairwise_singleton _ _, ?_⟩
    intro o ho b hb
    rw [List.mem_singleton.mp hb]
    exact hbelow o ho

section Call

variable {k k' : Kernel} {m start stop flags : Nat} {xs : List Nat}

theorem AreaList.notMem (h : AreaList k m xs) :
  k.areas ∉ xs
  := fun hmem => Nat.lt_irrefl _ (h.lt _ hmem)

/-- The part of `procmm_map` that puts the new area in the list. -/
theorem AreaList.insertArea (h : AreaList k m xs) (hfits : Fits k.area xs start stop) :
  ((∃ o ∈ xs, Meets k.area start stop o)
      ∧ insertArea (k.addArea ⟨start, stop, flags, m⟩).area k.areas (2 * (k.areas + 1) + 1)
          (k.map m).areas k.link
        = some (false, (k.map m).areas, Function.update k.link k.areas nil))
    ∨ ((∀ o ∈ xs, Below k.area start o)
      ∧ ∃ head link, Procmm.insertArea (k.addArea ⟨start, stop, flags, m⟩).area k.areas
          (2 * (k.areas + 1) + 1) (k.map m).areas k.link = some (true, head, link)
        ∧ Represents head link (xs ++ [k.areas])
        ∧ ∀ o, o ∉ xs → o ≠ k.areas → link o = k.link o)
  := by
  have hnew := @addArea_new k ⟨start, stop, flags, m⟩
  have hasc : Ascending (k.addArea ⟨start, stop, flags, m⟩).area xs :=
    h.asc.congr fun a ha => addArea_old (h.lt a ha)
  have hle : ((k.addArea ⟨start, stop, flags, m⟩).area k.areas).start
      ≤ ((k.addArea ⟨start, stop, flags, m⟩).area k.areas).stop := by
    rw [hnew]
    exact hfits.1
  have hfuel : xs.length < 2 * (k.areas + 1) + 1 := by
    have := h.length_le
    omega
  by_cases hex : ∃ o ∈ xs, Meets k.area start stop o
  · left
    obtain ⟨o, ho, hmeet⟩ := hex
    refine ⟨⟨o, ho, hmeet⟩, insertArea_meets h.rep hasc h.notMem hle ho ?_ hfuel⟩
    rw [hnew, Meets, addArea_old (h.lt o ho)]
    exact hmeet
  · right
    have hbelow : ∀ o ∈ xs, Below k.area start o := by
      intro o ho
      have hnot : ¬ Meets k.area start stop o := fun hmeet => hex ⟨o, ho, hmeet⟩
      have hstart := hfits.2.resolve_left hex o ho
      rw [Meets] at hnot
      rw [Below]
      omega
    refine ⟨hbelow, insertArea_above h.rep hasc h.notMem hle ?_ hfuel⟩
    intro o ho
    rw [hnew, Below, addArea_old (h.lt o ho)]
    exact hbelow o ho

/-- A list of areas that are all there is kept. -/
theorem AreaList.congr (h : AreaList k m xs) (hareas : k.areas ≤ k'.areas)
    (hmap : (k'.map m).areas = (k.map m).areas) (hlink : ∀ a ∈ xs, k'.link a = k.link a)
    (harea : ∀ a ∈ xs, k'.area a = k.area a) :
  AreaList k' m xs
  := by
  constructor
  · rw [hmap]
    exact h.rep.congr hlink
  · intro a ha
    exact Nat.lt_of_lt_of_le (h.lt a ha) hareas
  · exact h.asc.congr harea

/-- The areas of the map after a call of `procmm_map` for an area above all others. -/
theorem AreaList.procmmMap {bootP4 : Nat} {grow : Nat → Nat} {r : Option Nat}
    (h : AreaList k m xs) (hfits : Fits k.area xs start stop)
    (hcall : procmmMap bootP4 grow k m start stop flags = some (r, k')) :
  AreaList k' m (xs ++ r.toList)
    ∧ (∀ a < k.areas, k'.area a = k.area a)
    ∧ (∀ a ∈ r, a = k.areas ∧ k'.area a = ⟨start, stop, flags, m⟩)
    ∧ k'.areas = k.areas + 1
    ∧ (∀ m' ≠ m, k'.map m' = k.map m')
    ∧ (∀ a < k.areas, a ∉ xs → k'.link a = k.link a)
  := by
  obtain ⟨k₁, head, link, hcalloc, hcase⟩ := procmmMap_cases hcall
  obtain ⟨harea, hlink, hmap, -, hareas, -⟩ := kcalloc_fields hcalloc
  have hlist : AreaList k₁ m xs := by
    apply h.congr (Nat.le_of_eq hareas.symm)
    · rw [hmap]
    · intro a _
      rw [hlink]
    · intro a _
      rw [harea]
  rw [← harea] at hfits
  have hold : ∀ a < k.areas, (k₁.addArea ⟨start, stop, flags, m⟩).area a = k.area a := by
    intro a ha
    rw [← hareas] at ha
    rw [addArea_old ha, harea]
  have hasc : Ascending (k₁.addArea ⟨start, stop, flags, m⟩).area xs :=
    h.asc.congr fun a ha => hold a (h.lt a ha)
  obtain ⟨-, hinsert⟩ | ⟨hbelow, head', link', hinsert, hrep, hother⟩ :=
    @AreaList.insertArea k₁ m start stop flags xs hlist hfits
  · rw [hinsert] at hcase
    obtain ⟨heq, rfl, rfl⟩ | ⟨s, heq, -⟩ := hcase
    · obtain ⟨rfl, rfl⟩ := Prod.mk.inj (Prod.mk.inj (Option.some.inj heq)).2
      refine ⟨?_, hold, nofun, ?_, ?_, ?_⟩
      · rw [Option.toList_none, List.append_nil]
        constructor
        · rw [Kernel.withLists_map, Function.update_self]
          exact hlist.rep.update_of_notMem hlist.notMem nil
        · intro a ha
          rw [Kernel.withLists_areas, Kernel.addArea_areas, hareas]
          exact Nat.lt_succ_of_lt (h.lt a ha)
        · exact hasc
      · rw [Kernel.withLists_areas, Kernel.addArea_areas, hareas]
      · intro m' hm
        rw [Kernel.withLists_map, Function.update_of_ne hm, Kernel.addArea_map, hmap]
      · intro a ha _
        rw [Kernel.withLists_link, hareas, Function.update_of_ne (Nat.ne_of_lt ha), hlink]
    · nomatch heq
  · rw [hinsert] at hcase
    obtain ⟨heq, -⟩ | ⟨s, heq, -, rfl, rfl⟩ := hcase
    · nomatch heq
    · obtain ⟨rfl, rfl⟩ := Prod.mk.inj (Prod.mk.inj (Option.some.inj heq)).2
      refine ⟨?_, hold, ?_, ?_, ?_, ?_⟩
      · rw [Option.toList_some]
        constructor
        · rw [Kernel.withMachine_map, Kernel.withLists_map, Function.update_self]
          exact hrep
        · intro a ha
          rw [Kernel.withMachine_areas, Kernel.withLists_areas, Kernel.addArea_areas]
          obtain ha | ha := List.mem_append.mp ha
          · exact Nat.lt_succ_of_lt (hlist.lt a ha)
          · rw [List.mem_singleton.mp ha]
            exact Nat.lt_succ_self _
        · apply hasc.concat
          · rw [addArea_new]
            exact hfits.1
          · intro o ho
            rw [addArea_new, Below, addArea_old (hlist.lt o ho)]
            exact hbelow o ho
      · intro a ha
        obtain rfl := Option.some.inj ha
        exact ⟨hareas, addArea_new⟩
      · rw [Kernel.withMachine_areas, Kernel.withLists_areas, Kernel.addArea_areas, hareas]
      · intro m' hm
        rw [Kernel.withMachine_map, Kernel.withLists_map, Function.update_of_ne hm,
          Kernel.addArea_map, hmap]
      · intro a ha hnot
        rw [Kernel.withMachine_link, Kernel.withLists_link,
          hother a hnot (by rw [hareas]; exact Nat.ne_of_lt ha), hlink]

end Call

/-! ### Any order of addresses -/

/-- The links go from the head to the nodes `zs` only, and every walk along the next nodes goes
down in the rank. -/
structure Ranked (head : Link Nat) (link : Nat → Link Nat) (zs : List Nat) (rank : Nat → Nat) :
    Prop where
  first : ∀ x ∈ head.next, x ∈ zs
  last : ∀ x ∈ head.prev, x ∈ zs
  prev : ∀ z ∈ zs, ∀ x ∈ (link z).prev, x ∈ zs
  next : ∀ z ∈ zs, ∀ x ∈ (link z).next, x ∈ zs ∧ rank x < rank z
  bound : ∀ z ∈ zs, rank z < zs.length

/-- What the walk over the areas has done before it goes on to the nodes of rank less than `n`. -/
structure Walked (head : Link Nat) (link : Nat → Link Nat) (zs : List Nat) (rank : Nat → Nat)
    (a n : Nat) (head' : Link Nat) (link' : Nat → Link Nat) : Prop where
  first : ∀ x ∈ head'.next, x ∈ zs ∨ x = a
  last : head'.prev = head.prev
  next : ∀ z ∈ zs, (link' z).next = (link z).next
  prev : ∀ z ∈ zs, ∀ x ∈ (link' z).prev, x ∈ zs ∨ x = a
  ahead : ∀ z ∈ zs, rank z < n → link' z = link z
  new : (link' a).prev = none ∧ ∀ x ∈ (link' a).next, x ∈ zs
  other : ∀ y, y ∉ zs → y ≠ a → link' y = link y

section Ranked

variable {area : Nat → Area} {a : Nat} {head head' : Link Nat} {link link' : Nat → Link Nat}
  {zs : List Nat} {rank : Nat → Nat}

/-- `LIST_INSERT_BEFORE` for a new node without a previous one. -/
theorem listInsertBefore_new {o : Nat} (hnew : (link a).prev = none) (hne : o ≠ a) :
  listInsertBefore head link a o
    = (if head.next = some o then { head with next := some a } else head,
        Function.update (Function.update link a ⟨none, (link o).prev⟩) o ⟨some a, (link o).next⟩)
  := by
  have hprev : setNext (setNext link (some a) (some o)) (some a)
        (setNext link (some a) (some o) o).prev
      = Function.update link a ⟨none, (link o).prev⟩ := by
    funext y
    by_cases hy : y = a
    · rw [hy, setNext_self, setNext_self, setNext_of_ne _ _ (by simpa using hne.symm), hnew,
        Function.update_self]
    · have hya : some a ≠ some y := by simpa using Ne.symm hy
      rw [setNext_of_ne _ _ hya, setNext_of_ne _ _ hya, Function.update_of_ne hy]
  have hlink : setPrev (Function.update link a ⟨none, (link o).prev⟩) (some o) (some a)
      = Function.update (Function.update link a ⟨none, (link o).prev⟩) o
          ⟨some a, (link o).next⟩ := by
    rw [setPrev, Function.update_of_ne hne]
  rw [listInsertBefore]
  rw [hprev, hlink, Function.update_of_ne hne.symm, Function.update_self, setNext_none]

/-- The walk passes a node. -/
theorem Walked.pass {n o : Nat} (h : Walked head link zs rank a n head' link')
    (hrank : Ranked head link zs rank) (ha : a ∉ zs) (ho : o ∈ zs) (hon : rank o < n) (c : Prop)
    [Decidable c] :
  Walked head link zs rank a (rank o)
    (if c then listInsertBefore head' link' a o else (head', link')).1
    (if c then listInsertBefore head' link' a o else (head', link')).2
  := by
  have hne : ∀ {z}, z ∈ zs → z ≠ a := by
    rintro z hz rfl
    exact ha hz
  split_ifs with hc
  · rw [listInsertBefore_new h.new.1 (hne ho)]
    have hlo : link' o = link o := h.ahead o ho hon
    refine ⟨?_, ?_, ?_, ?_, ?_, ?_, ?_⟩
    · intro x hx
      dsimp only at hx
      split_ifs at hx
      · right
        exact (Option.some.inj hx).symm
      · exact h.first x hx
    · dsimp only
      split_ifs
      · exact h.last
      · exact h.last
    · intro z hz
      dsimp only
      by_cases hzo : z = o
      · rw [hzo, Function.update_self, hlo]
      · rw [Function.update_of_ne hzo, Function.update_of_ne (hne hz),
          h.next z hz]
    · intro z hz x hx
      dsimp only at hx
      by_cases hzo : z = o
      · rw [hzo, Function.update_self] at hx
        right
        exact (Option.some.inj hx).symm
      · rw [Function.update_of_ne hzo, Function.update_of_ne (hne hz)] at hx
        exact h.prev z hz x hx
    · intro z hz hlt
      have hzo : z ≠ o := by
        rintro rfl
        exact Nat.lt_irrefl _ hlt
      dsimp only
      rw [Function.update_of_ne hzo, Function.update_of_ne (hne hz)]
      exact h.ahead z hz (Nat.lt_trans hlt hon)
    · dsimp only
      rw [Function.update_of_ne (hne ho).symm, Function.update_self]
      refine ⟨rfl, ?_⟩
      intro x hx
      dsimp only at hx
      rw [hlo] at hx
      exact hrank.prev o ho x hx
    · intro y hy hya
      have hyo : y ≠ o := by
        rintro rfl
        exact hy ho
      dsimp only
      rw [Function.update_of_ne hyo, Function.update_of_ne hya]
      exact h.other y hy hya
  · refine ⟨h.first, h.last, h.next, h.prev, ?_, h.new, h.other⟩
    intro z hz hlt
    exact h.ahead z hz (Nat.lt_trans hlt hon)

/-- The walk over areas that lie apart from the new one comes to its end. -/
theorem Walked.placeArea {n fuel : Nat} {o : Option Nat}
    (h : Walked head link zs rank a n head' link') (hrank : Ranked head link zs rank)
    (ha : a ∉ zs)
    (hapart : ∀ o ∈ zs, (area o).stop < (area a).start ∨ (area o).start > (area a).stop)
    (ho : ∀ x ∈ o, x ∈ zs ∧ rank x < n) (hfuel : n < fuel) :
  ∃ head'' link'', placeArea area a fuel head' link' o = some (true, head'', link'')
    ∧ Walked head link zs rank a 0 head'' link''
  := by
  induction fuel generalizing n head' link' o with
  | zero => exact absurd hfuel (Nat.not_lt_zero n)
  | succ fuel ih =>
      cases o with
      | none =>
          refine ⟨head', link', rfl, h.first, h.last, h.next, h.prev, ?_, h.new, h.other⟩
          intro z _ hlt
          exact absurd hlt (Nat.not_lt_zero _)
      | some o =>
          obtain ⟨hmem, hlt⟩ := ho o rfl
          have hpass := h.pass hrank ha hmem hlt ((area o).start > (area a).stop)
          obtain ⟨l, hl⟩ : ∃ l, l = if (area o).start > (area a).stop then
              listInsertBefore head' link' a o else (head', link') := ⟨_, rfl⟩
          rw [← hl] at hpass
          have hnext : ∀ x ∈ (l.2 o).next, x ∈ zs ∧ rank x < rank o := by
            rw [hpass.next o hmem]
            exact hrank.next o hmem
          obtain ⟨head'', link'', hplace, hwalked⟩ :=
            ih hpass hnext (Nat.lt_of_lt_of_le hlt (Nat.le_of_lt_succ hfuel))
          refine ⟨head'', link'', ?_, hwalked⟩
          rw [Procmm.placeArea, if_pos (hapart o hmem), ← hl]
          exact hplace

theorem mem_snoc_of_or {zs : List Nat} {a x : Nat} (h : x ∈ zs ∨ x = a) :
  x ∈ zs ++ [a]
  := by
  rw [List.mem_append, List.mem_singleton]
  exact h

/-- The walk starts with the new node apart from the others. -/
theorem Ranked.walked (h : Ranked head link zs rank) (ha : a ∉ zs) :
  Walked head link zs rank a zs.length head (Function.update link a nil)
  := by
  have hne : ∀ {z}, z ∈ zs → z ≠ a := by
    rintro z hz rfl
    exact ha hz
  refine ⟨fun x hx => Or.inl (h.first x hx), rfl, ?_, ?_, ?_, ?_, ?_⟩
  · intro z hz
    rw [Function.update_of_ne (hne hz)]
  · intro z hz x hx
    rw [Function.update_of_ne (hne hz)] at hx
    exact Or.inl (h.prev z hz x hx)
  · intro z hz _
    rw [Function.update_of_ne (hne hz)]
  · rw [Function.update_self]
    refine ⟨rfl, ?_⟩
    intro x hx
    cases hx
  · intro y _ hya
    rw [Function.update_of_ne hya]

/-- After the walk, the new node points to old ones: it gets the highest rank. -/
theorem Walked.ranked (hw : Walked head link zs rank a 0 head' link')
    (h : Ranked head link zs rank) (ha : a ∉ zs) :
  Ranked head' link' (zs ++ [a]) fun z => if z = a then zs.length else rank z
  := by
  have hne : ∀ {z}, z ∈ zs → z ≠ a := by
    rintro z hz rfl
    exact ha hz
  have hold : ∀ {x}, x ∈ zs → x ∈ zs ++ [a] := fun hx => List.mem_append_left _ hx
  refine ⟨?_, ?_, ?_, ?_, ?_⟩
  · exact fun x hx => mem_snoc_of_or (hw.first x hx)
  · rw [hw.last]
    exact fun x hx => hold (h.last x hx)
  · intro z hz x hx
    obtain hz | hz := List.mem_append.mp hz
    · exact mem_snoc_of_or (hw.prev z hz x hx)
    · rw [List.mem_singleton.mp hz, hw.new.1] at hx
      cases hx
  · intro z hz x hx
    obtain hz | hz := List.mem_append.mp hz
    · rw [hw.next z hz] at hx
      obtain ⟨hx', hlt⟩ := h.next z hz x hx
      rw [if_neg (hne hx'), if_neg (hne hz)]
      exact ⟨hold hx', hlt⟩
    · rw [List.mem_singleton.mp hz] at hx ⊢
      have hx' := hw.new.2 x hx
      rw [if_neg (hne hx'), if_pos rfl]
      exact ⟨hold hx', h.bound x hx'⟩
  · intro z hz
    rw [List.length_append, List.length_singleton]
    split_ifs with hza
    · exact Nat.lt_succ_self _
    · obtain hz | hz := List.mem_append.mp hz
      · exact Nat.lt_succ_of_lt (h.bound z hz)
      · exact absurd (List.mem_singleton.mp hz) hza

/-- After the walk and `LIST_APPEND`, the new node is the end of every walk: it gets the rank 0. -/
theorem Walked.ranked_append (hw : Walked head link zs rank a 0 head' link')
    (h : Ranked head link zs rank) (ha : a ∉ zs) :
  Ranked (listAppend head' link' a).1 (listAppend head' link' a).2 (zs ++ [a])
      (fun z => if z = a then 0 else rank z + 1)
    ∧ ∀ y, y ∉ zs → y ≠ a → (listAppend head' link' a).2 y = link y
  := by
  have hne : ∀ {z}, z ∈ zs → z ≠ a := by
    rintro z hz rfl
    exact ha hz
  have hself : a ∈ zs ++ [a] := List.mem_append_right _ List.mem_cons_self
  have hold : ∀ {x}, x ∈ zs → x ∈ zs ++ [a] := fun hx => List.mem_append_left _ hx
  have hlast : ∀ x ∈ head'.prev, x ∈ zs := by
    rw [hw.last]
    exact h.last
  obtain ⟨hprev, hnext⟩ := listAppend_ends head' link' a
  -- the links of the old nodes, but for the last one, are as the walk has left them
  have hlinks : ∀ z ∈ zs, ((listAppend head' link' a).2 z).prev = (link' z).prev
      ∧ (((listAppend head' link' a).2 z).next = (link' z).next
        ∨ ((listAppend head' link' a).2 z).next = some a) := by
    intro z hz
    rw [listAppend_links]
    by_cases hzl : head'.prev = some z
    · rw [hzl, setNext_self, Function.update_of_ne (hne hz)]
      exact ⟨rfl, Or.inr rfl⟩
    · rw [setNext_of_ne _ _ hzl, Function.update_of_ne (hne hz)]
      exact ⟨rfl, Or.inl rfl⟩
  have hnew : (listAppend head' link' a).2 a = ⟨head'.prev, none⟩ := by
    rw [listAppend_links, setNext_of_ne, Function.update_self]
    intro heq
    exact ha (hlast a heq)
  refine ⟨⟨?_, ?_, ?_, ?_, ?_⟩, ?_⟩
  · intro x hx
    obtain heq | heq := hnext
    · rw [heq] at hx
      exact mem_snoc_of_or (Or.inr (Option.some.inj hx).symm)
    · rw [heq] at hx
      exact mem_snoc_of_or (hw.first x hx)
  · rw [hprev]
    intro x hx
    rw [← Option.some.inj hx]
    exact hself
  · intro z hz x hx
    obtain hz | hz := List.mem_append.mp hz
    · rw [(hlinks z hz).1] at hx
      exact mem_snoc_of_or (hw.prev z hz x hx)
    · rw [List.mem_singleton.mp hz, hnew] at hx
      exact hold (hlast x hx)
  · intro z hz x hx
    obtain hz | hz := List.mem_append.mp hz
    · rw [if_neg (hne hz)]
      obtain hsame | hsame := (hlinks z hz).2
      · rw [hsame, hw.next z hz] at hx
        obtain ⟨hx', hlt⟩ := h.next z hz x hx
        rw [if_neg (hne hx')]
        exact ⟨hold hx', Nat.succ_lt_succ hlt⟩
      · rw [hsame] at hx
        rw [← Option.some.inj hx, if_pos rfl]
        exact ⟨hself, Nat.succ_pos _⟩
    · rw [List.mem_singleton.mp hz, hnew] at hx
      cases hx
  · intro z hz
    rw [List.length_append, List.length_singleton]
    split_ifs with hza
    · exact Nat.succ_pos _
    · obtain hz | hz := List.mem_append.mp hz
      · exact Nat.succ_lt_succ (h.bound z hz)
      · exact absurd (List.mem_singleton.mp hz) hza
  · intro y hy hya
    rw [listAppend_links, setNext_of_ne, Function.update_of_ne hya, hw.other y hy hya]
    intro heq
    exact hy (hlast y heq)

/-- The new area is linked to the others, when it lies apart from them. -/
theorem Ranked.insertArea {fuel : Nat} (h : Ranked head link zs rank) (ha : a ∉ zs)
    (hapart : ∀ o ∈ zs, (area o).stop < (area a).start ∨ (area o).start > (area a).stop)
    (hfuel : zs.length < fuel) :
  ∃ head' link' rank', insertArea area a fuel head link = some (true, head', link')
    ∧ Ranked head' link' (zs ++ [a]) rank'
    ∧ ∀ y, y ∉ zs → y ≠ a → link' y = link y
  := by
  obtain ⟨head', link', hplace, hw⟩ := (h.walked ha).placeArea h ha hapart
    (fun x hx => ⟨h.first x hx, h.bound x (h.first x hx)⟩) hfuel
  cases hnext : (link' a).next with
  | some x =>
      refine ⟨head', link', _, ?_, hw.ranked h ha, hw.other⟩
      rw [Procmm.insertArea, hplace]
      dsimp only
      rw [if_neg]
      rw [listEmpty, hnext]
      simp
  | none =>
      obtain ⟨hranked, hother⟩ := hw.ranked_append h ha
      refine ⟨_, _, _, ?_, hranked, hother⟩
      rw [Procmm.insertArea, hplace]
      dsimp only
      rw [if_pos]
      rw [listEmpty, hnext]
      rfl

end Ranked

/-! ### Runs -/

/-- A kernel with the areas that the calls of `procmm_map` on one map have returned so far, each
with the bounds and flags of its call. -/
structure MapCalls where
  kernel : Kernel
  accepted : List (Nat × Area)

/-- Before the first call the list of the map is empty. -/
def MapCalls.Start (m : Nat) (s : MapCalls) : Prop :=
  (s.kernel.map m).areas = nil ∧ s.accepted = []

/-- A call of `procmm_map`. -/
def MapCalls.Call (bootP4 : Nat) (grow : Nat → Nat) (m : Nat) (s : MapCalls)
    (start stop flags : Nat) (s' : MapCalls) : Prop :=
  ∃ r, procmmMap bootP4 grow s.kernel m start stop flags = some (r, s'.kernel)
    ∧ s'.accepted = s.accepted ++ r.toList.map fun a => (a, ⟨start, stop, flags, m⟩)

/-- A call with any arguments. -/
def MapCalls.Step (bootP4 : Nat) (grow : Nat → Nat) (m : Nat) (s s' : MapCalls) : Prop :=
  ∃ start stop flags, s.Call bootP4 grow m start stop flags s'

/-- A call for an area that lies above all areas of the list, or meets one of them. -/
def MapCalls.FitStep (bootP4 : Nat) (grow : Nat → Nat) (m : Nat) (s s' : MapCalls) : Prop :=
  ∃ start stop flags, Fits s.kernel.area (s.accepted.map Prod.fst) start stop
    ∧ s.Call bootP4 grow m start stop flags s'

/-- The areas do not overlap. -/
def Disjoint (area : Nat → Area) (a b : Nat) : Prop :=
  (area a).stop ≤ (area b).start ∨ (area b).stop ≤ (area a).start

/-- The list of the map is a doubly linked list that ends with null in both directions, sorted
by address, without overlapping areas, and it has exactly the areas that were returned. -/
def MapCalls.Sorted (m : Nat) (s : MapCalls) : Prop :=
  ∃ xs, Represents (s.kernel.map m).areas s.kernel.link xs
    ∧ xs.Pairwise (fun a b => (s.kernel.area a).start ≤ (s.kernel.area b).start)
    ∧ xs.Pairwise (Disjoint s.kernel.area)
    ∧ (∀ a, a ∈ xs ↔ ∃ area, (a, area) ∈ s.accepted)
    ∧ ∀ a area, (a, area) ∈ s.accepted → s.kernel.area a = area

/-- What holds after every call for a fitting area. -/
structure MapCalls.Inv (m : Nat) (s : MapCalls) : Prop where
  list : AreaList s.kernel m (s.accepted.map Prod.fst)
  area : ∀ a area, (a, area) ∈ s.accepted → s.kernel.area a = area

theorem MapCalls.Inv.step {bootP4 : Nat} {grow : Nat → Nat} {m : Nat} {s s' : MapCalls}
    (h : s.Inv m) (hstep : MapCalls.FitStep bootP4 grow m s s') :
  s'.Inv m
  := by
  obtain ⟨start, stop, flags, hfits, r, hcall, haccepted⟩ := hstep
  obtain ⟨hlist, hold, hnew, -⟩ := h.list.procmmMap hfits hcall
  constructor
  · rw [haccepted, List.map_append, List.map_map]
    have hid : r.toList.map (Prod.fst ∘ fun a => (a, (⟨start, stop, flags, m⟩ : Area))) = r.toList :=
      List.map_id' r.toList
    rw [hid]
    exact hlist
  · intro a area hmem
    rw [haccepted] at hmem
    obtain hmem | hmem := List.mem_append.mp hmem
    · rw [hold a (h.list.lt a (List.mem_map_of_mem hmem))]
      exact h.area a area hmem
    · obtain ⟨b, hb, heq⟩ := List.mem_map.mp hmem
      obtain ⟨rfl, rfl⟩ := Prod.mk.inj heq
      exact (hnew b (Option.mem_toList.mp hb)).2

/-- In every run of calls for fitting areas, the list of the map stays sorted, and has exactly
the areas that were returned. -/
theorem sorted_of_run {bootP4 : Nat} {grow : Nat → Nat} {m : Nat} {s : MapCalls}
    (hrun : Reachable (MapCalls.Start m) (MapCalls.FitStep bootP4 grow m) s) :
  s.Sorted m
  := by
  have hinv : s.Inv m := by
    apply hrun.invariant
    · rintro s ⟨hhead, haccepted⟩
      constructor
      · rw [haccepted]
        refine ⟨?_, nofun, nofun, List.Pairwise.nil⟩
        rw [hhead]
        exact Represents.empty
      · rw [haccepted]
        nofun
    · intro s s' hinv hstep
      exact hinv.step hstep
  obtain ⟨hrep, -, hasc⟩ := hinv.list
  refine ⟨_, hrep, ?_, ?_, ?_, hinv.area⟩
  · apply hasc.2.imp_of_mem
    intro a b ha _ hab
    have := hasc.1 a ha
    omega
  · apply hasc.2.imp
    intro a b hab
    exact Or.inl (Nat.le_of_lt hab)
  · intro a
    rw [List.mem_map]
    constructor
    · rintro ⟨⟨b, area⟩, hmem, rfl⟩
      exact ⟨area, hmem⟩
    · rintro ⟨area, hmem⟩
      exact ⟨(a, area), hmem, rfl⟩

/-- A kernel with one map, which has no areas. -/
def noAreas : Kernel where
  machine := { mem := fun _ => 0, pmmRunning := true, pmmPos := 0, pmmStack := 0, taken := [],
               freed := [] }
  heapBrk := kernelHeapS
  area := fun _ => ⟨0, 0, 0, 0⟩
  link := fun _ => nil
  map := fun _ => { P4 := frame 1, areas := nil, brk := none, stack := none }
  live := fun m => m = 0
  areas := 0
  maps := 1

/-- A call of `procmm_map` for an area without pages, as `procmm_setup` makes one for the
stack. -/
def addEmpty (s : MapCalls) (a : Nat) : Option MapCalls :=
  match procmmMap (frame 16) (fun _ => 0) s.kernel 0 a a 0 with
  | none => none
  | some (r, k) =>
      some { kernel := k, accepted := s.accepted ++ r.toList.map fun b => (b, ⟨a, a, 0, 0⟩) }

theorem addEmpty_call {s s' : MapCalls} {a : Nat} (h : addEmpty s a = some s') :
  s.Call (frame 16) (fun _ => 0) 0 a a 0 s'
  := by
  rw [addEmpty] at h
  split at h
  · nomatch h
  · rename_i r k hcall
    obtain rfl := Option.some.inj h
    exact ⟨r, hcall, rfl⟩

theorem sorted_of_run_two_areas :
  ∃ s : MapCalls, s.accepted = [(0, ⟨0x1000, 0x1000, 0, 0⟩), (1, ⟨0x2000, 0x2000, 0, 0⟩)]
    ∧ s.Sorted 0
  := by
  obtain ⟨s₁, h₁⟩ : ∃ s, addEmpty ⟨noAreas, []⟩ 0x1000 = some s := ⟨_, rfl⟩
  have harea : s₁.kernel.area 0 = ⟨0x1000, 0x1000, 0, 0⟩ := by
    obtain rfl := Option.some.inj h₁
    rfl
  have haccepted : s₁.accepted = [(0, ⟨0x1000, 0x1000, 0, 0⟩)] := by
    obtain rfl := Option.some.inj h₁
    rfl
  obtain ⟨s₂, h₂⟩ : ∃ s, addEmpty s₁ 0x2000 = some s := by
    obtain rfl := Option.some.inj h₁
    exact ⟨_, rfl⟩
  have haccepted' : s₂.accepted
      = [(0, ⟨0x1000, 0x1000, 0, 0⟩), (1, ⟨0x2000, 0x2000, 0, 0⟩)] := by
    obtain rfl := Option.some.inj h₁
    obtain rfl := Option.some.inj h₂
    rfl
  refine ⟨s₂, haccepted', ?_⟩
  apply @sorted_of_run (frame 16) fun _ => 0
  have hstart : Reachable (MapCalls.Start 0) (MapCalls.FitStep (frame 16) (fun _ => 0) 0)
      ⟨noAreas, []⟩ := .start ⟨rfl, rfl⟩
  have hfirst := hstart.next ⟨0x1000, 0x1000, 0, ⟨Nat.le_refl _, Or.inr nofun⟩, addEmpty_call h₁⟩
  refine hfirst.next ⟨0x2000, 0x2000, 0, ⟨Nat.le_refl _, Or.inr ?_⟩, addEmpty_call h₂⟩
  intro o ho
  rw [haccepted] at ho
  obtain rfl := List.mem_singleton.mp ho
  rw [harea]
  decide

/-- An area that is added below another one takes its place at the head of the list, and the
links of the two run in a circle. -/
theorem list_broken_by_area_below :
  ∃ s : MapCalls, Reachable (MapCalls.Start 0) (MapCalls.Step (frame 16) (fun _ => 0) 0) s
    ∧ s.accepted = [(0, ⟨0x2000, 0x2000, 0, 0⟩), (1, ⟨0x1000, 0x1000, 0, 0⟩)]
    ∧ (s.kernel.map 0).areas = ⟨some 1, some 1⟩
    ∧ s.kernel.link 1 = ⟨some 0, none⟩ ∧ s.kernel.link 0 = ⟨some 1, some 1⟩
    ∧ ¬ s.Sorted 0
  := by
  obtain ⟨s₁, h₁⟩ : ∃ s, addEmpty ⟨noAreas, []⟩ 0x2000 = some s := ⟨_, rfl⟩
  obtain ⟨s₂, h₂⟩ : ∃ s, addEmpty s₁ 0x1000 = some s := by
    obtain rfl := Option.some.inj h₁
    exact ⟨_, rfl⟩
  have hstart : Reachable (MapCalls.Start 0) (MapCalls.Step (frame 16) (fun _ => 0) 0)
      ⟨noAreas, []⟩ := .start ⟨rfl, rfl⟩
  have hrun := (hstart.next ⟨0x2000, 0x2000, 0, addEmpty_call h₁⟩).next
    ⟨0x1000, 0x1000, 0, addEmpty_call h₂⟩
  have hhead : (s₂.kernel.map 0).areas = ⟨some 1, some 1⟩ := by
    obtain rfl := Option.some.inj h₁
    obtain rfl := Option.some.inj h₂
    rfl
  have hlink : s₂.kernel.link 1 = ⟨some 0, none⟩ ∧ s₂.kernel.link 0 = ⟨some 1, some 1⟩ := by
    obtain rfl := Option.some.inj h₁
    obtain rfl := Option.some.inj h₂
    exact ⟨rfl, rfl⟩
  refine ⟨s₂, hrun, ?_, hhead, hlink.1, hlink.2, ?_⟩
  · obtain rfl := Option.some.inj h₁
    obtain rfl := Option.some.inj h₂
    rfl
  · rintro ⟨xs, hrep, -⟩
    have hfirst := hrep.first
    rw [hhead] at hfirst
    cases xs with
    | nil => nomatch hfirst
    | cons x xs =>
        obtain rfl := Option.some.inj hfirst
        have hseg := (segment_cons.mp hrep.linked).1
        rw [hlink.1] at hseg
        nomatch congrArg Link.prev hseg

end Procmm
