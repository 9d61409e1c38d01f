import Mittos64.Proc.Spaces

/-!
# Areas whose pages are mapped

A map is covered when every page step through the areas that its links lead to meets a mapped page of
its own.  It stays covered when pages are mapped that were not mapped before, for a new area or for
one that grows by these pages; and when its areas, their links and its pages are left alone.
-/

open DList

namespace Procmm

open Mem

/-- The links of the map `m` lead to areas in `Z` only, and every page step through these areas meets
a mapped page of the address space `r`, through different areas different pages. -/
structure AreasMapped (k : Kernel) (m r : Nat) (Z : Nat → Prop) : Prop where
  joined : Joined (k.map m).areas k.link Z
  of : ∀ z, Z z → k.Of m z
  mapped : ∀ z, Z z → ∀ c, (k.area z).Steps c → lookup (words k.machine.mem) r c ≠ 0
  apart : ∀ z z', Z z → Z z' → ∀ c, (k.area z).Steps c → (k.area z').Steps c → z = z'

/-- All live maps are covered. -/
def Covering (k : Kernel) : Prop :=
  ∀ m r, k.live m = true → (k.map m).P4 = frame r → ∃ Z, AreasMapped k m r Z

/-- The areas of the map `m` and their links are in the kernel `k'` as in the kernel `k`, and the
mapped pages of the address space `r` are still mapped. -/
structure Untouched (m r : Nat) (k k' : Kernel) : Prop where
  head : (k'.map m).areas = (k.map m).areas
  areas : k.areas ≤ k'.areas
  area : ∀ z, k.Of m z → k'.area z = k.area z
  link : ∀ z, k.Of m z → k'.link z = k.link z
  mapped : ∀ c, p4Offset c ≠ 511 → lookup (words k.machine.mem) r c ≠ 0 →
    lookup (words k'.machine.mem) r c ≠ 0

section AreasMapped

variable {b m r start stop : Nat} {page Z : Nat → Prop} {used fs xs : List Nat} {a : Option Nat}
  {grow : Nat → Nat} {k k' : Kernel}

/-- The page steps through the areas of the list of a covered map meet pages of their own. -/
theorem AreasMapped.filled (h : AreasMapped k m r Z) (harranged : Arranged k)
    (hlive : k.live m = true) (hlist : Listed k m xs) :
  Filled k r xs
  := by
  have hZ : ∀ x ∈ xs, Z x := fun x hx => h.joined.mem hlist.chain hx
  constructor
  · exact harranged.top hlive hlist
  · exact fun x hx => h.mapped x (hZ x hx)
  · exact fun x hx x' hx' => h.apart x x' (hZ x hx) (hZ x' hx')

/-- The pages of a covered map are pages of the user half. -/
theorem AreasMapped.user (h : AreasMapped k m r Z) (harranged : Arranged k)
    (hlive : k.live m = true) {z c : Nat} (hz : Z z) (hc : (k.area z).Steps c) :
  p4Offset c ≠ 511
  := Stepped.user hc (harranged.user hlive (h.of z hz)).2

/-- A map that is left alone stays covered. -/
theorem AreasMapped.untouched (h : AreasMapped k m r Z) (harranged : Arranged k)
    (hlive : k.live m = true) (hsame : Untouched m r k k') :
  AreasMapped k' m r Z
  := by
  have harea : ∀ z, Z z → k'.area z = k.area z := fun z hz => hsame.area z (h.of z hz)
  constructor
  · rw [hsame.head]
    apply h.joined.congr
    exact fun z hz => hsame.link z (h.of z hz)
  · intro z hz
    refine ⟨Nat.lt_of_lt_of_le (h.of z hz).1 hsame.areas, ?_⟩
    rw [harea z hz]
    exact (h.of z hz).2
  · intro z hz c hc
    rw [harea z hz] at hc
    exact hsame.mapped c (h.user harranged hlive hz hc) (h.mapped z hz c hc)
  · intro z z' hz hz' c hc hc'
    rw [harea z hz] at hc
    rw [harea z' hz'] at hc'
    exact h.apart z z' hz hz' c hc hc'

theorem Untouched.trans {k'' : Kernel} (h : Untouched m r k k') (h' : Untouched m r k' k'') :
  Untouched m r k k''
  := by
  have hof : ∀ z, k.Of m z → k'.Of m z := by
    rintro z hz
    refine ⟨Nat.lt_of_lt_of_le hz.1 h.areas, ?_⟩
    rw [h.area z hz]
    exact hz.2
  constructor
  · rw [h'.head, h.head]
  · exact Nat.le_trans h.areas h'.areas
  · intro z hz
    rw [h'.area z (hof z hz), h.area z hz]
  · intro z hz
    rw [h'.link z (hof z hz), h.link z hz]
  · exact fun c hc hmapped => h'.mapped c hc (h.mapped c hc hmapped)

/-- Mapped pages stay mapped when pages are mapped. -/
theorem MapsPages.ne_zero (h : MapsPages b r page used k k') {q c : Nat} (hq : k.Root q)
    (hc : p4Offset c ≠ 511) (hne : lookup (words k.machine.mem) q c ≠ 0) :
  lookup (words k'.machine.mem) q c ≠ 0
  := by
  by_cases hpage : q = r ∧ page c
  · obtain ⟨f, -, heq⟩ := h.mapped hpage.2
    rw [hpage.1, heq]
    exact (userFlags_entry f).1
  · rw [h.other hq hc hpage]
    exact hne

/-- A call for another map that adds an area. -/
theorem AddsArea.untouched {m' q : Nat} {area : Area} (h : AddsArea m area k k')
    (hmaps : MapsPages b r page used k k') (hne : m' ≠ m) (hq : k.Root q) :
  Untouched m' q k k'
  where
  head := by rw [h.map m' hne]
  areas := by
    rw [h.areas]
    exact Nat.le_succ _
  area z hz := by rw [h.area, addArea_old hz.1]
  link z hz := by
    apply h.link z hz.1
    rw [hz.2]
    exact hne
  mapped c hc hmapped := hmaps.ne_zero hq hc hmapped

/-- `procmm_map` for the map: the new area is covered when its pages were not mapped. -/
theorem AreasMapped.procmmMap {flags : Nat} (h : AreasMapped k m r Z) (harranged : Arranged k)
    (hlive : k.live m = true) (hroot : k.Root r) (hlist : Listed k m xs)
    (hclear : Clear k.area xs start stop)
    (hmaps : MapsPages b r (fun c => a ≠ none ∧ Stepped start stop c) used k k')
    (hfresh : (∀ x ∈ xs, ¬ Meets k.area start stop x) →
      ∀ c, Stepped start stop c → lookup (words k.machine.mem) r c = 0)
    (hcall : procmmMap (frame b) grow k m start stop flags = some (a, k')) :
  ∃ Z', AreasMapped k' m r Z' ∧ ∀ z, Z' z → Z z ∨ z = k.areas
  := by
  obtain ⟨hadds, hjoined, hrefused, hapart⟩ := h.joined.procmmMap h.of hlist hclear hcall
  have hof : ∀ z, Z z → k'.Of m z := fun z hz => (hadds.of_iff rfl m z).mpr (Or.inl (h.of z hz))
  have hold : ∀ z, Z z → k'.area z = k.area z := by
    intro z hz
    rw [hadds.area, addArea_old (h.of z hz).1]
  have hmapped : ∀ z, Z z → ∀ c, (k'.area z).Steps c →
      lookup (words k.machine.mem) r c ≠ 0 ∧ lookup (words k'.machine.mem) r c ≠ 0 := by
    intro z hz c hc
    rw [hold z hz] at hc
    have hne := h.mapped z hz c hc
    exact ⟨hne, hmaps.ne_zero hroot (h.user harranged hlive hz hc) hne⟩
  have hdistinct : ∀ z z', Z z → Z z' → ∀ c, (k'.area z).Steps c → (k'.area z').Steps c → z = z' := by
    intro z z' hz hz' c hc hc'
    rw [hold z hz] at hc
    rw [hold z' hz'] at hc'
    exact h.apart z z' hz hz' c hc hc'
  by_cases ha : a = none
  · exact ⟨Z, ⟨hrefused ha, hof, fun z hz c hc => (hmapped z hz c hc).2, hdistinct⟩, fun _ => Or.inl⟩
  · have hnew : ∀ c, (k'.area k.areas).Steps c → Stepped start stop c := by
      intro c hc
      rw [hadds.area, addArea_new] at hc
      exact hc
    have hempty : ∀ c, (k'.area k.areas).Steps c → lookup (words k.machine.mem) r c = 0 :=
      fun c hc => hfresh (hapart ha) c (hnew c hc)
    refine ⟨fun z => Z z ∨ z = k.areas, ⟨hjoined, ?_, ?_, ?_⟩, fun _ hz => hz⟩
    · rintro z (hz | rfl)
      · exact hof z hz
      · exact (hadds.of_iff rfl m k.areas).mpr (Or.inr ⟨rfl, rfl⟩)
    · rintro z (hz | rfl) c hc
      · exact (hmapped z hz c hc).2
      · obtain ⟨f, -, heq⟩ := hmaps.mapped ⟨ha, hnew c hc⟩
        rw [heq]
        exact (userFlags_entry f).1
    · rintro z z' (hz | rfl) (hz' | rfl) c hc hc'
      · exact hdistinct z z' hz hz' c hc hc'
      · exact absurd (hempty c hc') (hmapped z hz c hc).1
      · exact absurd (hempty c hc) (hmapped z' hz' c hc').1
      · rfl

/-- An area of the map gets other bounds, so that the page steps through it meet the old pages and
those that are mapped now. -/
theorem AreasMapped.setArea {o : Nat} {area : Area} {s : Machine} (h : AreasMapped k m r Z)
    (harranged : Arranged k) (hlive : k.live m = true) (hroot : k.Root r)
    (hmap : area.map = (k.area o).map)
    (hmaps : MapsPages b r page used k ((k.setArea o area).withMachine s))
    (hsteps : ∀ c, area.Steps c → (k.area o).Steps c ∨ page c)
    (hfresh : ∀ c, page c → lookup (words k.machine.mem) r c = 0) :
  AreasMapped ((k.setArea o area).withMachine s) m r Z
  := by
  obtain ⟨k', hk'⟩ : ∃ k', k' = (k.setArea o area).withMachine s := ⟨_, rfl⟩
  rw [← hk'] at hmaps ⊢
  have hfields : k'.area = Function.update k.area o area ∧ k'.link = k.link ∧ k'.map = k.map
      ∧ k'.areas = k.areas := by
    rw [hk']
    exact ⟨rfl, rfl, rfl, rfl⟩
  obtain ⟨harea, hlink, hhead, hareas⟩ := hfields
  have hcase : ∀ z, Z z → ∀ c, (k'.area z).Steps c → (k.area z).Steps c ∨ z = o ∧ page c := by
    intro z _ c hc
    rw [harea] at hc
    by_cases hz : z = o
    · rw [hz, Function.update_self] at hc
      rw [hz]
      obtain hold | hpage := hsteps c hc
      · exact Or.inl hold
      · exact Or.inr ⟨rfl, hpage⟩
    · rw [Function.update_of_ne hz] at hc
      exact Or.inl hc
  constructor
  · rw [hhead, hlink]
    exact h.joined
  · intro z hz
    obtain ⟨hlt, hm⟩ := h.of z hz
    rw [Kernel.Of, hareas, harea]
    refine ⟨hlt, ?_⟩
    by_cases hzo : z = o
    · rw [hzo, Function.update_self, hmap, ← hzo, hm]
    · rw [Function.update_of_ne hzo, hm]
  · intro z hz c hc
    obtain hold | ⟨-, hpage⟩ := hcase z hz c hc
    · exact hmaps.ne_zero hroot (h.user harranged hlive hz hold) (h.mapped z hz c hold)
    · obtain ⟨f, -, heq⟩ := hmaps.mapped hpage
      rw [heq]
      exact (userFlags_entry f).1
  · intro z z' hz hz' c hc hc'
    obtain hold | ⟨rfl, hpage⟩ := hcase z hz c hc
    · obtain hold' | ⟨rfl, hpage⟩ := hcase z' hz' c hc'
      · exact h.apart z z' hz hz' c hold hold'
      · exact absurd (hfresh c hpage) (h.mapped z hz c hold)
    · obtain hold' | ⟨rfl, -⟩ := hcase z' hz' c hc'
      · exact absurd (hfresh c hpage) (h.mapped z' hz' c hold')
      · rfl

/-- A new map without areas. -/
theorem NewMap.covering {f : Nat} (hnew : NewMap b k f k') (harranged : Arranged k)
    (h : Covering k) :
  Covering k'
  := by
  intro m r hlive hP4
  by_cases hm : m = k.maps
  · refine ⟨fun _ => False, ?_, fun _ => False.elim, fun _ => False.elim, fun _ _ => False.elim⟩
    rw [hm, hnew.map_new]
    refine ⟨?_, ?_, fun _ => False.elim, fun _ => False.elim, fun _ => False.elim, ?_⟩
    · intro x hx
      cases hx
    · intro x hx
      cases hx
    · intro xs _ x hx
      cases hx
  · rw [hnew.live, Function.update_of_ne hm] at hlive
    rw [hnew.map_old m hm] at hP4
    obtain ⟨Z, hZ⟩ := h m r hlive hP4
    have hsame : Untouched m r k k' := by
      refine ⟨?_, ?_, fun z _ => ?_, fun z _ => ?_, fun c hc hmapped => ?_⟩
      · rw [hnew.map_old m hm]
      · rw [hnew.areas]
      · rw [hnew.area]
      · rw [hnew.link]
      · rw [hnew.entries ⟨m, hlive, hP4⟩ hc]
        exact hmapped
    exact ⟨Z, hZ.untouched harranged hlive hsame⟩

/-- A map is taken down. -/
theorem FreedMap.covering (hfreed : FreedMap b m r k k') (harranged : Arranged k)
    (h : Covering k) :
  Covering k'
  := by
  intro m' q hlive' hP4'
  have hm : m' ≠ m := by
    rintro rfl
    rw [hfreed.live, Function.update_self] at hlive'
    cases hlive'
  have hroot : k'.Root q := ⟨m', hlive', hP4'⟩
  rw [hfreed.live, Function.update_of_ne hm] at hlive'
  rw [hfreed.map m' hm] at hP4'
  obtain ⟨Z, hZ⟩ := h m' q hlive' hP4'
  have hsame : Untouched m' q k k' := by
    refine ⟨?_, ?_, fun z _ => ?_, fun z hz => ?_, fun c hc hmapped => ?_⟩
    · rw [hfreed.map m' hm]
    · rw [hfreed.areas]
    · rw [hfreed.area]
    · apply hfreed.link
      rw [hz.2]
      exact hm
    · rw [hfreed.entries hroot]
      exact hmapped
  exact ⟨Z, hZ.untouched harranged hlive' hsame⟩

end AreasMapped

end Procmm
