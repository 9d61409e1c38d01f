import Mittos64.Boot.Protocols

/-!
# Pages that the boot loader uses

`multiboot_page_used` keeps the pages of the module, of the boot loader's own data and of the memory
map.  In version 1 it takes `sizeof(data)`, eight bytes, for the size of the info structure, so the
last page of this is kept only when one of the other ranges, or these eight bytes, lie in it.  In
version 2 it knows of no module.
-/

namespace Boot

/-- The page at `p` meets the `l` bytes from `s` on. -/
def Meets (p s l : Nat) : Prop :=
  ∃ x, p ≤ x ∧ x < p + pageSize ∧ s ≤ x ∧ x < s + l

/-- All pages that meet one of these ranges are used. -/
def Keeps (ranges : List (Nat × Nat)) (used : Nat → Nat) : Prop :=
  ∀ p, p % pageSize = 0 → ∀ r ∈ ranges, Meets p r.1 r.2 → used p ≠ 0

section Ranges

variable (mem : Memory)

/-- There is a module in the info structure of version 1. -/
def HasModule (data : Nat) : Prop :=
  HasFlag mem data 3 ∧ infoModsCount mem data ≠ 0

instance (data : Nat) : Decidable (HasModule mem data) :=
  inferInstanceAs (Decidable (_ ∧ _))

/-- The entry of the first module in version 1. -/
def moduleEntry (data : Nat) : Nat :=
  p2v (infoModsAddr mem data)

/-- The physical ranges of the data of version 1: the info structure, the memory map and the
module. -/
def ranges1 (a : Nat) : List (Nat × Nat) :=
  let data := p2v a
  [(a, infoSize)]
    ++ (if HasFlag mem data 6 then [(infoMmapAddr mem data, infoMmapLen mem data)] else [])
    ++ (if HasModule mem data then
      [(modStart mem (moduleEntry mem data),
        modEnd mem (moduleEntry mem data) - modStart mem (moduleEntry mem data))] else [])

/-- The physical range of the entries of a memory map at `tag`. -/
def Tag.mapRange (tag : Nat) : Tag → List (Nat × Nat)
  | .mmap stride regions => [(v2p (mmapEntries (tagData tag)), stride * regions.length)]
  | _ => []

/-- The physical ranges of the entries of the memory maps among the tags from `tag` on. -/
def mapRanges : Nat → List Tag → List (Nat × Nat)
  | _, [] => []
  | tag, t :: ts => t.mapRange tag ++ mapRanges (t.next tag) ts

/-- The physical range of a module. -/
def moduleRange (m : UInt32 × UInt32) : Nat × Nat :=
  (m.1.toNat, m.2.toNat - m.1.toNat)

/-- The physical ranges of the data of version 2: the tags, the memory map and the first module. -/
def ranges2 (a : Nat) (tags : List Tag) : List (Nat × Nat) :=
  [(a, mem.load (p2v a) 4)] ++ mapRanges (p2v a + 8) tags
    ++ ((tags.filterMap Tag.module?).head?.map moduleRange).toList

end Ranges

section Overlaps

variable {p s l : Nat}

theorem overlapsz_iff (hp : p + pageSize < 2 ^ 64) (hs : s + l < 2 ^ 64) :
  Overlapsz p pageSize s l ↔ p < s + l ∧ s < p + pageSize
  := by
  rw [Overlapsz, Overlap, incptr_of_lt hp, incptr_of_lt hs]
  omega

theorem meets_iff (hl : 0 < l) :
  Meets p s l ↔ p < s + l ∧ s < p + pageSize
  := by
  rw [pageSize]
  constructor
  · rintro ⟨x, hp, hp', hs, hs'⟩
    rw [pageSize] at hp'
    omega
  · rintro ⟨hlt, hlt'⟩
    refine ⟨max p s, Nat.le_max_left _ _, ?_, Nat.le_max_right _ _, ?_⟩
    · rw [pageSize]
      omega
    · omega

theorem Meets.overlapsz {l' : Nat} (h : Meets p s l) (hl : l ≤ l') (hs : s + l' < 2 ^ 63) :
  Overlapsz p pageSize s l'
  := by
  obtain ⟨x, hp, hp', hs', hlt⟩ := h
  rw [pageSize] at hp'
  rw [overlapsz_iff (by rw [pageSize]; omega) (by omega), pageSize]
  omega

theorem Meets.mono {s' l' : Nat} (h : Meets p s l) (hs : s' ≤ s) (hl : s + l ≤ s' + l') :
  Meets p s' l'
  := by
  obtain ⟨x, hp, hp', hx, hx'⟩ := h
  exact ⟨x, hp, hp', by omega, by omega⟩

end Overlaps

section Version1

variable {mem : Memory} {a : Nat}

/-- The first module of version 1, as the kernel finds it. -/
theorem parseMultiboot1_module (data : Nat) :
  (HasModule mem data →
    (parseMultiboot1 mem (.start 1 data)).init = p2v (modStart mem (moduleEntry mem data))
    ∧ (parseMultiboot1 mem (.start 1 data)).initLen
      = sub32 (modEnd mem (moduleEntry mem data)) (modStart mem (moduleEntry mem data)))
  ∧ (¬ HasModule mem data → (parseMultiboot1 mem (.start 1 data)).init = 0
    ∧ (parseMultiboot1 mem (.start 1 data)).initLen = 0)
  := by
  rw [parseMultiboot1_eq]
  exact ⟨fun h => ⟨if_pos h, if_pos h⟩, fun h => ⟨if_neg h, if_neg h⟩⟩

/-- There is nothing at the address that a null pointer stands for. -/
theorem not_overlapsz_null {p : Nat} (hp : p < 2 ^ 33) :
  ¬ Overlapsz p pageSize (v2p 0) 0
  := by
  rw [overlapsz_iff (by rw [pageSize]; omega) (by decide)]
  have hnull : v2p 0 = 2 ^ 39 := by decide
  rw [hnull, pageSize]
  omega

/-- The ranges that version 1 compares a page with. -/
theorem multibootPageUsed_version1 (ha : a < 2 ^ 32) {p : Nat} (hp : p < 2 ^ 33) :
  multibootPageUsed mem (parseMultiboot1 mem (.start 1 (p2v a))) p ≠ 0
    ↔ (HasModule mem (p2v a) ∧ Overlapsz p pageSize (modStart mem (moduleEntry mem (p2v a)))
        (sub32 (modEnd mem (moduleEntry mem (p2v a))) (modStart mem (moduleEntry mem (p2v a)))))
      ∨ Overlapsz p pageSize a 8
      ∨ (HasFlag mem (p2v a) 6
        ∧ Overlapsz p pageSize (infoMmapAddr mem (p2v a)) (infoMmapLen mem (p2v a) * entrySize))
  := by
  have hmodule : Overlapsz p pageSize (v2p (parseMultiboot1 mem (.start 1 (p2v a))).init)
        (parseMultiboot1 mem (.start 1 (p2v a))).initLen
      ↔ HasModule mem (p2v a) ∧ Overlapsz p pageSize (modStart mem (moduleEntry mem (p2v a)))
        (sub32 (modEnd mem (moduleEntry mem (p2v a))) (modStart mem (moduleEntry mem (p2v a)))) := by
    obtain ⟨hsome, hnone⟩ := @parseMultiboot1_module mem (p2v a)
    by_cases h : HasModule mem (p2v a)
    · have hlt : modStart mem (moduleEntry mem (p2v a)) < 2 ^ 64 :=
        Nat.lt_of_lt_of_le (mem.load_lt _ 4) (by decide)
      rw [(hsome h).1, (hsome h).2, v2p_p2v hlt, and_iff_right h]
    · rw [(hnone h).1, (hnone h).2]
      exact ⟨fun hover => absurd hover (not_overlapsz_null hp), fun hand => absurd hand.1 h⟩
  have hdata : (parseMultiboot1 mem (.start 1 (p2v a))).data = p2v a := by
    rw [parseMultiboot1_eq]
  have hversion : (parseMultiboot1 mem (.start 1 (p2v a))).version = 1 := by
    rw [parseMultiboot1_eq]
  rw [← hmodule, multibootPageUsed, hdata, hversion, if_pos rfl, v2p_p2v (by omega)]
  split_ifs with h₁ h₂ h₃
  · exact ⟨fun _ => Or.inl h₁, fun _ => Nat.one_ne_zero⟩
  · exact ⟨fun _ => Or.inr (Or.inl h₂), fun _ => Nat.one_ne_zero⟩
  · exact ⟨fun _ => Or.inr (Or.inr h₃), fun _ => Nat.one_ne_zero⟩
  · exact ⟨fun h => absurd rfl h, fun h => absurd h (not_or.mpr ⟨h₁, not_or.mpr ⟨h₂, h₃⟩⟩)⟩

/-- The last page of the info structure of version 1. -/
def lastPage (a : Nat) : Nat :=
  stripFlags (a + infoSize - 1)

/-- The page of the last byte of the info structure has one of its first eight bytes, or a byte of
the module, or of what is taken for the memory map. -/
def LastPageMet (mem : Memory) (a : Nat) : Prop :=
  (a + 7) / pageSize = (a + infoSize - 1) / pageSize
  ∨ (HasModule mem (p2v a) ∧ Overlapsz (lastPage a) pageSize (modStart mem (moduleEntry mem (p2v a)))
    (sub32 (modEnd mem (moduleEntry mem (p2v a))) (modStart mem (moduleEntry mem (p2v a)))))
  ∨ (HasFlag mem (p2v a) 6 ∧ Overlapsz (lastPage a) pageSize (infoMmapAddr mem (p2v a))
    (infoMmapLen mem (p2v a) * entrySize))

/-- Version 1 keeps all pages of its data just when the last page of the info structure is met by a
range that it compares pages with. -/
theorem keeps_version1_iff (ha : a < 2 ^ 32) :
  Keeps (ranges1 mem a) (multibootPageUsed mem (parseMultiboot1 mem (.start 1 (p2v a))))
    ↔ LastPageMet mem a
  := by
  have hstrip : lastPage a = (a + 95) / 4096 * 4096 := rfl
  have hlast : lastPage a < 2 ^ 33 := by
    rw [hstrip]
    omega
  have height : Overlapsz (lastPage a) pageSize a 8
      ↔ (a + 7) / pageSize = (a + infoSize - 1) / pageSize := by
    rw [overlapsz_iff (by rw [pageSize]; omega) (by omega), hstrip, pageSize, infoSize]
    omega
  constructor
  · intro hkeeps
    have hmeets : Meets (lastPage a) a infoSize := by
      rw [meets_iff (by decide), hstrip, pageSize, infoSize]
      omega
    have hused := hkeeps (lastPage a) (by rw [hstrip, pageSize]; omega) (a, infoSize)
      (List.mem_append_left _ (List.mem_append_left _ List.mem_cons_self)) hmeets
    obtain hmodule | hinfo | hmap := (multibootPageUsed_version1 ha hlast).mp hused
    · exact Or.inr (Or.inl hmodule)
    · exact Or.inl (height.mp hinfo)
    · exact Or.inr (Or.inr hmap)
  · intro hmet p hp r hr hmeets
    have hlen := mem.load_lt (p2v a + 44) 4
    have haddr := mem.load_lt (p2v a + 48) 4
    have hstart := mem.load_lt (moduleEntry mem (p2v a)) 4
    have hend := mem.load_lt (moduleEntry mem (p2v a) + 4) 4
    rw [ranges1, List.mem_append, List.mem_append, List.mem_singleton] at hr
    obtain (rfl | hr) | hr := hr
    · dsimp only at hmeets
      have hlt : p < 2 ^ 33 := by
        obtain ⟨x, hx, -, -, hx'⟩ := hmeets
        rw [infoSize] at hx'
        omega
      rw [multibootPageUsed_version1 ha hlt]
      by_cases hle : p < a + 8
      · -- the first page
        right
        left
        rw [meets_iff (by decide)] at hmeets
        rw [overlapsz_iff (by rw [pageSize]; omega) (by omega)]
        exact ⟨hle, hmeets.2⟩
      · -- the last page, when it is another one
        obtain rfl : p = lastPage a := by
          rw [meets_iff (by decide), infoSize, pageSize] at hmeets
          rw [pageSize] at hp
          rw [hstrip]
          omega
        obtain hsame | hmodule | hmap := hmet
        · exact Or.inr (Or.inl (height.mpr hsame))
        · exact Or.inl hmodule
        · exact Or.inr (Or.inr hmap)
    · split_ifs at hr with hflag
      · obtain rfl := List.mem_singleton.mp hr
        dsimp only at hmeets
        rw [infoMmapAddr, infoMmapLen] at hmeets
        have hlt : p < 2 ^ 33 := by
          obtain ⟨x, hx, -, -, hx'⟩ := hmeets
          omega
        rw [multibootPageUsed_version1 ha hlt]
        refine Or.inr (Or.inr ⟨hflag, hmeets.overlapsz ?_ ?_⟩)
        · rw [infoMmapLen, entrySize]
          omega
        · rw [infoMmapLen, entrySize]
          omega
      · exact absurd hr List.not_mem_nil
    · split_ifs at hr with hmodule
      · obtain rfl := List.mem_singleton.mp hr
        dsimp only at hmeets
        rw [modStart, modEnd] at hmeets
        have hlt : p < 2 ^ 33 := by
          obtain ⟨x, hx, -, -, hx'⟩ := hmeets
          omega
        rw [multibootPageUsed_version1 ha hlt]
        refine Or.inl ⟨hmodule, hmeets.overlapsz ?_ ?_⟩
        · rw [sub32, modEnd, modStart]
          omega
        · rw [sub32, modEnd, modStart]
          omega
      · exact absurd hr List.not_mem_nil

end Version1

section Version2

variable {mem : Memory} {a tag : Nat} {tags : List Tag} {d : MbootData}

/-- The pointer to the RSDP is null or points to one of the tags. -/
theorem parseTag_rsdp {low : Nat} (h : d.rsdp = 0 ∨ low ≤ d.rsdp) (hlow : low ≤ tag) :
  (parseTag mem d tag).data = d.data
    ∧ ((parseTag mem d tag).rsdp = 0 ∨ low ≤ (parseTag mem d tag).rsdp)
  := by
  rw [parseTag]
  split_ifs
  · exact ⟨rfl, h⟩
  · exact ⟨rfl, h⟩
  · exact ⟨rfl, h⟩
  · exact ⟨rfl, Or.inr (Nat.le_trans hlow (Nat.le_add_right _ _))⟩
  · exact ⟨rfl, h⟩

theorem Tag.le_next (t : Tag) (tag : Nat) :
  tag + t.size ≤ t.next tag
  := by
  rw [next]
  omega

/-- The tags leave the address of the data, and the RSDP is one of them. -/
theorem parseTags_rsdp {low fuel : Nat} {d' : MbootData} (htags : TagsAt mem tag tags)
    (hlow : low ≤ tag) (h : d.rsdp = 0 ∨ low ≤ d.rsdp)
    (hparse : parseTags mem fuel d tag = some d') :
  d'.data = d.data ∧ (d'.rsdp = 0 ∨ low ≤ d'.rsdp)
  := by
  induction fuel generalizing tag tags d with
  | zero => nomatch hparse
  | succ fuel ih =>
      rw [parseTags] at hparse
      cases tags with
      | nil =>
          rw [TagsAt] at htags
          rw [if_neg (not_not.mpr htags)] at hparse
          obtain rfl := Option.some.inj hparse
          exact ⟨rfl, h⟩
      | cons t tags =>
          obtain ⟨⟨htype, hsize, hpayload⟩, hrest⟩ := htags
          have hnext : nextTag mem tag = t.next tag := by
            rw [nextTag, hsize, Tag.next]
          rw [if_pos (by rw [htype]; exact Tag.type_ne_zero hpayload), hnext] at hparse
          obtain ⟨hdata, hrsdp⟩ := @parseTag_rsdp mem tag d low h hlow
          have hle := t.le_next tag
          obtain ⟨hdata', hrsdp'⟩ := ih hrest (by omega) hrsdp hparse
          exact ⟨hdata'.trans hdata, hrsdp'⟩

theorem le_tagsEnd (tag : Nat) (tags : List Tag) :
  tag ≤ tagsEnd tag tags
  := by
  induction tags generalizing tag with
  | nil => exact Nat.le_refl _
  | cons t tags ih =>
      have hle := t.le_next tag
      have hrest := ih (t.next tag)
      rw [tagsEnd, List.foldl_cons, ← tagsEnd]
      omega

/-- The entries of the memory maps lie among the tags. -/
theorem mapRanges_within {low : Nat} (hlow : low ≤ tag) (hoffset : kernelOffset ≤ low)
    (hend : tagsEnd tag tags < 2 ^ 64) {r : Nat × Nat} (hr : r ∈ mapRanges tag tags) :
  low - kernelOffset ≤ r.1 ∧ r.1 + r.2 ≤ tagsEnd tag tags - kernelOffset
  := by
  induction tags generalizing tag with
  | nil => exact absurd hr List.not_mem_nil
  | cons t tags ih =>
      rw [tagsEnd, List.foldl_cons, ← tagsEnd] at hend ⊢
      have hle := t.le_next tag
      have hnext := le_tagsEnd (t.next tag) tags
      rw [mapRanges, List.mem_append] at hr
      obtain hr | hr := hr
      · cases t with
        | mmap stride regions =>
            obtain rfl := List.mem_singleton.mp hr
            rw [Tag.size] at hle
            dsimp only
            rw [v2p, mmapEntries, tagData]
            rw [kernelOffset] at hoffset ⊢
            omega
        | cmdline s => exact absurd hr List.not_mem_nil
        | bootloader s => exact absurd hr List.not_mem_nil
        | module start stop s => exact absurd hr List.not_mem_nil
        | other type payload => exact absurd hr List.not_mem_nil
      · exact ih (by omega) hend hr

/-- The ranges that version 2 compares a page with. -/
theorem Info2.pageUsed {fuel : Nat} (h : Info2 mem a tags) (ha : a < 2 ^ 32)
    (hfuel : tags.length < fuel) :
  ∃ d, multibootInit mem fuel mboot2Magic2 (p2v a) = some d
    ∧ ∀ p < 2 ^ 33, multibootPageUsed mem d p ≠ 0 ↔ Meets p a (mem.load (p2v a) 4)
  := by
  have hp2v : p2v a = a + kernelOffset := by
    rw [p2v, kernelOffset]
    omega
  have htotal := mem.load_lt (p2v a) 4
  have hend := h.total
  have hlow := le_tagsEnd (p2v a + 8) tags
  have hstart : Knows mem (.start 2 (p2v a)) none none [] :=
    ⟨rfl, rfl, rfl, ⟨rfl, Or.inl rfl⟩, rfl, rfl⟩
  obtain ⟨d, hparse, hknows⟩ := hstart.parseTags h.list hfuel
  obtain ⟨hdata, hrsdp⟩ := @parseTags_rsdp mem _ tags _ (p2v a) fuel d h.list (Nat.le_add_right _ _)
    (Or.inl rfl) hparse
  refine ⟨d, ?_, ?_⟩
  · rw [multibootInit, if_neg (by decide), if_pos rfl]
    exact hparse
  · intro p hp
    have hdata' : d.data = p2v a := hdata
    have hinfo : Overlapsz p pageSize a (mem.load (p2v a) 4) ↔ Meets p a (mem.load (p2v a) 4) := by
      rw [overlapsz_iff (by rw [pageSize]; omega) (by omega), meets_iff (by omega)]
    have hnot : ¬ (d.rsdp ≠ 0 ∧ Overlapsz p pageSize d.rsdp 1) := by
      rintro ⟨hne, hover⟩
      have hle := hrsdp.resolve_left hne
      apply hover
      right
      rw [incptr_of_lt (by rw [pageSize]; omega), pageSize]
      rw [hp2v, kernelOffset] at hle
      omega
    rw [multibootPageUsed, hknows.init, hknows.initLen, if_neg (not_overlapsz_null hp),
      hknows.version, if_neg (by decide), hdata', v2p_p2v (by omega), if_neg hnot, ← hinfo]
    split_ifs with hover
    · exact ⟨fun _ => hover, fun _ => Nat.one_ne_zero⟩
    · exact ⟨fun h => absurd rfl h, fun h => absurd h hover⟩

/-- All pages of the first module meet the tags. -/
def ModuleMet (mem : Memory) (a : Nat) (tags : List Tag) : Prop :=
  ∀ m, (tags.filterMap Tag.module?).head? = some m → ∀ p, p % pageSize = 0 →
    Meets p (moduleRange m).1 (moduleRange m).2 → Meets p a (mem.load (p2v a) 4)

/-- Version 2 keeps all pages of its data just when those of the module meet the tags. -/
theorem Info2.keeps_iff {fuel : Nat} (h : Info2 mem a tags) (ha : a < 2 ^ 32)
    (hfuel : tags.length < fuel) :
  ∃ d, multibootInit mem fuel mboot2Magic2 (p2v a) = some d
    ∧ (Keeps (ranges2 mem a tags) (multibootPageUsed mem d) ↔ ModuleMet mem a tags)
  := by
  obtain ⟨d, hinit, hused⟩ := h.pageUsed ha hfuel
  have hp2v : p2v a = a + kernelOffset := by
    rw [p2v, kernelOffset]
    omega
  have htotal := mem.load_lt (p2v a) 4
  have hend := h.total
  have hlt : ∀ {m : UInt32 × UInt32} {p : Nat}, Meets p (moduleRange m).1 (moduleRange m).2 →
      p < 2 ^ 33 := by
    rintro m p ⟨x, hx, -, -, hx'⟩
    have hstop := m.2.toNat_lt
    have hstart := m.1.toNat_lt
    rw [moduleRange] at hx'
    omega
  refine ⟨d, hinit, ?_⟩
  constructor
  · intro hkeeps m hm p hp hmeets
    rw [← hused p (hlt hmeets)]
    apply hkeeps p hp (moduleRange m) _ hmeets
    rw [ranges2, hm]
    exact List.mem_append_right _ List.mem_cons_self
  · intro hmet p hp r hr hmeets
    -- every page meets the tags
    have hinfo : Meets p a (mem.load (p2v a) 4) := by
      rw [ranges2, List.mem_append, List.mem_append, List.mem_singleton] at hr
      obtain (rfl | hr) | hr := hr
      · exact hmeets
      · have hoffset : kernelOffset ≤ p2v a + 8 := by omega
        obtain ⟨hfirst, hlast⟩ := mapRanges_within (Nat.le_refl _) hoffset
          (by rw [kernelOffset] at hp2v; omega) hr
        exact hmeets.mono (by omega) (by omega)
      · obtain ⟨m, hm, rfl⟩ := Option.map_eq_some_iff.mp (Option.mem_toList.mp hr)
        exact hmet m hm p hp hmeets
    have hlt' : p < 2 ^ 33 := by
      obtain ⟨x, hx, -, -, hx'⟩ := hinfo
      omega
    exact (hused p hlt').mpr hinfo

end Version2

/-- A memory with an info structure of version 1 at `0x1FC0`, 64 bytes before the end of a page, and
a memory map at `0x9000`. -/
def straddling : Memory :=
  Memory.write (fun _ => 0) (p2v 0x1FC0)
    (words4 [0x40, 0, 0, 0, 0, 0, 0, 0, 0, 0, 0, 24, 0x9000, 0, 0, 0, 0])

end Boot
