import Mittos64.Boot.Multiboot

/-!
# The two versions of Multiboot

The parsers of both versions find the command line, the name of the boot loader and the memory map
that a boot loader describes, whatever the order of its tags.  Only the parser of version 1 looks
for modules: so the two agree just when there is none.
-/

namespace Boot

/-- The pointer `p` is null when there is no string, and else points to it. -/
def Text (mem : Memory) (p : Nat) : Option (List UInt8) → Prop
  | none => p = 0
  | some s => p ≠ 0 ∧ HoldsString mem p s

/-- The kernel finds the same command line, the same name of the boot loader, the same areas of
memory in any number of calls, and the same module. -/
structure Same (mem : Memory) (d : MbootData) (mem' : Memory) (d' : MbootData) : Prop where
  commandline : ∀ s, Text mem d.commandline s ↔ Text mem' d'.commandline s
  bootloader : ∀ s, Text mem d.bootloader s ↔ Text mem' d'.bootloader s
  areas : ∀ n, memoryAreas mem d n 0 = memoryAreas mem' d' n 0
  init : d.init = d'.init ∧ d.initLen = d'.initLen

/-! ### Strings -/

section Strings

variable {mem : Memory} {p : Nat} {s t : List UInt8}

/-- A string ends at its first zero byte. -/
theorem HoldsString.length_le (hs : HoldsString mem p s) (ht : HoldsString mem p t) :
  t.length ≤ s.length
  := by
  by_contra hlt
  have hlt' : s.length < (t ++ [0]).length := by
    rw [List.length_append]
    omega
  have hzero : mem (p + s.length) = 0 := by
    rw [hs.2.byte (by rw [List.length_append]; exact Nat.lt_succ_self _),
      List.getElem_append_right (Nat.le_refl _)]
    simp
  have hbyte : mem (p + s.length) = t[s.length] := by
    rw [ht.2.byte hlt', List.getElem_append_left (by omega)]
  apply ht.1
  rw [← hzero, hbyte]
  exact List.getElem_mem _

/-- There is one string at an address. -/
theorem HoldsString.unique (hs : HoldsString mem p s) (ht : HoldsString mem p t) :
  s = t
  := by
  have hlen : s.length = t.length := Nat.le_antisymm (ht.length_le hs) (hs.length_le ht)
  have hread : s ++ [0] = t ++ [0] := by
    rw [← hs.2, ← ht.2, List.length_append, List.length_append, hlen]
  exact List.append_cancel_right hread

theorem Text.unique {x y : Option (List UInt8)} (hx : Text mem p x) (hy : Text mem p y) :
  x = y
  := by
  cases x with
  | none =>
      cases y with
      | none => rfl
      | some t => exact absurd hx hy.1
  | some s =>
      cases y with
      | none => exact absurd hy hx.1
      | some t => rw [hx.2.unique hy.2]

/-- Two pointers to the same string have the same string. -/
theorem Text.iff {mem' : Memory} {p' : Nat} {x : Option (List UInt8)} (h : Text mem p x)
    (h' : Text mem' p' x) (y : Option (List UInt8)) :
  Text mem p y ↔ Text mem' p' y
  := by
  constructor
  · intro hy
    rw [← h.unique hy]
    exact h'
  · intro hy
    rw [← h'.unique hy]
    exact h

end Strings

/-! ### Areas -/

section Areas

variable {mem : Memory} {d : MbootData} {rs : List Region}

/-- The calls give the areas of the regions one after the other. -/
theorem memoryAreas_eq (hsize : d.mmapSize = rs.length)
    (hget : ∀ i (hi : i < rs.length), multibootGetMemoryArea mem d i = some (rs[i].area, i + 1))
    (n entry : Nat) :
  memoryAreas mem d n entry = ((rs.drop entry).take n).map Region.area
  := by
  induction n generalizing entry with
  | zero => rw [memoryAreas, List.take_zero, List.map_nil]
  | succ n ih =>
      by_cases hentry : entry < rs.length
      · rw [memoryAreas, hget entry hentry]
        dsimp only
        rw [ih, List.drop_eq_getElem_cons hentry, List.take_succ_cons, List.map_cons]
      · have hend : multibootGetMemoryArea mem d entry = none := by
          rw [multibootGetMemoryArea, if_pos (by rw [hsize]; omega)]
        rw [memoryAreas, hend, List.drop_eq_nil_of_le (Nat.not_lt.mp hentry), List.take_nil,
          List.map_nil]

/-- A 64-bit word from its halves. -/
theorem load_halves (mem : Memory) (a : Nat) :
  incptr (mem.load (a + 4) 4 <<< 32) (mem.load a 4) = mem.load a 8
  := by
  have hlow := mem.load_lt a 4
  have hhigh := mem.load_lt (a + 4) 4
  have hadd := mem.load_add a 4 4
  rw [Nat.shiftLeft_eq, incptr, Nat.mod_eq_of_lt]
  · rw [hadd]
    omega
  · omega

/-- The sum with a 64-bit word, half by half. -/
theorem incptr_halves (mem : Memory) (a x : Nat) :
  incptr (incptr x (mem.load (a + 4) 4 <<< 32)) (mem.load a 4) = incptr x (mem.load a 8)
  := by
  rw [← load_halves]
  simp only [incptr]
  omega

/-- The entry of a memory map of version 1. -/
theorem area1_eq {mmap entry : Nat} {r : Region}
    (h : mem.Holds (mmap + entrySize * entry) r.bytes1) :
  area1 mem mmap entry = r.area
  := by
  rw [Region.bytes1, Memory.holds_append, Memory.holds_append, Memory.holds_append] at h
  obtain ⟨⟨⟨-, hbase⟩, hlength⟩, htype⟩ := h
  have hbase := hbase.load.trans (Nat.mod_eq_of_lt r.base.toNat_lt)
  have hlength := hlength.load.trans (Nat.mod_eq_of_lt r.length.toNat_lt)
  have htype := htype.load.trans (Nat.mod_eq_of_lt r.type.toNat_lt)
  rw [area1, Region.area, load_halves mem (mmap + entrySize * entry + 4),
    incptr_halves mem (mmap + entrySize * entry + 12)]
  simp only [Memory.wordBytes_length, List.length_append] at hbase hlength htype
  rw [hbase, hlength, htype]

/-- The regions of a memory map of version 1, one after the other. -/
theorem holds_entry {a : Nat} (h : mem.Holds a (rs.flatMap Region.bytes1)) {i : Nat}
    (hi : i < rs.length) :
  mem.Holds (a + entrySize * i) rs[i].bytes1
  := by
  induction rs generalizing a i with
  | nil => exact absurd hi (Nat.not_lt_zero _)
  | cons r rs ih =>
      rw [List.flatMap_cons, Memory.holds_append] at h
      cases i with
      | zero => exact h.1
      | succ i =>
          have hsize : r.bytes1.length = entrySize := by
            simp only [Region.bytes1, List.length_append, Memory.wordBytes_length]
            rfl
          have hrest := ih h.2 (Nat.lt_of_succ_lt_succ hi)
          rw [hsize, Nat.add_assoc, Nat.add_comm entrySize, ← Nat.mul_succ] at hrest
          exact hrest

theorem skipEntries_eq (mmap i e : Nat) :
  skipEntries mem mmap i e = e + mmapEntrySize mem mmap * i
  := by
  induction i generalizing e with
  | zero => rfl
  | succ i ih => rw [skipEntries, ih, Nat.mul_succ, Nat.add_assoc, Nat.add_comm (mmapEntrySize _ _)]

/-- The entry of a memory map of version 2. -/
theorem entriesAt_getElem {stride e : Nat} (h : EntriesAt mem stride e rs) {i : Nat}
    (hi : i < rs.length) :
  mem.load (e + stride * i) 8 = rs[i].base.toNat
    ∧ mem.load (e + stride * i + 8) 8 = rs[i].length.toNat
    ∧ mem.load (e + stride * i + 16) 4 = rs[i].type.toNat
  := by
  induction rs generalizing e i with
  | nil => exact absurd hi (Nat.not_lt_zero _)
  | cons r rs ih =>
      cases i with
      | zero => exact h.1
      | succ i =>
          have hrest := ih h.2 (Nat.lt_of_succ_lt_succ hi)
          rw [Nat.add_assoc e, Nat.add_comm stride, ← Nat.mul_succ] at hrest
          exact hrest

end Areas

/-! ### What the parsers find -/

/-- The kernel finds what is described, with the module `init`. -/
structure Finds (mem : Memory) (d : MbootData) (desc : Description) (init initLen : Nat) : Prop where
  commandline : Text mem d.commandline desc.commandline
  bootloader : Text mem d.bootloader desc.bootloader
  areas : ∀ n, memoryAreas mem d n 0 = (desc.regions.take n).map Region.area
  init : d.init = init
  initLen : d.initLen = initLen

section Version1

variable {mem : Memory} {a : Nat} {desc : Description}

/-- The fields after `parse_multiboot1`. -/
theorem parseMultiboot1_eq (data : Nat) :
  parseMultiboot1 mem (.start 1 data) = {
    version := 1
    data := data
    commandline := if HasFlag mem data 2 then p2v (infoCmdline mem data) else 0
    bootloader := if HasFlag mem data 9 then p2v (infoBootloaderName mem data) else 0
    mmapSize := if HasFlag mem data 6 then infoMmapLen mem data / entrySize else 0
    mmap := if HasFlag mem data 6 then p2v (infoMmapAddr mem data) else 0
    rsdp := 0
    init := if HasFlag mem data 3 ∧ infoModsCount mem data ≠ 0 then
      p2v (modStart mem (p2v (infoModsAddr mem data))) else 0
    initLen := if HasFlag mem data 3 ∧ infoModsCount mem data ≠ 0 then
      sub32 (modEnd mem (p2v (infoModsAddr mem data))) (modStart mem (p2v (infoModsAddr mem data)))
      else 0 }
  := by
  simp only [parseMultiboot1, MbootData.start]
  by_cases h2 : HasFlag mem data 2 <;> by_cases h9 : HasFlag mem data 9 <;>
    by_cases h6 : HasFlag mem data 6 <;> by_cases h3 : HasFlag mem data 3 <;>
    by_cases hcount : infoModsCount mem data = 0 <;>
    simp only [h2, h9, h6, h3, hcount, ne_eq, not_true_eq_false, not_false_eq_true, and_self,
      and_true, and_false, if_true, if_false]

/-- A pointer to low memory is not null. -/
theorem p2v_ne_zero {x : Nat} (h : x < 2 ^ 32) :
  p2v x ≠ 0
  := by
  rw [p2v, kernelOffset]
  omega

/-- A string that an info structure points to. -/
theorem Flagged.text {i x : Nat} {s : Option (List UInt8)} (hx : x < 2 ^ 32)
    (h : Flagged mem (p2v a) i (HoldsString mem (p2v x)) s) :
  Text mem (if HasFlag mem (p2v a) i then p2v x else 0) s
  := by
  cases s with
  | none =>
      rw [if_neg h]
      rfl
  | some s =>
      rw [if_pos h.1]
      exact ⟨p2v_ne_zero hx, h.2⟩

/-- The first module of an info structure. -/
theorem Encodes1.module (h : Encodes1 mem a desc) :
  (desc.init = none → ¬ (HasFlag mem (p2v a) 3 ∧ infoModsCount mem (p2v a) ≠ 0))
    ∧ ∀ m, desc.init = some m → (HasFlag mem (p2v a) 3 ∧ infoModsCount mem (p2v a) ≠ 0)
      ∧ modStart mem (p2v (infoModsAddr mem (p2v a))) = m.1.toNat
      ∧ modEnd mem (p2v (infoModsAddr mem (p2v a))) = m.2.toNat
  := by
  have hinit := h.init
  constructor
  · intro hmod
    rw [hmod] at hinit
    exact hinit
  · rintro ⟨start, stop⟩ hmod
    rw [hmod] at hinit
    exact hinit

/-- The kernel finds what an info structure of version 1 holds. -/
theorem Encodes1.finds (h : Encodes1 mem a desc) (fuel : Nat) :
  ∃ d, multibootInit mem fuel mboot1Magic2 (p2v a) = some d
    ∧ Finds mem d desc (desc.init.elim 0 fun m => p2v m.1.toNat)
      (desc.init.elim 0 fun m => sub32 m.2.toNat m.1.toNat)
  := by
  rw [multibootInit, if_pos rfl, parseMultiboot1_eq]
  refine ⟨_, rfl, ?_⟩
  refine ⟨h.commandline.text (mem.load_lt _ 4), h.bootloader.text (mem.load_lt _ 4), ?_, ?_, ?_⟩
  · intro n
    obtain ⟨hflag, hnil⟩ | ⟨hflag, hlen, hheld⟩ := h.regions
    · rw [@memoryAreas_eq mem _ [] (if_neg hflag) nofun, hnil, List.drop_nil]
    · have hsize : infoMmapLen mem (p2v a) / entrySize = desc.regions.length := by
        rw [hlen]
        exact Nat.mul_div_cancel_left _ (by decide)
      rw [@memoryAreas_eq mem _ desc.regions ((if_pos hflag).trans hsize), List.drop_zero]
      intro i hi
      rw [multibootGetMemoryArea]
      dsimp only
      rw [if_pos hflag, if_pos hflag, hsize, if_neg (Nat.not_le.mpr hi), if_pos rfl,
        area1_eq (holds_entry hheld hi)]
  · obtain ⟨hnone, hsome⟩ := h.module
    dsimp only
    cases hmod : desc.init with
    | none => rw [if_neg (hnone hmod), Option.elim_none]
    | some m =>
        obtain ⟨hflag, hstart, -⟩ := hsome m hmod
        rw [if_pos hflag, hstart, Option.elim_some]
  · obtain ⟨hnone, hsome⟩ := h.module
    dsimp only
    cases hmod : desc.init with
    | none => rw [if_neg (hnone hmod), Option.elim_none]
    | some m =>
        obtain ⟨hflag, hstart, hstop⟩ := hsome m hmod
        rw [if_pos hflag, hstart, hstop, Option.elim_some]

end Version1

section Version2

variable {mem : Memory} {a tag : Nat} {t : Tag} {tags : List Tag} {desc : Description}
  {d d' : MbootData}

/-- The memory map of version 2 that the kernel goes to. -/
def Maps (mem : Memory) (d : MbootData) (rs : List Region) : Prop :=
  d.mmapSize = rs.length
    ∧ (rs = [] ∨ EntriesAt mem (mmapEntrySize mem d.mmap) (mmapEntries d.mmap) rs)

/-- What the kernel knows after some tags of version 2: the last command line, the last name of a
boot loader and the last memory map of these tags, and what it knew before when there is none. -/
structure Knows (mem : Memory) (d : MbootData) (commandline bootloader : Option (List UInt8))
    (regions : List Region) : Prop where
  version : d.version = 2
  commandline : Text mem d.commandline commandline
  bootloader : Text mem d.bootloader bootloader
  regions : Maps mem d regions
  init : d.init = 0
  initLen : d.initLen = 0

/-- The number of the entries of a memory map of version 2. -/
theorem mmapSize_eq {stride n : Nat} (hstride : 24 ≤ stride) (hsize : 16 + stride * n < 2 ^ 32) :
  sub32 (16 + stride * n) 8 / stride = n
  := by
  have hsub : sub32 (16 + stride * n) 8 = 8 + stride * n := by
    rw [sub32]
    omega
  rw [hsub, Nat.add_mul_div_left _ _ (by omega), Nat.div_eq_of_lt (by omega), Nat.zero_add]

/-- What the kernel knows after one more tag. -/
theorem Knows.parseTag {commandline bootloader : Option (List UInt8)} {regions : List Region}
    (h : Knows mem d commandline bootloader regions) (htype : tagType mem tag = t.type)
    (hsize : tagSize mem tag = t.size) (hpayload : t.Payload mem tag) :
  Knows mem (Boot.parseTag mem d tag) (t.cmdline?.or commandline) (t.bootloader?.or bootloader)
    (t.mmap?.getD regions)
  := by
  have hne : tagData tag ≠ 0 := Nat.succ_ne_zero _
  rw [Boot.parseTag, htype, hsize]
  cases t with
  | cmdline s =>
      rw [Tag.type, if_pos rfl]
      exact ⟨h.version, ⟨hne, hpayload⟩, h.bootloader, h.regions, h.init, h.initLen⟩
  | bootloader s =>
      rw [Tag.type, if_neg (by decide), if_pos rfl]
      exact ⟨h.version, h.commandline, ⟨hne, hpayload⟩, h.regions, h.init, h.initLen⟩
  | module start stop s =>
      rw [Tag.type, if_neg (by decide), if_neg (by decide), if_neg (by decide), if_neg (by decide)]
      exact h
  | mmap stride regions' =>
      obtain ⟨hstride, heq, hentries⟩ := hpayload
      have hlt : tagSize mem tag < 2 ^ 32 := mem.load_lt (tag + 4) 4
      rw [hsize] at hlt
      rw [Tag.type, if_neg (by decide), if_neg (by decide), if_pos rfl, heq, Tag.size]
      refine ⟨h.version, h.commandline, h.bootloader, ⟨?_, Or.inr ?_⟩, h.init, h.initLen⟩
      · exact mmapSize_eq hstride hlt
      · rw [← heq] at hentries
        exact hentries
  | other type payload =>
      obtain ⟨hnot, -⟩ := hpayload
      simp only [List.mem_cons, List.not_mem_nil, or_false, not_or] at hnot
      rw [Tag.type, if_neg hnot.2.1, if_neg hnot.2.2.1, if_neg hnot.2.2.2.2]
      split
      · exact ⟨h.version, h.commandline, h.bootloader, h.regions, h.init, h.initLen⟩
      · exact h

theorem getLast?_filterMap_cons {α β : Type} (f : α → Option β) (x : α) (xs : List α)
    (y : Option β) :
  ((x :: xs).filterMap f).getLast?.or y = (xs.filterMap f).getLast?.or ((f x).or y)
  := by
  rw [List.filterMap_cons]
  cases f x with
  | none => rfl
  | some b =>
      rw [List.getLast?_cons]
      cases (xs.filterMap f).getLast? with
      | none => rfl
      | some c => rfl

theorem getLast?_filterMap_cons_getD {α β : Type} (f : α → Option β) (x : α) (xs : List α) (y : β) :
  ((x :: xs).filterMap f).getLast?.getD y = (xs.filterMap f).getLast?.getD ((f x).getD y)
  := by
  rw [List.filterMap_cons]
  cases f x with
  | none => rfl
  | some b =>
      rw [List.getLast?_cons]
      rfl

/-- A tag of the list is not the one that ends it. -/
theorem Tag.type_ne_zero (hpayload : t.Payload mem tag) :
  t.type ≠ 0
  := by
  cases t with
  | cmdline s => exact Nat.succ_ne_zero _
  | bootloader s => exact Nat.succ_ne_zero _
  | module start stop s => exact Nat.succ_ne_zero _
  | mmap stride regions => exact Nat.succ_ne_zero _
  | other type payload =>
      rintro rfl
      exact hpayload.1 List.mem_cons_self

/-- The kernel knows the last of the tags of each type. -/
theorem Knows.parseTags {commandline bootloader : Option (List UInt8)} {regions : List Region}
    {fuel : Nat} (h : Knows mem d commandline bootloader regions) (htags : TagsAt mem tag tags)
    (hfuel : tags.length < fuel) :
  ∃ d', Boot.parseTags mem fuel d tag = some d'
    ∧ Knows mem d' ((tags.filterMap Tag.cmdline?).getLast?.or commandline)
      ((tags.filterMap Tag.bootloader?).getLast?.or bootloader)
      ((tags.filterMap Tag.mmap?).getLast?.getD regions)
  := by
  induction tags generalizing fuel d tag commandline bootloader regions with
  | nil =>
      obtain ⟨fuel, rfl⟩ : ∃ n, fuel = n + 1 := ⟨fuel - 1, by omega⟩
      rw [TagsAt] at htags
      refine ⟨d, ?_, h⟩
      rw [Boot.parseTags, if_neg (not_not.mpr htags)]
  | cons t tags ih =>
      obtain ⟨fuel, rfl⟩ : ∃ n, fuel = n + 1 := ⟨fuel - 1, by omega⟩
      obtain ⟨⟨htype, hsize, hpayload⟩, hrest⟩ := htags
      have hnext : nextTag mem tag = t.next tag := by
        rw [nextTag, hsize, Tag.next]
      obtain ⟨d', hparse, hknows⟩ := ih (h.parseTag htype hsize hpayload) hrest
        (Nat.lt_of_succ_lt_succ hfuel)
      refine ⟨d', ?_, ?_⟩
      · rw [Boot.parseTags, if_pos (by rw [htype]; exact Tag.type_ne_zero hpayload), hnext, hparse]
      · rw [getLast?_filterMap_cons, getLast?_filterMap_cons, getLast?_filterMap_cons_getD]
        exact hknows

/-- The calls give the areas of a memory map of version 2. -/
theorem Maps.areas {rs : List Region} (h : Maps mem d rs) (hversion : d.version = 2) (n : Nat) :
  memoryAreas mem d n 0 = (rs.take n).map Region.area
  := by
  obtain ⟨hsize, hentries⟩ := h
  rw [memoryAreas_eq hsize, List.drop_zero]
  intro i hi
  obtain rfl | hentries := hentries
  · exact absurd hi (Nat.not_lt_zero _)
  · obtain ⟨hbase, hlength, htype⟩ := entriesAt_getElem hentries hi
    rw [multibootGetMemoryArea, if_neg (by omega), if_neg (by omega), area2, skipEntries_eq, hbase,
      hlength, htype]
    rfl

/-- The kernel finds what the tags of version 2 hold, but for a module. -/
theorem Encodes2.finds {fuel : Nat} (h : Encodes2 mem a desc tags) (hfuel : tags.length < fuel) :
  ∃ d, multibootInit mem fuel mboot2Magic2 (p2v a) = some d ∧ Finds mem d desc 0 0
  := by
  obtain ⟨⟨htags, -⟩, hdesc⟩ := h
  have hstart : Knows mem (.start 2 (p2v a)) none none [] :=
    ⟨rfl, rfl, rfl, ⟨rfl, Or.inl rfl⟩, rfl, rfl⟩
  obtain ⟨d, hparse, hknows⟩ := hstart.parseTags htags hfuel
  have hlast : ∀ x : Option (List UInt8), x.toList.getLast?.or none = x := by
    intro x
    cases x with
    | none => rfl
    | some s => rfl
  have hregions : (tags.filterMap Tag.mmap?).getLast?.getD [] = desc.regions := by
    obtain ⟨hnone, hnil⟩ | hsome := hdesc.regions
    · rw [hnone, hnil]
      rfl
    · rw [hsome]
      rfl
  rw [hdesc.commandline, hdesc.bootloader, hlast, hlast, hregions] at hknows
  refine ⟨d, ?_, hknows.commandline, hknows.bootloader, hknows.regions.areas hknows.version,
    hknows.init, hknows.initLen⟩
  rw [multibootInit, if_neg (by decide), if_pos rfl]
  exact hparse

end Version2

section Versions

variable {mem₁ mem₂ : Memory} {a₁ a₂ fuel : Nat} {desc : Description} {tags : List Tag}

/-- The kernel finds the same in both versions of a description just when this has no module. -/
theorem multibootInit_same_iff (h₁ : Encodes1 mem₁ a₁ desc) (h₂ : Encodes2 mem₂ a₂ desc tags)
    (hfuel : tags.length < fuel) :
  ∃ d₁ d₂, multibootInit mem₁ fuel mboot1Magic2 (p2v a₁) = some d₁
    ∧ multibootInit mem₂ fuel mboot2Magic2 (p2v a₂) = some d₂
    ∧ (Same mem₁ d₁ mem₂ d₂ ↔ desc.init = none)
  := by
  obtain ⟨d₁, hinit₁, hfinds₁⟩ := h₁.finds fuel
  obtain ⟨d₂, hinit₂, hfinds₂⟩ := h₂.finds hfuel
  refine ⟨d₁, d₂, hinit₁, hinit₂, ?_⟩
  constructor
  · intro hsame
    have hinit := hsame.init.1
    rw [hfinds₁.init, hfinds₂.init] at hinit
    cases hmod : desc.init with
    | none => rfl
    | some m =>
        rw [hmod, Option.elim_some] at hinit
        exact absurd hinit (p2v_ne_zero m.1.toNat_lt)
  · intro hnone
    refine ⟨hfinds₁.commandline.iff hfinds₂.commandline, hfinds₁.bootloader.iff hfinds₂.bootloader,
      ?_, ?_, ?_⟩
    · intro n
      rw [hfinds₁.areas, hfinds₂.areas]
    · rw [hfinds₁.init, hfinds₂.init, hnone, Option.elim_none]
    · rw [hfinds₁.initLen, hfinds₂.initLen, hnone, Option.elim_none]

end Versions

/-! ### A small machine -/

/-- The bytes of some 32-bit words. -/
def words4 (ws : List Nat) : List UInt8 :=
  ws.flatMap (Memory.wordBytes 4)

/-- One free region from `0x1000` to `0x9000`. -/
def lowRegion : Region where
  base := 0x1000
  length := 0x8000
  type := 1

/-- A command line, a region, and perhaps a module. -/
def small (init : Option (UInt32 × UInt32)) : Description where
  commandline := some [97]
  bootloader := none
  regions := [lowRegion]
  init := init

/-- An info structure of version 1 at the address `0x1000`, with the flags and the number of modules
given, and behind it the command line, the memory map and an entry for a module. -/
def memory1 (flags mods : Nat) : Memory :=
  Memory.write (fun _ => 0) (p2v 0x1000)
    (words4 [flags, 0, 0, 0, 0x1044, mods, 0x1060, 0, 0, 0, 0, 24, 0x1048, 0, 0, 0, 0]
      ++ words4 [97] ++ lowRegion.bytes1 ++ words4 [0x200000, 0x200010, 0, 0])

theorem encodes1_none :
  Encodes1 (memory1 0x44 0) 0x1000 (small none)
  := by
  refine ⟨?_, ?_, Or.inr ?_, ?_⟩
  · exact ⟨by decide, by decide, by decide⟩
  · exact fun h => absurd h (by decide)
  · exact ⟨by decide, by decide, by decide⟩
  · exact fun h => absurd h.1 (by decide)

theorem encodes1_some :
  Encodes1 (memory1 0x4C 1) 0x1000 (small (some (0x200000, 0x200010)))
  := by
  refine ⟨?_, ?_, Or.inr ?_, ?_⟩
  · exact ⟨by decide, by decide, by decide⟩
  · exact fun h => absurd h (by decide)
  · exact ⟨by decide, by decide, by decide⟩
  · exact ⟨⟨by decide, by decide⟩, by decide, by decide⟩

/-- The tags of version 2, the memory map before the command line. -/
def smallTags (modules : List Tag) : List Tag :=
  .mmap 24 [lowRegion] :: .cmdline [97] :: modules

/-- The data of version 2 at the address `0x1000`, with the tag for a module when `type` is its
type. -/
def memory2 (type : Nat) : Memory :=
  Memory.write (fun _ => 0) (p2v 0x1000)
    (words4 [0x60, 0, 6, 40, 24, 0, 0x1000, 0, 0x8000, 0, 1, 0, 1, 10, 97, 0, type, 17, 0x200000,
      0x200010, 0, 0, 0, 8])

theorem encodes2_none :
  Encodes2 (memory2 0) 0x1000 (small none) (smallTags [])
  := by
  refine ⟨⟨⟨⟨by decide, by decide, by decide, by decide, ⟨by decide, by decide, by decide⟩,
    trivial⟩, ⟨by decide, by decide, by decide, by decide⟩, ?_⟩, by decide⟩, ?_⟩
  · rw [TagsAt]
    decide
  · exact ⟨rfl, rfl, Or.inr rfl, rfl⟩

theorem encodes2_some :
  Encodes2 (memory2 mboot2Module) 0x1000 (small (some (0x200000, 0x200010)))
    (smallTags [.module 0x200000 0x200010 []])
  := by
  refine ⟨⟨⟨⟨by decide, by decide, by decide, by decide, ⟨by decide, by decide, by decide⟩,
    trivial⟩, ⟨by decide, by decide, by decide, by decide⟩,
    ⟨by decide, by decide, by decide, by decide, by decide, by decide⟩, ?_⟩, by decide⟩, ?_⟩
  · rw [TagsAt]
    decide
  · exact ⟨rfl, rfl, Or.inr rfl, rfl⟩

/-- Without a module both versions give the same. -/
theorem multibootInit_same_small :
  ∃ d₁ d₂, multibootInit (memory1 0x44 0) 4 mboot1Magic2 (p2v 0x1000) = some d₁
    ∧ multibootInit (memory2 0) 4 mboot2Magic2 (p2v 0x1000) = some d₂
    ∧ Same (memory1 0x44 0) d₁ (memory2 0) d₂
  := by
  have hfuel : (smallTags []).length < 4 := Nat.lt_of_sub_eq_succ rfl
  obtain ⟨d₁, d₂, hinit₁, hinit₂, hiff⟩ := multibootInit_same_iff encodes1_none encodes2_none hfuel
  exact ⟨d₁, d₂, hinit₁, hinit₂, hiff.mpr rfl⟩

/-- With a module, only version 1 finds it. -/
theorem multibootInit_loses_module :
  ∃ desc tags d₁ d₂, Encodes1 (memory1 0x4C 1) 0x1000 desc
    ∧ Encodes2 (memory2 mboot2Module) 0x1000 desc tags
    ∧ multibootInit (memory1 0x4C 1) 4 mboot1Magic2 (p2v 0x1000) = some d₁
    ∧ multibootInit (memory2 mboot2Module) 4 mboot2Magic2 (p2v 0x1000) = some d₂
    ∧ d₁.init = p2v 0x200000 ∧ d₁.initLen = 0x10 ∧ d₂.init = 0 ∧ d₂.initLen = 0
    ∧ ¬ Same (memory1 0x4C 1) d₁ (memory2 mboot2Module) d₂
  := by
  obtain ⟨d₁, hinit₁, hfinds₁⟩ := encodes1_some.finds 4
  obtain ⟨d₂, hinit₂, hfinds₂⟩ := @Encodes2.finds _ _ _ _ 4 encodes2_some (Nat.lt_of_sub_eq_succ rfl)
  have hmodule₁ : d₁.init = p2v 0x200000 := hfinds₁.init
  refine ⟨_, _, d₁, d₂, encodes1_some, encodes2_some, hinit₁, hinit₂, hmodule₁, hfinds₁.initLen,
    hfinds₂.init, hfinds₂.initLen, ?_⟩
  intro hsame
  have hinit := hsame.init.1
  rw [hmodule₁, hfinds₂.init] at hinit
  exact p2v_ne_zero (by decide) hinit

end Boot
