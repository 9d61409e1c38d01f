import Mittos64.Boot.Protocols
import Mittos64.Lib.Run
import Mathlib.Data.List.Pairwise

/-!
# Walking over the tags

The loop of `parse_multiboot2` goes from tag to tag by their sizes, and ends at the first tag of the
type 0.  `Walk` says which tags it comes to.  In a block of tags it records what they hold, and the
calls of `multiboot_get_memory_area` then give the entries of the memory map.  In any other block it
follows the sizes all the same: it looks neither at `total_size` nor at an entry size of 0.
-/

namespace Boot

section Definitions

variable (mem : Memory)

/-- The tags from `tag` on are at the addresses `ts`, with the tag of the type 0 at `last` behind
them. -/
def Walk : Nat → List Nat → Nat → Prop
  | tag, [], last => tag = last ∧ tagType mem tag = 0
  | tag, t :: ts, last => tag = t ∧ tagType mem tag ≠ 0 ∧ Walk (nextTag mem tag) ts last

/-- A tag that holds an RSDP. -/
def IsRsdp (tag : Nat) : Prop :=
  tagType mem tag = mboot2AcpiV1 ∨ tagType mem tag = mboot2AcpiV2

/-- Two tags are of the same kind, one of those that the kernel records. -/
def SameKind (t u : Nat) : Prop :=
  tagType mem t = tagType mem u ∧ tagType mem t
    ∈ [mboot2Cmdline, mboot2Bootloader, mboot2Mmap, mboot2AcpiV1, mboot2AcpiV2]

instance : DecidablePred (IsRsdp mem) :=
  fun _ => inferInstanceAs (Decidable (_ ∨ _))

instance (t u : Nat) : Decidable (SameKind mem t u) :=
  inferInstanceAs (Decidable (_ ∧ _))

/-- The addresses of tags that lie one behind the other. -/
def tagAddresses : Nat → List Tag → List Nat
  | _, [] => []
  | tag, t :: ts => tag :: tagAddresses (t.next tag) ts

/-- The block at `data` is well formed, with its tags at the addresses `ts`. -/
structure Block (data : Nat) (ts : List Nat) : Prop where
  aligned : data % 8 = 0
  walk : ∃ last, Walk mem (data + 8) ts last
  size : ∀ t ∈ ts, 8 ≤ tagSize mem t
  once : ts.Pairwise fun t u => ¬ SameKind mem t u

/-- The last of the tags of a kind. -/
def Last (ts : List Nat) (kind : Nat → Prop) (t : Nat) : Prop :=
  kind t ∧ ∀ u ∈ ts, t < u → ¬ kind u

/-- The field is the one of the tag of this kind, or zero when there is none. -/
structure Recorded (ts : List Nat) (kind : Nat → Prop) (field : Nat) : Prop where
  found : ∀ t ∈ ts, kind t → field = tagData t
  missing : (∀ t ∈ ts, ¬ kind t) → field = 0

/-- The headers that the loop of `parse_multiboot2` reads in at most `fuel` turns. -/
def headersRead : Nat → Nat → List Nat
  | 0, _ => []
  | fuel + 1, tag => tag :: if tagType mem tag ≠ 0 then headersRead fuel (nextTag mem tag) else []

/-- `parse_multiboot2` ends on the block at `data`, reads no header that is not within its
`total_size`, and does not divide by zero. -/
structure ParsesSafely (data : Nat) : Prop where
  ends : ∃ fuel d, parseMultiboot2 mem fuel (.start 2 data) = some d
  within : ∀ fuel, ∀ tag ∈ headersRead mem fuel (data + 8), tag + 8 ≤ data + mem.load data 4
  divides : ∀ fuel, ∀ tag ∈ headersRead mem fuel (data + 8),
    tagType mem tag = mboot2Mmap → mmapEntrySize mem (tagData tag) ≠ 0

end Definitions

/-! ### The loop -/

section Loop

variable {mem : Memory} {tag last : Nat} {ts : List Nat}

/-- The loop goes once over the tags and ends. -/
theorem Walk.parseTags (h : Walk mem tag ts last) (fuel : Nat) (d : MbootData) :
  parseTags mem fuel d tag
    = if ts.length < fuel then some (ts.foldl (parseTag mem) d) else none
  := by
  induction ts generalizing fuel d tag with
  | nil =>
      obtain ⟨-, hzero⟩ := h
      cases fuel with
      | zero => rfl
      | succ fuel =>
          rw [Boot.parseTags, if_neg (not_not.mpr hzero), List.length_nil, if_pos (Nat.succ_pos fuel)]
          rfl
  | cons t ts ih =>
      obtain ⟨rfl, hne, hrest⟩ := h
      cases fuel with
      | zero => rfl
      | succ fuel =>
          rw [Boot.parseTags, if_pos hne, ih hrest, List.foldl_cons, List.length_cons]
          simp only [Nat.add_lt_add_iff_right]

/-- The tags that the memory holds are those of a walk. -/
theorem TagsAt.walk {tags : List Tag} (h : TagsAt mem tag tags) :
  Walk mem tag (tagAddresses tag tags) (tagsEnd tag tags)
  := by
  induction tags generalizing tag with
  | nil => exact ⟨rfl, h⟩
  | cons t tags ih =>
      obtain ⟨⟨htype, hsize, hpayload⟩, hrest⟩ := h
      have hnext : nextTag mem tag = t.next tag := by
        rw [nextTag, hsize, Tag.next]
      refine ⟨rfl, ?_, ?_⟩
      · rw [htype]
        exact Tag.type_ne_zero hpayload
      · rw [hnext]
        exact ih hrest

/-- When the loop ends, it has gone over the tags of a walk. -/
theorem walk_of_parseTags {fuel : Nat} {d d' : MbootData}
    (h : parseTags mem fuel d tag = some d') :
  ∃ ts last, Walk mem tag ts last
  := by
  induction fuel generalizing d tag with
  | zero => exact absurd h nofun
  | succ fuel ih =>
      rw [Boot.parseTags] at h
      split_ifs at h with hne
      · obtain ⟨ts, last, hrest⟩ := ih h
        exact ⟨tag :: ts, last, rfl, hne, hrest⟩
      · exact ⟨[], tag, rfl, not_not.mp hne⟩

/-- A tag that leads to itself is never left. -/
theorem parseTags_stuck (hne : tagType mem tag ≠ 0) (hnext : nextTag mem tag = tag) (fuel : Nat)
    (d : MbootData) :
  parseTags mem fuel d tag = none
  := by
  induction fuel generalizing d with
  | zero => rfl
  | succ fuel ih => rw [Boot.parseTags, if_pos hne, hnext, ih]

theorem Walk.last_type (h : Walk mem tag ts last) :
  tagType mem last = 0
  := by
  induction ts generalizing tag with
  | nil => exact h.1 ▸ h.2
  | cons t ts ih => exact ih h.2.2

theorem le_nextTag (mem : Memory) (tag : Nat) :
  tag + tagSize mem tag ≤ nextTag mem tag
  := by
  rw [nextTag]
  omega

/-- The tag that ends the list is behind all others. -/
theorem Walk.le_last (h : Walk mem tag ts last) :
  ∀ t ∈ tag :: ts, t ≤ last
  := by
  induction ts generalizing tag with
  | nil =>
      obtain ⟨rfl, -⟩ := h
      simp
  | cons t ts ih =>
      obtain ⟨rfl, -, hrest⟩ := h
      have hle := ih hrest
      have hnext := le_nextTag mem tag
      have hlast := hle _ List.mem_cons_self
      simp only [List.forall_mem_cons]
      exact ⟨by omega, by omega, fun u hu => hle u (List.mem_cons_of_mem _ hu)⟩

/-- The loop reads the headers of these tags and of the one that ends the list, and no others. -/
theorem Walk.headersRead (h : Walk mem tag ts last) (fuel : Nat) :
  headersRead mem fuel tag = (ts ++ [last]).take fuel
  := by
  induction fuel generalizing tag ts with
  | zero => rfl
  | succ fuel ih =>
      cases ts with
      | nil =>
          obtain ⟨rfl, hzero⟩ := h
          rw [Boot.headersRead, if_neg (not_not.mpr hzero)]
          simp
      | cons t ts =>
          obtain ⟨rfl, hne, hrest⟩ := h
          rw [Boot.headersRead, if_pos hne, ih hrest]
          simp

/-- Tags of a size are one behind the other. -/
theorem Walk.pairwise_lt (h : Walk mem tag ts last) (hsize : ∀ t ∈ ts, 8 ≤ tagSize mem t) :
  ts.Pairwise (· < ·) ∧ ∀ t ∈ ts, tag ≤ t
  := by
  induction ts generalizing tag with
  | nil => exact ⟨List.Pairwise.nil, nofun⟩
  | cons t ts ih =>
      obtain ⟨rfl, -, hrest⟩ := h
      rw [List.forall_mem_cons] at hsize
      obtain ⟨hlt, hle⟩ := ih hrest hsize.2
      have hnext := le_nextTag mem tag
      have hbehind : ∀ u ∈ ts, tag < u := by
        intro u hu
        have := hle u hu
        omega
      rw [List.pairwise_cons, List.forall_mem_cons]
      exact ⟨⟨hbehind, hlt⟩, Nat.le_refl _, fun u hu => Nat.le_of_lt (hbehind u hu)⟩

end Loop

/-! ### What the loop records -/

section Records

variable {mem : Memory} {data : Nat} {ts : List Nat}

/-- Each field is written for its own kind of tags. -/
theorem parseTag_eq (d : MbootData) (t : Nat) :
  parseTag mem d t = { d with
    commandline := if tagType mem t = mboot2Cmdline then tagData t else d.commandline
    bootloader := if tagType mem t = mboot2Bootloader then tagData t else d.bootloader
    mmapSize := if tagType mem t = mboot2Mmap
      then sub32 (tagSize mem t) 8 / mmapEntrySize mem (tagData t) else d.mmapSize
    mmap := if tagType mem t = mboot2Mmap then tagData t else d.mmap
    rsdp := if IsRsdp mem t then tagData t else d.rsdp }
  := by
  by_cases hcmdline : tagType mem t = mboot2Cmdline
  · simp [parseTag, IsRsdp, hcmdline, mboot2Cmdline, mboot2Bootloader, mboot2Mmap, mboot2AcpiV1,
      mboot2AcpiV2]
  · by_cases hbootloader : tagType mem t = mboot2Bootloader
    · simp [parseTag, IsRsdp, hbootloader, mboot2Cmdline, mboot2Bootloader, mboot2Mmap,
        mboot2AcpiV1, mboot2AcpiV2]
    · by_cases hmmap : tagType mem t = mboot2Mmap
      · simp [parseTag, IsRsdp, hmmap, mboot2Cmdline, mboot2Bootloader, mboot2Mmap, mboot2AcpiV1,
          mboot2AcpiV2]
      · rw [parseTag, if_neg hcmdline, if_neg hbootloader, if_neg hmmap, if_neg hcmdline,
          if_neg hbootloader, if_neg hmmap, if_neg hmmap]
        by_cases hrsdp : IsRsdp mem t
        · exact (if_pos hrsdp).trans (by rw [if_pos hrsdp])
        · exact (if_neg hrsdp).trans (by rw [if_neg hrsdp])

/-- `parse_multiboot2` keeps the version. -/
theorem foldl_parseTag_version (ts : List Nat) (d : MbootData) :
  (ts.foldl (parseTag mem) d).version = d.version
  := by
  induction ts generalizing d with
  | nil => rfl
  | cons t ts ih => rw [List.foldl_cons, ih, parseTag_eq]

theorem sameKind_of_type {kind t u : Nat}
    (hkind : kind ∈ [mboot2Cmdline, mboot2Bootloader, mboot2Mmap, mboot2AcpiV1, mboot2AcpiV2])
    (ht : tagType mem t = kind) (hu : tagType mem u = kind) :
  SameKind mem t u
  := ⟨ht.trans hu.symm, ht ▸ hkind⟩

/-- There is one tag of each kind. -/
theorem Block.eq_of_sameKind (h : Block mem data ts) {t u : Nat} (ht : t ∈ ts) (hu : u ∈ ts)
    (hsame : SameKind mem t u) :
  t = u
  := by
  have : Std.Symm fun t u => ¬ SameKind mem t u :=
    ⟨fun t u hnot hsame => hnot ⟨hsame.1.symm, hsame.1 ▸ hsame.2⟩⟩
  by_contra hne
  exact h.once.forall ht hu hne hsame

/-- The field of a kind of tags is the one of the last of them. -/
theorem Block.recorded_last (h : Block mem data ts) {field : MbootData → Nat} {kind : Nat → Prop}
    [DecidablePred kind]
    (hparse : ∀ d t, field (parseTag mem d t) = if kind t then tagData t else field d)
    (hzero : field (.start 2 data) = 0) :
  Recorded ts (Last ts kind) (field (ts.foldl (parseTag mem) (.start 2 data)))
  := by
  obtain ⟨last, hwalk⟩ := h.walk
  obtain ⟨hlt, -⟩ := hwalk.pairwise_lt h.size
  obtain ⟨pre, t, post, rfl, ht, hpost, hfield⟩ | ⟨hnone, hfield⟩ :=
    foldl_written hparse ts (.start 2 data)
  · have hbefore : ∀ u ∈ pre, u < t :=
      fun u hu => (List.pairwise_append.mp hlt).2.2 u hu t List.mem_cons_self
    have hlast : Last (pre ++ t :: post) kind t := by
      refine ⟨ht, ?_⟩
      intro u hu htu
      obtain hu | hu := List.mem_append.mp hu
      · have := hbefore u hu
        omega
      · obtain rfl | hu := List.mem_cons.mp hu
        · exact absurd htu (Nat.lt_irrefl _)
        · exact hpost u hu
    have hmem : t ∈ pre ++ t :: post := List.mem_append_right _ List.mem_cons_self
    constructor
    · rintro u hu ⟨hkind, hu'⟩
      obtain hut | rfl | htu := Nat.lt_trichotomy u t
      · exact absurd ht (hu' t hmem hut)
      · exact hfield
      · exact absurd hkind (hlast.2 u hu htu)
    · intro hnone
      exact absurd hlast (hnone t hmem)
  · exact ⟨fun t ht hlast => absurd hlast.1 (hnone t ht), fun _ => hfield.trans hzero⟩

/-- The field of a kind of tags, when there is at most one of them. -/
theorem Block.recorded (h : Block mem data ts) {field : MbootData → Nat} {kind : Nat → Prop}
    (hsame : ∀ t u, kind t ∧ kind u → SameKind mem t u)
    [DecidablePred kind]
    (hparse : ∀ d t, field (parseTag mem d t) = if kind t then tagData t else field d)
    (hzero : field (.start 2 data) = 0) :
  Recorded ts kind (field (ts.foldl (parseTag mem) (.start 2 data)))
  := by
  obtain ⟨hfound, hmissing⟩ := h.recorded_last hparse hzero
  constructor
  · intro t ht hkind
    apply hfound t ht
    exact ⟨hkind, fun u hu htu hu' =>
      Nat.ne_of_lt htu (h.eq_of_sameKind ht hu (hsame t u ⟨hkind, hu'⟩))⟩
  · intro hnone
    exact hmissing fun t ht hlast => hnone t ht hlast.1

/-- The field of the tags of one type. -/
theorem Block.recorded_type (h : Block mem data ts) {field : MbootData → Nat} {kind : Nat}
    (hkind : kind ∈ [mboot2Cmdline, mboot2Bootloader, mboot2Mmap, mboot2AcpiV1, mboot2AcpiV2])
    (hparse : ∀ d t, field (parseTag mem d t) = if tagType mem t = kind then tagData t else field d)
    (hzero : field (.start 2 data) = 0) :
  Recorded ts (fun t => tagType mem t = kind) (field (ts.foldl (parseTag mem) (.start 2 data)))
  := by
  apply h.recorded _ hparse hzero
  rintro t u ⟨ht, hu⟩
  exact sameKind_of_type hkind ht hu

theorem Block.recorded_commandline (h : Block mem data ts) :
  Recorded ts (fun t => tagType mem t = mboot2Cmdline)
    (ts.foldl (parseTag mem) (.start 2 data)).commandline
  := by
  apply h.recorded_type (by decide) _ rfl
  intro d t
  rw [parseTag_eq]

theorem Block.recorded_bootloader (h : Block mem data ts) :
  Recorded ts (fun t => tagType mem t = mboot2Bootloader)
    (ts.foldl (parseTag mem) (.start 2 data)).bootloader
  := by
  apply h.recorded_type (by decide) _ rfl
  intro d t
  rw [parseTag_eq]

theorem Block.recorded_mmap (h : Block mem data ts) :
  Recorded ts (fun t => tagType mem t = mboot2Mmap)
    (ts.foldl (parseTag mem) (.start 2 data)).mmap
  := by
  apply h.recorded_type (by decide) _ rfl
  intro d t
  rw [parseTag_eq]

theorem Block.recorded_rsdp (h : Block mem data ts) :
  Recorded ts (Last ts (IsRsdp mem)) (ts.foldl (parseTag mem) (.start 2 data)).rsdp
  := by
  apply h.recorded_last
  · intro d t
    rw [parseTag_eq]
  · rfl

/-- The number of the entries is computed from the tag of the memory map. -/
theorem Block.mmapSize (h : Block mem data ts) {map : Nat} (hmap : map ∈ ts)
    (htype : tagType mem map = mboot2Mmap) :
  (ts.foldl (parseTag mem) (.start 2 data)).mmapSize
    = sub32 (tagSize mem map) 8 / mmapEntrySize mem (tagData map)
  := by
  have hparse : ∀ d t, (parseTag mem d t).mmapSize = if tagType mem t = mboot2Mmap
      then sub32 (tagSize mem t) 8 / mmapEntrySize mem (tagData t) else d.mmapSize := by
    intro d t
    rw [parseTag_eq]
  obtain ⟨pre, t, post, rfl, ht, -, hsize⟩ | ⟨hnone, -⟩ :=
    foldl_written hparse ts (.start 2 data)
  · have heq : t = map := by
      apply h.eq_of_sameKind (List.mem_append_right _ List.mem_cons_self) hmap
      exact sameKind_of_type (by decide) ht htype
    rw [hsize, heq]
  · exact absurd htype (hnone map hmap)

/-- `parse_multiboot2` goes over every tag of a block once and ends, with the command line, the name
of the boot loader and the RSDP recorded: when there are two, of the old and the new kind, the last
one.  The calls of `multiboot_get_memory_area` after it give the entries of the memory map in their
order, and then nothing. -/
theorem multiboot2_roundTrip {map stride : Nat} {rs : List Region} (h : Block mem data ts)
    (hmap : map ∈ ts) (htype : tagType mem map = mboot2Mmap) (hstride : 24 ≤ stride)
    (hentry : mmapEntrySize mem (tagData map) = stride)
    (hsize : tagSize mem map = 16 + stride * rs.length)
    (hentries : EntriesAt mem stride (mmapEntries (tagData map)) rs) :
  ∃ d, (∀ fuel, parseMultiboot2 mem fuel (.start 2 data)
      = if ts.length < fuel then some d else none)
    ∧ ts.Nodup ∧ d = ts.foldl (parseTag mem) (.start 2 data)
    ∧ Recorded ts (fun t => tagType mem t = mboot2Cmdline) d.commandline
    ∧ Recorded ts (fun t => tagType mem t = mboot2Bootloader) d.bootloader
    ∧ Recorded ts (Last ts (IsRsdp mem)) d.rsdp
    ∧ (∀ n, memoryAreas mem d n 0 = (rs.take n).map Region.area)
    ∧ multibootGetMemoryArea mem d rs.length = none
  := by
  obtain ⟨last, hwalk⟩ := h.walk
  have hlt : tagSize mem map < 2 ^ 32 := mem.load_lt (map + 4) 4
  have hcount : (ts.foldl (parseTag mem) (.start 2 data)).mmapSize = rs.length := by
    rw [h.mmapSize hmap htype, hsize, hentry]
    apply mmapSize_eq hstride
    rw [← hsize]
    exact hlt
  have hplace := h.recorded_mmap.found map hmap htype
  have hmaps : Maps mem (ts.foldl (parseTag mem) (.start 2 data)) rs := by
    refine ⟨hcount, Or.inr ?_⟩
    rw [hplace, hentry]
    exact hentries
  refine ⟨_, fun fuel => hwalk.parseTags fuel _, ?_, rfl, h.recorded_commandline,
    h.recorded_bootloader, h.recorded_rsdp, hmaps.areas (foldl_parseTag_version ts _), ?_⟩
  · exact (hwalk.pairwise_lt h.size).1.imp Nat.ne_of_lt
  · rw [multibootGetMemoryArea, if_pos (Nat.le_of_eq hcount)]

/-- The block of a memory map and a command line. -/
theorem block_smallTags :
  Block (memory2 0) (p2v 0x1000) (tagAddresses (p2v 0x1000 + 8) (smallTags []))
  where
  aligned := by decide
  walk := ⟨_, encodes2_none.1.list.walk⟩
  size := by decide
  once := by decide

/-- The memory map of this block has one entry. -/
theorem multiboot2_roundTrip_small :
  ∃ d, (∀ fuel, parseMultiboot2 (memory2 0) fuel (.start 2 (p2v 0x1000))
      = if 2 < fuel then some d else none)
    ∧ ∀ n, memoryAreas (memory2 0) d n 0 = ([lowRegion].take n).map Region.area
  := by
  obtain ⟨⟨-, -, -, hentry, hentries⟩, -⟩ := encodes2_none.1.list
  obtain ⟨d, hparse, -, -, -, -, -, hareas, -⟩ := multiboot2_roundTrip block_smallTags
    List.mem_cons_self (by decide) (Nat.le_refl 24) hentry (by decide) hentries
  exact ⟨d, hparse, hareas⟩

end Records

/-! ### Blocks of any bytes -/

section Malformed

variable {mem : Memory} {data : Nat}

/-- `parse_multiboot2` is safe just when the sizes lead from the first tag to a tag of the type 0
that lies within `total_size`, and no memory map before it has the entry size 0. -/
theorem parseMultiboot2_safe_iff (mem : Memory) (data : Nat) :
  ParsesSafely mem data ↔ ∃ ts last, Walk mem (data + 8) ts last
    ∧ last + 8 ≤ data + mem.load data 4
    ∧ ∀ t ∈ ts, tagType mem t = mboot2Mmap → mmapEntrySize mem (tagData t) ≠ 0
  := by
  constructor
  · intro h
    obtain ⟨fuel, d, hparse⟩ := h.ends
    obtain ⟨ts, last, hwalk⟩ : ∃ ts last, Walk mem (data + 8) ts last := walk_of_parseTags hparse
    have hread : headersRead mem (ts.length + 1) (data + 8) = ts ++ [last] := by
      rw [hwalk.headersRead]
      apply List.take_of_length_le
      simp
    refine ⟨ts, last, hwalk, ?_, ?_⟩
    · apply h.within (ts.length + 1)
      rw [hread]
      simp
    · intro t ht
      apply h.divides (ts.length + 1)
      rw [hread]
      simp [ht]
  · rintro ⟨ts, last, hwalk, hlast, hmaps⟩
    have hread : ∀ fuel, ∀ t ∈ headersRead mem fuel (data + 8), t ∈ ts ∨ t = last := by
      intro fuel t ht
      rw [hwalk.headersRead] at ht
      have := List.mem_of_mem_take ht
      simpa using this
    have hle := hwalk.le_last
    constructor
    · exact ⟨ts.length + 1, _, by
        rw [parseMultiboot2]
        exact (hwalk.parseTags _ _).trans (if_pos (Nat.lt_succ_self _))⟩
    · intro fuel t ht
      obtain ht | rfl := hread fuel t ht
      · have := hle t (List.mem_cons_of_mem _ ht)
        omega
      · exact hlast
    · intro fuel t ht hmmap
      obtain ht | rfl := hread fuel t ht
      · exact hmaps t ht hmmap
      · rw [hwalk.last_type] at hmmap
        exact absurd hmmap (by decide)

/-- A block of 24 bytes with a command line of the size 0. -/
def emptyTag : Memory :=
  Memory.write (fun _ => 0) 0 (words4 [24, 0, mboot2Cmdline, 0])

/-- The loop never leaves a tag of the size 0. -/
theorem parseMultiboot2_stuck :
  (∀ fuel, parseMultiboot2 emptyTag fuel (.start 2 0) = none) ∧ ¬ ParsesSafely emptyTag 0
  := by
  have hstuck : ∀ fuel, parseMultiboot2 emptyTag fuel (.start 2 0) = none :=
    fun fuel => parseTags_stuck (by decide) (by decide) fuel _
  refine ⟨hstuck, ?_⟩
  intro h
  obtain ⟨fuel, d, hparse⟩ := h.ends
  rw [hstuck] at hparse
  exact absurd hparse nofun

end Malformed

end Boot
