import Mittos64.Lib.Memory
import Mittos64.Mem.Layout

/-!
# Multiboot

`boot/multiboot.c`.  The boot loader leaves its data in low physical memory, which the kernel sees
from `KERNEL_OFFSET` on: the memory below is the one that the kernel sees.  There are two formats,
the info structure of version 1 with a flag for each of its parts, and the tags of version 2.

`Description` is what a boot loader says in either format, `Encodes1` and `Encodes2` say that the
memory holds it.
-/

namespace Boot

/-- `MBOOT1_MAGIC2` -/
def mboot1Magic2 : Nat := 0x2BADB002

/-- `MBOOT2_MAGIC2` -/
def mboot2Magic2 : Nat := 0x36D76289

/-- `MBOOT2_CMDLINE` -/
def mboot2Cmdline : Nat := 1

/-- `MBOOT2_BOOTLOADER` -/
def mboot2Bootloader : Nat := 2

/-- The type of the tag of a module, for which the source has no name. -/
def mboot2Module : Nat := 3

/-- `MBOOT2_MMAP` -/
def mboot2Mmap : Nat := 6

/-- `MBOOT2_ACPI_V1` -/
def mboot2AcpiV1 : Nat := 14

/-- `MBOOT2_ACPI_V2` -/
def mboot2AcpiV2 : Nat := 15

/-- `struct mboot_data_st` -/
structure MbootData where
  version : Nat
  data : Nat
  commandline : Nat
  bootloader : Nat
  mmap : Nat
  mmapSize : Nat
  rsdp : Nat
  init : Nat
  initLen : Nat

/-- `mboot_data` when the parser of a version is called, with all other fields still zero. -/
def MbootData.start (version data : Nat) : MbootData where
  version := version
  data := data
  commandline := 0
  bootloader := 0
  mmap := 0
  mmapSize := 0
  rsdp := 0
  init := 0
  initLen := 0

/-- `sizeof(mboot1_info)` -/
def infoSize : Nat := 96

/-- `sizeof(mboot1_mmap_entry)` -/
def entrySize : Nat := 24

/-- The difference of two 32-bit numbers. -/
def sub32 (m n : Nat) : Nat :=
  (m + 2 ^ 32 - n) % 2 ^ 32

section Source

variable (mem : Memory)

/-! ### Version 1 -/

/-- `data->flags` of an `mboot1_info` -/
def infoFlags (data : Nat) : Nat := mem.load data 4

/-- `data->cmdline` -/
def infoCmdline (data : Nat) : Nat := mem.load (data + 16) 4

/-- `data->mods_count` -/
def infoModsCount (data : Nat) : Nat := mem.load (data + 20) 4

/-- `data->mods_addr` -/
def infoModsAddr (data : Nat) : Nat := mem.load (data + 24) 4

/-- `data->mmap_len` -/
def infoMmapLen (data : Nat) : Nat := mem.load (data + 44) 4

/-- `data->mmap_addr` -/
def infoMmapAddr (data : Nat) : Nat := mem.load (data + 48) 4

/-- `data->bootloader_name` -/
def infoBootloaderName (data : Nat) : Nat := mem.load (data + 64) 4

/-- `mod->mod_start` of an `mboot1_module_entry` -/
def modStart (mod : Nat) : Nat := mem.load mod 4

/-- `mod->mod_end` -/
def modEnd (mod : Nat) : Nat := mem.load (mod + 4) 4

/-- `data->flags & (1<<i)` -/
def HasFlag (data i : Nat) : Prop :=
  infoFlags mem data &&& 1 <<< i ≠ 0

instance (data i : Nat) : Decidable (HasFlag mem data i) :=
  inferInstanceAs (Decidable (_ ≠ _))

/-- `parse_multiboot1()` -/
def parseMultiboot1 (d : MbootData) : MbootData :=
  let data := d.data
  let d := if HasFlag mem data 2 then { d with commandline := p2v (infoCmdline mem data) } else d
  let d :=
    if HasFlag mem data 9 then { d with bootloader := p2v (infoBootloaderName mem data) } else d
  let d :=
    if HasFlag mem data 6 then
      { d with
        mmapSize := infoMmapLen mem data / entrySize
        mmap := p2v (infoMmapAddr mem data) }
    else d
  if HasFlag mem data 3 then
    if infoModsCount mem data ≠ 0 then
      let mod := p2v (infoModsAddr mem data)
      { d with
        init := p2v (modStart mem mod)
        initLen := sub32 (modEnd mem mod) (modStart mem mod) }
    else d
  else d

/-! ### Version 2 -/

/-- `tag->type` of an `mboot2_tag_basic` -/
def tagType (tag : Nat) : Nat := mem.load tag 4

/-- `tag->size` -/
def tagSize (tag : Nat) : Nat := mem.load (tag + 4) 4

/-- `tag->data` -/
def tagData (tag : Nat) : Nat := tag + 8

/-- `next_tag(tag)` -/
def nextTag (tag : Nat) : Nat :=
  (tag + tagSize mem tag + 7) / 8 * 8

/-- `mmap->entry_size` of an `mboot2_memory_map` -/
def mmapEntrySize (mmap : Nat) : Nat := mem.load mmap 4

/-- `mmap->entries` -/
def mmapEntries (mmap : Nat) : Nat := mmap + 8

/-- The `switch` of `parse_multiboot2` -/
def parseTag (d : MbootData) (tag : Nat) : MbootData :=
  if tagType mem tag = mboot2Cmdline then { d with commandline := tagData tag }
  else if tagType mem tag = mboot2Bootloader then { d with bootloader := tagData tag }
  else if tagType mem tag = mboot2Mmap then
    { d with
      mmapSize := sub32 (tagSize mem tag) 8 / mmapEntrySize mem (tagData tag)
      mmap := tagData tag }
  else if tagType mem tag = mboot2AcpiV1 ∨ tagType mem tag = mboot2AcpiV2 then
    { d with rsdp := tagData tag }
  else d

/-- The loop of `parse_multiboot2`, for `fuel` turns. -/
def parseTags : Nat → MbootData → Nat → Option MbootData
  | 0, _, _ => none
  | fuel + 1, d, tag =>
      if tagType mem tag ≠ 0 then parseTags fuel (parseTag mem d tag) (nextTag mem tag)
      else some d

/-- `parse_multiboot2()` -/
def parseMultiboot2 (fuel : Nat) (d : MbootData) : Option MbootData :=
  parseTags mem fuel d (d.data + 8)

/-- `multiboot_init(magic, data)`.  With any other magic the kernel stops. -/
def multibootInit (fuel magic data : Nat) : Option MbootData :=
  if magic = mboot1Magic2 then some (parseMultiboot1 mem (.start 1 data))
  else if magic = mboot2Magic2 then parseMultiboot2 mem fuel (.start 2 data)
  else none

/-! ### What the kernel asks -/

/-- `overlap(start1, end1, start2, end2)` -/
def Overlap (start1 end1 start2 end2 : Nat) : Prop :=
  ¬ (start1 ≥ end2 ∨ end1 ≤ start2)

instance (start1 end1 start2 end2 : Nat) : Decidable (Overlap start1 end1 start2 end2) :=
  inferInstanceAs (Decidable (¬ _))

/-- `overlapsz(start1, size1, start2, size2)` -/
def Overlapsz (start1 size1 start2 size2 : Nat) : Prop :=
  Overlap start1 (incptr start1 size1) start2 (incptr start2 size2)

instance (start1 size1 start2 size2 : Nat) : Decidable (Overlapsz start1 size1 start2 size2) :=
  inferInstanceAs (Decidable (Overlap _ _ _ _))

/-- `multiboot_page_used(addr)`.  In version 1, `sizeof(data)` is the size of a pointer. -/
def multibootPageUsed (d : MbootData) (addr : Nat) : Nat :=
  if Overlapsz addr pageSize (v2p d.init) d.initLen then 1
  else if d.version = 1 then
    if Overlapsz addr pageSize (v2p d.data) 8 then 1
    else if HasFlag mem d.data 6
        ∧ Overlapsz addr pageSize (infoMmapAddr mem d.data) (infoMmapLen mem d.data * entrySize) then
      1
    else 0
  else
    if Overlapsz addr pageSize (v2p d.data) (mem.load d.data 4) then 1
    else if d.rsdp ≠ 0 ∧ Overlapsz addr pageSize d.rsdp 1 then 1
    else 0

/-- An area of memory, as `multiboot_get_memory_area` gives it. -/
structure MemoryArea where
  start : Nat
  stop : Nat
  type : Nat
  deriving DecidableEq

/-- `map[entry]` of version 1 -/
def area1 (mmap entry : Nat) : MemoryArea :=
  let e := mmap + entrySize * entry
  let start := incptr (mem.load (e + 8) 4 <<< 32) (mem.load (e + 4) 4)
  { start := start
    stop := incptr (incptr start (mem.load (e + 16) 4 <<< 32)) (mem.load (e + 12) 4)
    type := mem.load (e + 20) 4 }

/-- The loop of `multiboot_get_memory_area` that goes to an entry of version 2. -/
def skipEntries (mmap : Nat) : Nat → Nat → Nat
  | 0, e => e
  | i + 1, e => skipEntries mmap i (e + mmapEntrySize mem mmap)

/-- The entry number `entry` of version 2. -/
def area2 (mmap entry : Nat) : MemoryArea :=
  let e := skipEntries mem mmap entry (mmapEntries mmap)
  { start := mem.load e 8
    stop := incptr (mem.load e 8) (mem.load (e + 8) 8)
    type := mem.load (e + 16) 4 }

/-- `multiboot_get_memory_area(&start, &end, &type)`, with the variable `entry` before and after the
call. -/
def multibootGetMemoryArea (d : MbootData) (entry : Nat) : Option (MemoryArea × Nat) :=
  if entry ≥ d.mmapSize then none
  else if d.version = 1 then some (area1 mem d.mmap entry, entry + 1)
  else some (area2 mem d.mmap entry, entry + 1)

/-- The areas that `n` calls of `multiboot_get_memory_area` give. -/
def memoryAreas (d : MbootData) : Nat → Nat → List MemoryArea
  | 0, _ => []
  | n + 1, entry =>
      match multibootGetMemoryArea mem d entry with
      | none => []
      | some (area, entry) => area :: memoryAreas d n entry

end Source

/-! ### What a boot loader says -/

/-- A piece of memory that the boot loader knows of. -/
structure Region where
  base : UInt64
  length : UInt64
  type : UInt32

/-- The area of a region. -/
def Region.area (r : Region) : MemoryArea where
  start := r.base.toNat
  stop := incptr r.base.toNat r.length.toNat
  type := r.type.toNat

/-- What a boot loader says: the command line, its name, the memory, and the first and the last
address of a module. -/
structure Description where
  commandline : Option (List UInt8)
  bootloader : Option (List UInt8)
  regions : List Region
  init : Option (UInt32 × UInt32)

section Formats

variable (mem : Memory)

/-- The string at `p` is `s`. -/
def HoldsString (p : Nat) (s : List UInt8) : Prop :=
  0 ∉ s ∧ mem.Holds p (s ++ [0])

/-- The bytes of an entry of the memory map of version 1. -/
def Region.bytes1 (r : Region) : List UInt8 :=
  Memory.wordBytes 4 20 ++ Memory.wordBytes 8 r.base.toNat ++ Memory.wordBytes 8 r.length.toNat
    ++ Memory.wordBytes 4 r.type.toNat

/-- The part of an info structure with the flag `i` is there when it is described, and holds it. -/
def Flagged {α : Type} (data i : Nat) (held : α → Prop) : Option α → Prop
  | none => ¬ HasFlag mem data i
  | some a => HasFlag mem data i ∧ held a

/-- The memory holds an info structure of version 1 at the physical address `a`. -/
structure Encodes1 (a : Nat) (desc : Description) : Prop where
  commandline : Flagged mem (p2v a) 2 (HoldsString mem (p2v (infoCmdline mem (p2v a))))
    desc.commandline
  bootloader : Flagged mem (p2v a) 9 (HoldsString mem (p2v (infoBootloaderName mem (p2v a))))
    desc.bootloader
  regions : (¬ HasFlag mem (p2v a) 6 ∧ desc.regions = [])
    ∨ (HasFlag mem (p2v a) 6 ∧ infoMmapLen mem (p2v a) = entrySize * desc.regions.length
      ∧ mem.Holds (p2v (infoMmapAddr mem (p2v a))) (desc.regions.flatMap Region.bytes1))
  init : match desc.init with
    | none => ¬ (HasFlag mem (p2v a) 3 ∧ infoModsCount mem (p2v a) ≠ 0)
    | some (start, stop) => (HasFlag mem (p2v a) 3 ∧ infoModsCount mem (p2v a) ≠ 0)
      ∧ modStart mem (p2v (infoModsAddr mem (p2v a))) = start.toNat
      ∧ modEnd mem (p2v (infoModsAddr mem (p2v a))) = stop.toNat

/-- A tag.  `other` is any tag that is none of the ones before. -/
inductive Tag where
  | cmdline (s : List UInt8)
  | bootloader (s : List UInt8)
  | module (start stop : UInt32) (s : List UInt8)
  | mmap (stride : Nat) (regions : List Region)
  | other (type : Nat) (payload : List UInt8)

/-- The type of a tag. -/
def Tag.type : Tag → Nat
  | .cmdline _ => mboot2Cmdline
  | .bootloader _ => mboot2Bootloader
  | .module _ _ _ => mboot2Module
  | .mmap _ _ => mboot2Mmap
  | .other type _ => type

/-- The size of a tag, without what it is padded with. -/
def Tag.size : Tag → Nat
  | .cmdline s => 8 + (s.length + 1)
  | .bootloader s => 8 + (s.length + 1)
  | .module _ _ s => 16 + (s.length + 1)
  | .mmap stride regions => 16 + stride * regions.length
  | .other _ payload => 8 + payload.length

/-- The entries of a memory map of version 2, `stride` bytes apart. -/
def EntriesAt (stride : Nat) : Nat → List Region → Prop
  | _, [] => True
  | e, r :: rs =>
      (mem.load e 8 = r.base.toNat ∧ mem.load (e + 8) 8 = r.length.toNat
        ∧ mem.load (e + 16) 4 = r.type.toNat)
      ∧ EntriesAt stride (e + stride) rs

/-- What a tag at `tag` holds behind its size. -/
def Tag.Payload (tag : Nat) : Tag → Prop
  | .cmdline s => HoldsString mem (tagData tag) s
  | .bootloader s => HoldsString mem (tagData tag) s
  | .module start stop s =>
      mem.load (tagData tag) 4 = start.toNat ∧ mem.load (tagData tag + 4) 4 = stop.toNat
        ∧ HoldsString mem (tagData tag + 8) s
  | .mmap stride regions =>
      24 ≤ stride ∧ mmapEntrySize mem (tagData tag) = stride
        ∧ EntriesAt mem stride (mmapEntries (tagData tag)) regions
  | .other type payload =>
      type ∉ [0, mboot2Cmdline, mboot2Bootloader, mboot2Module, mboot2Mmap]
        ∧ mem.Holds (tagData tag) payload

/-- The address behind a tag and what it is padded with. -/
def Tag.next (t : Tag) (tag : Nat) : Nat :=
  (tag + t.size + 7) / 8 * 8

/-- The memory holds these tags from `tag` on, and the tag that ends the list. -/
def TagsAt : Nat → List Tag → Prop
  | tag, [] => tagType mem tag = 0
  | tag, t :: ts =>
      (tagType mem tag = t.type ∧ tagSize mem tag = t.size ∧ t.Payload mem tag)
        ∧ TagsAt (t.next tag) ts

/-- The address of the tag that ends the list. -/
def tagsEnd (tag : Nat) (tags : List Tag) : Nat :=
  tags.foldl (fun tag t => t.next tag) tag

/-- The memory holds the data of version 2 at the physical address `a`, with these tags. -/
structure Info2 (a : Nat) (tags : List Tag) : Prop where
  list : TagsAt mem (p2v a + 8) tags
  total : tagsEnd (p2v a + 8) tags + 8 ≤ p2v a + mem.load (p2v a) 4

/-- The string of a command line. -/
def Tag.cmdline? : Tag → Option (List UInt8)
  | .cmdline s => some s
  | _ => none

/-- The name of a boot loader. -/
def Tag.bootloader? : Tag → Option (List UInt8)
  | .bootloader s => some s
  | _ => none

/-- The addresses of a module. -/
def Tag.module? : Tag → Option (UInt32 × UInt32)
  | .module start stop _ => some (start, stop)
  | _ => none

/-- The regions of a memory map. -/
def Tag.mmap? : Tag → Option (List Region)
  | .mmap _ regions => some regions
  | _ => none

/-- The tags, in any order, say what is described. -/
structure Describes (tags : List Tag) (desc : Description) : Prop where
  commandline : tags.filterMap Tag.cmdline? = desc.commandline.toList
  bootloader : tags.filterMap Tag.bootloader? = desc.bootloader.toList
  regions : (tags.filterMap Tag.mmap? = [] ∧ desc.regions = [])
    ∨ tags.filterMap Tag.mmap? = [desc.regions]
  init : (tags.filterMap Tag.module?).head? = desc.init

/-- The memory holds the data of version 2 at the physical address `a`, in tags of any order. -/
def Encodes2 (a : Nat) (desc : Description) (tags : List Tag) : Prop :=
  Info2 mem a tags ∧ Describes tags desc

end Formats

end Boot
