import Mathlib.Tactic.Simps.Basic
import Mittos64.List
import Mittos64.Mem.Vmm

/-!
# The memory of a process

`proc/procmm.c`, with the copying between address spaces of `mem/vmm.c` and `syscall_brk`.
The memory of a process is a map: a P4, and a list of areas that is to be sorted by address.
`procmm_map` adds an area and maps its pages; `procmm_resize` and `procmm_page_fault` make
the area of the break and the area of the stack larger; `procmm_new_map` copies a map, and
`procmm_free_map` takes it down.

The areas and the maps are blocks of the kernel heap, numbered in the order in which they are
allocated.  An allocation can make the heap larger: the allocation number `n` maps `grow n`
pages at the end of the heap.  A call that follows a null pointer, that runs in circles or that
finds the free stack empty does not return: it is `none`.
-/

open DList

namespace Procmm

open Mem

/-- `procmm_area_t`, but for its links. -/
structure Area where
  start : Nat
  stop : Nat
  flags : Nat
  map : Nat

/-- `procmm_mmap_t`, but for its process. -/
structure Map where
  P4 : Nat
  areas : Link Nat
  brk : Option Nat
  stack : Option Nat

/-- The machine, the end of the kernel heap, and the areas and maps on the heap. -/
structure Kernel where
  machine : Machine
  heapBrk : Nat
  area : Nat → Area
  link : Nat → Link Nat
  map : Nat → Map
  live : Nat → Bool
  areas : Nat
  maps : Nat

section Kernel

variable (k : Kernel)

/-- The kernel with another machine. -/
@[simps]
def Kernel.withMachine (s : Machine) : Kernel :=
  { k with machine := s }

/-- The kernel with other links: those in the head of the list of `m`, and those of the
areas. -/
@[simps]
def Kernel.withLists (m : Nat) (head : Link Nat) (link : Nat → Link Nat) : Kernel :=
  { k with map := Function.update k.map m { k.map m with areas := head }, link := link }

/-- `a->start = start` -/
@[simps]
def Kernel.setStart (a start : Nat) : Kernel :=
  { k with area := Function.update k.area a { k.area a with start := start } }

/-- `a->end = stop` -/
@[simps]
def Kernel.setStop (a stop : Nat) : Kernel :=
  { k with area := Function.update k.area a { k.area a with stop := stop } }

/-- The kernel with one more area. -/
@[simps]
def Kernel.addArea (area : Area) : Kernel :=
  { k with area := Function.update k.area k.areas area, areas := k.areas + 1 }

/-- The kernel with one more map. -/
@[simps]
def Kernel.addMap (map : Map) : Kernel :=
  { k with
    map := Function.update k.map k.maps map
    live := Function.update k.live k.maps true
    maps := k.maps + 1 }

/-- `map->brk = a` -/
@[simps]
def Kernel.setBrk (m : Nat) (a : Option Nat) : Kernel :=
  { k with map := Function.update k.map m { k.map m with brk := a } }

/-- `map->stack = a` -/
@[simps]
def Kernel.setStack (m : Nat) (a : Option Nat) : Kernel :=
  { k with map := Function.update k.map m { k.map m with stack := a } }

end Kernel

/-- The flags of the pages of a process. -/
def userFlags : Nat := pagePresent ||| pageWrite ||| pageUser

/-! ### Pages -/

section Pages

variable (bootP4 : Nat)

/-- `vmm_set_page(P4, p, pmm_alloc(), flags)` -/
def mapPage (flags : Nat) (s : Machine) (P4 p : Nat) : Option Machine :=
  match pmmAlloc s with
  | none => none
  | some (f, s) => (vmmSetPage bootP4 s P4 p f flags).map Prod.snd

/-- The loops that map pages from `p` on while `p < stop`. -/
def mapPages : Nat → Machine → Nat → Nat → Nat → Option Machine
  | 0, _, _, _, _ => none
  | fuel + 1, s, P4, p, stop =>
      if p < stop then
        match mapPage bootP4 userFlags s P4 p with
        | none => none
        | some s => mapPages fuel s P4 (incptr p pageSize) stop
      else some s

/-- The number of turns of a loop from `p` on while `p < stop`, in steps of a page. -/
def turns (p stop : Nat) : Nat :=
  (stop - p + (pageSize - 1)) / pageSize

/-- The loop of `ksbrk`, for `n` pages. -/
def growHeap : Nat → Machine → Nat → Option (Machine × Nat)
  | 0, s, brk => some (s, brk)
  | n + 1, s, brk =>
      if brk + pageSize ≤ 2 ^ 64 then
        match mapPage bootP4 (pagePresent ||| pageWrite) s 0 brk with
        | none => none
        | some s => growHeap n s (brk + pageSize)
      else none

/-- What a call of `kcalloc` does to the machine, when it maps `n` pages. -/
def kcalloc (n : Nat) (k : Kernel) : Option Kernel :=
  match growHeap bootP4 n k.machine k.heapBrk with
  | none => none
  | some (s, brk) => some { k with machine := s, heapBrk := brk }

/-- The loop of `vmm_p4_memcpy` -/
def memcpyLoop (dstP4 srcP4 : Nat) :
    Nat → Machine → Nat → Nat → Nat → Nat → Nat × Machine
  | 0, s, _, _, _, copied => (copied, s)
  | fuel + 1, s, dst, src, n, copied =>
      if n = 0 then (copied, s)
      else
        let dOffset := dst % pageSize
        let sOffset := src % pageSize
        let bytes := min (min (pageSize - dOffset) (pageSize - sOffset)) n
        let dPage := stripFlags (vmmGetPage bootP4 s dstP4 dst)
        let sPage := stripFlags (vmmGetPage bootP4 s srcP4 src)
        if dPage = 0 ∨ sPage = 0 then (0, s)
        else
          let s := s.withMem (s.mem.write (dPage + dOffset) (s.mem.read (sPage + sOffset) bytes))
          memcpyLoop dstP4 srcP4 fuel s (incptr dst bytes) (incptr src bytes) (n - bytes)
            (copied + bytes)

/-- `vmm_p4_memcpy(dst_P4, dst, src_P4, src, n)`.  Every turn copies a byte at least. -/
def vmmP4Memcpy (s : Machine) (dstP4 dst srcP4 src n : Nat) : Nat × Machine :=
  memcpyLoop bootP4 dstP4 srcP4 n s dst src n 0

/-- The loop of `vmm_p4_memset` -/
def memsetLoop (P4 : Nat) (c : UInt8) : Nat → Machine → Nat → Nat → Nat → Nat × Machine
  | 0, s, _, _, set => (set, s)
  | fuel + 1, s, a, n, set =>
      if n = 0 then (set, s)
      else
        let offset := a % pageSize
        let bytes := min (pageSize - offset) n
        let page := stripFlags (vmmGetPage bootP4 s P4 a)
        if page = 0 then (0, s)
        else
          let s := s.withMem (s.mem.fill (page + offset) c bytes)
          memsetLoop P4 c fuel s (incptr a bytes) (n - bytes) (set + bytes)

/-- `vmm_p4_memset(P4, s, c, n)` -/
def vmmP4Memset (s : Machine) (P4 a : Nat) (c : UInt8) (n : Nat) : Nat × Machine :=
  memsetLoop bootP4 P4 c n s a n 0

end Pages

/-! ### Areas -/

/-- The loop of `procmm_map` over the areas from `o` on, with the new area `a`: whether it
ends without an overlap, and the links it leaves. -/
def placeArea (area : Nat → Area) (a : Nat) :
    Nat → Link Nat → (Nat → Link Nat) → Option Nat → Option (Bool × Link Nat × (Nat → Link Nat))
  | 0, _, _, _ => none
  | _ + 1, head, link, none => some (true, head, link)
  | fuel + 1, head, link, some o =>
      if (area o).stop < (area a).start ∨ (area o).start > (area a).stop then
        let l := if (area o).start > (area a).stop then listInsertBefore head link a o else (head, link)
        placeArea area a fuel l.1 l.2 (l.2 o).next
      else some (false, head, link)

/-- The part of `procmm_map` that puts the new area `a` in the list of its map: whether it is
there, and the links. -/
def insertArea (area : Nat → Area) (a fuel : Nat) (head : Link Nat) (link : Nat → Link Nat) :
    Option (Bool × Link Nat × (Nat → Link Nat)) :=
  let link := Function.update link a nil
  match placeArea area a fuel head link head.next with
  | none => none
  | some (false, head, link) => some (false, head, link)
  | some (true, head, link) =>
      if listEmpty (link a) then some (true, listAppend head link a) else some (true, head, link)

section Functions

variable (bootP4 : Nat) (grow : Nat → Nat)

/-- The pages that the next allocation on the heap maps. -/
def Kernel.demand (k : Kernel) : Nat :=
  grow (k.areas + k.maps)

/-- `procmm_map(map, start, end, flags)`, with the area or null. -/
def procmmMap (k : Kernel) (m start stop flags : Nat) : Option (Option Nat × Kernel) :=
  match kcalloc bootP4 (k.demand grow) k with
  | none => none
  | some k =>
      let a := k.areas
      let k := k.addArea { start := start, stop := stop, flags := flags, map := m }
      match insertArea k.area a (2 * k.areas + 1) (k.map m).areas k.link with
      | none => none
      | some (false, head, link) => some (none, k.withLists m head link)
      | some (true, head, link) =>
          let k := k.withLists m head link
          match mapPages bootP4 (turns start stop + 1) k.machine (k.map m).P4 start stop with
          | none => none
          | some s => some (some a, k.withMachine s)

/-- The loop of `procmm_unmap` -/
def unmapPages : Nat → Machine → Nat → Nat → Nat → Option Machine
  | 0, _, _, _, _ => none
  | fuel + 1, s, P4, p, stop =>
      if p < stop then
        let s := pmmFree s (vmmGetPage bootP4 s P4 p)
        match vmmSetPage bootP4 s P4 p 0 0 with
        | none => none
        | some (_, s) => unmapPages fuel s P4 (incptr p pageSize) stop
      else some s

/-- `procmm_unmap(a)` -/
def procmmUnmap (k : Kernel) (a : Nat) : Option Kernel :=
  let m := (k.area a).map
  let start := (k.area a).start
  let stop := (k.area a).stop
  match unmapPages bootP4 (turns start stop + 1) k.machine (k.map m).P4 start stop with
  | none => none
  | some s =>
      let l := listRemove (k.map m).areas k.link a
      some ((k.withMachine s).withLists m l.1 l.2)

/-- The loop of `procmm_free_map` -/
def unmapAreas : Nat → Kernel → Option Nat → Option Kernel
  | 0, _, _ => none
  | _ + 1, k, none => some k
  | fuel + 1, k, some o =>
      let next := (k.link o).next
      match procmmUnmap bootP4 k o with
      | none => none
      | some k => unmapAreas fuel k next

/-- `procmm_free_map(proc)`, for a process with the map `m`. -/
def procmmFreeMap (k : Kernel) (m : Nat) : Option Kernel :=
  match unmapAreas bootP4 (2 * k.areas + 1) k (k.map m).areas.next with
  | none => none
  | some k =>
      let k := (k.setBrk m none).setStack m none
      let k := k.withMachine (vmmFreeP4 k.machine (k.map m).P4)
      some { k with live := Function.update k.live m false }

/-- The loop of `procmm_new_map` over the areas of `src` from `o` on. -/
def copyAreas (m src : Nat) : Nat → Kernel → Option Nat → Option Kernel
  | 0, _, _ => none
  | _ + 1, k, none => some k
  | fuel + 1, k, some o =>
      let start := (k.area o).start
      let stop := (k.area o).stop
      match procmmMap bootP4 grow k m start stop (k.area o).flags with
      | none => none
      | some (_, k) =>
          let c := vmmP4Memcpy bootP4 k.machine (k.map m).P4 start (k.map src).P4 start
            ((stop + 2 ^ 64 - start) % 2 ^ 64)
          copyAreas m src fuel (k.withMachine c.2) (k.link o).next

/-- `procmm_new_map(proc, src)`, with the new map.  The memory of `kcalloc` is zero. -/
def procmmNewMap (k : Kernel) (src : Option Nat) : Option (Nat × Kernel) :=
  match kcalloc bootP4 (k.demand grow) k with
  | none => none
  | some k =>
      match vmmNewP4 bootP4 k.machine with
      | none => none
      | some (P4, s) =>
          let m := k.maps
          let k := (k.withMachine s).addMap { P4 := P4, areas := nil, brk := none, stack := none }
          match src with
          | none => some (m, k)
          | some src =>
              match copyAreas bootP4 grow m src (2 * k.areas + 1) k (k.map src).areas.next with
              | none => none
              | some k => some (m, k)

/-- The first page that `procmm_resize` maps: `(old_end + PAGE_SIZE) & ~(PAGE_SIZE-1)` -/
def nextPage (oldEnd : Nat) : Nat :=
  stripFlags (incptr oldEnd pageSize)

/-- `procmm_resize(p, a, len)`, for a process with the map `m`.  The call does not return when
the area is not to grow. -/
def procmmResize (k : Kernel) (m a len : Nat) : Option (Nat × Kernel) :=
  let start := (k.area a).start
  let oldEnd := (k.area a).stop
  if (oldEnd + 2 ^ 64 - start) % 2 ^ 64 < len then
    match (k.link a).next with
    | none => none
    | some next =>
        let max := (k.area next).start
        let max := if max < start then kernelOffset else max
        let len := if incptr start len > max then (max + 2 ^ 64 - start) % 2 ^ 64 else len
        let stop := incptr start len
        let page := nextPage oldEnd
        match mapPages bootP4 (turns page stop + 1) k.machine (k.map m).P4 page stop with
        | none => none
        | some s => some (len, (k.setStop a stop).withMachine s)
  else none

/-- `procmm_setup(proc, brk_size)`, for a process with the map `m`. -/
def procmmSetup (k : Kernel) (m brkSize : Nat) : Option (Nat × Kernel) :=
  match (k.map m).areas.prev with
  | none => none
  | some last =>
      let brkStart := nextPage (k.area last).stop
      match procmmMap bootP4 grow k m brkStart (incptr brkStart brkSize) 0 with
      | none => none
      | some (brk, k) =>
          let k := k.setBrk m brk
          match procmmMap bootP4 grow k m userspaceTop userspaceTop 0 with
          | none => none
          | some (stack, k) => some (brkStart, k.setStack m stack)

/-- `procmm_page_fault(r)` in a process with the map `m`, where `addr` is the address in `cr2`:
whether the fault is handled. -/
def procmmPageFault (k : Kernel) (m addr : Nat) : Option (Bool × Kernel) :=
  if addr ≥ kernelOffset then some (false, k)
  else
    match (k.map m).stack with
    | none => some (false, k)
    | some a =>
        if (k.area a).start ≤ incptr addr pageSize then
          let start := ((k.area a).start + 2 ^ 64 - pageSize) % 2 ^ 64
          match mapPage bootP4 userFlags k.machine (k.map m).P4 start with
          | none => none
          | some s => some (true, (k.setStart a start).withMachine s)
        else some (false, k)

/-- `syscall_brk(addr)` in a process with the map `m`, with the value it returns. -/
def syscallBrk (k : Kernel) (m addr : Nat) : Option (Nat × Kernel) :=
  match (k.map m).brk with
  | none => none
  | some brk =>
      if addr ≠ 0 then
        match procmmResize bootP4 k m brk ((addr + 2 ^ 64 - (k.area brk).start) % 2 ^ 64) with
        | none => none
        | some (_, k) => some ((k.area brk).stop, k)
      else some ((k.area brk).stop, k)

end Functions

end Procmm
