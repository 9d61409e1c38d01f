import Mittos64.Mem.Mmu
import Mittos64.Proc.Procmm

/-!
# Executables

`proc/elf.c` and `proc/exec_elf.c`.  `load_elf` reads the program headers of an image in the
memory of the kernel, maps an area for each header of the type `PT_LOAD`, and copies its bytes;
`exec_elf` then sets up the break and the stack, and writes the arguments to the memory before
the break.

The processor reads the image through the page tables of `BootP4`, and writes the arguments through
the page tables of the process; when a page of the process is not there, the call does not return.
The arguments and the environment are lists of strings without their final zeros, whose length is
less than `2 ^ 31`.
-/

namespace Procmm

open Mem

section Elf

variable (bootP4 : Nat) (grow : Nat → Nat)

/-- The memory as the processor sees it through the tables of `BootP4`. -/
def kernelMemory (s : Machine) : Memory := fun a =>
  match translate (words s.mem) (bootP4 / pageSize) a with
  | none => 0
  | some f => s.mem (frame f + a % pageSize)

/-- The magic number of the images, `"\x7f""ELF"` -/
def elfMagic : List UInt8 := [0x7f, 0x45, 0x4c, 0x46]

/-- `ELF_TYPE_EXECUTABLE` -/
def elfTypeExecutable : Nat := 2

/-- `ELF_PT_LOAD` -/
def elfPtLoad : Nat := 1

/-- The fields of `elf_phead` that the loader reads. -/
structure PHead where
  type : Nat
  offset : Nat
  virtualAddress : Nat
  fileSize : Nat
  memSize : Nat

/-- The fields of `elf_header` that the loader reads. -/
structure ElfHeader where
  identity : List UInt8
  type : Nat
  entry : Nat
  phOffset : Nat
  phNum : Nat

/-- The header at the address `data`. -/
def elfHeader (mem : Memory) (data : Nat) : ElfHeader where
  identity := mem.read data 4
  type := mem.load (data + 16) 2
  entry := mem.load (data + 24) 8
  phOffset := mem.load (data + 32) 8
  phNum := mem.load (data + 56) 2

/-- The program header at the address `p`. -/
def elfPHead (mem : Memory) (p : Nat) : PHead where
  type := mem.load p 4
  offset := mem.load (p + 8) 8
  virtualAddress := mem.load (p + 16) 8
  fileSize := mem.load (p + 32) 8
  memSize := mem.load (p + 40) 8

/-- `sizeof(elf_phead)` -/
def pheadSize : Nat := 56

/-- `load_elf_segment(p, file, phead)`, for a process with the map `m`. -/
def loadElfSegment (k : Kernel) (m file : Nat) (phead : PHead) : Option Kernel :=
  let memsize := phead.memSize
  let filesize := phead.fileSize
  let mempos := phead.virtualAddress
  let filepos := phead.offset
  match procmmMap bootP4 grow k m mempos (incptr mempos memsize) 0 with
  | none => none
  | some (_, k) =>
      let c := vmmP4Memcpy bootP4 k.machine (k.map m).P4 mempos 0 (incptr file filepos) filesize
      let k := k.withMachine c.2
      let c := vmmP4Memset bootP4 k.machine (k.map m).P4 (incptr mempos filesize) 0
        ((memsize + 2 ^ 64 - filesize) % 2 ^ 64)
      some (k.withMachine c.2)

/-- The loop of `load_elf` from the program header `i` on. -/
def loadSegments (m data : Nat) : Nat → Kernel → Nat → Option Kernel
  | 0, _, _ => none
  | fuel + 1, k, i =>
      let mem := kernelMemory bootP4 k.machine
      let elf := elfHeader mem data
      if i < elf.phNum then
        let phead := elfPHead mem (incptr (incptr data elf.phOffset) (pheadSize * i))
        if phead.type = elfPtLoad then
          match loadElfSegment bootP4 grow k m data phead with
          | none => none
          | some k => loadSegments m data fuel k (i + 1)
        else loadSegments m data fuel k (i + 1)
      else some k

/-- `load_elf(p, data)`, for a process with the map `m`: the entry point, or null. -/
def loadElf (k : Kernel) (m data : Nat) : Option (Nat × Kernel) :=
  let elf := elfHeader (kernelMemory bootP4 k.machine) data
  if elf.identity ≠ elfMagic then some (0, k)
  else if elf.type ≠ elfTypeExecutable then some (0, k)
  else
    match loadSegments bootP4 grow m data (2 ^ 16 + 1) k 0 with
    | none => none
    | some k => some ((elfHeader (kernelMemory bootP4 k.machine) data).entry, k)

/-! ### The arguments -/

/-- Write bytes to the addresses from `a` on of the address space `P4`. -/
def userWrite (P4 : Nat) : Machine → Nat → List UInt8 → Option Machine
  | s, _, [] => some s
  | s, a, c :: l =>
      match translate (words s.mem) (P4 / pageSize) a with
      | none => none
      | some f => userWrite P4 (s.withMem (s.mem.write (frame f + a % pageSize) [c])) (incptr a 1) l

/-- The bytes of a pointer. -/
def pointerBytes (p : Nat) : List UInt8 :=
  (List.range 8).map fun i => UInt8.ofNat (p / 256 ^ i)

/-- The loops of `exec_elf` that copy strings to `pos` and their addresses to the array at
`array`, with the position behind the last string. -/
def copyStrings (P4 : Nat) : Machine → Nat → Nat → List (List UInt8) → Option (Nat × Machine)
  | s, _, pos, [] => some (pos, s)
  | s, array, pos, str :: strs =>
      match userWrite P4 s array (pointerBytes pos) with
      | none => none
      | some s =>
          match userWrite P4 s pos (str ++ [0]) with
          | none => none
          | some s => copyStrings P4 s (incptr array 8) (incptr pos (str.length + 1)) strs

/-- The bytes of strings with their final zeros. -/
def stringsLength (strs : List (List UInt8)) : Nat :=
  (strs.map fun str => str.length + 1).sum

/-- The length that `exec_elf` computes. -/
def argLength (argv envp : List (List UInt8)) : Nat :=
  stringsLength argv + (argv.length + 1) * 8 + stringsLength envp + (envp.length + 1) * 8 + 2 * 8 + 1

/-- The part of `exec_elf` that writes the arguments from the address `pos` on. -/
def writeArguments (P4 : Nat) (s : Machine) (pos : Nat) (argv envp : List (List UInt8)) :
    Option Machine :=
  let argvp := pos
  let envpp := incptr argvp ((argv.length + 1) * 8)
  let auxv := incptr envpp ((envp.length + 1) * 8)
  let pos := incptr auxv (2 * 8)
  match copyStrings P4 s argvp pos argv with
  | none => none
  | some (pos, s) =>
      match userWrite P4 s (incptr argvp (argv.length * 8)) (pointerBytes 0) with
      | none => none
      | some s =>
          match copyStrings P4 s envpp pos envp with
          | none => none
          | some (_, s) =>
              match userWrite P4 s (incptr envpp (envp.length * 8)) (pointerBytes 0) with
              | none => none
              | some s => userWrite P4 s auxv (pointerBytes 0)

/-- The registers of the new thread that `exec_elf` sets. -/
structure ElfThread where
  rip : Nat
  rsi : Nat
  rdi : Nat

/-- `exec_elf(p, image, argv, envp)`, for a process with the map `m`. -/
def execElf (k : Kernel) (m image : Nat) (argv envp : List (List UInt8)) :
    Option (ElfThread × Kernel) :=
  match loadElf bootP4 grow k m image with
  | none => none
  | some (entry, k) =>
      match procmmSetup bootP4 grow k m (argLength argv envp) with
      | none => none
      | some (_, k) =>
          match (k.map m).brk with
          | none => none
          | some brk =>
              let pos := (k.area brk).start
              match writeArguments (k.map m).P4 k.machine pos argv envp with
              | none => none
              | some s => some (⟨entry, pos, argv.length⟩, k.withMachine s)

end Elf

end Procmm
