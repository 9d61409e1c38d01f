import Mathlib.Data.List.Perm.Basic
import Mittos64.Lib.Memory
import Mittos64.Mem.Layout

/-!
# Starting the processors

`parse_MADT` of `arch/acpi.c`, `cpu_add` and `cpu_init` of `cpu/cpu.c`, `ap_init` of `cpu/smp.c` and
`apic_interrupt` of `interrupts/apic.c`.  The table of processors has two numbers for each of them,
the processor ID of ACPI and the ID of its APIC.  `ap_init` sends its interrupts to the first, and
`parse_MADT` reads on for the 36 bytes of a header behind the end of the table.  So the interrupts
go to the APICs of the other processors just when their processor IDs are the IDs of their APICs, in
some order, and no processor is found behind the table.
-/

namespace Smp

/-- `MAX_NUMCPU` -/
def maxNumcpu : Nat := 64

/-- `CPU_STOPPED` -/
def cpuStopped : Nat := 0

/-- `CPU_SIPI_SENT` -/
def cpuSipiSent : Nat := 1

/-- `CPU_SIPI_REC` -/
def cpuSipiRec : Nat := 2

/-- `CPU_STARTED` -/
def cpuStarted : Nat := 3

/-- `CPU_FAILED` -/
def cpuFailed : Nat := 4

/-- `TRAMPOLINE_ADDR` -/
def trampolineAddr : Nat := 0x1000

/-- `APIC_INT_LEVEL_ASSERT` -/
def apicIntLevelAssert : UInt8 := 0x1

/-- `APIC_INT_TYPE_INIT` -/
def apicIntTypeInit : UInt8 := 0x5

/-- `APIC_INT_TYPE_STARTUP` -/
def apicIntTypeStartup : UInt8 := 0x6

/-- The fields of `cpu_t` that the start of the processors goes to. -/
structure Cpu where
  id : Nat
  apicId : Nat
  isBsp : Nat
  currentState : Nat
  deriving DecidableEq

/-- `cpu_add(id, apic)`, with the entries of `cpus` below `num_cpu`. -/
def cpuAdd (cpus : List Cpu) (id apic : Nat) : List Cpu :=
  if cpus.length ≥ maxNumcpu then cpus
  else
    cpus ++ [{
      id := id
      apicId := apic
      isBsp := if cpus.length ≠ 0 then 0 else 1
      currentState := if cpus.length ≠ 0 then cpuStopped else cpuStarted }]

/-- The flag of an enabled processor. -/
def enabledFlag : Nat := 0x1

/-- The loop of `parse_MADT`, from the field at `f` on. -/
def parseFields (mem : Memory) (stop f : Nat) (cpus : List Cpu) : List Cpu :=
  if _h : f < stop ∧ (mem (f + 1)).toNat ≠ 0 then
    let cpus :=
      if mem f = 0 ∧ mem.load (f + 4) 4 &&& enabledFlag ≠ 0 then
        cpuAdd cpus (mem (f + 2)).toNat (mem (f + 3)).toNat
      else cpus
    parseFields mem stop (f + (mem (f + 1)).toNat) cpus
  else cpus
termination_by stop - f
decreasing_by omega

/-- `sizeof(SDT_header)` -/
def sdtHeaderSize : Nat := 36

/-- `sizeof(MADT_header)` -/
def madtHeaderSize : Nat := 8

/-- `parse_MADT(header)`, as far as it is about processors. -/
def parseMADT (mem : Memory) (header : Nat) (cpus : List Cpu) : List Cpu :=
  let madt := header + sdtHeaderSize
  parseFields mem (madt + mem.load (header + 4) 4) (madt + madtHeaderSize) cpus

/-- An interrupt that the APIC sends: the words written to its two command registers. -/
structure Interrupt where
  intCmdHi : Nat
  intCmdLo : Nat
  deriving DecidableEq

/-- `apic_interrupt(destination, level, type, vector)` -/
def apicInterrupt (destination level type vector : UInt8) : Interrupt where
  intCmdHi := destination.toNat <<< 24
  intCmdLo := (level.toNat &&& 0x1) <<< 14 ||| (type.toNat &&& 0x7) <<< 8 ||| vector.toNat

/-- The APIC that the interrupt goes to. -/
def Interrupt.destination (i : Interrupt) : Nat :=
  i.intCmdHi >>> 24

/-- The kind of the interrupt. -/
def Interrupt.type (i : Interrupt) : Nat :=
  i.intCmdLo >>> 8 &&& 0x7

/-- `ap_init(cpu)`: the interrupts it sends, and the state it leaves the processor in.  `answers`
says whether the processor has set its state to `CPU_SIPI_REC` when the first and the second delay
end. -/
def apInit (answers : Bool × Bool) (cpu : Cpu) : List Interrupt × Cpu :=
  if (if cpu.currentState = 0 then 1 else 0) = cpuStopped then ([], cpu)
  else
    let destination := UInt8.ofNat cpu.id
    let vector := UInt8.ofNat (trampolineAddr / pageSize)
    let init := apicInterrupt destination apicIntLevelAssert apicIntTypeInit 0
    let startup := apicInterrupt destination apicIntLevelAssert apicIntTypeStartup vector
    let state := if answers.1 then cpuSipiRec else cpuSipiSent
    if state ≠ cpuSipiRec then
      let state := if answers.2 then cpuSipiRec else cpuSipiSent
      if state ≠ cpuSipiRec then
        ([init, startup, startup], { cpu with currentState := cpuFailed })
      else ([init, startup, startup], { cpu with currentState := cpuStarted })
    else ([init, startup], { cpu with currentState := cpuStarted })

/-- The loop of `cpu_init` over the processors from the index `i` on, with the interrupts it
sends. -/
def apInitAll (answers : Nat → Bool × Bool) : Nat → List Cpu → List Interrupt
  | _, [] => []
  | i, cpu :: cpus => (apInit (answers i) cpu).1 ++ apInitAll answers (i + 1) cpus

/-- The interrupts that `cpu_init` sends, for the table at `header`. -/
def cpuInit (answers : Nat → Bool × Bool) (mem : Memory) (header : Nat) : List Interrupt :=
  apInitAll answers 0 (parseMADT mem header [])

/-! ### Tables -/

/-- A record of the table.  `other` is any record that is not about a processor. -/
inductive Field where
  | processor (procId apicId : UInt8) (flags : UInt32)
  | other (type : UInt8) (payload : List UInt8) (ne : type ≠ 0) (le : payload.length ≤ 253)

/-- The bytes of a record. -/
def Field.bytes : Field → List UInt8
  | .processor procId apicId flags => [0, 8, procId, apicId] ++ Memory.wordBytes 4 flags.toNat
  | .other type payload _ _ => [type, UInt8.ofNat (payload.length + 2)] ++ payload

/-- The processor ID and the APIC ID of the record of an enabled processor. -/
def Field.enabled : Field → Option (UInt8 × UInt8)
  | .processor procId apicId flags =>
      if flags.toNat &&& enabledFlag ≠ 0 then some (procId, apicId) else none
  | .other _ _ _ _ => none

/-- The bytes of the records of a table. -/
def tableBytes (fields : List Field) : List UInt8 :=
  fields.flatMap Field.bytes

/-- The memory holds a table with these records at `header`. -/
structure Madt (mem : Memory) (header : Nat) (fields : List Field) : Prop where
  length : mem.load (header + 4) 4
    = sdtHeaderSize + madtHeaderSize + (tableBytes fields).length
  fields : mem.Holds (header + sdtHeaderSize + madtHeaderSize) (tableBytes fields)

/-- The records of enabled processors that the loop of `parse_MADT` finds from `f` on. -/
def walk (mem : Memory) (stop f : Nat) : List (UInt8 × UInt8) :=
  if h : f < stop ∧ (mem (f + 1)).toNat ≠ 0 then
    let rest := walk mem stop (f + (mem (f + 1)).toNat)
    if mem f = 0 ∧ mem.load (f + 4) 4 &&& enabledFlag ≠ 0 then (mem (f + 2), mem (f + 3)) :: rest
    else rest
  else []
termination_by stop - f
decreasing_by omega

/-- The enabled processors that `parse_MADT` finds in the 36 bytes behind the table. -/
def behind (mem : Memory) (header : Nat) : List (UInt8 × UInt8) :=
  let stop := header + mem.load (header + 4) 4
  walk mem (stop + sdtHeaderSize) stop

/-- The processors with these APICs get one `INIT` and at most two `STARTUP` interrupts each, and
nothing else is sent. -/
structure Targets (apics : List UInt8) (sent : List Interrupt) : Prop where
  init : ((sent.filter fun i => i.type = apicIntTypeInit.toNat).map Interrupt.destination).Perm
    (apics.map UInt8.toNat)
  startup : ∀ d, sent.countP (fun i => i.type = apicIntTypeStartup.toNat ∧ i.destination = d)
    ≤ 2 * (apics.map UInt8.toNat).count d
  only : ∀ i ∈ sent, i.type = apicIntTypeInit.toNat ∨ i.type = apicIntTypeStartup.toNat

/-! ### The walk through the table -/

section Walk

variable {mem : Memory} {stop f : Nat}

/-- The loop of `parse_MADT` adds the enabled processors that it finds. -/
theorem parseFields_eq (mem : Memory) (stop f : Nat) (cpus : List Cpu) :
  parseFields mem stop f cpus
    = (walk mem stop f).foldl (fun cpus x => cpuAdd cpus x.1.toNat x.2.toNat) cpus
  := by
  fun_induction parseFields mem stop f cpus with
  | case1 f cpus h cpus' ih =>
      have hwalk := walk.eq_1 mem stop f
      rw [dif_pos h] at hwalk
      rw [ih, hwalk]
      dsimp only
      split
      · rename_i hfield
        rw [List.foldl_cons]
        congr 1
        exact dif_pos hfield
      · rename_i hfield
        congr 1
        exact dif_neg hfield
  | case2 f cpus h =>
      rw [walk, dif_neg h]
      rfl

/-- The length of a record is in its second byte. -/
theorem Field.bytes_length (field : Field) :
  1 < field.bytes.length ∧ field.bytes.length < 256
    ∧ field.bytes[1]? = some (UInt8.ofNat field.bytes.length)
  := by
  cases field with
  | processor procId apicId flags =>
      rw [bytes, List.length_append, Memory.wordBytes_length]
      exact ⟨Nat.one_lt_succ_succ _, Nat.lt_of_sub_eq_succ rfl, rfl⟩
  | other type payload hne hle =>
      rw [bytes, List.length_append, List.length_cons, List.length_singleton]
      refine ⟨by omega, by omega, ?_⟩
      rw [Nat.add_comm]
      rfl

/-- The loop goes from one record to the next. -/
theorem walk_field {field : Field} (h : mem.Holds f field.bytes) (hstop : f < stop) :
  walk mem stop f = field.enabled.toList ++ walk mem stop (f + field.bytes.length)
  := by
  obtain ⟨hone, hlt, hlen⟩ := field.bytes_length
  have hsize : (mem (f + 1)).toNat = field.bytes.length := by
    rw [List.getElem?_eq_getElem hone] at hlen
    rw [h.byte hone, Option.some.inj hlen, UInt8.toNat_ofNat']
    exact Nat.mod_eq_of_lt hlt
  rw [walk, dif_pos ⟨hstop, by omega⟩, hsize]
  dsimp only
  cases field with
  | processor procId apicId flags =>
      rw [Field.bytes, Memory.holds_append] at h
      have hflags : mem.load (f + 4) 4 = flags.toNat := by
        have hload := h.2.load
        exact hload.trans (Nat.mod_eq_of_lt flags.toNat_lt)
      have htype : mem f = 0 := h.1.byte (i := 0) (Nat.lt_of_sub_eq_succ rfl)
      have hproc : mem (f + 2) = procId := h.1.byte (i := 2) (Nat.lt_of_sub_eq_succ rfl)
      have hapic : mem (f + 3) = apicId := h.1.byte (i := 3) (Nat.lt_of_sub_eq_succ rfl)
      rw [hflags, hproc, hapic, Field.enabled]
      by_cases hon : flags.toNat &&& enabledFlag ≠ 0
      · rw [if_pos ⟨htype, hon⟩, if_pos hon]
        rfl
      · rw [if_neg (fun hand => hon hand.2), if_neg hon]
        rfl
  | other type payload hne hle =>
      have htype : mem f = type := h.byte (i := 0) (by rw [Field.bytes]; exact Nat.zero_lt_succ _)
      rw [if_neg]
      · rfl
      · rw [htype]
        exact fun hand => hne hand.1

/-- The loop goes through the records of a table, and on from its end. -/
theorem walk_fields {fields : List Field} (h : mem.Holds f (tableBytes fields))
    (hstop : f + (tableBytes fields).length ≤ stop) :
  walk mem stop f = fields.filterMap Field.enabled ++ walk mem stop (f + (tableBytes fields).length)
  := by
  induction fields generalizing f with
  | nil => rfl
  | cons field fields ih =>
      rw [tableBytes, List.flatMap_cons, ← tableBytes] at h hstop ⊢
      rw [Memory.holds_append] at h
      rw [List.length_append] at hstop ⊢
      have hpos := field.bytes_length.1
      rw [walk_field h.1 (by omega), ih h.2 (by omega), Nat.add_assoc, List.filterMap_cons]
      cases field.enabled with
      | none => rfl
      | some x => rfl

/-- The processors that `parse_MADT` adds. -/
theorem Madt.parse {header : Nat} {fields : List Field} (h : Madt mem header fields)
    (cpus : List Cpu) :
  parseMADT mem header cpus = (fields.filterMap Field.enabled ++ behind mem header).foldl
    (fun cpus x => cpuAdd cpus x.1.toNat x.2.toNat) cpus
  := by
  have hend : header + mem.load (header + 4) 4
      = header + sdtHeaderSize + madtHeaderSize + (tableBytes fields).length := by
    rw [h.length]
    omega
  rw [parseMADT, parseFields_eq, behind, hend]
  congr 1
  rw [walk_fields h.fields (by rw [h.length]; omega), Nat.add_right_comm, hend]

end Walk

/-! ### The interrupts -/

/-- The entry of a processor that is to be started. -/
def stopped (x : UInt8 × UInt8) : Cpu where
  id := x.1.toNat
  apicId := x.2.toNat
  isBsp := 0
  currentState := cpuStopped

/-- Behind the first processor, all are to be started, as long as there is room for them. -/
theorem cpuAdd_others {cpus : List Cpu} (hne : cpus ≠ []) (xs : List (UInt8 × UInt8)) :
  xs.foldl (fun cpus x => cpuAdd cpus x.1.toNat x.2.toNat) cpus
    = cpus ++ (xs.take (maxNumcpu - cpus.length)).map stopped
  := by
  induction xs generalizing cpus with
  | nil =>
      rw [List.take_nil, List.map_nil, List.append_nil]
      rfl
  | cons x xs ih =>
      have hlen : cpus.length ≠ 0 := fun h => hne (List.length_eq_zero_iff.mp h)
      rw [List.foldl_cons, cpuAdd]
      by_cases hfull : cpus.length ≥ maxNumcpu
      · rw [if_pos hfull, ih hne, Nat.sub_eq_zero_of_le hfull, List.take_zero, List.take_zero]
      · rw [if_neg hfull, if_pos hlen, if_pos hlen, ih (List.concat_ne_nil _ _), List.length_append,
          List.length_singleton]
        obtain ⟨n, hn⟩ : ∃ n, maxNumcpu - cpus.length = n + 1 := ⟨maxNumcpu - cpus.length - 1, by omega⟩
        rw [hn, List.take_succ_cons, List.map_cons, Nat.sub_add_eq, hn, Nat.add_sub_cancel,
          List.append_assoc]
        rfl

section Sent

variable {answers : Nat → Bool × Bool}

theorem apicInterrupt_intCmdLo (destination level type vector : UInt8) :
  (apicInterrupt destination level type vector).intCmdLo
    = (level.toNat &&& 0x1) <<< 14 ||| (type.toNat &&& 0x7) <<< 8 ||| vector.toNat
  := rfl

theorem apicInterrupt_destination (destination level type vector : UInt8) :
  (apicInterrupt destination level type vector).destination = destination.toNat
  := Nat.shiftLeft_shiftRight _ _

/-- The first processor is not started. -/
theorem apInit_started {ans : Bool × Bool} {cpu : Cpu} (h : cpu.currentState = cpuStarted) :
  (apInit ans cpu).1 = []
  := by
  rw [apInit, h]
  rfl

/-- The `INIT` that `ap_init` sends. -/
def initInterrupt (destination : UInt8) : Interrupt :=
  apicInterrupt destination apicIntLevelAssert apicIntTypeInit 0

/-- The `STARTUP` that `ap_init` sends. -/
def startupInterrupt (destination : UInt8) : Interrupt :=
  apicInterrupt destination apicIntLevelAssert apicIntTypeStartup 1

/-- A processor that is to be started gets an `INIT` and one or two `STARTUP` interrupts, at the
APIC with the number that is its processor ID. -/
theorem apInit_stopped (ans : Bool × Bool) (x : UInt8 × UInt8) :
  ∃ n ≤ 2, (apInit ans (stopped x)).1
    = initInterrupt x.1 :: List.replicate n (startupInterrupt x.1)
  := by
  have hid : UInt8.ofNat (stopped x).id = x.1 := UInt8.ofNat_toNat
  obtain ⟨first, second⟩ := ans
  rw [apInit, hid]
  cases first with
  | true => exact ⟨1, by decide, rfl⟩
  | false =>
      cases second with
      | true => exact ⟨2, by decide, rfl⟩
      | false => exact ⟨2, by decide, rfl⟩

theorem initInterrupt_eq (d : UInt8) :
  (initInterrupt d).type = apicIntTypeInit.toNat ∧ (initInterrupt d).destination = d.toNat
  := by
  rw [initInterrupt, apicInterrupt_destination, Interrupt.type, apicInterrupt_intCmdLo]
  exact ⟨by decide, rfl⟩

theorem startupInterrupt_eq (d : UInt8) :
  (startupInterrupt d).type = apicIntTypeStartup.toNat ∧ (startupInterrupt d).destination = d.toNat
  := by
  rw [startupInterrupt, apicInterrupt_destination, Interrupt.type, apicInterrupt_intCmdLo]
  exact ⟨by decide, rfl⟩

/-- The processors that are to be started get their interrupts at the APICs with the numbers that
are their processor IDs, in their order. -/
theorem apInitAll_stopped (i : Nat) (xs : List (UInt8 × UInt8)) :
  (((apInitAll answers i (xs.map stopped)).filter fun i => i.type = apicIntTypeInit.toNat).map
      Interrupt.destination) = (xs.map Prod.fst).map UInt8.toNat
    ∧ Targets (xs.map Prod.fst) (apInitAll answers i (xs.map stopped))
  := by
  induction xs generalizing i with
  | nil => exact ⟨rfl, List.Perm.nil, fun d => Nat.zero_le _, nofun⟩
  | cons x xs ih =>
      obtain ⟨hinit, htargets⟩ := ih (i + 1)
      obtain ⟨n, hn, hsent⟩ := apInit_stopped (answers i) x
      obtain ⟨htype, hdest⟩ := initInterrupt_eq x.1
      obtain ⟨htype', hdest'⟩ := startupInterrupt_eq x.1
      have hne : ¬ apicIntTypeStartup.toNat = apicIntTypeInit.toNat := by decide
      have hne' : ¬ apicIntTypeInit.toNat = apicIntTypeStartup.toNat := by decide
      have hfirst : (((apInitAll answers i ((x :: xs).map stopped)).filter fun i =>
          i.type = apicIntTypeInit.toNat).map Interrupt.destination)
            = ((x :: xs).map Prod.fst).map UInt8.toNat := by
        rw [List.map_cons, apInitAll, hsent, List.filter_append, List.map_append, hinit]
        simp [htype, hdest, htype', hne]
      refine ⟨hfirst, ?_, ?_, ?_⟩
      · rw [hfirst]
      · intro d
        have hrest := htargets.startup d
        rw [List.map_cons, apInitAll, hsent, List.countP_append, List.countP_cons,
          List.countP_replicate, List.map_cons, List.map_cons, List.count_cons]
        simp only [htype, htype', hdest', hne', false_and, true_and, decide_false, decide_eq_true_eq,
          beq_iff_eq, Bool.false_eq_true, if_false]
        split <;> omega
      · intro j hj
        rw [List.map_cons, apInitAll, hsent] at hj
        rcases List.mem_append.mp hj with hj | hj
        · rcases List.mem_cons.mp hj with rfl | hj
          · exact Or.inl htype
          · rw [List.eq_of_mem_replicate hj]
            exact Or.inr htype'
        · exact htargets.only j hj

/-- Interrupts for some processors are those for all processors with these APICs just when they
have these APICs. -/
theorem targets_stopped_iff {i : Nat} {xs : List (UInt8 × UInt8)} {apics : List UInt8} :
  Targets apics (apInitAll answers i (xs.map stopped)) ↔ (xs.map Prod.fst).Perm apics
  := by
  obtain ⟨hinit, htargets⟩ := @apInitAll_stopped answers i xs
  constructor
  · intro h
    have hperm := h.init
    rw [hinit] at hperm
    have hback := hperm.map UInt8.ofNat
    simpa only [List.map_map, Function.comp_def, UInt8.ofNat_toNat, List.map_id'] using hback
  · intro hperm
    have hnumbers := hperm.map UInt8.toNat
    refine ⟨?_, ?_, htargets.only⟩
    · rw [hinit]
      exact hnumbers
    · intro d
      rw [← hnumbers.count_eq d]
      exact htargets.startup d

end Sent

section Table

variable {answers : Nat → Bool × Bool} {mem : Memory} {header : Nat} {fields : List Field}
  {boot : UInt8 × UInt8} {others : List (UInt8 × UInt8)}

/-- The interrupts that `cpu_init` sends: those for the first 63 processors behind the first one. -/
theorem Madt.sent (h : Madt mem header fields)
    (henabled : fields.filterMap Field.enabled = boot :: others) :
  cpuInit answers mem header
    = apInitAll answers 1 (((others ++ behind mem header).take (maxNumcpu - 1)).map stopped)
  := by
  have hboot : (apInit (answers 0) ⟨boot.1.toNat, boot.2.toNat, 1, cpuStarted⟩).1 = [] :=
    apInit_started rfl
  have hfirst : cpuAdd [] boot.1.toNat boot.2.toNat
      = [⟨boot.1.toNat, boot.2.toNat, 1, cpuStarted⟩] := rfl
  rw [cpuInit, h.parse, henabled, List.cons_append, List.foldl_cons, hfirst,
    cpuAdd_others (List.cons_ne_nil _ _), List.singleton_append, apInitAll, hboot, List.nil_append]
  rfl

/-- The interrupts of `cpu_init` go to the other processors just when the processor IDs of these are
the IDs of their APICs in some order, and no processor is found behind the table or there is no room
for one. -/
theorem cpuInit_targets_iff (answers : Nat → Bool × Bool) (h : Madt mem header fields)
    (henabled : fields.filterMap Field.enabled = boot :: others)
    (hmax : (boot :: others).length ≤ maxNumcpu) :
  Targets (others.map Prod.snd) (cpuInit answers mem header)
    ↔ (others.map Prod.fst).Perm (others.map Prod.snd)
      ∧ (behind mem header = [] ∨ (boot :: others).length = maxNumcpu)
  := by
  rw [h.sent henabled, targets_stopped_iff]
  rw [List.length_cons] at hmax ⊢
  have hall : behind mem header = [] ∨ others.length + 1 = maxNumcpu →
      (others ++ behind mem header).take (maxNumcpu - 1) = others := by
    rintro (hnil | hfull)
    · rw [hnil, List.append_nil, List.take_of_length_le (by omega)]
    · rw [← hfull, Nat.add_sub_cancel, List.take_left]
  constructor
  · intro hperm
    have hlen := hperm.length_eq
    rw [List.length_map, List.length_map, List.length_take, List.length_append] at hlen
    have hor : behind mem header = [] ∨ others.length + 1 = maxNumcpu := by
      rw [← List.length_eq_zero_iff]
      omega
    rw [hall hor] at hperm
    exact ⟨hperm, hor⟩
  · rintro ⟨hperm, hor⟩
    rw [hall hor]
    exact hperm

end Table

/-! ### Two processors -/

/-- A table of two processors, the second with the given IDs. -/
def twoProcessors (procId apicId : UInt8) : List Field :=
  [.processor 0 0 1, .processor procId apicId 1]

/-- A memory with this table at the address 0, and zeros behind it. -/
def tableMemory (procId apicId : UInt8) : Memory :=
  Memory.write (fun _ => 0) 0
    ([65, 80, 73, 67] ++ Memory.wordBytes 4 60 ++ List.replicate 36 0
      ++ tableBytes (twoProcessors procId apicId))

theorem madt_tableMemory (procId apicId : UInt8) :
  Madt (tableMemory procId apicId) 0 (twoProcessors procId apicId)
  := by
  have hheld := Memory.holds_write (fun _ => 0) 0
    ([65, 80, 73, 67] ++ Memory.wordBytes 4 60 ++ List.replicate 36 0
      ++ tableBytes (twoProcessors procId apicId))
  rw [Memory.holds_append, Memory.holds_append, Memory.holds_append] at hheld
  exact ⟨hheld.1.1.2.load, hheld.2⟩

theorem behind_tableMemory (procId apicId : UInt8) :
  behind (tableMemory procId apicId) 0 = []
  := by
  have hlen : (tableMemory procId apicId).load (0 + 4) 4 = 60 :=
    (madt_tableMemory procId apicId).length
  have hzero : (tableMemory procId apicId) (0 + 60 + 1) = 0 :=
    Memory.write_of_notMem _ (Or.inr (Nat.le_of_ble_eq_true rfl))
  rw [behind, hlen, walk, dif_neg]
  rw [hzero]
  exact fun hand => hand.2 rfl

/-- The second of two processors is started, when its two IDs are the same. -/
theorem cpuInit_targets_two :
  Targets [1] (cpuInit (fun _ => (true, true)) (tableMemory 1 1) 0)
  := by
  have hiff := cpuInit_targets_iff (fun _ => (true, true)) (madt_tableMemory 1 1) rfl (by decide)
  exact hiff.mpr ⟨List.Perm.refl _, Or.inl (behind_tableMemory 1 1)⟩

/-- The interrupts for the processor with the processor ID 1 and the APIC 2 go to the APIC 1. -/
theorem cpuInit_misses_apic :
  cpuInit (fun _ => (true, true)) (tableMemory 1 2) 0 = [initInterrupt 1, startupInterrupt 1]
    ∧ ¬ Targets [2] (cpuInit (fun _ => (true, true)) (tableMemory 1 2) 0)
  := by
  have hsent := @Madt.sent (fun _ => (true, true)) _ _ _ (0, 0) [(1, 2)] (madt_tableMemory 1 2) rfl
  rw [behind_tableMemory] at hsent
  rw [hsent]
  refine ⟨by decide, ?_⟩
  intro h
  have hperm := targets_stopped_iff.mp h
  exact absurd hperm (by decide)

end Smp
