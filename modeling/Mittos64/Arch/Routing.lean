import Mittos64.Arch.Ioapic
import Mittos64.Proc.SyscallCall

/-!
# From a line to its handler

`interrupts/interrupts.c` with the I/O APIC: the gates that `interrupt_init` sets up, the handlers
that `register_int_handler` puts in their table, and the macros that mask and unmask an IRQ.  After
any calls, an interrupt on the line of an IRQ is let through just when the last call for this line
unmasked it, enters the stub of its vector, and calls the handler that was registered last.
-/

open Amd64 Ioapic

namespace Routing

open Isr Isr.Call

/-! ### Gates -/

/-- `struct int_gate_descriptor`, without the word that is ignored. -/
structure Gate where
  baseL : BitVec 16
  cs : BitVec 16
  ist : BitVec 8
  flags : BitVec 8
  baseM : BitVec 16
  baseH : BitVec 32

/-- A gate of zeros. -/
def Gate.zero : Gate := ⟨0, 0, 0, 0, 0, 0⟩

/-- The address that the processor enters through a gate. -/
def Gate.offset (g : Gate) : Word :=
  g.baseH ++ g.baseM ++ g.baseL

/-- `idt_set(num, vector, cs, ist, flags)` -/
def idtSet (num : Nat) (vector : Word) (cs : BitVec 16) (ist flags : BitVec 8)
    (idt : Nat → Gate) : Nat → Gate :=
  Function.update idt num
    { baseL := (vector &&& 0xFFFF).setWidth 16
      baseM := ((vector >>> 16) &&& 0xFFFF).setWidth 16
      baseH := ((vector >>> 32) &&& 0xFFFFFFFF).setWidth 32
      cs := cs
      ist := ist
      flags := flags }

/-- `NUM_INTERRUPTS` -/
def numInterrupts : Nat := 256

/-- `IDT_PRESENT | IDT_DPL0 | IDT_INTERRUPT` -/
def gateFlags : BitVec 8 := 0x80 ||| 0x00 ||| 0x0E

/-- `isr_table[i]`, for the table at the address `isrTable`. -/
def isrEntry (m : Memory) (isrTable i : Nat) : Word :=
  BitVec.ofNat 64 (m.load (isrTable + 8 * i) 8)

/-- `idt` after `interrupt_init`. -/
def interruptInit (m : Memory) (isrTable : Nat) : Nat → Gate :=
  (List.range numInterrupts).foldl
    (fun idt i => idtSet i (isrEntry m isrTable i) 0x8 0 gateFlags idt) fun _ => .zero

/-- The gate of a vector: present, for the kernel only, in the code segment of the kernel, with
interrupts off. -/
structure Gate.Leads (g : Gate) (entry : Word) : Prop where
  offset : g.offset = entry
  cs : g.cs = 0x8
  ist : g.ist = 0
  flags : g.flags = gateFlags

theorem idtSet_offset (vector : Word) :
  (((vector >>> 32) &&& 0xFFFFFFFF).setWidth 32 ++ ((vector >>> 16) &&& 0xFFFF).setWidth 16
    ++ (vector &&& 0xFFFF).setWidth 16 : BitVec 64) = vector
  := by
  have hbytes : ∀ i, (0xFFFF : BitVec 64).getLsbD i = decide (i < 16) := by
    intro i
    by_cases hi : i < 64
    · revert i
      decide
    · rw [BitVec.getLsbD_of_ge _ _ (by omega)]
      exact (decide_eq_false (by omega)).symm
  have hwords : ∀ i, (0xFFFFFFFF : BitVec 64).getLsbD i = decide (i < 32) := by
    intro i
    by_cases hi : i < 64
    · revert i
      decide
    · rw [BitVec.getLsbD_of_ge _ _ (by omega)]
      exact (decide_eq_false (by omega)).symm
  apply BitVec.eq_of_getLsbD_eq
  intro i hi
  simp only [BitVec.getLsbD_append, BitVec.getLsbD_setWidth, BitVec.getLsbD_and,
    BitVec.getLsbD_ushiftRight, hbytes, hwords]
  grind

theorem idtSet_leads (num : Nat) (vector : Word) (idt : Nat → Gate) :
  (idtSet num vector 0x8 0 gateFlags idt num).Leads vector
  := by
  rw [idtSet, Function.update_self]
  exact ⟨idtSet_offset vector, rfl, rfl, rfl⟩

/-- The gates of all vectors lead to the entries of the table, and to what is behind it. -/
theorem interruptInit_leads (m : Memory) (isrTable : Nat) {n : Nat} (hn : n < numInterrupts) :
  (interruptInit m isrTable n).Leads (isrEntry m isrTable n)
  := by
  have hloop : ∀ k idt, n < k →
      ((List.range k).foldl (fun idt i => idtSet i (isrEntry m isrTable i) 0x8 0 gateFlags idt)
        idt n).Leads (isrEntry m isrTable n) := by
    intro k
    induction k with
    | zero => exact fun _ h => absurd h (Nat.not_lt_zero n)
    | succ k ih =>
        intro idt hk
        rw [List.range_succ, List.foldl_append, List.foldl_cons, List.foldl_nil]
        by_cases hlast : n = k
        · subst hlast
          exact idtSet_leads n _ _
        · rw [idtSet, Function.update_of_ne hlast]
          exact ih idt (by omega)
  exact hloop numInterrupts _ hn

/-- The table that `isr.S.py` prints has an entry for each vector below 255. -/
def Stubs (m : Memory) (isrTable : Nat) (stub : Nat → Word) : Prop :=
  m.Words isrTable ((List.range 255).map stub)

theorem isrEntry_stub {m : Memory} {isrTable : Nat} {stub : Nat → Word} (h : Stubs m isrTable stub)
    {n : Nat} (hn : n < 255) :
  isrEntry m isrTable n = stub n
  := by
  have hload := Memory.Words.load h (i := n) (by rw [List.length_map, List.length_range]; exact hn)
  rw [isrEntry, hload, List.getElem_map, List.getElem_range]
  rw [BitVec.ofNat_toNat, BitVec.setWidth_eq]

/-- All vectors but the last one enter their stubs. -/
theorem interruptInit_stub {m : Memory} {isrTable : Nat} {stub : Nat → Word}
    (h : Stubs m isrTable stub) {n : Nat} (hn : n < 255) :
  (interruptInit m isrTable n).Leads (stub n)
  := by
  rw [← isrEntry_stub h hn]
  exact interruptInit_leads m isrTable (hn.trans (by decide))

/-- `SPURIOUS_LVT_ENABLED | INT_APIC_SPUR`, which `apic_init` writes to `R_SPURIOUS`. -/
def apicSpurious : BitVec 32 := 0x100 ||| 0xFF

/-- The vector of spurious interrupts. -/
def spuriousVector : Nat :=
  (apicSpurious.setWidth 8).toNat

/-- The loop of `interrupt_init` goes one entry further than the table.  All vectors but the last
one enter their stubs; the last one, which `apic_init` gives to spurious interrupts, enters whatever
address the word behind the table says. -/
theorem vectors_enter {m : Memory} {isrTable : Nat} {stub : Nat → Word}
    (h : Stubs m isrTable stub) :
  (∀ n < 255, (interruptInit m isrTable n).Leads (stub n))
    ∧ (interruptInit m isrTable spuriousVector).Leads (isrEntry m isrTable 255)
    ∧ ∀ w, ∃ m', (∀ x, x < isrTable + 2040 ∨ isrTable + 2048 ≤ x → m' x = m x)
      ∧ Stubs m' isrTable stub ∧ (interruptInit m' isrTable spuriousVector).Leads w
  := by
  have hvector : spuriousVector = 255 := by decide
  have hlast : spuriousVector < numInterrupts := by decide
  refine ⟨fun n hn => interruptInit_stub h hn, ?_, fun w => ?_⟩
  · rw [hvector]
    exact interruptInit_leads m isrTable (by decide)
  · refine ⟨m.store (isrTable + 2040) 8 w.toNat, ?_, ?_, ?_⟩
    · exact fun x hx => Memory.store_of_notMem m _ (by omega)
    · apply h.congr
      intro x hx hx'
      rw [List.length_map, List.length_range] at hx'
      exact Memory.store_of_notMem m _ (by omega)
    · have hword : isrEntry (m.store (isrTable + 2040) 8 w.toNat) isrTable 255 = w := by
        rw [isrEntry, Memory.load_store_word, BitVec.ofNat_toNat, BitVec.setWidth_eq]
      have hleads := interruptInit_leads (m.store (isrTable + 2040) 8 w.toNat) isrTable hlast
      rwa [hvector, hword] at hleads

/-! ### Lines -/

/-- What is set up for interrupts: the I/O APIC and the handlers. -/
structure System where
  ioapic : IoApic
  intHandlers : Word → Option IntHandler

section Calls

variable (irqMap : Nat → Nat)

/-- `IRQ_INT(irq)` -/
def irqInt (irq : Nat) : Nat :=
  intIrq0 + irqMap irq

/-- `IRQ(irq)`, as the argument of `ioapic_mask` and `ioapic_unmask`. -/
def irqPin (irq : Nat) : BitVec 8 :=
  BitVec.ofNat 8 (irqMap irq)

/-- `IRQ_MASK(irq)`, `IRQ_UNMASK(irq)` and `register_int_handler(num, h)` -/
inductive Op where
  | mask (irq : Nat)
  | unmask (irq : Nat)
  | register (num : Word) (h : IntHandler)

/-- What an operation does. -/
def Op.run (s : System) : Op → System
  | .mask irq => { s with ioapic := ioapicMask (irqPin irqMap irq) s.ioapic }
  | .unmask irq => { s with ioapic := ioapicUnmask (irqPin irqMap irq) s.ioapic }
  | .register num h =>
      { s with intHandlers := (registerIntHandler s.intHandlers num h).1 }

/-- Operations one after the other, from the state after `ioapic_init`. -/
def runAll (s : System) (ops : List Op) : System :=
  ops.foldl (Op.run irqMap) { s with ioapic := ioapicInit s.ioapic }

/-- The mask that an operation sets for a pin. -/
def Op.masks (p : Fin 24) : Op → Option Bool
  | .mask irq => if pin (irqPin irqMap irq) = some p then some true else none
  | .unmask irq => if pin (irqPin irqMap irq) = some p then some false else none
  | .register _ _ => none

/-- The handler that an operation sets for a vector. -/
def Op.handles (num : Word) : Op → Option IntHandler
  | .mask _ => none
  | .unmask _ => none
  | .register num' h => if num = num' then some h else none

end Calls

/-- What the last of the operations says that says something, else what there was before. -/
def lastOr {α β : Type*} (f : α → Option β) (x : β) : List α → β
  | [] => x
  | a :: l => lastOr f ((f a).getD x) l

section Runs

variable {irqMap : Nat → Nat}

theorem run_ioapic (op : Op) (s : System) (p : Fin 24) :
  (op.run irqMap s).ioapic.entries p
    = { s.ioapic.entries p with
        masked := (op.masks irqMap p).getD (s.ioapic.entries p).masked }
  := by
  cases op with
  | mask irq =>
      have hentry := Call.run_entries (.mask (irqPin irqMap irq)) s.ioapic p
      refine hentry.trans ?_
      rw [Call.entry, Op.masks, Call.irq]
      split_ifs
      · rfl
      · rfl
  | unmask irq =>
      have hentry := Call.run_entries (.unmask (irqPin irqMap irq)) s.ioapic p
      refine hentry.trans ?_
      rw [Call.entry, Op.masks, Call.irq]
      split_ifs
      · rfl
      · rfl
  | register num h => rfl

theorem run_intHandlers (op : Op) (s : System) (num : Word) :
  (op.run irqMap s).intHandlers num = (op.handles num).or (s.intHandlers num)
  := by
  cases op with
  | mask irq => rfl
  | unmask irq => rfl
  | register num' h =>
      rw [Op.handles]
      by_cases hnum : num = num'
      · subst hnum
        rw [if_pos rfl]
        exact Function.update_self _ _ _
      · rw [if_neg hnum]
        exact Function.update_of_ne hnum _ _

/-- After any operations, an entry is the one of its pin, with the mask of the last operation that
was for this pin. -/
theorem foldl_ioapic (ops : List Op) (s : System) (p : Fin 24) :
  (ops.foldl (Op.run irqMap) s).ioapic.entries p
    = { s.ioapic.entries p with
        masked := lastOr (Op.masks irqMap p) (s.ioapic.entries p).masked ops }
  := by
  induction ops generalizing s with
  | nil => rfl
  | cons op ops ih => rw [List.foldl_cons, ih, run_ioapic, lastOr]

/-- After any operations, the handler of a vector is the last one that was registered. -/
theorem foldl_intHandlers (ops : List Op) (s : System) (num : Word) :
  (ops.foldl (Op.run irqMap) s).intHandlers num
    = lastOr (fun op => (op.handles num).map some) (s.intHandlers num) ops
  := by
  induction ops generalizing s with
  | nil => rfl
  | cons op ops ih =>
      rw [List.foldl_cons, ih, run_intHandlers, lastOr]
      cases op.handles num with
      | none => rfl
      | some h => rfl

/-- An IRQ reaches its handler.  After `ioapic_init` and any operations, the entry of the pin that
an IRQ is mapped to has the vector of the IRQ and the logical destination `0xFF`, and is masked just
when the last operation for this pin masked it.  An interrupt with this vector enters its stub
through the gate, and `int_handler` is given a frame with its number and calls the handler that was
registered last. -/
theorem irq_reaches_handler {m : Memory} {isrTable : Nat} {stub : Nat → Word}
    (h : Stubs m isrTable stub) {irq : Nat} {p : Fin 24} (hp : irqMap irq = p.val) (s : System)
    (ops : List Op) {v : Delivery} {c : Cpu} (herr : v.err = none)
    (hroom : 184 ≤ (v.top c).toNat) :
  let t := runAll irqMap s ops
  let n := irqInt irqMap irq
  let e := isr n (v.run c)
  t.ioapic.entries p = { (s.ioapic.entries p).routed p with
      masked := lastOr (Op.masks irqMap p) (s.ioapic.entries p).masked ops }
    ∧ (t.ioapic.entries p).vector.toNat = n
    ∧ (interruptInit m isrTable n).Leads (stub n)
    ∧ Handles v n c e
    ∧ intHandler t.intHandlers e.mem (e.reg .rdi)
      = (lastOr (fun op => (op.handles (BitVec.ofNat 64 n)).map some)
          (s.intHandlers (BitVec.ofNat 64 n)) ops).bind fun h => h e.mem (e.reg .rdi)
  := by
  have hlt := p.isLt
  have hn : irqInt irqMap irq = 0x20 + p.val := by rw [irqInt, hp, intIrq0]
  obtain ⟨n, hnum⟩ : ∃ n, irqInt irqMap irq = n := ⟨_, rfl⟩
  simp only [hnum]
  rw [hnum] at hn
  have hentry := @foldl_ioapic irqMap ops { s with ioapic := ioapicInit s.ioapic } p
  rw [ioapicInit_entries] at hentry
  have hvector : (BitVec.ofNat 8 (intIrq0 + p.val)).toNat = n := by
    rw [BitVec.toNat_ofNat, hn, intIrq0]
    omega
  have hcode : v.err.isSome = true ↔ n ∈ errorCodes := by
    rw [herr, hn, errorCodes]
    simp only [Option.isSome_none, Bool.false_eq_true, false_iff, List.mem_cons, List.not_mem_nil,
      or_false]
    omega
  have hhandles := @isr_handles v n c hcode hroom
  refine ⟨hentry, ?_, ?_, hhandles, ?_⟩
  · rw [runAll, hentry]
    exact hvector
  · exact interruptInit_stub h (by omega)
  · obtain ⟨e, he⟩ : ∃ e, isr n (v.run c) = e := ⟨_, rfl⟩
    rw [he] at hhandles ⊢
    have hframe := hhandles.words
    rw [← hhandles.rdi] at hframe
    have htop := (v.top c).isLt
    have hrdi := hhandles.rdi
    have hword : e.mem.word (e.reg .rdi + 120) = BitVec.ofNat 64 n :=
      @word_of_frame e.mem (e.reg .rdi) (v.registers c n) hframe (by omega) 15 (by omega) _ rfl
    rw [Call.intHandler, hword, runAll, foldl_intHandlers]
    cases lastOr (fun op => (op.handles (BitVec.ofNat 64 n)).map some)
      (s.intHandlers (BitVec.ofNat 64 n)) ops with
    | none => rfl
    | some h => rfl

end Runs

/-! ### The timer -/

/-- `timer_tick(r)`, for the counter at the address `systemTicks`, but for the acknowledgement. -/
def timerTick (systemTicks : Word) : IntHandler := fun m r =>
  some (m.setWord systemTicks (m.word systemTicks + 1), r)

/-- What `pit_init` does for its IRQ. -/
def pitInit (irqMap : Nat → Nat) (systemTicks : Word) : List Op :=
  [.register (BitVec.ofNat 64 (irqInt irqMap 0)) (timerTick systemTicks), .unmask 0]

/-- The firmware maps the timer to the pin 2. -/
def timerOverride (irq : Nat) : Nat :=
  if irq = 0 then 2 else irq

/-- A memory with a table of stubs at the address 0. -/
def tableMemory (stub : Nat → Word) : Memory :=
  fun x => UInt8.ofNat ((stub (x / 8)).toNat / 256 ^ (x % 8))

theorem stubs_tableMemory (stub : Nat → Word) :
  Stubs (tableMemory stub) 0 stub
  := by
  apply Memory.words_of_load
  intro i hi
  rw [List.length_map, List.length_range] at hi
  have hload : (tableMemory stub).load (0 + 8 * i) 8 = (stub i).toNat % 256 ^ 8 := by
    apply Memory.load_eq_of_bytes
    intro j hj
    have hdiv : (0 + 8 * i + j) / 8 = i := by omega
    have hmod : (0 + 8 * i + j) % 8 = j := by omega
    rw [tableMemory, hdiv, hmod]
  rw [hload, List.getElem_map, List.getElem_range]
  exact Nat.mod_eq_of_lt (stub i).isLt

/-- The stubs, 16 bytes each. -/
def stubAddress (n : Nat) : Word :=
  BitVec.ofNat 64 (0x100000 + 16 * n)

theorem vectors_enter_tableMemory :
  (interruptInit (tableMemory stubAddress) 0 0x22).Leads 0x100220
    ∧ (interruptInit (tableMemory stubAddress) 0 spuriousVector).Leads
      (isrEntry (tableMemory stubAddress) 0 255)
  := by
  obtain ⟨hleads, hspurious, -⟩ := vectors_enter (stubs_tableMemory stubAddress)
  exact ⟨hleads 0x22 (by decide), hspurious⟩

/-- All pins masked, and no handlers. -/
def reset : System where
  ioapic :=
    { select := 0
      entries := fun _ => ⟨0, 0, false, false, false, false, false, true, 0⟩
      others := fun _ => 0 }
  intHandlers := fun _ => none

/-- An interrupt of the timer in a program. -/
def timerInterrupt : Delivery :=
  { pageFault with err := none }

theorem irq_reaches_handler_timer :
  let t := runAll timerOverride reset (pitInit timerOverride 0x3000)
  let e := isr 0x22 (timerInterrupt.run program)
  (t.ioapic.entries 2).masked = false
    ∧ (interruptInit (tableMemory stubAddress) 0 0x22).Leads 0x100220
    ∧ intHandler t.intHandlers e.mem (e.reg .rdi) = timerTick 0x3000 e.mem (e.reg .rdi)
  := by
  have hroom : 184 ≤ (timerInterrupt.top program).toNat := by decide
  obtain ⟨hentry, -, hleads, -, hhandler⟩ := @irq_reaches_handler timerOverride
    (tableMemory stubAddress) 0 stubAddress (stubs_tableMemory stubAddress) 0 2 rfl reset
    (pitInit timerOverride 0x3000) timerInterrupt program rfl hroom
  refine ⟨?_, hleads, ?_⟩
  · rw [hentry]
    rfl
  · exact hhandler

end Routing
