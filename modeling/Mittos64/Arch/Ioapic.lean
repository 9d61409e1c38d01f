import Mathlib.Data.BitVec
import Mathlib.Tactic.IntervalCases
import Mittos64.Lib.Run

/-!
# The I/O APIC

`interrupts/ioapic.c`, and the device that it talks to: a register that selects another one, and a
window through which the selected one is read and written.  The driver reads an entry of the
redirection table, changes bytes of it in a union, and writes it back.  The results here say which
fields of which entry the calls change, and what the entries are after any sequence of calls.
-/

namespace Ioapic

/-! ### The device -/

/-- An entry of the redirection table. -/
@[ext]
structure Entry where
  vector : BitVec 8
  delivery : BitVec 3
  logical : Bool
  pending : Bool
  activeLow : Bool
  remote : Bool
  level : Bool
  masked : Bool
  target : BitVec 8

namespace Entry

variable (e : Entry)

/-- The low word of an entry. -/
def low : BitVec 32 :=
  0#15 ++ BitVec.ofBool e.masked ++ BitVec.ofBool e.level ++ BitVec.ofBool e.remote ++
    BitVec.ofBool e.activeLow ++ BitVec.ofBool e.pending ++ BitVec.ofBool e.logical ++
    e.delivery ++ e.vector

/-- The high word of an entry. -/
def high : BitVec 32 :=
  e.target ++ 0#24

/-- A write to the low word.  The status of the delivery and the remote `IRR` are read-only. -/
def writeLow (w : BitVec 32) : Entry :=
  { e with
    vector := w.extractLsb' 0 8
    delivery := w.extractLsb' 8 3
    logical := w.getLsbD 11
    activeLow := w.getLsbD 13
    level := w.getLsbD 15
    masked := w.getLsbD 16 }

/-- A write to the high word. -/
def writeHigh (w : BitVec 32) : Entry :=
  { e with target := w.extractLsb' 24 8 }

end Entry

/-- The registers behind the window. -/
inductive Register where
  | low (pin : Fin 24)
  | high (pin : Fin 24)
  | other (r : Nat)

/-- The register that is selected.  The device looks at eight bits of its number. -/
def Register.selected (select : BitVec 32) : Register :=
  let r := select.toNat % 256
  if h : 0x10 ≤ r ∧ r < 0x40 then
    if r % 2 = 0 then .low ⟨(r - 0x10) / 2, by omega⟩
    else .high ⟨(r - 0x10) / 2, by omega⟩
  else .other r

/-- The I/O APIC, with the redirection table and its other registers. -/
structure IoApic where
  select : BitVec 32
  entries : Fin 24 → Entry
  others : Nat → BitVec 32

namespace IoApic

variable (d : IoApic)

/-- A read of the window. -/
def window : BitVec 32 :=
  match Register.selected d.select with
  | .low pin => (d.entries pin).low
  | .high pin => (d.entries pin).high
  | .other r => d.others r

/-- The device with another entry. -/
def setEntry (pin : Fin 24) (e : Entry) : IoApic :=
  { d with entries := Function.update d.entries pin e }

/-- A write to the window. -/
def writeWindow (w : BitVec 32) : IoApic :=
  match Register.selected d.select with
  | .low pin => d.setEntry pin ((d.entries pin).writeLow w)
  | .high pin => d.setEntry pin ((d.entries pin).writeHigh w)
  | .other r => { d with others := Function.update d.others r w }

end IoApic

/-! ### The driver -/

/-- `ioapic_read(reg)` -/
def ioapicRead (reg : BitVec 32) (d : IoApic) : BitVec 32 × IoApic :=
  let d := { d with select := reg }
  (d.window, d)

/-- `ioapic_write(reg, value)` -/
def ioapicWrite (reg value : BitVec 32) (d : IoApic) : IoApic :=
  { d with select := reg }.writeWindow value

/-- `struct ioapic_redirection`, by its bytes. -/
structure Redirection where
  vector : BitVec 8
  mode : BitVec 8
  mask : BitVec 8
  reserved : BitVec 32
  target : BitVec 8

namespace Redirection

/-- The bytes of the union. -/
def bytes (v : Redirection) : BitVec 64 :=
  v.target ++ v.reserved ++ v.mask ++ v.mode ++ v.vector

/-- `v->data[0]` and `v->data[1]` -/
def data0 (v : Redirection) : BitVec 32 := v.bytes.extractLsb' 0 32
def data1 (v : Redirection) : BitVec 32 := v.bytes.extractLsb' 32 32

/-- The union after its two words have been written. -/
def ofData (data0 data1 : BitVec 32) : Redirection where
  vector := (data1 ++ data0).extractLsb' 0 8
  mode := (data1 ++ data0).extractLsb' 8 8
  mask := (data1 ++ data0).extractLsb' 16 8
  reserved := (data1 ++ data0).extractLsb' 24 32
  target := (data1 ++ data0).extractLsb' 56 8

end Redirection

/-- `0x10 + 2*irq` -/
def lowRegister (irq : BitVec 8) : BitVec 32 :=
  BitVec.ofNat 32 (0x10 + 2 * irq.toNat)

/-- `0x11 + 2*irq` -/
def highRegister (irq : BitVec 8) : BitVec 32 :=
  BitVec.ofNat 32 (0x11 + 2 * irq.toNat)

/-- `ioapic_readv(irq, v)` -/
def ioapicReadv (irq : BitVec 8) (d : IoApic) : Redirection × IoApic :=
  let r := ioapicRead (lowRegister irq) d
  let r' := ioapicRead (highRegister irq) r.2
  (.ofData r.1 r'.1, r'.2)

/-- `ioapic_writev(irq, v)` -/
def ioapicWritev (irq : BitVec 8) (v : Redirection) (d : IoApic) : IoApic :=
  ioapicWrite (highRegister irq) v.data1 (ioapicWrite (lowRegister irq) v.data0 d)

/-- What `ioapic_route`, `ioapic_mask` and `ioapic_unmask` have in common: the entry is read,
changed and written back. -/
def ioapicUpdate (irq : BitVec 8) (f : Redirection → Redirection) (d : IoApic) : IoApic :=
  let r := ioapicReadv irq d
  ioapicWritev irq (f r.1) r.2

/-- `ioapic_route(irq, mode, target, vector)` -/
def ioapicRoute (irq mode target vector : BitVec 8) : IoApic → IoApic :=
  ioapicUpdate irq fun v => { v with target := target, vector := vector, mode := mode }

/-- `ioapic_mask(irq)` -/
def ioapicMask (irq : BitVec 8) : IoApic → IoApic :=
  ioapicUpdate irq fun v => { v with mask := v.mask ||| 1 }

/-- `ioapic_unmask(irq)` -/
def ioapicUnmask (irq : BitVec 8) : IoApic → IoApic :=
  ioapicUpdate irq fun v => { v with mask := v.mask &&& 0xFE }

/-- `IOAPIC_DEST_LOGICAL` and `IOAPIC_DELIVERY_LOWEST` -/
def ioapicDestLogical : BitVec 8 := 0x8
def ioapicDeliveryLowest : BitVec 8 := 0x1

/-- `INT_IRQ0` -/
def intIrq0 : Nat := 0x20

/-- `ioapic_init()`, once the registers are mapped. -/
def ioapicInit (d : IoApic) : IoApic :=
  (List.range 24).foldl (fun d i => ioapicRoute (BitVec.ofNat 8 i)
    (ioapicDestLogical ||| ioapicDeliveryLowest) 0xFF (BitVec.ofNat 8 (intIrq0 + i)) d) d

/-! ### The bits of an entry -/

theorem Entry.low_bits (e : Entry) (i : Nat) :
  e.low.getLsbD i = if i < 8 then e.vector.getLsbD i
    else if i < 11 then e.delivery.getLsbD (i - 8)
    else if i = 11 then e.logical
    else if i = 12 then e.pending
    else if i = 13 then e.activeLow
    else if i = 14 then e.remote
    else if i = 15 then e.level
    else if i = 16 then e.masked
    else false
  := by
  simp only [low, BitVec.getLsbD_append, BitVec.getLsbD_ofBool, BitVec.getLsbD_zero]
  by_cases hlow : i < 11
  · grind
  · by_cases hhigh : i < 17
    · interval_cases i
      all_goals rfl
    · split_ifs
      all_goals first | omega | rfl

theorem Entry.high_bits (e : Entry) (i : Nat) :
  e.high.getLsbD i = if i < 24 then false else e.target.getLsbD (i - 24)
  := by
  simp only [high, BitVec.getLsbD_append, BitVec.getLsbD_zero]

theorem Redirection.bytes_bits (v : Redirection) (i : Nat) :
  v.bytes.getLsbD i = if i < 8 then v.vector.getLsbD i
    else if i < 16 then v.mode.getLsbD (i - 8)
    else if i < 24 then v.mask.getLsbD (i - 16)
    else if i < 56 then v.reserved.getLsbD (i - 24)
    else v.target.getLsbD (i - 56)
  := by
  simp only [bytes, BitVec.getLsbD_append]
  grind

/-- What the device makes of the bytes of an entry. -/
def Entry.set (e : Entry) (v : Redirection) : Entry :=
  { e with
    vector := v.vector
    delivery := v.mode.extractLsb' 0 3
    logical := v.mode.getLsbD 3
    activeLow := v.mode.getLsbD 5
    level := v.mode.getLsbD 7
    masked := v.mask.getLsbD 0
    target := v.target }

/-- The bytes of an entry, as the device shows them. -/
def Entry.get (e : Entry) : Redirection :=
  .ofData e.low e.high

theorem Entry.write_eq (e : Entry) (v : Redirection) :
  (e.writeLow v.data0).writeHigh v.data1 = e.set v
  := by
  ext i
  all_goals try rfl
  all_goals
    simp only [writeLow, writeHigh, set, Redirection.data0, Redirection.data1,
      ← BitVec.getLsbD_eq_getElem, BitVec.getLsbD_extractLsb', Redirection.bytes_bits]
    grind

/-- The bytes of an entry, with another mask at most, are the entry with another mask. -/
theorem Entry.set_mask {e : Entry} {v : Redirection} (hvector : v.vector = e.get.vector)
    (hmode : v.mode = e.get.mode) (htarget : v.target = e.get.target) :
  e.set v = { e with masked := v.mask.getLsbD 0 }
  := by
  ext i
  all_goals try rfl
  all_goals
    simp only [set, hvector, hmode, htarget, get, Redirection.ofData, ← BitVec.getLsbD_eq_getElem,
      BitVec.getLsbD_extractLsb', BitVec.getLsbD_append, low_bits, high_bits]
    grind

theorem Entry.get_mask (e : Entry) :
  e.get.mask.getLsbD 0 = e.masked
  := by
  simp only [get, Redirection.ofData, BitVec.getLsbD_extractLsb', BitVec.getLsbD_append, low_bits]
  rfl

/-! ### One call -/

/-- The pin whose entry a number addresses, if it addresses one. -/
def pin (irq : BitVec 8) : Option (Fin 24) :=
  if h : irq.toNat % 128 < 24 then some ⟨irq.toNat % 128, h⟩ else none

theorem selected_low {irq : BitVec 8} {p : Fin 24} (h : pin irq = some p) :
  Register.selected (lowRegister irq) = .low p
  := by
  have hlt := irq.isLt
  unfold pin at h
  split at h
  · obtain rfl := Option.some.inj h
    have hnum : (lowRegister irq).toNat = 0x10 + 2 * irq.toNat := by
      rw [lowRegister, BitVec.toNat_ofNat]
      omega
    rw [Register.selected]
    simp only [hnum]
    rw [dif_pos (by omega), if_pos (by omega)]
    congr 1
    apply Fin.ext
    dsimp only
    omega
  · cases h

theorem selected_high {irq : BitVec 8} {p : Fin 24} (h : pin irq = some p) :
  Register.selected (highRegister irq) = .high p
  := by
  have hlt := irq.isLt
  unfold pin at h
  split at h
  · obtain rfl := Option.some.inj h
    have hnum : (highRegister irq).toNat = 0x11 + 2 * irq.toNat := by
      rw [highRegister, BitVec.toNat_ofNat]
      omega
    rw [Register.selected]
    simp only [hnum]
    rw [dif_pos (by omega), if_neg (by omega)]
    congr 1
    apply Fin.ext
    dsimp only
    omega
  · cases h

/-- A number that addresses no entry selects other registers. -/
theorem selected_other {irq : BitVec 8} (h : pin irq = none) :
  (∃ r, Register.selected (lowRegister irq) = .other r)
    ∧ ∃ r, Register.selected (highRegister irq) = .other r
  := by
  have hlt := irq.isLt
  unfold pin at h
  split at h
  · cases h
  · have hlow : (lowRegister irq).toNat = 0x10 + 2 * irq.toNat := by
      rw [lowRegister, BitVec.toNat_ofNat]
      omega
    have hhigh : (highRegister irq).toNat = 0x11 + 2 * irq.toNat := by
      rw [highRegister, BitVec.toNat_ofNat]
      omega
    constructor
    · rw [Register.selected]
      simp only [hlow]
      exact ⟨_, dif_neg (by omega)⟩
    · rw [Register.selected]
      simp only [hhigh]
      exact ⟨_, dif_neg (by omega)⟩

/-- The entry that a number addresses is changed, and no other one. -/
theorem ioapicUpdate_entries (irq : BitVec 8) (f : Redirection → Redirection) (d : IoApic)
    (p : Fin 24) :
  (ioapicUpdate irq f d).entries p
    = if pin irq = some p then (d.entries p).set (f (d.entries p).get) else d.entries p
  := by
  cases hpin : pin irq with
  | none =>
      obtain ⟨⟨r, hlow⟩, r', hhigh⟩ := selected_other hpin
      simp only [ioapicUpdate, ioapicReadv, ioapicRead, ioapicWritev, ioapicWrite,
        IoApic.writeWindow, hlow, hhigh]
      rfl
  | some q =>
      have hlow := selected_low hpin
      have hhigh := selected_high hpin
      have hread : ioapicReadv irq d
          = ((d.entries q).get, { d with select := highRegister irq }) := by
        simp only [ioapicReadv, ioapicRead, IoApic.window, hlow, hhigh]
        rfl
      rw [ioapicUpdate, hread]
      simp only [ioapicWritev, ioapicWrite, IoApic.writeWindow, hlow, hhigh, IoApic.setEntry,
        Function.update_self, Function.update_idem, Entry.write_eq]
      by_cases hq : p = q
      · rw [hq, Function.update_self, if_pos rfl]
      · rw [Function.update_of_ne hq, if_neg]
        exact fun h => hq (Option.some.inj h).symm

/-! ### Sequences of calls -/

/-- A call of the driver. -/
inductive Call where
  | route (irq mode target vector : BitVec 8)
  | mask (irq : BitVec 8)
  | unmask (irq : BitVec 8)

/-- What a call does to the device. -/
def Call.run : Call → IoApic → IoApic
  | .route irq mode target vector => ioapicRoute irq mode target vector
  | .mask irq => ioapicMask irq
  | .unmask irq => ioapicUnmask irq

/-- The number that a call is given. -/
def Call.irq : Call → BitVec 8
  | .route irq _ _ _ => irq
  | .mask irq => irq
  | .unmask irq => irq

/-- What a call does to the entry that it addresses: a route leaves the mask alone and makes the
line edge-triggered and active high, unless bits of its mode say otherwise. -/
def Call.change : Call → Entry → Entry
  | .route _ mode target vector, e =>
      { e with
        vector := vector
        delivery := mode.extractLsb' 0 3
        logical := mode.getLsbD 3
        activeLow := mode.getLsbD 5
        level := mode.getLsbD 7
        target := target }
  | .mask _, e => { e with masked := true }
  | .unmask _, e => { e with masked := false }

/-- The entry of a pin after a call. -/
def Call.entry (p : Fin 24) (e : Entry) (call : Call) : Entry :=
  if pin call.irq = some p then call.change e else e

theorem Call.run_entries (call : Call) (d : IoApic) (p : Fin 24) :
  (call.run d).entries p = call.entry p (d.entries p)
  := by
  obtain ⟨e, he⟩ : ∃ e, d.entries p = e := ⟨_, rfl⟩
  have hmasked : ∀ b : BitVec 8, (b ||| 1).getLsbD 0 = true := by decide
  have hunmasked : ∀ b : BitVec 8, (b &&& 0xFE).getLsbD 0 = false := by decide
  cases call with
  | route irq mode target vector =>
      rw [run, ioapicRoute, ioapicUpdate_entries, entry, he]
      refine if_congr Iff.rfl ?_ rfl
      rw [Entry.set, Entry.get_mask]
      rfl
  | mask irq =>
      rw [run, ioapicMask, ioapicUpdate_entries, entry, he]
      refine if_congr Iff.rfl ?_ rfl
      have hset := @Entry.set_mask e { e.get with mask := e.get.mask ||| 1 } rfl rfl rfl
      rw [hmasked] at hset
      exact hset
  | unmask irq =>
      rw [run, ioapicUnmask, ioapicUpdate_entries, entry, he]
      refine if_congr Iff.rfl ?_ rfl
      have hset := @Entry.set_mask e { e.get with mask := e.get.mask &&& 0xFE } rfl rfl rfl
      rw [hunmasked] at hset
      exact hset

/-- After any calls, the entry of a pin is what the calls make of it one after the other. -/
theorem foldl_entries (calls : List Call) (d : IoApic) (p : Fin 24) :
  (calls.foldl (fun d call => call.run d) d).entries p
    = calls.foldl (Call.entry p) (d.entries p)
  := by
  induction calls generalizing d with
  | nil => rfl
  | cons call calls ih =>
      rw [List.foldl_cons, ih, Call.run_entries]
      rfl

/-- The calls of `ioapic_init`. -/
def initCalls (n : Nat) : List Call :=
  (List.range n).map fun i => .route (BitVec.ofNat 8 i)
    (ioapicDestLogical ||| ioapicDeliveryLowest) 0xFF (BitVec.ofNat 8 (intIrq0 + i))

theorem ioapicInit_eq (d : IoApic) :
  ioapicInit d = (initCalls 24).foldl (fun d call => call.run d) d
  := by
  rw [initCalls, List.foldl_map]
  rfl

/-- An entry after `ioapic_init`: each pin has a vector of its own and the logical destination
`0xFF`, with the mask that it had before. -/
def Entry.routed (p : Fin 24) (e : Entry) : Entry :=
  { e with
    vector := BitVec.ofNat 8 (intIrq0 + p.val)
    delivery := 1
    logical := true
    activeLow := false
    level := false
    target := 0xFF }

theorem initCalls_entry (p : Fin 24) (e : Entry) {n : Nat} (hn : n ≤ 24) :
  (initCalls n).foldl (Call.entry p) e = if p.val < n then e.routed p else e
  := by
  induction n with
  | zero => rw [if_neg (Nat.not_lt_zero _)]; rfl
  | succ n ih =>
      have hpin : pin (BitVec.ofNat 8 n) = some ⟨n, hn⟩ := by
        have hnum : (BitVec.ofNat 8 n).toNat = n := by
          rw [BitVec.toNat_ofNat]
          omega
        simp only [pin, hnum]
        rw [dif_pos (by omega)]
        congr 2
        omega
      have hlast : initCalls (n + 1) = initCalls n ++ [.route (BitVec.ofNat 8 n)
          (ioapicDestLogical ||| ioapicDeliveryLowest) 0xFF (BitVec.ofNat 8 (intIrq0 + n))] := by
        rw [initCalls, List.range_succ, List.map_append]
        rfl
      rw [hlast, List.foldl_append, ih (by omega), List.foldl_cons, List.foldl_nil, Call.entry,
        Call.irq, hpin]
      by_cases hp : p.val = n
      · subst hp
        rw [if_neg (Nat.lt_irrefl _), if_pos rfl, if_pos (Nat.lt_succ_self _)]
        rfl
      · have hne : ¬ some (⟨n, hn⟩ : Fin 24) = some p := by
          intro h
          exact hp (congrArg Fin.val (Option.some.inj h)).symm
        rw [if_neg hne]
        exact if_congr (by omega) rfl rfl

theorem ioapicInit_entries (d : IoApic) (p : Fin 24) :
  (ioapicInit d).entries p = (d.entries p).routed p
  := by
  rw [ioapicInit_eq, foldl_entries, initCalls_entry p _ le_rfl, if_pos p.isLt]

/-- Behind its two registers, the I/O APIC is a table of independent entries.  After `ioapic_init`
and any calls with any numbers, the entry of a pin has its own vector, changed by the calls whose
number addresses this pin one after the other. -/
theorem entries_of_calls (calls : List Call) (d : IoApic) (p : Fin 24) :
  (calls.foldl (fun d call => call.run d) (ioapicInit d)).entries p
    = calls.foldl (Call.entry p) ((d.entries p).routed p)
  := by
  rw [foldl_entries, ioapicInit_entries]

end Ioapic
