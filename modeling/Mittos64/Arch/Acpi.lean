import Mittos64.Cpu.Startup

/-!
# The table of the interrupt controllers

`parse_MADT` of `arch/acpi.c` with all that it writes: the processors that `cpu_add` of `cpu/cpu.c`
adds, and the entries of `irq_map` of `interrupts/pic.c`.  It takes the length of the whole table
for the length behind its first header, so it reads on for 36 bytes, and it takes the fields of a
record from behind the end of the record when this is too short.
-/

namespace Acpi

open Smp (Cpu enabledFlag sdtHeaderSize madtHeaderSize)

/-- What `parse_MADT` does with a field. -/
inductive Action where
  | cpuAdd (id apic : Nat)
  | irqMap (irq interrupt : Nat)
  deriving DecidableEq

/-- `cpus` up to `num_cpu`, and the words from `irq_map` on -/
structure Tables where
  cpus : List Cpu
  irqMap : Nat → Nat

/-- What an action writes. -/
def Action.run (t : Tables) : Action → Tables
  | .cpuAdd id apic => { t with cpus := Smp.cpuAdd t.cpus id apic }
  | .irqMap irq interrupt => { t with irqMap := Function.update t.irqMap irq interrupt }

section Source

variable (mem : Memory)

/-- `f->length` -/
def fieldLength (f : Nat) : Nat :=
  (mem (f + 1)).toNat

/-- The record at `f` is about a processor, which is enabled. -/
def Enabled (f : Nat) : Prop :=
  mem f = 0 ∧ mem.load (f + 4) 4 &&& enabledFlag ≠ 0

instance (f : Nat) : Decidable (Enabled mem f) :=
  inferInstanceAs (Decidable (_ ∧ _))

/-- The `switch` of `parse_MADT` -/
def parseField (f : Nat) : Option Action :=
  if mem f = 0 then
    if mem.load (f + 4) 4 &&& enabledFlag ≠ 0 then
      some (.cpuAdd (mem (f + 2)).toNat (mem (f + 3)).toNat)
    else none
  else if mem f = 2 then some (.irqMap (mem (f + 3)).toNat (mem.load (f + 4) 4))
  else none

/-- The fields that the `for` of `parse_MADT` goes over from `f` on. -/
def fields (stop f : Nat) : List Nat :=
  if _h : f < stop ∧ fieldLength mem f ≠ 0 then f :: fields stop (f + fieldLength mem f)
  else []
termination_by stop - f
decreasing_by omega

/-- `header->length` -/
def tableLength (header : Nat) : Nat :=
  mem.load (header + 4) 4

/-- `madt->fields` -/
def firstField (header : Nat) : Nat :=
  header + sdtHeaderSize + madtHeaderSize

/-- `(uintptr_t)madt + header->length` -/
def lastField (header : Nat) : Nat :=
  header + sdtHeaderSize + tableLength mem header

/-- What `parse_MADT(header)` does, in this order. -/
def actions (header : Nat) : List Action :=
  (fields mem (lastField mem header) (firstField header)).filterMap (parseField mem)

/-- `parse_MADT(header)` -/
def parseMADT (header : Nat) (t : Tables) : Tables :=
  (actions mem header).foldl Action.run t

/-! ### Tables -/

/-- The address behind the table. -/
def tableEnd (header : Nat) : Nat :=
  header + tableLength mem header

/-- The records from `f` on that lie before `stop`, up to one of the length 0. -/
def records (stop f : Nat) : List Nat :=
  if _h : f + 2 ≤ stop ∧ f + fieldLength mem f ≤ stop ∧ fieldLength mem f ≠ 0 then
    f :: records stop (f + fieldLength mem f)
  else []
termination_by stop - f
decreasing_by omega

/-- The address behind these records. -/
def recordsEnd (stop f : Nat) : Nat :=
  if _h : f + 2 ≤ stop ∧ f + fieldLength mem f ≤ stop ∧ fieldLength mem f ≠ 0 then
    recordsEnd stop (f + fieldLength mem f)
  else f
termination_by stop - f
decreasing_by omega

/-- The records of the table. -/
def tableRecords (header : Nat) : List Nat :=
  records mem (tableEnd mem header) (firstField header)

/-- What `parse_MADT` reads of the record lies before `stop`: the lowest flag of a processor, or the
interrupt of an override. -/
def Complete (stop f : Nat) : Prop :=
  (mem f = 0 → f + 5 ≤ stop) ∧ (mem f = 2 → f + 8 ≤ stop)

/-- The memories agree on the table. -/
structure SameTable (mem' : Memory) (header : Nat) : Prop where
  length : tableLength mem' header = tableLength mem header
  bytes : ∀ a, header ≤ a → a < tableEnd mem header → mem' a = mem a

/-- With any other bytes outside the table, `parse_MADT` does the same, and goes over the records of
the table only. -/
def DependsOnTable (header : Nat) : Prop :=
  ∀ mem', SameTable mem mem' header →
    actions mem' header = actions mem header
      ∧ fields mem' (lastField mem' header) (firstField header) = tableRecords mem header

/-- The table has no room for a byte of a record, or its records are complete and end within it with
one of the length 0. -/
def Closed (header : Nat) : Prop :=
  tableLength mem header ≤ madtHeaderSize
    ∨ recordsEnd mem (tableEnd mem header) (firstField header) + 2 ≤ tableEnd mem header
      ∧ fieldLength mem (recordsEnd mem (tableEnd mem header) (firstField header)) = 0
      ∧ ∀ f ∈ tableRecords mem header, Complete mem (tableEnd mem header) f

end Source

/-! ### The walk -/

section Walk

variable {mem mem' : Memory} {stop stop' f g : Nat}

theorem fields_cons (h : f < stop ∧ fieldLength mem f ≠ 0) :
  fields mem stop f = f :: fields mem stop (f + fieldLength mem f)
  := by
  rw [fields, dif_pos h]

theorem fields_nil (h : ¬ (f < stop ∧ fieldLength mem f ≠ 0)) :
  fields mem stop f = []
  := by
  rw [fields, dif_neg h]

theorem records_cons
    (h : f + 2 ≤ stop ∧ f + fieldLength mem f ≤ stop ∧ fieldLength mem f ≠ 0) :
  records mem stop f = f :: records mem stop (f + fieldLength mem f)
    ∧ recordsEnd mem stop f = recordsEnd mem stop (f + fieldLength mem f)
  := by
  constructor
  · rw [records, dif_pos h]
  · rw [recordsEnd, dif_pos h]

theorem records_nil
    (h : ¬ (f + 2 ≤ stop ∧ f + fieldLength mem f ≤ stop ∧ fieldLength mem f ≠ 0)) :
  records mem stop f = [] ∧ recordsEnd mem stop f = f
  := by
  constructor
  · rw [records, dif_neg h]
  · rw [recordsEnd, dif_neg h]

/-- The loop goes over the records and on from their end. -/
theorem fields_eq_append (mem : Memory) (hstop : stop ≤ stop') (f : Nat) :
  fields mem stop' f = records mem stop f ++ fields mem stop' (recordsEnd mem stop f)
  := by
  induction f using records.induct mem stop with
  | case1 f h ih =>
      rw [fields_cons ⟨by omega, h.2.2⟩, ih, (records_cons h).1, (records_cons h).2,
        List.cons_append]
  | case2 f h => rw [(records_nil h).1, (records_nil h).2, List.nil_append]

/-- The loop goes up. -/
theorem fields_sorted (mem : Memory) (stop f : Nat) :
  (fields mem stop f).Pairwise (· < ·) ∧ ∀ g ∈ fields mem stop f, f ≤ g ∧ g < stop
  := by
  induction f using fields.induct mem stop with
  | case1 f h ih =>
      rw [fields_cons h, List.pairwise_cons, List.forall_mem_cons]
      refine ⟨⟨fun g hg => ?_, ih.1⟩, ⟨Nat.le_refl f, h.1⟩, fun g hg => ?_⟩
      · have := ih.2 g hg
        omega
      · have := ih.2 g hg
        omega
  | case2 f h =>
      rw [fields_nil h]
      exact ⟨List.Pairwise.nil, nofun⟩

/-- The records lie between the first address and the last one. -/
theorem mem_records :
  (∀ g ∈ records mem stop f, f ≤ g ∧ g + 2 ≤ stop)
    ∧ f ≤ recordsEnd mem stop f ∧ recordsEnd mem stop f ≤ max f stop
  := by
  induction f using records.induct mem stop with
  | case1 f h ih =>
      obtain ⟨hmem, hle, hmax⟩ := ih
      rw [(records_cons h).1, (records_cons h).2, List.forall_mem_cons]
      refine ⟨⟨⟨Nat.le_refl f, h.1⟩, fun g hg => ?_⟩, by omega, by omega⟩
      have := hmem g hg
      omega
  | case2 f h =>
      rw [(records_nil h).1, (records_nil h).2]
      exact ⟨nofun, Nat.le_refl f, Nat.le_max_left f stop⟩

/-- The records depend only on the bytes before `stop`. -/
theorem records_congr (hsame : ∀ a, f ≤ a → a < stop → mem' a = mem a) :
  records mem' stop f = records mem stop f ∧ recordsEnd mem' stop f = recordsEnd mem stop f
  := by
  induction f using records.induct mem stop with
  | case1 f h ih =>
      have hlen : fieldLength mem' f = fieldLength mem f := by
        rw [fieldLength, fieldLength, hsame (f + 1) (by omega) (by omega)]
      obtain ⟨hrecords, hend⟩ := ih fun a ha ha' => hsame a (by omega) ha'
      have h' := h
      rw [← hlen] at h'
      rw [(records_cons h).1, (records_cons h).2, (records_cons h').1, (records_cons h').2, hlen,
        hrecords, hend]
      exact ⟨rfl, rfl⟩
  | case2 f h =>
      have h' : ¬ (f + 2 ≤ stop ∧ f + fieldLength mem' f ≤ stop ∧ fieldLength mem' f ≠ 0) := by
        intro hin
        have hlen : fieldLength mem' f = fieldLength mem f := by
          rw [fieldLength, fieldLength, hsame (f + 1) (by omega) (by omega)]
        rw [hlen] at hin
        exact h hin
      rw [(records_nil h).1, (records_nil h).2, (records_nil h').1, (records_nil h').2]
      exact ⟨rfl, rfl⟩

end Walk

/-! ### One record -/

section Record

variable {mem mem' : Memory} {f stop : Nat}

/-- The flag is the lowest bit of a byte. -/
theorem flag_iff (mem : Memory) (a : Nat) :
  mem.load a 4 &&& enabledFlag ≠ 0 ↔ (mem a).toNat % 2 = 1
  := by
  rw [enabledFlag, Nat.and_one_is_mod, Memory.load]
  omega

/-- The records for which `parse_MADT` does something. -/
theorem parseField_isSome :
  (parseField mem f).isSome ↔ mem f = 2 ∨ (mem f = 0 ∧ (mem (f + 4)).toNat % 2 = 1)
  := by
  rw [parseField]
  split_ifs with hproc hflag hiso
  · rw [flag_iff] at hflag
    simp [hproc, hflag]
  · rw [flag_iff] at hflag
    simp [hproc, hflag]
  · simp [hiso]
  · simp [hproc, hiso]

/-- What `parse_MADT` does with a complete record depends on the bytes before `stop` only. -/
theorem Complete.parseField_congr (h : Complete mem stop f)
    (hsame : ∀ a, f ≤ a → a < stop → mem' a = mem a) (hf : f < stop) :
  parseField mem' f = parseField mem f
  := by
  have htype := hsame f (Nat.le_refl f) hf
  rw [parseField, parseField, htype]
  by_cases hproc : mem f = 0
  · have hin := h.1 hproc
    rw [if_pos hproc, if_pos hproc, hsame (f + 2) (by omega) (by omega),
      hsame (f + 3) (by omega) (by omega)]
    simp only [flag_iff, hsame (f + 4) (by omega) (by omega)]
  · rw [if_neg hproc, if_neg hproc]
    by_cases hiso : mem f = 2
    · have hin := h.2 hiso
      have hload : mem'.load (f + 4) 4 = mem.load (f + 4) 4 := by
        apply Memory.load_congr
        intro a ha ha'
        exact hsame a (by omega) (by omega)
      rw [if_pos hiso, if_pos hiso, hsame (f + 3) (by omega) (by omega), hload]
    · rw [if_neg hiso, if_neg hiso]

end Record

/-! ### The bytes outside the table -/

/-- Two functions that keep the same elements of a list, but perhaps for one, and give the same
list, agree on this one. -/
theorem eq_of_filterMap_eq {α β : Type} {u v : α → Option β} {xs : List α} {x : α}
    (h : xs.filterMap u = xs.filterMap v) (hxs : xs.Nodup) (hx : x ∈ xs)
    (hsome : ∀ y ∈ xs, y ≠ x → (u y).isSome = (v y).isSome) :
  u x = v x
  := by
  obtain ⟨pre, post, rfl⟩ := List.append_of_mem hx
  obtain ⟨-, hcons, hdisj⟩ := List.nodup_append.mp hxs
  have hpost : x ∉ post := (List.nodup_cons.mp hcons).1
  have hlen : ∀ ys : List α, (∀ y ∈ ys, (u y).isSome = (v y).isSome) →
      (ys.filterMap u).length = (ys.filterMap v).length := by
    intro ys hys
    rw [List.length_filterMap_eq_countP, List.length_filterMap_eq_countP]
    apply List.countP_congr
    intro y hy
    rw [hys y hy]
  have hlenpre := hlen pre fun y hy => hsome y (by simp [hy])
    (hdisj y hy x List.mem_cons_self)
  have hlenpost := hlen post fun y hy => hsome y (by simp [hy]) (fun heq => hpost (heq ▸ hy))
  rw [List.filterMap_append, List.filterMap_append] at h
  have hrest := List.append_inj_right h hlenpre
  rw [List.filterMap_cons, List.filterMap_cons] at hrest
  cases hu : u x with
  | none =>
      cases hv : v x with
      | none => rfl
      | some b =>
          rw [hu, hv] at hrest
          have hlengths := congrArg List.length hrest
          dsimp only at hlengths
          rw [List.length_cons] at hlengths
          omega
  | some a =>
      cases hv : v x with
      | none =>
          rw [hu, hv] at hrest
          have hlengths := congrArg List.length hrest
          dsimp only at hlengths
          rw [List.length_cons] at hlengths
          omega
      | some b =>
          rw [hu, hv] at hrest
          rw [(List.cons.inj hrest).1]

section Table

variable {mem mem' : Memory} {header : Nat}

theorem lastField_eq :
  lastField mem header = tableEnd mem header + sdtHeaderSize
  := Nat.add_right_comm _ _ _

theorem SameTable.refl (mem : Memory) (header : Nat) :
  SameTable mem mem header
  := ⟨rfl, fun _ _ _ => rfl⟩

/-- A byte behind the table and its length makes no difference for it. -/
theorem sameTable_update {a : Nat} (ha : tableEnd mem header ≤ a) (hlen : header + 8 ≤ a)
    (c : UInt8) :
  SameTable mem (Function.update mem a c) header
  := by
  constructor
  · apply Memory.load_congr
    intro x _ hx
    apply Function.update_of_ne
    omega
  · intro x _ hx
    apply Function.update_of_ne
    omega

theorem SameTable.ends (h : SameTable mem mem' header) :
  tableEnd mem' header = tableEnd mem header ∧ lastField mem' header = lastField mem header
  := by
  rw [tableEnd, tableEnd, lastField, lastField, h.length]
  exact ⟨rfl, rfl⟩

theorem SameTable.bytes_from (h : SameTable mem mem' header) {f : Nat}
    (hf : firstField header ≤ f) :
  ∀ a, f ≤ a → a < tableEnd mem header → mem' a = mem a
  := by
  intro a ha ha'
  rw [firstField] at hf
  exact h.bytes a (by omega) ha'

/-- The records of the table. -/
theorem SameTable.records (h : SameTable mem mem' header) :
  tableRecords mem' header = tableRecords mem header
    ∧ recordsEnd mem' (tableEnd mem header) (firstField header)
      = recordsEnd mem (tableEnd mem header) (firstField header)
  := by
  obtain ⟨hrecords, hend⟩ := records_congr (h.bytes_from (Nat.le_refl _))
  rw [tableRecords, h.ends.1]
  exact ⟨hrecords, hend⟩

/-- The fields that the loop goes over. -/
theorem SameTable.fields (h : SameTable mem mem' header) :
  fields mem' (lastField mem' header) (firstField header)
    = tableRecords mem header ++ fields mem' (lastField mem header)
      (recordsEnd mem (tableEnd mem header) (firstField header))
  := by
  have hle : tableEnd mem header ≤ lastField mem header := by
    rw [lastField_eq]
    omega
  rw [h.ends.2, fields_eq_append mem' hle, ← h.records.2, ← h.records.1, tableRecords, h.ends.1]

theorem recordsEnd_lt (hlen : madtHeaderSize < tableLength mem header) :
  firstField header ≤ recordsEnd mem (tableEnd mem header) (firstField header)
    ∧ recordsEnd mem (tableEnd mem header) (firstField header) < lastField mem header
  := by
  obtain ⟨-, hle, hmax⟩ := @mem_records mem (tableEnd mem header) (firstField header)
  refine ⟨hle, ?_⟩
  rw [madtHeaderSize] at hlen
  rw [lastField_eq, sdtHeaderSize]
  rw [firstField, tableEnd, sdtHeaderSize, madtHeaderSize] at hmax ⊢
  omega

/-- Where the records of the table end, the length is 0 whatever the bytes outside of it are. -/
theorem DependsOnTable.length_end (h : DependsOnTable mem header)
    (hlen : madtHeaderSize < tableLength mem header) (hsame : SameTable mem mem' header) :
  fieldLength mem' (recordsEnd mem (tableEnd mem header) (firstField header)) = 0
  := by
  have hfields := (h mem' hsame).2
  rw [hsame.fields, List.append_right_eq_self] at hfields
  by_contra hne
  rw [fields_cons ⟨(recordsEnd_lt hlen).2, hne⟩] at hfields
  exact absurd hfields (List.cons_ne_nil _ _)

/-- A byte outside the table does not change what is done with a record, when it does not change
for which of the others something is done. -/
theorem DependsOnTable.parseField_update (h : DependsOnTable mem header) {a f : Nat} {c : UInt8}
    (ha : tableEnd mem header ≤ a) (hf : f ∈ tableRecords mem header)
    (hsome : ∀ g ∈ tableRecords mem header, g ≠ f →
      (parseField (Function.update mem a c) g).isSome = (parseField mem g).isSome) :
  parseField (Function.update mem a c) f = parseField mem f
  := by
  have hrange := (@mem_records mem (tableEnd mem header) (firstField header)).1 f hf
  rw [firstField, sdtHeaderSize, madtHeaderSize] at hrange
  have hsame : SameTable mem (Function.update mem a c) header := sameTable_update ha (by omega) c
  obtain ⟨hactions, hfields⟩ := h _ hsame
  have hfields' := (h mem (SameTable.refl mem header)).2
  rw [actions, actions, hfields, hfields'] at hactions
  apply eq_of_filterMap_eq hactions _ hf hsome
  rw [← hfields']
  exact (fields_sorted mem _ _).1.imp Nat.ne_of_lt

/-- For which records something is done depends on a byte outside the table only by the lowest bit
of it. -/
theorem isSome_update {a g : Nat} {c : UInt8} (ha : tableEnd mem header ≤ a)
    (hg : g ∈ tableRecords mem header)
    (hbit : g + 4 = a → c.toNat % 2 = (mem a).toNat % 2) :
  (parseField (Function.update mem a c) g).isSome = (parseField mem g).isSome
  := by
  have hrange := (@mem_records mem (tableEnd mem header) (firstField header)).1 g hg
  have htype : Function.update mem a c g = mem g := Function.update_of_ne (by omega) c mem
  have hflag : (Function.update mem a c (g + 4)).toNat % 2 = (mem (g + 4)).toNat % 2 := by
    by_cases heq : g + 4 = a
    · rw [heq, Function.update_self, hbit heq]
    · rw [Function.update_of_ne heq]
  rw [Bool.eq_iff_iff, parseField_isSome, parseField_isSome, htype, hflag]

/-- The fields that are read of the records lie in the table. -/
theorem DependsOnTable.complete (h : DependsOnTable mem header) {f : Nat}
    (hf : f ∈ tableRecords mem header) :
  Complete mem (tableEnd mem header) f
  := by
  have hrange := (@mem_records mem (tableEnd mem header) (firstField header)).1 f hf
  constructor
  · intro hproc
    by_contra hout
    -- the other value of the flag
    have hodd : (mem (f + 4) + 1).toNat % 2 ≠ (mem (f + 4)).toNat % 2 := by
      rw [UInt8.toNat_add]
      simp only [UInt8.reduceToNat]
      omega
    have hsame := h.parseField_update (c := mem (f + 4) + 1) (a := f + 4) (by omega) hf
      fun g hg hne => isSome_update (by omega) hg fun heq => absurd (by omega) hne
    have hsome := congrArg Option.isSome hsame
    have htype : Function.update mem (f + 4) (mem (f + 4) + 1) f = mem f :=
      Function.update_of_ne (by omega) _ mem
    rw [Bool.eq_iff_iff, parseField_isSome, parseField_isSome, htype, hproc,
      Function.update_self] at hsome
    simp only [show (0 : UInt8) ≠ 2 by decide, false_or, true_and] at hsome
    omega
  · intro hiso
    by_contra hout
    have hbit : (mem (f + 7) + 2).toNat % 2 = (mem (f + 7)).toNat % 2
        ∧ mem (f + 7) + 2 ≠ mem (f + 7) := by
      rw [Ne, ← UInt8.toNat_inj, UInt8.toNat_add]
      simp only [UInt8.reduceToNat]
      omega
    have hsame := h.parseField_update (c := mem (f + 7) + 2) (a := f + 7) (by omega) hf
      fun g hg hne => isSome_update (by omega) hg fun _ => hbit.1
    have htype : Function.update mem (f + 7) (mem (f + 7) + 2) f = mem f :=
      Function.update_of_ne (by omega) _ mem
    have hproc : mem f ≠ 0 := by
      rw [hiso]
      decide
    rw [parseField, parseField, htype, if_neg hproc, if_neg hproc, if_pos hiso,
      if_pos hiso] at hsame
    have hload := (Action.irqMap.inj (Option.some_inj.mp hsame)).2
    have hbyte := Memory.bytes_of_load hload 3 (by omega)
    rw [Function.update_self] at hbyte
    exact hbit.2 hbyte

/-- `parse_MADT` depends on the bytes of the table only, and goes over its records only, just when
the table has no records at all, or ends with one of the length 0 behind complete ones. -/
theorem parseMADT_dependsOnTable_iff (mem : Memory) (header : Nat) :
  DependsOnTable mem header ↔ Closed mem header
  := by
  constructor
  · intro h
    by_cases hsmall : tableLength mem header ≤ madtHeaderSize
    · exact Or.inl hsmall
    · have hlen := Nat.lt_of_not_le hsmall
      obtain ⟨hle, -⟩ := recordsEnd_lt hlen
      refine Or.inr ⟨?_, h.length_end hlen (SameTable.refl mem header), fun f hf => h.complete hf⟩
      by_contra hout
      -- a length that is not 0 behind the table
      have hbehind : header + 36 + 8
          ≤ recordsEnd mem (tableEnd mem header) (firstField header) := hle
      have hsame : SameTable mem (Function.update mem
          (recordsEnd mem (tableEnd mem header) (firstField header) + 1) 1) header :=
        sameTable_update (by omega) (by omega) 1
      have hzero := h.length_end hlen hsame
      rw [fieldLength, Function.update_self] at hzero
      exact absurd hzero (by decide)
  · rintro (hsmall | ⟨hin, hzero, hcomplete⟩) mem' hsame
    · have hnil : ∀ m, Acpi.fields m (lastField mem header) (firstField header) = [] := by
        intro m
        apply fields_nil
        rw [lastField, firstField]
        omega
      have hrecords : tableRecords mem header = [] := by
        refine (records_nil ?_).1
        rw [tableEnd, firstField]
        omega
      rw [actions, actions, hsame.ends.2, hnil, hnil, hrecords]
      exact ⟨rfl, rfl⟩
    · obtain ⟨-, hle, -⟩ := @mem_records mem (tableEnd mem header) (firstField header)
      have hfields : ∀ m, SameTable mem m header →
          Acpi.fields m (lastField m header) (firstField header) = tableRecords mem header := by
        intro m hm
        have hend :
          fieldLength m (recordsEnd mem (tableEnd mem header) (firstField header)) = 0 := by
          rw [← hzero, fieldLength, fieldLength, hm.bytes_from hle _ (by omega) (by omega)]
        rw [hm.fields, fields_nil (fun hgo => hgo.2 hend), List.append_nil]
      refine ⟨?_, hfields mem' hsame⟩
      rw [actions, actions, hfields mem' hsame, hfields mem (SameTable.refl mem header)]
      apply List.filterMap_congr
      intro f hf
      have hrange := (@mem_records mem (tableEnd mem header) (firstField header)).1 f hf
      exact (hcomplete f hf).parseField_congr (hsame.bytes_from hrange.1) (by omega)

/-- A table without records. -/
def emptyTable : Memory :=
  Memory.write (fun _ => 0) 4 (Memory.wordBytes 4 44)

/-- The same table, and behind it bytes that look like the record of an override. -/
def behindTable : Memory :=
  emptyTable.write 44 [2, 8, 0, 255, 7, 0, 0, 0]

/-- What lies behind the table is taken for a record of it. -/
theorem parseMADT_reads_behind :
  SameTable emptyTable behindTable 0 ∧ actions emptyTable 0 = []
    ∧ actions behindTable 0 = [.irqMap 255 7] ∧ ¬ DependsOnTable emptyTable 0
  := by
  have hlen : tableLength emptyTable 0 = 44 := by decide
  have hsame : SameTable emptyTable behindTable 0 := by
    constructor
    · decide
    · intro a _ ha
      apply Memory.write_of_notMem
      rw [tableEnd, hlen] at ha
      omega
  have hlast : lastField emptyTable 0 = 80 := by decide
  have hempty : actions emptyTable 0 = [] := by
    rw [actions, hlast, firstField, fields_nil (by decide), List.filterMap_nil]
  have hbehind : actions behindTable 0 = [.irqMap 255 7] := by
    rw [actions, hsame.ends.2, hlast, firstField, fields_cons (by decide), fields_nil (by decide)]
    decide
  refine ⟨hsame, hempty, hbehind, ?_⟩
  intro h
  have hactions := (h behindTable hsame).1
  rw [hempty, hbehind] at hactions
  exact absurd hactions (List.cons_ne_nil _ _)

end Table

end Acpi
