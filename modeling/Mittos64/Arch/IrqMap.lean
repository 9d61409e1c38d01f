import Mittos64.Arch.Acpi
import Mittos64.Lib.Run

/-!
# What the table of the interrupt controllers may write

`cpu_add` compares the number of processors with the length of `cpus`, but `parse_MADT` does not
compare the interrupts of an override with the length of `irq_map`.  So the tables of the kernel
stay in bounds just when the firmware keeps to them, and the processors are counted as they should
when the loop finds none behind the records of the table.
-/

namespace Acpi

open Smp (Cpu enabledFlag maxNumcpu)

/-- The length of `irq_map` -/
def irqMapLength : Nat := 24

section Definitions

variable (mem : Memory)

/-- The fields that one comes to from the one at `first` by their lengths, before `stop` and up to
one of the length 0. -/
inductive Chain (stop first : Nat) : Nat → Prop where
  | first : first < stop → fieldLength mem first ≠ 0 → Chain stop first first
  | next {f : Nat} : Chain stop first f → f + fieldLength mem f < stop →
      fieldLength mem (f + fieldLength mem f) ≠ 0 → Chain stop first (f + fieldLength mem f)

/-- The table leads to the field at `f`. -/
def Reached (header f : Nat) : Prop :=
  Chain mem (lastField mem header) (firstField header) f

/-- `parse_MADT` ends after a turn for each byte at most, writes to `irq_map` only what can be used
there, and adds the enabled processors of the table, as long as there is room for them. -/
structure KeepsBounds (header : Nat) (irqMap : Nat → Nat) : Prop where
  ends : (fields mem (lastField mem header) (firstField header)).length ≤ tableLength mem header
  writes : ∀ irq interrupt, .irqMap irq interrupt ∈ actions mem header →
    irq < irqMapLength ∧ interrupt < irqMapLength
  room : (parseMADT mem header ⟨[], irqMap⟩).cpus.length ≤ maxNumcpu
  counted : (parseMADT mem header ⟨[], irqMap⟩).cpus.length
    = min maxNumcpu ((tableRecords mem header).countP fun f => Enabled mem f)

end Definitions

section Bounds

variable {mem : Memory} {stop f g header : Nat}

/-- The loop goes over the fields that it is led to. -/
theorem mem_fields_iff :
  g ∈ fields mem stop f ↔ Chain mem stop f g
  := by
  constructor
  · intro h
    induction f using fields.induct mem stop with
    | case1 f hf ih =>
        rw [fields_cons hf, List.mem_cons] at h
        obtain rfl | h := h
        · exact .first hf.1 hf.2
        · have hchain := ih h
          clear h ih
          induction hchain with
          | first hlt hne => exact .next (.first hf.1 hf.2) hlt hne
          | next _ hlt hne ih => exact .next ih hlt hne
    | case2 f hf =>
        rw [fields_nil hf] at h
        exact absurd h List.not_mem_nil
  · intro h
    induction h with
    | first hlt hne =>
        rw [fields_cons ⟨hlt, hne⟩]
        exact List.mem_cons_self
    | @next f' hchain hlt hne ih =>
        clear hchain
        induction f using fields.induct mem stop with
        | case1 f hf ih' =>
            rw [fields_cons hf, List.mem_cons] at ih ⊢
            right
            obtain rfl | ih := ih
            · rw [fields_cons ⟨hlt, hne⟩]
              exact List.mem_cons_self
            · exact ih' ih
        | case2 f hf =>
            rw [fields_nil hf] at ih
            exact absurd ih List.not_mem_nil

theorem fields_length_le (mem : Memory) (stop f : Nat) :
  (fields mem stop f).length ≤ stop - f
  := by
  induction f using fields.induct mem stop with
  | case1 f hf ih =>
      rw [fields_cons hf, List.length_cons]
      omega
  | case2 f hf =>
      rw [fields_nil hf]
      exact Nat.zero_le _

theorem cpuAdd_length {cpus : List Cpu} (h : cpus.length ≤ maxNumcpu) (id apic : Nat) :
  (Smp.cpuAdd cpus id apic).length = min maxNumcpu (cpus.length + 1)
  := by
  rw [Smp.cpuAdd]
  by_cases hfull : cpus.length ≥ maxNumcpu
  · rw [if_pos hfull]
    omega
  · rw [if_neg hfull, List.length_append, List.length_singleton]
    omega

/-- Processors are added as long as there is room for them. -/
theorem foldl_run_cpus (as : List Action) {t : Tables} (ht : t.cpus.length ≤ maxNumcpu) :
  (as.foldl Action.run t).cpus.length
    = min maxNumcpu (t.cpus.length + as.countP fun a => a matches .cpuAdd _ _)
  := by
  induction as generalizing t with
  | nil =>
      rw [List.foldl_nil, List.countP_nil]
      omega
  | cons a as ih =>
      rw [List.foldl_cons]
      cases a with
      | cpuAdd id apic =>
          rw [List.countP_cons_of_pos rfl]
          have hadd : (Action.run t (.cpuAdd id apic)).cpus.length
              = min maxNumcpu (t.cpus.length + 1) := cpuAdd_length ht id apic
          rw [ih (by omega), hadd]
          omega
      | irqMap irq interrupt =>
          rw [List.countP_cons_of_neg Bool.false_ne_true]
          exact ih ht

/-- `parse_MADT` adds the enabled processors that it is led to. -/
theorem parseMADT_cpus_length (mem : Memory) (header : Nat) (irqMap : Nat → Nat) :
  (parseMADT mem header ⟨[], irqMap⟩).cpus.length
    = min maxNumcpu ((fields mem (lastField mem header) (firstField header)).countP
      fun f => Enabled mem f)
  := by
  rw [parseMADT, foldl_run_cpus _ (Nat.zero_le _), List.length_nil, Nat.zero_add, actions,
    List.countP_filterMap]
  congr 1
  apply List.countP_congr
  intro f _
  simp only [parseField, Enabled]
  split_ifs with hproc hflag hiso
  · simp [hproc, hflag]
  · simp [hflag]
  · simp [hproc]
  · simp [hproc]

/-- The entries of `irq_map` that `parse_MADT` writes. -/
theorem irqMap_mem_actions {irq interrupt : Nat} :
  .irqMap irq interrupt ∈ actions mem header
    ↔ ∃ f, Reached mem header f ∧ mem f = 2 ∧ irq = (mem (f + 3)).toNat
      ∧ interrupt = mem.load (f + 4) 4
  := by
  rw [actions, List.mem_filterMap]
  apply exists_congr
  intro f
  rw [mem_fields_iff, Reached]
  apply and_congr_right
  intro _
  rw [parseField]
  split_ifs with hproc hflag hiso
  · simp [hproc]
  · simp [hproc]
  · simp [hiso, eq_comm]
  · simp [hiso]

/-- `parse_MADT` keeps the tables of the kernel in bounds just when both interrupts of every
override it is led to are below the length of `irq_map`, and it is led to no enabled processor
behind the records of the table, or these have no room for one. -/
theorem parseMADT_keepsBounds_iff (mem : Memory) (header : Nat) (irqMap : Nat → Nat) :
  KeepsBounds mem header irqMap
    ↔ (∀ f, Reached mem header f → mem f = 2 →
        (mem (f + 3)).toNat < irqMapLength ∧ mem.load (f + 4) 4 < irqMapLength)
      ∧ ((∀ f, Reached mem header f → f ∉ tableRecords mem header → ¬ Enabled mem f)
        ∨ maxNumcpu ≤ (tableRecords mem header).countP fun f => Enabled mem f)
  := by
  have hle : tableEnd mem header ≤ lastField mem header := by
    rw [lastField_eq]
    omega
  obtain ⟨extra, hextra⟩ : ∃ extra, extra = fields mem (lastField mem header)
      (recordsEnd mem (tableEnd mem header) (firstField header)) := ⟨_, rfl⟩
  have happend : fields mem (lastField mem header) (firstField header)
      = tableRecords mem header ++ extra := by
    rw [hextra, tableRecords]
    apply fields_eq_append mem hle
  have hsorted := (fields_sorted mem (lastField mem header) (firstField header)).1
  rw [happend] at hsorted
  have hdisj := (List.nodup_append.mp (hsorted.imp Nat.ne_of_lt)).2.2
  -- the fields behind the records of the table
  have hbehind : ∀ f, f ∈ extra ↔ Reached mem header f ∧ f ∉ tableRecords mem header := by
    intro f
    rw [Reached, ← mem_fields_iff, happend, List.mem_append]
    constructor
    · intro hf
      exact ⟨Or.inr hf, fun hmem => hdisj f hmem f hf rfl⟩
    · rintro ⟨hmem | hf, hnot⟩
      · exact absurd hmem hnot
      · exact hf
  have hnone : (∀ f, Reached mem header f → f ∉ tableRecords mem header → ¬ Enabled mem f)
      ↔ extra.countP (fun f => Enabled mem f) = 0 := by
    rw [List.countP_eq_zero]
    simp only [hbehind, decide_eq_true_eq, and_imp]
  have hcount := parseMADT_cpus_length mem header irqMap
  rw [happend, List.countP_append] at hcount
  rw [hnone]
  constructor
  · intro h
    constructor
    · intro f hf hiso
      exact h.writes _ _ (irqMap_mem_actions.mpr ⟨f, hf, hiso, rfl, rfl⟩)
    · have hcounted := h.counted
      rw [hcount] at hcounted
      omega
  · rintro ⟨hiso, hroom⟩
    refine ⟨?_, ?_, ?_, ?_⟩
    · apply Nat.le_trans (fields_length_le mem _ _)
      rw [lastField, firstField]
      omega
    · intro irq interrupt hmem
      obtain ⟨f, hf, htype, rfl, rfl⟩ := irqMap_mem_actions.mp hmem
      exact hiso f hf htype
    · rw [hcount]
      omega
    · rw [hcount]
      omega

/-- In bounds, all interrupts that `irq_map` maps to are below its length. -/
theorem KeepsBounds.irqMap_lt {irqMap : Nat → Nat} (h : KeepsBounds mem header irqMap)
    (hirqMap : ∀ i < irqMapLength, irqMap i < irqMapLength) {i : Nat} (hi : i < irqMapLength) :
  (parseMADT mem header ⟨[], irqMap⟩).irqMap i < irqMapLength
  := by
  have hrun : ∀ a ∈ actions mem header, ∀ t : Tables,
      (∀ i < irqMapLength, t.irqMap i < irqMapLength) →
        ∀ i < irqMapLength, (Action.run t a).irqMap i < irqMapLength := by
    intro a ha t ht i hi
    cases a with
    | cpuAdd id apic => exact ht i hi
    | irqMap irq interrupt =>
        simp only [Action.run, Function.update_apply]
        split_ifs
        · exact (h.writes irq interrupt ha).2
        · exact ht i hi
  exact foldl_invariant (P := fun t : Tables => ∀ i < irqMapLength, t.irqMap i < irqMapLength) hrun
    hirqMap i hi

/-- The processors are those of the model of `parse_MADT` that leaves `irq_map` out. -/
theorem parseMADT_cpus (mem : Memory) (header : Nat) (t : Tables) :
  (parseMADT mem header t).cpus = Smp.parseMADT mem header t.cpus
  := by
  have hfields : ∀ stop f (t : Tables),
      (((fields mem stop f).filterMap (parseField mem)).foldl Action.run t).cpus
        = Smp.parseFields mem stop f t.cpus := by
    intro stop f t
    induction f using fields.induct mem stop generalizing t with
    | case1 f hf ih =>
        have hgo : f < stop ∧ (mem (f + 1)).toNat ≠ 0 := hf
        rw [fields_cons hf, Smp.parseFields, dif_pos hgo, List.filterMap_cons, parseField]
        by_cases hproc : mem f = 0
        · rw [if_pos hproc]
          by_cases hflag : mem.load (f + 4) 4 &&& enabledFlag ≠ 0
          · rw [if_pos hflag, if_pos ⟨hproc, hflag⟩]
            apply ih
          · rw [if_neg hflag, if_neg fun hand => hflag hand.2]
            apply ih
        · have hboth : ¬ (mem f = 0 ∧ mem.load (f + 4) 4 &&& enabledFlag ≠ 0) :=
            fun hand => hproc hand.1
          rw [if_neg hproc, if_neg hboth]
          by_cases hiso : mem f = 2
          · rw [if_pos hiso]
            apply ih
          · rw [if_neg hiso]
            apply ih
    | case2 f hf =>
        have hstop : ¬ (f < stop ∧ (mem (f + 1)).toNat ≠ 0) := hf
        rw [fields_nil hf, Smp.parseFields, dif_neg hstop]
        rfl
  apply hfields

/-- A table with one record, an override of the interrupt 255. -/
def overrideTable : Memory :=
  (Memory.write (fun _ => 0) 4 (Memory.wordBytes 4 52)).write 44 [2, 8, 0, 255, 7, 0, 0, 0]

/-- The override is written behind the end of `irq_map`. -/
theorem parseMADT_writes_behind :
  .irqMap 255 7 ∈ actions overrideTable 0 ∧ ¬ KeepsBounds overrideTable 0 id
  := by
  have hmem : .irqMap 255 7 ∈ actions overrideTable 0 :=
    irqMap_mem_actions.mpr ⟨44, .first (by decide) (by decide), by decide, by decide, by decide⟩
  refine ⟨hmem, ?_⟩
  intro h
  exact absurd (h.writes 255 7 hmem).1 (by decide)

end Bounds

end Acpi
