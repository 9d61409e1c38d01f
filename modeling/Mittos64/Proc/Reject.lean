import Mittos64.Proc.Exec

/-!
# Executables that are rejected

`load_elf` returns null for an image that is not an executable, and loads nothing.  `exec_elf` does
not look at what it returns: it goes on with `procmm_setup`, which reads the end of the last area of
the map, and starts a thread.  The results here say how a call ends for every image, and for which
ones a thread is started only if there is something to run.
-/

namespace Procmm

open Mem

/-- How a call of `exec_elf` ends. -/
inductive ExecResult where
  /-- It returns a null pointer. -/
  | failed
  /-- It follows a null pointer to an area. -/
  | nullArea
  /-- It does not return for another reason. -/
  | stuck
  /-- The thread has been attached to the process, and is returned. -/
  | started (th : ElfThread) (k : Kernel)

variable (bootP4 : Nat) (grow : Nat → Nat)

/-- `exec_elf` from the call of `procmm_setup` on, when `load_elf` has returned `entry`. -/
def execRest (k : Kernel) (m entry : Nat) (argv envp : List (List UInt8)) : ExecResult :=
  match (k.map m).areas.prev with
  | none => .nullArea
  | some _ =>
      match procmmSetup bootP4 grow k m (argLength argv envp) with
      | none => .stuck
      | some (_, k) =>
          match (k.map m).brk with
          | none => .nullArea
          | some brk =>
              let pos := (k.area brk).start
              match writeArguments (k.map m).P4 k.machine pos argv envp with
              | none => .stuck
              | some s => .started ⟨entry, pos, argv.length⟩ (k.withMachine s)

/-- `exec_elf(p, image, argv, envp)`, for a process with the map `m`, and how it ends. -/
def execElfResult (k : Kernel) (m image : Nat) (argv envp : List (List UInt8)) : ExecResult :=
  match loadElf bootP4 grow k m image with
  | none => .stuck
  | some (entry, k) => execRest bootP4 grow k m entry argv envp

/-- The image has a bad magic number or a bad type. -/
def Rejected (mem : Memory) (data : Nat) : Prop :=
  (elfHeader mem data).identity ≠ elfMagic ∨ (elfHeader mem data).type ≠ elfTypeExecutable

/-- The image is accepted, and has a segment that is loaded. -/
def Loads (mem : Memory) (data : Nat) : Prop :=
  ¬ Rejected mem data ∧ segments mem data ≠ []

/-- The call reports a failure for an image that is rejected or has no segment, and returns a thread
only with the entry point of the image, which is not null. -/
structure RejectsSafely (k : Kernel) (m image : Nat) (argv envp : List (List UInt8)) : Prop where
  rejects : ¬ Loads (kernelMemory bootP4 k.machine) image →
    execElfResult bootP4 grow k m image argv envp = .failed
  starts : ∀ th k', execElfResult bootP4 grow k m image argv envp = .started th k' →
    ∃ entry k₁, loadElf bootP4 grow k m image = some (entry, k₁) ∧ entry ≠ 0 ∧ th.rip = entry

variable {bootP4 : Nat} {grow : Nat → Nat} {k k' : Kernel} {m image entry : Nat}
  {argv envp : List (List UInt8)} {th : ElfThread}

/-- A call that returns, returns the thread that it has started. -/
theorem execElf_eq_some :
  execElf bootP4 grow k m image argv envp = some (th, k')
    ↔ execElfResult bootP4 grow k m image argv envp = .started th k'
  := by
  rw [execElf, execElfResult]
  cases loadElf bootP4 grow k m image with
  | none => simp only [reduceCtorEq]
  | some x =>
      obtain ⟨entry, k₁⟩ := x
      simp only [execRest]
      cases hlast : (k₁.map m).areas.prev with
      | none => simp only [procmmSetup, hlast, reduceCtorEq]
      | some last =>
          cases procmmSetup bootP4 grow k₁ m (argLength argv envp) with
          | none => simp only [reduceCtorEq]
          | some y =>
              obtain ⟨start, k₂⟩ := y
              simp only
              cases (k₂.map m).brk with
              | none => simp only [reduceCtorEq]
              | some brk =>
                  simp only
                  cases writeArguments (k₂.map m).P4 k₂.machine (k₂.area brk).start argv envp with
                  | none => simp only [reduceCtorEq]
                  | some s => simp only [Option.some.injEq, Prod.mk.injEq, ExecResult.started.injEq]

/-- The call follows a null pointer, does not return, or starts a thread where `load_elf` says; no
branch reports a failure. -/
theorem execRest_cases (bootP4 : Nat) (grow : Nat → Nat) (k : Kernel) (m entry : Nat)
    (argv envp : List (List UInt8)) :
  execRest bootP4 grow k m entry argv envp = .nullArea
    ∨ execRest bootP4 grow k m entry argv envp = .stuck
    ∨ ∃ rsi k', execRest bootP4 grow k m entry argv envp
        = .started ⟨entry, rsi, argv.length⟩ k'
  := by
  rw [execRest]
  cases (k.map m).areas.prev with
  | none => exact Or.inl rfl
  | some last =>
      cases procmmSetup bootP4 grow k m (argLength argv envp) with
      | none => exact Or.inr (Or.inl rfl)
      | some x =>
          obtain ⟨start, k₁⟩ := x
          simp only
          cases (k₁.map m).brk with
          | none => exact Or.inl rfl
          | some brk =>
              simp only
              cases writeArguments (k₁.map m).P4 k₁.machine (k₁.area brk).start argv envp with
              | none => exact Or.inr (Or.inl rfl)
              | some s => exact Or.inr (Or.inr ⟨_, _, rfl⟩)

theorem execRest_ne_failed :
  execRest bootP4 grow k m entry argv envp ≠ .failed
  := by
  intro hfailed
  obtain h | h | ⟨rsi, k', h⟩ := execRest_cases bootP4 grow k m entry argv envp
  · cases hfailed.symm.trans h
  · cases hfailed.symm.trans h
  · cases hfailed.symm.trans h

theorem execRest_started (hstarted : execRest bootP4 grow k m entry argv envp = .started th k') :
  th.rip = entry
  := by
  obtain h | h | ⟨rsi, k₁, h⟩ := execRest_cases bootP4 grow k m entry argv envp
  · cases hstarted.symm.trans h
  · cases hstarted.symm.trans h
  · cases hstarted.symm.trans h
    rfl

/-- Headers that are not loaded leave the kernel as it is. -/
theorem loadSegments_none {fuel i n : Nat}
    (hnone : segmentsFrom (kernelMemory bootP4 k.machine) image i n = [])
    (hn : i + n = (elfHeader (kernelMemory bootP4 k.machine) image).phNum) (hfuel : n < fuel) :
  loadSegments bootP4 grow m image fuel k i = some k
  := by
  induction n generalizing i fuel with
  | zero =>
      obtain ⟨fuel, rfl⟩ := Nat.exists_eq_succ_of_ne_zero (Nat.ne_of_gt hfuel)
      rw [loadSegments]
      simp only
      rw [if_neg (by omega)]
  | succ n ih =>
      obtain ⟨fuel, rfl⟩ := Nat.exists_eq_succ_of_ne_zero (Nat.ne_of_gt (Nat.zero_lt_of_lt hfuel))
      rw [segmentsFrom, List.range'_succ, List.map_cons, List.filter_cons] at hnone
      split_ifs at hnone with htype
      rw [decide_eq_true_eq, pheadAt] at htype
      rw [loadSegments]
      simp only
      rw [if_pos (by omega), if_neg htype]
      exact ih hnone (by omega) (by omega)

/-- Nothing is loaded of an image that is rejected or has no segment. -/
theorem loadElf_of_not_loads (grow : Nat → Nat) (m : Nat)
    (h : ¬ Loads (kernelMemory bootP4 k.machine) image) :
  ∃ entry, loadElf bootP4 grow k m image = some (entry, k)
    ∧ (Rejected (kernelMemory bootP4 k.machine) image → entry = 0)
  := by
  by_cases hrejected : Rejected (kernelMemory bootP4 k.machine) image
  · refine ⟨0, ?_, fun _ => rfl⟩
    rw [loadElf]
    obtain hmagic | htype := hrejected
    · rw [if_pos hmagic]
    · rw [if_pos htype, ite_self]
  · refine ⟨(elfHeader (kernelMemory bootP4 k.machine) image).entry, ?_,
      fun h => (hrejected h).elim⟩
    have hnone : segments (kernelMemory bootP4 k.machine) image = [] := by
      by_contra hsome
      apply h ⟨hrejected, hsome⟩
    have hnum : (elfHeader (kernelMemory bootP4 k.machine) image).phNum < 2 ^ 16 + 1 := by
      apply Nat.lt_succ_of_lt
      apply Memory.load_lt
    rw [Rejected, not_or, not_not, not_not] at hrejected
    rw [loadElf, if_neg (not_not.mpr hrejected.1), if_neg (not_not.mpr hrejected.2),
      loadSegments_none hnone (Nat.zero_add _) hnum]

/-- The end of a call for an image that is rejected or has no segment: it follows the null pointer of
an empty map, and goes on with `procmm_setup` for another one. -/
theorem execElfResult_of_not_loads (bootP4 : Nat) (grow : Nat → Nat) {k : Kernel} (m : Nat)
    {image : Nat} (argv envp : List (List UInt8))
    (h : ¬ Loads (kernelMemory bootP4 k.machine) image) :
  ∃ entry, execElfResult bootP4 grow k m image argv envp
      = execRest bootP4 grow k m entry argv envp
    ∧ (Rejected (kernelMemory bootP4 k.machine) image → entry = 0)
    ∧ ((k.map m).areas.prev = none →
      execElfResult bootP4 grow k m image argv envp = .nullArea)
  := by
  obtain ⟨entry, hload, hentry⟩ := loadElf_of_not_loads grow m h
  have hresult : execElfResult bootP4 grow k m image argv envp
      = execRest bootP4 grow k m entry argv envp := by rw [execElfResult, hload]
  refine ⟨entry, hresult, hentry, fun hprev => ?_⟩
  rw [hresult, execRest, hprev]

section Executable

variable {b r data size : Nat} {own : Nat → Prop} {fs : List Nat}

/-- A process with an image that can be run is started at its entry point, when there are frames for
it. -/
theorem Prepared.execElfResult (h : Prepared b own r m fs data size k)
    (himage : Executable (kernelMemory (frame b) k.machine) data (argLength argv envp))
    (hroom : k.heapBrk + pageSize * heapPages grow (k.areas + k.maps)
      ((segments (kernelMemory (frame b) k.machine) data).length + 2) ≤ 2 ^ 64)
    (hframes : execFrames grow k (segments (kernelMemory (frame b) k.machine) data)
      (argLength argv envp) ≤ fs.length) :
  ∃ th k', Procmm.execElfResult (frame b) grow k m data argv envp = .started th k'
    ∧ th.rip = (elfHeader (kernelMemory (frame b) k.machine) data).entry
  := by
  obtain ⟨k₁, start, k₂, fs', s, -, -, -, -, hexec⟩ := h.execElf_eq himage hroom hframes
  exact ⟨_, k₂.withMachine s, execElf_eq_some.mp hexec, rfl⟩

/-- An image that can be run is handled safely exactly if its entry point is not null. -/
theorem Prepared.safe_iff_entry (h : Prepared b own r m fs data size k)
    (himage : Executable (kernelMemory (frame b) k.machine) data (argLength argv envp))
    (hroom : k.heapBrk + pageSize * heapPages grow (k.areas + k.maps)
      ((segments (kernelMemory (frame b) k.machine) data).length + 2) ≤ 2 ^ 64)
    (hframes : execFrames grow k (segments (kernelMemory (frame b) k.machine) data)
      (argLength argv envp) ≤ fs.length) :
  RejectsSafely (frame b) grow k m data argv envp
    ↔ (elfHeader (kernelMemory (frame b) k.machine) data).entry ≠ 0
  := by
  obtain ⟨th, k', hstarted, hrip⟩ := h.execElfResult himage hroom hframes
  constructor
  · intro hsafe
    obtain ⟨entry, k₁, -, hne, heq⟩ := hsafe.starts th k' hstarted
    rwa [← hrip, heq]
  · intro hne
    constructor
    · intro hnot
      apply (hnot ⟨?_, himage.segments⟩).elim
      rintro (hmagic | htype)
      · exact hmagic himage.magic
      · exact htype himage.type
    · intro th' k'' hstarted'
      cases hstarted.symm.trans hstarted'
      obtain ⟨k₁, -, -, -, -, hload, -⟩ := execElf_cases (execElf_eq_some.mpr hstarted)
      exact ⟨th.rip, k₁, hload, hrip ▸ hne, rfl⟩

end Executable

end Procmm
