import Mittos64.Proc.Break
import Mittos64.Proc.StackFault

/-!
# The bounds of the break

`syscall_brk` passes the difference of the address and the start of the break on to
`procmm_resize`, modulo `2 ^ 64`.  For an address above the break the area grows up to the next
area at most.  For the break itself the area is not to grow, and the call ends in the loop for
areas that are to shrink; for an address below the start the difference wraps around, and the end
of the area is set to this address.
-/

open DList

namespace Procmm

open Mem

section Call

variable {b r m brk stack addr : Nat} {own : Nat → Prop} {fs : List Nat} {k k' : Kernel}

/-- The areas of the break and of the stack after `brk(addr)` has returned `v`. -/
structure BrkResult (brk stack addr v : Nat) (k k' : Kernel) : Prop where
  value : v = (k'.area brk).stop
  start : (k'.area brk).start = (k.area brk).start
  next : (k'.area stack).start = (k.area stack).start
  lower : (k.area brk).start ≤ (k'.area brk).stop
  upper : (k'.area brk).stop ≤ (k.area stack).start
  stop : (k'.area brk).stop
    = if (k.area brk).stop < addr then min addr (k.area stack).start else (k.area brk).stop

/-- The call `brk(addr)` returns, when there are frames for the pages it maps, and leaves the end
of the break between its start and the stack: at `addr`, as far as there is room, when this is above
the break, and where it was when it is not. -/
def BrkBounds (b m brk stack : Nat) (k : Kernel) (addr : Nat) : Prop :=
  (∀ fs, Stacked fs k.machine →
      4 * turns (nextPage (k.area brk).stop) (min addr (k.area stack).start) ≤ fs.length →
      ∃ v k', syscallBrk (frame b) k m addr = some (v, k'))
    ∧ ∀ v k', syscallBrk (frame b) k m addr = some (v, k') → BrkResult brk stack addr v k k'

/-- `brk(0)` returns the break. -/
theorem Bounded.syscallBrk_zero (h : Bounded b own r m brk stack k) (hzero : addr = 0) :
  syscallBrk (frame b) k m addr = some ((k.area brk).stop, k)
  := by
  rw [syscallBrk_of_brk h.hasBrk rfl, if_neg (not_not_intro hzero)]

/-- `brk` with the break itself does not return. -/
theorem Bounded.syscallBrk_equal (h : Bounded b own r m brk stack k) (hne : addr ≠ 0)
    (heq : addr = (k.area brk).stop) :
  syscallBrk (frame b) k m addr = none
  := by
  have hnot : ¬ ((k.area brk).stop + 2 ^ 64 - (k.area brk).start) % 2 ^ 64
      < (addr + 2 ^ 64 - (k.area brk).start) % 2 ^ 64 := by
    rw [heq]
    apply Nat.lt_irrefl
  rw [syscallBrk_of_brk h.hasBrk rfl, if_pos hne, procmmResize]
  rw [if_neg hnot]
  rfl

/-- `brk` with an address below the start of the break sets the end of the break to it. -/
theorem Bounded.syscallBrk_below (h : Bounded b own r m brk stack k) (hne : addr ≠ 0)
    (hlt : addr < (k.area brk).start) :
  syscallBrk (frame b) k m addr = some (addr, (k.setStop brk addr).withMachine k.machine)
  := by
  have hle := h.le
  have hbelow := h.below
  have htop := h.top
  rw [userspaceTop] at htop
  obtain ⟨len, hlen⟩ : ∃ len, len = (addr + 2 ^ 64 - (k.area brk).start) % 2 ^ 64 := ⟨_, rfl⟩
  have hgrow : ((k.area brk).stop + 2 ^ 64 - (k.area brk).start) % 2 ^ 64 < len := by
    omega
  have hstop : addr = min (incptr (k.area brk).start len) (k.area stack).start := by
    rw [incptr]
    omega
  have hpage : ¬ nextPage (k.area brk).stop < addr := by
    have hnext := lt_nextPage (show (k.area brk).stop + pageSize < 2 ^ 64 by
      rw [pageSize]
      omega)
    omega
  rw [syscallBrk_of_brk h.hasBrk hlen, if_pos hne,
    procmmResize_of_lt h.next hgrow (Nat.le_trans hle hbelow) (by omega) hstop, mapPages, if_neg hpage,
    Option.map_some, Option.map_some, Kernel.withMachine_area, Kernel.setStop_area,
    Function.update_self]

/-- `brk` with an address above the break. -/
theorem Bounded.syscallBrk_above (h : Bounded b own r m brk stack k) (hready : Ready b own fs k)
    (hlt : (k.area brk).stop < addr) (haddr : addr < 2 ^ 64) :
  (∃ v k', syscallBrk (frame b) k m addr = some (v, k') ∧ BrkResult brk stack addr v k k'
      ∧ Bounded b own r m brk stack k')
    ∨ (fs.length < 4 * turns (nextPage (k.area brk).stop) (min addr (k.area stack).start)
      ∧ syscallBrk (frame b) k m addr = none)
  := by
  have hroot : k.Root r := ⟨m, h.live, h.P4⟩
  have hle := h.le
  have hbelow := h.below
  obtain ⟨stop, hstop⟩ : ∃ stop, stop = min addr (k.area stack).start := ⟨_, rfl⟩
  have htop : stop ≤ userspaceTop := by
    have htop := h.top
    omega
  rw [h.syscallBrk_eq hlt haddr hstop, ← hstop]
  obtain ⟨s, used, fs', rfl, -, hpages, hsound, -⟩ | ⟨hlen, hnone⟩ :=
    hready.sound.mapPages (p := nextPage (k.area brk).stop) hroot htop (Nat.lt_succ_self _)
  · left
    have harea : ((k.setStop brk stop).withMachine s).area brk = { k.area brk with stop := stop } := by
      rw [Kernel.withMachine_area, Kernel.setStop_area, Function.update_self]
    have hother : ((k.setStop brk stop).withMachine s).area stack = k.area stack := by
      rw [Kernel.withMachine_area, Kernel.setStop_area, Function.update_of_ne h.ne]
    refine ⟨stop, (k.setStop brk stop).withMachine s, by rw [hpages, Option.map_some], ?_, ?_⟩
    · constructor
      · rw [harea]
      · rw [harea]
      · rw [hother]
      · rw [harea]
        dsimp only
        omega
      · rw [harea]
        dsimp only
        omega
      · rw [harea, if_pos hlt]
        exact hstop
    · refine ⟨⟨fs', ?_⟩, h.live, h.P4, h.hasBrk, h.hasStack, h.next, h.ne, ?_, ?_, ?_⟩
      · exact hready.of_sound rfl rfl (fun _ => rfl) hready.heap hsound
      · rw [harea]
        dsimp only
        omega
      · rw [harea, hother]
        dsimp only
        omega
      · rw [hother]
        exact h.top
  · right
    rw [hnone]
    exact ⟨hlen, rfl⟩

/-- A call of `brk`, other than for an address inside the break, keeps the bounds if and only if it
asks for the break or for an address above it. -/
theorem Bounded.brkBounds_iff (h : Bounded b own r m brk stack k) (haddr : addr < 2 ^ 64)
    (hinside : ¬ ((k.area brk).start ≤ addr ∧ addr < (k.area brk).stop)) :
  BrkBounds b m brk stack k addr ↔ addr = 0 ∨ (k.area brk).stop < addr
  := by
  have hle := h.le
  have hbelow := h.below
  constructor
  · intro hbounds
    by_contra hnot
    rw [not_or, Nat.not_lt] at hnot
    by_cases hlow : addr < (k.area brk).start
    · have hresult := hbounds.2 _ _ (h.syscallBrk_below hnot.1 hlow)
      have hlower := hresult.lower
      rw [Kernel.withMachine_area, Kernel.setStop_area, Function.update_self] at hlower
      dsimp only at hlower
      omega
    · have heq : addr = (k.area brk).stop := by omega
      obtain ⟨fs, hready⟩ := h.ready
      have hturns : turns (nextPage (k.area brk).stop)
          (min addr (k.area stack).start) = 0 := by
        have htop := h.top
        rw [userspaceTop] at htop
        have hnext := lt_nextPage (show (k.area brk).stop + pageSize < 2 ^ 64 by
          rw [pageSize]
          omega)
        rw [turns, pageSize]
        omega
      obtain ⟨v, k', hcall⟩ := hbounds.1 fs hready.sound.stack
        (by rw [hturns]; exact Nat.zero_le _)
      rw [h.syscallBrk_equal hnot.1 heq] at hcall
      cases hcall
  · rintro (hzero | hlt)
    · have hcalled := h.syscallBrk_zero hzero
      have hnot : ¬ (k.area brk).stop < addr := by omega
      refine ⟨fun _ _ _ => ⟨_, _, hcalled⟩, ?_⟩
      intro v k' hcall
      rw [hcalled] at hcall
      obtain ⟨rfl, rfl⟩ := Prod.mk.inj (Option.some.inj hcall)
      exact ⟨rfl, rfl, rfl, hle, hbelow, by rw [if_neg hnot]⟩
    · obtain ⟨fs, hready⟩ := h.ready
      obtain ⟨v, k', hcall, hresult, -⟩ | ⟨hlen, hnone⟩ := h.syscallBrk_above hready hlt haddr
      · refine ⟨fun _ _ _ => ⟨v, k', hcall⟩, ?_⟩
        intro v' k'' hcall'
        rw [hcall] at hcall'
        obtain ⟨rfl, rfl⟩ := Prod.mk.inj (Option.some.inj hcall')
        exact hresult
      · constructor
        · intro fs' hfs' hframes
          obtain rfl : fs' = fs := hfs'.2.unique hready.sound.stack.2
          omega
        · intro v k' hcall
          rw [hnone] at hcall
          cases hcall

end Call

/-! ### Runs -/

section Runs

variable {b r m addr data size : Nat} {own : Nat → Prop} {fs : List Nat} {grow : Nat → Nat}
  {argv envp : List (List UInt8)} {k k' : Kernel} {th : ElfThread} {brk stack : Nat}

/-- The address is zero or above the break. -/
def FromBreak (k : Kernel) (m addr : Nat) : Prop :=
  addr = 0 ∨ ∀ brk, (k.map m).brk = some brk → (k.area brk).stop < addr

/-- The fault is not near the stack, or the stack can grow by a page and is above the break then. -/
def ClearFault (k : Kernel) (m addr : Nat) : Prop :=
  ∀ brk stack, (k.map m).brk = some brk → (k.map m).stack = some stack →
    incptr addr pageSize < (k.area stack).start
      ∨ (k.area brk).stop + pageSize ≤ (k.area stack).start

/-- Somebody else has run: the process still has its map, its break and its stack. -/
structure Elsewhere (b : Nat) (own : Nat → Prop) (m : Nat) (k k' : Kernel) : Prop where
  ready : ∃ fs, Ready b own fs k'
  live : k'.live m = k.live m
  map : k'.map m = k.map m
  area : ∀ a, (k.map m).brk = some a ∨ (k.map m).stack = some a →
    k'.area a = k.area a ∧ k'.link a = k.link a

/-- A step of a process with a break: a call of `brk`, a fault, or anything elsewhere. -/
inductive BreakStep (b : Nat) (own : Nat → Prop) (m : Nat) (k k' : Kernel) : Prop where
  | brk {addr v : Nat} (haddr : addr < 2 ^ 64) (hfrom : FromBreak k m addr)
      (hcall : syscallBrk (frame b) k m addr = some (v, k'))
  | fault {addr : Nat} {handled : Bool} (hclear : ClearFault k m addr)
      (hcall : procmmPageFault (frame b) k m addr = some (handled, k'))
  | other (h : Elsewhere b own m k k')

/-- A fault keeps the stack above the break. -/
theorem Bounded.fault {handled : Bool} (h : Bounded b own r m brk stack k)
    (hclear : ClearFault k m addr)
    (hcall : procmmPageFault (frame b) k m addr = some (handled, k')) :
  Bounded b own r m brk stack k'
  := by
  obtain ⟨start, hstart⟩ :
      ∃ start, start = ((k.area stack).start + 2 ^ 64 - pageSize) % 2 ^ 64 := ⟨_, rfl⟩
  rw [procmmPageFault_of_stack h.hasStack hstart] at hcall
  split_ifs at hcall with hnear
  · have hroom := (hclear brk stack h.hasBrk h.hasStack).resolve_left (Nat.not_lt.mpr hnear.2)
    have htop := h.top
    rw [userspaceTop] at htop
    have hless : start + pageSize = (k.area stack).start := by
      omega
    obtain ⟨s, hmap, hpair⟩ := Option.map_eq_some_iff.mp hcall
    obtain ⟨-, rfl⟩ := Prod.mk.inj hpair
    have hroot : k.Root r := ⟨m, h.live, h.P4⟩
    obtain ⟨fs, hready⟩ := h.ready
    have hr : r ≠ 0 := by
      rintro rfl
      exact hready.sound.nonzero hroot
    have huser : start < userspaceTop := by
      rw [userspaceTop]
      rw [pageSize] at hless
      omega
    have hbrk : ((k.setStart stack start).withMachine s).area brk = k.area brk := by
      rw [Kernel.withMachine_area, Kernel.setStart_area, Function.update_of_ne h.ne.symm]
    have hstack : (((k.setStart stack start).withMachine s).area stack).start = start := by
      rw [Kernel.withMachine_area, Kernel.setStart_area, Function.update_self]
    rw [h.P4] at hmap
    obtain ⟨s', f, new, fs', rfl, hmap', -, hsound, -⟩ | ⟨-, hnone⟩ :=
      hready.sound.mapPage (Or.inr hroot) (resolveP4_frame hr) (user_ne_kernel huser).2 userFlags
    · rw [hmap] at hmap'
      obtain rfl := Option.some.inj hmap'
      refine ⟨⟨fs', ?_⟩, h.live, h.P4, h.hasBrk, h.hasStack, h.next, h.ne, ?_, ?_, ?_⟩
      · exact hready.of_sound rfl rfl (fun _ => rfl) hready.heap hsound
      · rw [hbrk]
        exact h.le
      · rw [hbrk, hstack]
        omega
      · rw [hstack]
        exact Nat.le_of_lt huser
    · rw [hmap] at hnone
      cases hnone
  · obtain ⟨-, rfl⟩ := Prod.mk.inj (Option.some.inj hcall)
    exact h

theorem Bounded.elsewhere (h : Bounded b own r m brk stack k) (hother : Elsewhere b own m k k') :
  Bounded b own r m brk stack k'
  := by
  obtain ⟨hbrk, hlink⟩ := hother.area brk (.inl h.hasBrk)
  obtain ⟨hstack, -⟩ := hother.area stack (.inr h.hasStack)
  refine ⟨hother.ready, ?_, ?_, ?_, ?_, ?_, h.ne, ?_, ?_, ?_⟩
  · rw [hother.live]
    exact h.live
  · rw [hother.map]
    exact h.P4
  · rw [hother.map]
    exact h.hasBrk
  · rw [hother.map]
    exact h.hasStack
  · rw [hlink]
    exact h.next
  · rw [hbrk]
    exact h.le
  · rw [hbrk, hstack]
    exact h.below
  · rw [hstack]
    exact h.top

/-- Every step keeps the break below the stack. -/
theorem Bounded.step (h : Bounded b own r m brk stack k) (hstep : BreakStep b own m k k') :
  Bounded b own r m brk stack k'
  := by
  cases hstep with
  | brk haddr hfrom hcall =>
      obtain hzero | habove := hfrom
      · rw [h.syscallBrk_zero hzero] at hcall
        obtain ⟨-, rfl⟩ := Prod.mk.inj (Option.some.inj hcall)
        exact h
      · obtain ⟨fs, hready⟩ := h.ready
        obtain ⟨v', k'', hcall', -, hnext⟩ | ⟨-, hnone⟩ :=
          h.syscallBrk_above hready (habove brk h.hasBrk) haddr
        · rw [hcall'] at hcall
          obtain ⟨-, rfl⟩ := Prod.mk.inj (Option.some.inj hcall)
          exact hnext
        · rw [hnone] at hcall
          cases hcall
  | fault hclear hcall => exact h.fault hclear hcall
  | other hother => exact h.elsewhere hother

/-- A new process has its break below its stack, when its image leaves room for the arguments. -/
theorem Prepared.bounded (h : Prepared b own r m fs data size k)
    (hps : ∀ p ∈ segments (kernelMemory (frame b) k.machine) data, p.Loadable)
    (hasc : AscendingSegments (segments (kernelMemory (frame b) k.machine) data))
    (hroom : ∀ p ∈ segments (kernelMemory (frame b) k.machine) data,
      nextPage (p.virtualAddress + p.memSize) + argLength argv envp < userspaceTop)
    (hcall : execElf (frame b) grow k m data argv envp = some (th, k')) :
  ∃ brk stack, Bounded b own r m brk stack k'
  := by
  obtain ⟨k₁, start, k₂, brk, s, hload, hsetup, hbrk, hwrite, rfl, -, -⟩ := execElf_cases hcall
  obtain ⟨used, fs₁, zs, rfl, -, hlaid, -⟩ := h.loaded hps hasc (h.loadElf hps hload hsetup)
  obtain ⟨last, -, -, -, -, hlast, -, -⟩ := procmmSetup_cases hsetup
  rw [hlaid.list.rep.last] at hlast
  have hend : EndOf (segments (kernelMemory (frame b) k.machine) data) (k₁.area last).stop →
      (k₁.area last).stop ≤ userspaceTop
        ∧ nextPage (k₁.area last).stop + argLength argv envp < userspaceTop := by
    rintro ⟨p, hp, heq⟩
    rw [heq]
    exact ⟨(hps p hp).2, hroom p hp⟩
  obtain ⟨used', fs', hfs, hexecuted⟩ := hlaid.procmmSetup hlast hend hsetup
  obtain ⟨mem, brk', stack, hbrk', hbrkStart, hbrkStop, hwrite', hgrowing⟩ :=
    hexecuted.growing h.own fun f hf => (h.ready.sound.unused f (List.mem_append_right _ hf)).1
  obtain rfl := Option.some.inj (hbrk.symm.trans hbrk')
  rw [hbrkStart, hwrite'] at hwrite
  obtain rfl := Option.some.inj hwrite
  refine ⟨brk, stack, hgrowing.ready, hgrowing.live, hgrowing.P4, hgrowing.hasBrk, hgrowing.hasStack,
    hgrowing.next, hgrowing.ne, hgrowing.le, ?_, Nat.le_of_eq hgrowing.top⟩
  rw [hgrowing.top, Kernel.withMachine_area, hbrkStop]
  exact Nat.le_of_lt hexecuted.top

/-- In every run of a new process in which `brk` is called with zero or with addresses above the
break, and the stack does not grow into the break, the break stays between its start and the stack.
The next call, other than for an address inside the break, returns and sets the break as far as
there is room, if and only if it is such a call. -/
theorem syscallBrk_bounds_of_run (h : Prepared b own r m fs data size k)
    (hps : ∀ p ∈ segments (kernelMemory (frame b) k.machine) data, p.Loadable)
    (hasc : AscendingSegments (segments (kernelMemory (frame b) k.machine) data))
    (hroom : ∀ p ∈ segments (kernelMemory (frame b) k.machine) data,
      nextPage (p.virtualAddress + p.memSize) + argLength argv envp < userspaceTop)
    (hrun : Reachable (fun k₁ => ∃ th, execElf (frame b) grow k m data argv envp = some (th, k₁))
      (BreakStep b own m) k') :
  ∃ brk stack, (k'.map m).brk = some brk ∧ (k'.map m).stack = some stack
    ∧ (k'.link brk).next = some stack
    ∧ (k'.area brk).start ≤ (k'.area brk).stop ∧ (k'.area brk).stop ≤ (k'.area stack).start
    ∧ ∀ addr < 2 ^ 64, ¬ ((k'.area brk).start ≤ addr ∧ addr < (k'.area brk).stop) →
      (BrkBounds b m brk stack k' addr ↔ FromBreak k' m addr)
  := by
  obtain ⟨brk, stack, hbounded⟩ : ∃ brk stack, Bounded b own r m brk stack k' := by
    apply hrun.invariant
    · rintro k₁ ⟨th, hcall⟩
      exact h.bounded hps hasc hroom hcall
    · rintro k₁ k₂ ⟨brk, stack, ih⟩ hstep
      exact ⟨brk, stack, ih.step hstep⟩
  refine ⟨brk, stack, hbounded.hasBrk, hbounded.hasStack, hbounded.next, hbounded.le,
    hbounded.below, ?_⟩
  intro addr haddr hinside
  rw [hbounded.brkBounds_iff haddr hinside, FromBreak]
  apply or_congr_right
  constructor
  · intro hlt brk' hbrk'
    obtain rfl := Option.some.inj (hbounded.hasBrk.symm.trans hbrk')
    exact hlt
  · intro hlt
    exact hlt brk hbounded.hasBrk

end Runs

/-- The break of a first process is below its stack. -/
theorem Growing.bounded {b r m brk stack : Nat} {own : Nat → Prop} {k : Kernel}
    (h : Growing b own r m brk stack k) (hle : (k.area brk).stop ≤ userspaceTop) :
  Bounded b own r m brk stack k
  := by
  refine ⟨h.ready, h.live, h.P4, h.hasBrk, h.hasStack, h.next, h.ne, h.le, ?_, Nat.le_of_eq h.top⟩
  rw [h.top]
  exact hle

/-- A first process asks for a break above its own. -/
theorem syscallBrk_bounds_oneSegment :
  ∃ fs k th k' brk stack, Stored oneSegment fs k
    ∧ execElf (frame 16) (fun _ => 0) k 0 imageStart oneArgument [] = some (th, k')
    ∧ (k'.map 0).brk = some brk ∧ BrkBounds 16 0 brk stack k' 0x3000
  := by
  obtain ⟨fs, k, th, k', brk, stack, h, hexec, hstop, hgrowing⟩ := exists_executed
  obtain ⟨himage, -, -⟩ := h.executable
  have hroom : ∀ p ∈ segments (kernelMemory (frame 16) k.machine) imageStart,
      nextPage (p.virtualAddress + p.memSize) + argLength oneArgument [] < userspaceTop := by
    rw [h.segments]
    intro p hp
    rw [List.mem_singleton.mp hp]
    decide
  obtain ⟨brk', stack', hbrk, -, -, -, -, hiff⟩ := syscallBrk_bounds_of_run h.prepared
    himage.loadable himage.ascending hroom (.start ⟨th, hexec⟩)
  obtain rfl := Option.some.inj (hgrowing.hasBrk.symm.trans hbrk)
  have hlt : (k'.area brk).stop < 0x3000 := by
    rw [hstop]
    decide
  have hfrom : FromBreak k' 0 0x3000 := by
    right
    intro brk' hbrk'
    obtain rfl := Option.some.inj (hbrk.symm.trans hbrk')
    exact hlt
  refine ⟨fs, k, th, k', brk, stack', h, hexec, hbrk, (hiff 0x3000 (by decide) ?_).mpr hfrom⟩
  rintro ⟨-, hinside⟩
  omega

/-- `brk` with the break of a first process does not return, whatever frames there are. -/
theorem syscallBrk_loops_at_break :
  ∃ fs k th k' brk stack, Stored oneSegment fs k
    ∧ execElf (frame 16) (fun _ => 0) k 0 imageStart oneArgument [] = some (th, k')
    ∧ (k'.map 0).brk = some brk ∧ (k'.area brk).stop = 0x2036
    ∧ syscallBrk (frame 16) k' 0 0x2036 = none ∧ ¬ BrkBounds 16 0 brk stack k' 0x2036
  := by
  obtain ⟨fs, k, th, k', brk, stack, h, hexec, hstop, hgrowing⟩ := exists_executed
  have hbounded := hgrowing.bounded (by rw [hstop]; decide)
  refine ⟨fs, k, th, k', brk, stack, h, hexec, hgrowing.hasBrk, hstop,
    hbounded.syscallBrk_equal (by decide) hstop.symm, ?_⟩
  rw [hbounded.brkBounds_iff (by decide)]
  · rw [hstop]
    decide
  · rw [hstop]
    rintro ⟨-, hlt⟩
    exact absurd hlt (Nat.lt_irrefl _)

end Procmm
