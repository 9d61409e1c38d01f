import Mittos64.Proc.Start

/-!
# Faults at the stack

`procmm_page_fault` grows the stack by one page when the fault is at most a page below it.  It
looks neither at what is mapped at this page nor at the other areas.  When the stack begins at a
page, all of it and all of the other areas is mapped, and the fault is at an address that is not
mapped, then the fault lies in the page that is going to be mapped, and no area reaches into it.
-/

open DList

namespace Procmm

open Mem

/-- A process with a stack that begins at a page and is mapped up to its end, and with other areas
`others`, which are mapped as well. -/
structure StackArea (b : Nat) (own : Nat → Prop) (r m stack : Nat) (others : List Nat) (k : Kernel) :
    Prop where
  ready : ∃ fs, Ready b own fs k
  live : k.live m = true
  P4 : (k.map m).P4 = frame r
  hasStack : (k.map m).stack = some stack
  notMem : stack ∉ others
  aligned : (k.area stack).start % pageSize = 0
  top : (k.area stack).start ≤ userspaceTop
  covered : ∀ c < userspaceTop, (k.area stack).start ≤ c → lookup (words k.machine.mem) r c ≠ 0
  mapped : ∀ o ∈ others, ∀ c < userspaceTop, (k.area o).start ≤ c → c < (k.area o).stop →
    lookup (words k.machine.mem) r c ≠ 0

/-- The other areas end below the stack. -/
def StackApart (stack : Nat) (others : List Nat) (k : Kernel) : Prop :=
  ∀ o ∈ others, ∀ c < userspaceTop, (k.area o).start ≤ c → c < (k.area o).stop →
    c < (k.area stack).start

/-- The fault at `addr` has been handled: the stack has grown by one page, which was not mapped and
is that of `addr`, and no other page of any address space has changed. -/
structure Handled (b r stack addr : Nat) (k k' : Kernel) : Prop where
  start : (k'.area stack).start + pageSize = (k.area stack).start
  stop : (k'.area stack).stop = (k.area stack).stop
  areas : ∀ o, o ≠ stack → k'.area o = k.area o
  unmapped : lookup (words k.machine.mem) r (k'.area stack).start = 0
  mapped : lookup (words k'.machine.mem) r addr ≠ 0
  other : ∀ q c, Roots b k.Root q → ¬ (q = r ∧ SamePage (k'.area stack).start c) →
    lookup (words k'.machine.mem) q c = lookup (words k.machine.mem) q c

section Fault

variable {b r m stack addr : Nat} {own : Nat → Prop} {others : List Nat} {k k' : Kernel}

/-- `procmm_page_fault` in a process with a stack. -/
theorem procmmPageFault_of_stack (hstack : (k.map m).stack = some stack) {start : Nat}
    (hstart : start = ((k.area stack).start + 2 ^ 64 - pageSize) % 2 ^ 64) :
  procmmPageFault (frame b) k m addr
    = if addr < kernelOffset ∧ (k.area stack).start ≤ incptr addr pageSize then
        (mapPage (frame b) userFlags k.machine (k.map m).P4 start).map fun s =>
          (true, (k.setStart stack start).withMachine s)
      else some (false, k)
  := by
  rw [procmmPageFault, hstack]
  dsimp only
  rw [← hstart]
  by_cases hkernel : addr < kernelOffset
  · rw [if_neg (Nat.not_le.mpr hkernel)]
    by_cases hnear : (k.area stack).start ≤ incptr addr pageSize
    · rw [if_pos hnear, if_pos ⟨hkernel, hnear⟩]
      cases mapPage (frame b) userFlags k.machine (k.map m).P4 start with
      | none => rfl
      | some s => rfl
    · rw [if_neg hnear, if_neg (fun h => hnear h.2)]
  · rw [if_pos (Nat.le_of_not_lt hkernel), if_neg (fun h => hkernel h.1)]

/-- The page below a stack that is mapped, where an address that is not mapped is near. -/
theorem StackArea.page (h : StackArea b own r m stack others k) (haddr : addr < userspaceTop)
    (hunmapped : lookup (words k.machine.mem) r addr = 0)
    (hnear : (k.area stack).start ≤ addr + pageSize) :
  ∃ start, start + pageSize = (k.area stack).start ∧ start < userspaceTop
    ∧ addr / pageSize = start / pageSize ∧ start % pageSize = 0
  := by
  have hbelow : addr < (k.area stack).start := by
    by_contra hnot
    exact h.covered addr haddr (Nat.le_of_not_lt hnot) hunmapped
  have haligned := h.aligned
  have htop := h.top
  refine ⟨(k.area stack).start - pageSize, ?_⟩
  rw [userspaceTop] at htop ⊢
  rw [pageSize] at haligned hnear ⊢
  omega

/-- A fault near the stack is handled, when there are frames. -/
theorem StackArea.fault_near (h : StackArea b own r m stack others k) (haddr : addr < userspaceTop)
    (hunmapped : lookup (words k.machine.mem) r addr = 0)
    (hnear : (k.area stack).start ≤ addr + pageSize) :
  (∃ k', procmmPageFault (frame b) k m addr = some (true, k') ∧ Handled b r stack addr k k'
      ∧ StackArea b own r m stack others k'
      ∧ (StackApart stack others k → StackApart stack others k'))
    ∨ ((∀ fs, Stacked fs k.machine → fs.length < 4) ∧ procmmPageFault (frame b) k m addr = none)
  := by
  obtain ⟨start, hstart, htop, hpage, haligned⟩ := h.page haddr hunmapped hnear
  obtain ⟨fs, hready⟩ := h.ready
  have hroot : k.Root r := ⟨m, h.live, h.P4⟩
  have hr : r ≠ 0 := by
    rintro rfl
    exact hready.sound.nonzero hroot
  obtain ⟨hpath, huser⟩ := user_ne_kernel htop
  have hwrap : start = ((k.area stack).start + 2 ^ 64 - pageSize) % 2 ^ 64 := by
    rw [userspaceTop] at htop
    omega
  have hinc : addr < kernelOffset ∧ (k.area stack).start ≤ incptr addr pageSize := by
    have hlt : addr + pageSize < 2 ^ 64 := by
      rw [userspaceTop] at haddr
      rw [pageSize]
      omega
    rw [incptr_of_lt hlt]
    refine ⟨?_, hnear⟩
    rw [userspaceTop] at haddr
    rw [kernelOffset]
    omega
  rw [procmmPageFault_of_stack h.hasStack hwrap, if_pos hinc, h.P4]
  obtain ⟨s, f, new, fs', rfl, hmap, -, hsound, -, -, hlookup⟩ | ⟨hlen, hnone⟩ :=
    hready.sound.mapPage (Or.inr hroot) (resolveP4_frame hr) huser userFlags
  · left
    have hwords : words ((k.setStart stack start).withMachine s).machine.mem = words s.mem := rfl
    have harea : ((k.setStart stack start).withMachine s).area stack
        = { k.area stack with start := start } := by
      rw [Kernel.withMachine_area, Kernel.setStart_area, Function.update_self]
    have hareas : ∀ o, o ≠ stack → ((k.setStart stack start).withMachine s).area o = k.area o := by
      intro o ho
      rw [Kernel.withMachine_area, Kernel.setStart_area, Function.update_of_ne ho]
    have hnew : ∀ c < userspaceTop, c / pageSize = start / pageSize →
        lookup (words s.mem) r c ≠ 0 := by
      intro c hc hdiv
      rw [lookup_of_div_eq _ _ hdiv, hlookup r start (Or.inr hroot), setLookup,
        if_pos ⟨⟨rfl, rfl⟩, Or.inl rfl⟩]
      exact (userFlags_entry f).1
    have hkeep : ∀ c, lookup (words k.machine.mem) r c ≠ 0 → lookup (words s.mem) r c ≠ 0 := by
      intro c hc
      rw [hlookup r c (Or.inr hroot), setLookup]
      split_ifs
      · exact (userFlags_entry f).1
      · exact hc
    have hold : lookup (words k.machine.mem) r start = 0 := by
      rw [← lookup_of_div_eq _ _ hpage]
      exact hunmapped
    refine ⟨(k.setStart stack start).withMachine s, by rw [hmap, Option.map_some], ?_, ?_, ?_⟩
    · constructor
      · rw [harea]
        exact hstart
      · rw [harea]
      · exact hareas
      · rw [harea]
        exact hold
      · rw [hwords]
        exact hnew addr haddr hpage
      · intro q c hq hnot
        rw [harea] at hnot
        rw [hwords, hlookup q c hq, setLookup, if_neg]
        rintro ⟨hsame, hor⟩
        exact hnot ⟨hor.resolve_right hpath, hsame⟩
    · constructor
      · exact ⟨fs', hready.of_sound rfl rfl (fun _ => rfl) hready.heap hsound⟩
      · exact h.live
      · exact h.P4
      · exact h.hasStack
      · exact h.notMem
      · rw [harea]
        exact haligned
      · rw [harea]
        exact Nat.le_of_lt htop
      · rw [harea, hwords]
        intro c hc hle
        dsimp only at hle
        by_cases hin : (k.area stack).start ≤ c
        · exact hkeep c (h.covered c hc hin)
        · apply hnew c hc
          rw [pageSize] at hstart haligned ⊢
          omega
      · rw [hwords]
        intro o ho c hc hle hlt
        have hne : o ≠ stack := by
          rintro rfl
          exact h.notMem ho
        rw [hareas o hne] at hle hlt
        exact hkeep c (h.mapped o ho c hc hle hlt)
    · -- an area that reaches into the new page would have it mapped
      intro hapart o ho c hc hle hlt
      have hne : o ≠ stack := by
        rintro rfl
        exact h.notMem ho
      rw [hareas o hne] at hle hlt
      rw [harea]
      dsimp only
      by_contra hnot
      have hbelow := hapart o ho c hc hle hlt
      have hdiv : c / pageSize = start / pageSize := by
        rw [pageSize] at hstart haligned ⊢
        omega
      apply h.mapped o ho c hc hle hlt
      rw [lookup_of_div_eq _ _ hdiv]
      exact hold
  · right
    rw [hnone]
    refine ⟨?_, rfl⟩
    intro fs' hfs'
    rw [hfs'.2.unique hready.sound.stack.2]
    exact hlen

/-- A fault that is not near the stack is not handled. -/
theorem StackArea.fault_far (h : StackArea b own r m stack others k) (haddr : addr < userspaceTop)
    (hfar : addr + pageSize < (k.area stack).start) :
  procmmPageFault (frame b) k m addr = some (false, k)
  := by
  have hlt : addr + pageSize < 2 ^ 64 := by
    rw [userspaceTop] at haddr
    rw [pageSize]
    omega
  rw [procmmPageFault_of_stack h.hasStack rfl, if_neg]
  rintro ⟨-, hnear⟩
  rw [incptr_of_lt hlt] at hnear
  omega

/-- A fault at an address of the user that is not mapped. -/
def FaultStep (b r m : Nat) (k k' : Kernel) : Prop :=
  ∃ addr handled, addr < userspaceTop ∧ lookup (words k.machine.mem) r addr = 0
    ∧ procmmPageFault (frame b) k m addr = some (handled, k')

/-- A fault keeps the stack, and keeps it apart from the other areas. -/
theorem StackArea.step (h : StackArea b own r m stack others k) (hstep : FaultStep b r m k k') :
  StackArea b own r m stack others k'
    ∧ (StackApart stack others k → StackApart stack others k')
  := by
  obtain ⟨addr, handled, haddr, hunmapped, hcall⟩ := hstep
  obtain hfar | hnear := Nat.lt_or_ge (addr + pageSize) (k.area stack).start
  · rw [h.fault_far haddr hfar] at hcall
    obtain ⟨-, rfl⟩ := Prod.mk.inj (Option.some.inj hcall)
    exact ⟨h, id⟩
  · obtain ⟨k'', hcall', -, hnext⟩ | ⟨-, hnone⟩ := h.fault_near haddr hunmapped hnear
    · rw [hcall'] at hcall
      obtain ⟨-, rfl⟩ := Prod.mk.inj (Option.some.inj hcall)
      exact hnext
    · rw [hnone] at hcall
      cases hcall

/-- After any faults at addresses that are not mapped, the stack is mapped and apart from the other
areas if it was before.  The next fault returns, when there are four free frames.  It is handled if
and only if it is at most a page below the stack, and then exactly the page of the fault is mapped
and the stack is as before; otherwise nothing changes. -/
theorem procmmPageFault_of_run (h : StackArea b own r m stack others k)
    (hrun : Reachable (fun k₀ => k₀ = k) (FaultStep b r m) k') (haddr : addr < userspaceTop)
    (hunmapped : lookup (words k'.machine.mem) r addr = 0) :
  StackArea b own r m stack others k'
    ∧ (StackApart stack others k → StackApart stack others k')
    ∧ (∀ fs, Stacked fs k'.machine → 4 ≤ fs.length →
      ∃ handled k'', procmmPageFault (frame b) k' m addr = some (handled, k''))
    ∧ ∀ handled k'', procmmPageFault (frame b) k' m addr = some (handled, k'') →
      (handled = true ↔ (k'.area stack).start - pageSize ≤ addr)
      ∧ (handled = true → Handled b r stack addr k' k'' ∧ StackArea b own r m stack others k''
        ∧ (StackApart stack others k' → StackApart stack others k''))
      ∧ (handled = false → k'' = k')
  := by
  obtain ⟨hinv, hapart⟩ : StackArea b own r m stack others k'
      ∧ (StackApart stack others k → StackApart stack others k') := by
    apply hrun.invariant
    · rintro k₀ rfl
      exact ⟨h, id⟩
    · rintro k₁ k₂ ⟨hinv, hapart⟩ hstep
      obtain ⟨hinv', hapart'⟩ := hinv.step hstep
      exact ⟨hinv', hapart' ∘ hapart⟩
  refine ⟨hinv, hapart, ?_⟩
  obtain hfar | hnear := Nat.lt_or_ge (addr + pageSize) (k'.area stack).start
  · have hcall := hinv.fault_far haddr hfar
    refine ⟨fun _ _ _ => ⟨false, k', hcall⟩, ?_⟩
    intro handled k'' hcall'
    rw [hcall] at hcall'
    obtain ⟨rfl, rfl⟩ := Prod.mk.inj (Option.some.inj hcall')
    refine ⟨?_, ?_, fun _ => rfl⟩
    · constructor
      · intro hfalse
        cases hfalse
      · intro hle
        omega
    · intro hfalse
      cases hfalse
  · obtain ⟨k₁, hcall, hhandled, hnext⟩ | ⟨hframes, hnone⟩ := hinv.fault_near haddr hunmapped hnear
    · refine ⟨fun _ _ _ => ⟨true, k₁, hcall⟩, ?_⟩
      intro handled k'' hcall'
      rw [hcall] at hcall'
      obtain ⟨rfl, rfl⟩ := Prod.mk.inj (Option.some.inj hcall')
      refine ⟨?_, fun _ => ⟨hhandled, hnext⟩, ?_⟩
      · constructor
        · intro _
          omega
        · intro _
          rfl
      · intro hfalse
        cases hfalse
    · constructor
      · intro fs hfs hlen
        apply absurd (hframes fs hfs) (Nat.not_lt.mpr hlen)
      · intro handled k'' hcall
        rw [hnone] at hcall
        cases hcall

end Fault

/-- A first process with an empty stack. -/
theorem exists_stackArea :
  ∃ k fs, Stacked fs k.machine ∧ 4 ≤ fs.length
    ∧ StackArea 16 (withRoot 32 fun _ => False) 32 0 0 [] k
    ∧ (k.area 0).start = userspaceTop
    ∧ ∀ c, p4Offset c ≠ 511 → lookup (words k.machine.mem) 32 c = 0
  := by
  have hfs : Spare [32, 33, 34, 35, 36] := ⟨by decide, by decide⟩
  obtain ⟨k, -, hready, hnew, -⟩ := @exists_process 32 [33, 34, 35, 36] (fun _ _ => 0)
    (fun _ _ => by decide) (by decide) hfs
  have hareas : k.areas = 0 := hnew.areas
  have hmap : k.map 0 = ⟨frame 32, nil, none, none⟩ := hnew.map_new
  have hlive : k.live 0 = true := by
    rw [hnew.live]
    exact Function.update_self _ _ _
  obtain ⟨k', hk'⟩ :
      ∃ k', k' = (k.addArea ⟨userspaceTop, userspaceTop, 0, 0⟩).setStack 0 (some 0) := ⟨_, rfl⟩
  have harea : k'.area 0 = ⟨userspaceTop, userspaceTop, 0, 0⟩ := by
    rw [hk', Kernel.setStack_area, Kernel.addArea_area, hareas, Function.update_self]
  have hmap' : k'.map 0 = ⟨frame 32, nil, none, some 0⟩ := by
    rw [hk', Kernel.setStack_map, Kernel.addArea_map, Function.update_self, hmap]
  have hmachine : k'.machine = k.machine := by
    rw [hk', Kernel.setStack_machine, Kernel.addArea_machine]
  have hP4 : ∀ m, (k'.map m).P4 = (k.map m).P4 := by
    intro m
    by_cases hm : m = 0
    · rw [hm, hmap', hmap]
    · rw [hk', Kernel.setStack_map, Function.update_of_ne hm, Kernel.addArea_map]
  have hready' : Ready 16 (withRoot 32 fun _ => False) [33, 34, 35, 36] k' := by
    apply hready.of_sound _ _ hP4 _ _
    · rw [hk']
      rfl
    · rw [hk', Kernel.setStack_maps, Kernel.addArea_maps]
    · rw [hk', Kernel.setStack_heapBrk, Kernel.addArea_heapBrk]
      exact hready.heap
    · rw [hmachine]
      exact hready.sound
  refine ⟨k', [33, 34, 35, 36], hready'.sound.stack, by decide, ?_, by rw [harea], ?_⟩
  · constructor
    · exact ⟨_, hready'⟩
    · rw [hk', Kernel.setStack_live, Kernel.addArea_live]
      exact hlive
    · rw [hmap']
    · rw [hmap']
    · exact List.not_mem_nil
    · rw [harea]
      decide
    · rw [harea]
    · rw [harea]
      intro c hc hle
      exact absurd hc (Nat.not_lt.mpr hle)
    · intro o ho
      cases ho
  · rw [hmachine]
    intro c hc
    exact hnew.empty hc

/-- The first fault below the top of the user space is handled. -/
theorem procmmPageFault_of_run_first :
  ∃ k k', StackArea 16 (withRoot 32 fun _ => False) 32 0 0 [] k
    ∧ procmmPageFault (frame 16) k 0 (userspaceTop - 8) = some (true, k')
    ∧ Handled 16 32 0 (userspaceTop - 8) k k'
  := by
  obtain ⟨k, fs, hfs, hlen, h, hstart, hempty⟩ := exists_stackArea
  have haddr : userspaceTop - 8 < userspaceTop := by decide
  have hunmapped := hempty (userspaceTop - 8) (user_ne_kernel haddr).1
  obtain ⟨-, -, hreturns, hresult⟩ := procmmPageFault_of_run h (.start rfl) haddr hunmapped
  obtain ⟨handled, k', hcall⟩ := hreturns fs hfs hlen
  obtain ⟨hiff, hhandled, -⟩ := hresult handled k' hcall
  have htrue : handled = true := by
    apply hiff.mpr
    rw [hstart]
    decide
  rw [htrue] at hcall
  exact ⟨k, k', h, hcall, (hhandled htrue).1⟩

end Procmm
