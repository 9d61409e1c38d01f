import Mittos64.Proc.Fork
import Mittos64.Proc.Setup

/-!
# The break and the stack of a child

`procmm_new_map` copies the areas of a map, but not the two pointers `brk` and `stack` of the
map, which `procmm_setup` sets.  In a forked child both stay null, whatever the processes do
afterwards: a call of `brk` follows the null pointer, and no fault of the child is handled.
-/

open DList

namespace Procmm

open Mem

section Pointers

variable {bootP4 : Nat} {grow : Nat → Nat} {k k' : Kernel}

/-- The loop of `procmm_new_map` keeps the pointers of all maps. -/
theorem copyAreas_pointers {m src fuel : Nat} {o : Option Nat}
    (h : copyAreas bootP4 grow m src fuel k o = some k') (m' : Nat) :
  (k'.map m').pointers = (k.map m').pointers ∧ k'.maps = k.maps
  := by
  induction fuel generalizing k o with
  | zero => cases h
  | succ fuel ih =>
      cases o with
      | none =>
          obtain rfl := Option.some.inj h
          exact ⟨rfl, rfl⟩
      | some o =>
          rw [copyAreas] at h
          dsimp only at h
          split at h
          · cases h
          · rename_i a k₁ hcall
            obtain ⟨hpointers, hmaps⟩ := procmmMap_pointers hcall m'
            obtain ⟨hpointers', hmaps'⟩ := ih h
            rw [hpointers', hmaps', Kernel.withMachine_map, Kernel.withMachine_maps, hpointers,
              hmaps]
            exact ⟨rfl, rfl⟩

/-- A new map has null pointers, and the other maps keep theirs. -/
theorem procmmNewMap_pointers {src : Option Nat} {m : Nat}
    (h : procmmNewMap bootP4 grow k src = some (m, k')) :
  m = k.maps ∧ k'.maps = k.maps + 1 ∧ (k'.map m).pointers = (none, none)
    ∧ ∀ m' < k.maps, (k'.map m').pointers = (k.map m').pointers
  := by
  rw [procmmNewMap] at h
  split at h
  · cases h
  · rename_i k₁ hcalloc
    obtain ⟨-, -, hmap, -, -, hmaps⟩ := kcalloc_fields hcalloc
    split at h
    · cases h
    · rename_i P4 s _
      dsimp only at h
      have hnew : (((k₁.withMachine s).addMap ⟨P4, nil, none, none⟩).map k₁.maps).pointers
          = (none, none) := by
        rw [Kernel.addMap_map, Kernel.withMachine_maps, Function.update_self]
        rfl
      have hold : ∀ m' < k.maps, (((k₁.withMachine s).addMap ⟨P4, nil, none, none⟩).map
          m').pointers = (k.map m').pointers := by
        intro m' hm
        rw [Kernel.addMap_map, Kernel.withMachine_maps, hmaps,
          Function.update_of_ne (Nat.ne_of_lt hm), Kernel.withMachine_map, hmap]
      cases src with
      | none =>
          obtain ⟨rfl, rfl⟩ := Prod.mk.inj (Option.some.inj h)
          rw [Kernel.addMap_maps]
          exact ⟨hmaps, congrArg Nat.succ hmaps, hnew, hold⟩
      | some src =>
          dsimp only at h
          split at h
          · cases h
          · rename_i k₂ hcopy
            obtain ⟨rfl, rfl⟩ := Prod.mk.inj (Option.some.inj h)
            refine ⟨hmaps, ?_, ?_, ?_⟩
            · rw [(copyAreas_pointers hcopy 0).2, Kernel.addMap_maps]
              exact congrArg Nat.succ hmaps
            · rw [(copyAreas_pointers hcopy _).1]
              exact hnew
            · intro m' hm
              rw [(copyAreas_pointers hcopy m').1]
              exact hold m' hm

/-- `procmm_resize` keeps the pointers of all maps. -/
theorem procmmResize_pointers {m a len len' : Nat}
    (h : procmmResize bootP4 k m a len = some (len', k')) :
  k'.map = k.map ∧ k'.maps = k.maps
  := by
  rw [procmmResize] at h
  dsimp only at h
  split at h
  · split at h
    · nomatch h
    · split at h
      · nomatch h
      · obtain ⟨-, rfl⟩ := Prod.mk.inj (Option.some.inj h)
        exact ⟨rfl, rfl⟩
  · nomatch h

theorem syscallBrk_pointers {m addr brk : Nat}
    (h : syscallBrk bootP4 k m addr = some (brk, k')) :
  k'.map = k.map ∧ k'.maps = k.maps
  := by
  rw [syscallBrk] at h
  split at h
  · nomatch h
  · split at h
    · split at h
      · nomatch h
      · rename_i hresize
        obtain ⟨-, rfl⟩ := Prod.mk.inj (Option.some.inj h)
        exact procmmResize_pointers hresize
    · obtain ⟨-, rfl⟩ := Prod.mk.inj (Option.some.inj h)
      exact ⟨rfl, rfl⟩

theorem procmmPageFault_pointers {m addr : Nat} {handled : Bool}
    (h : procmmPageFault bootP4 k m addr = some (handled, k')) :
  k'.map = k.map ∧ k'.maps = k.maps
  := by
  rw [procmmPageFault] at h
  split at h
  · obtain ⟨-, rfl⟩ := Prod.mk.inj (Option.some.inj h)
    exact ⟨rfl, rfl⟩
  · split at h
    · obtain ⟨-, rfl⟩ := Prod.mk.inj (Option.some.inj h)
      exact ⟨rfl, rfl⟩
    · split at h
      · dsimp only at h
        split at h
        · nomatch h
        · obtain ⟨-, rfl⟩ := Prod.mk.inj (Option.some.inj h)
          exact ⟨rfl, rfl⟩
      · obtain ⟨-, rfl⟩ := Prod.mk.inj (Option.some.inj h)
        exact ⟨rfl, rfl⟩

end Pointers

/-! ### Runs after a fork -/

/-- A fork, a call of `brk` or a page fault, in any of the processes. -/
inductive Kernel.Step (bootP4 : Nat) (grow : Nat → Nat) (k k' : Kernel) : Prop where
  | fork (src m : Nat) : procmmNewMap bootP4 grow k (some src) = some (m, k') →
      Kernel.Step bootP4 grow k k'
  | brk (m addr brk : Nat) : syscallBrk bootP4 k m addr = some (brk, k') →
      Kernel.Step bootP4 grow k k'
  | fault (m addr : Nat) (handled : Bool) : procmmPageFault bootP4 k m addr = some (handled, k') →
      Kernel.Step bootP4 grow k k'

/-- The area `a'` of the map `m` is the counterpart of the area `a`. -/
def Counterpart (k k' : Kernel) (m a a' : Nat) : Prop :=
  (k'.area a').map = m ∧ (k'.area a').start = (k.area a).start
    ∧ (k'.area a').stop = (k.area a).stop

/-- The break of the map `m` is the counterpart of the break of the map `src`. -/
def SameBreak (k : Kernel) (src : Nat) (k' : Kernel) (m : Nat) : Prop :=
  ∃ a a', (k.map src).brk = some a ∧ (k'.map m).brk = some a' ∧ Counterpart k k' m a a'

/-- The stack of the map `m` is the counterpart of the stack of the map `src`. -/
def SameStack (k : Kernel) (src : Nat) (k' : Kernel) (m : Nat) : Prop :=
  ∃ a a', (k.map src).stack = some a ∧ (k'.map m).stack = some a' ∧ Counterpart k k' m a a'

/-- A call of `brk` returns the same in both. -/
def SameCalls (bootP4 : Nat) (k : Kernel) (src : Nat) (k' : Kernel) (m : Nat) : Prop :=
  ∀ addr, (syscallBrk bootP4 k' m addr).map Prod.fst = (syscallBrk bootP4 k src addr).map Prod.fst

/-- A fault is handled in both or in neither. -/
def SameFaults (bootP4 : Nat) (k : Kernel) (src : Nat) (k' : Kernel) (m : Nat) : Prop :=
  ∀ addr, (procmmPageFault bootP4 k' m addr).map Prod.fst
    = (procmmPageFault bootP4 k src addr).map Prod.fst

/-- The child with the map `m` has a working break and stack, like its parent with the map `src`
had in the kernel `k`. -/
def ChildWorks (bootP4 : Nat) (k : Kernel) (src : Nat) (k' : Kernel) (m : Nat) : Prop :=
  (SameBreak k src k' m ∧ SameStack k src k' m)
    ∧ SameCalls bootP4 k src k' m ∧ SameFaults bootP4 k src k' m

section Run

variable {bootP4 : Nat} {grow : Nat → Nat} {k k' k₁ : Kernel} {m src : Nat}

/-- A step keeps null pointers. -/
theorem Kernel.Step.pointers (hstep : Kernel.Step bootP4 grow k k')
    (h : m < k.maps ∧ (k.map m).pointers = (none, none)) :
  m < k'.maps ∧ (k'.map m).pointers = (none, none)
  := by
  cases hstep with
  | fork src m' hcall =>
      obtain ⟨-, hmaps, -, hold⟩ := procmmNewMap_pointers hcall
      rw [hmaps, hold m h.1]
      exact ⟨Nat.lt_succ_of_lt h.1, h.2⟩
  | brk m' addr brk hcall =>
      obtain ⟨hmap, hmaps⟩ := syscallBrk_pointers hcall
      rw [hmap, hmaps]
      exact h
  | fault m' addr handled hcall =>
      obtain ⟨hmap, hmaps⟩ := procmmPageFault_pointers hcall
      rw [hmap, hmaps]
      exact h

/-- The pointers of the child are null in every state after the fork. -/
theorem pointers_of_run (hfork : procmmNewMap bootP4 grow k (some src) = some (m, k₁))
    (hrun : Reachable (· = k₁) (Kernel.Step bootP4 grow) k') :
  (k'.map m).brk = none ∧ (k'.map m).stack = none
  := by
  have hnull : m < k'.maps ∧ (k'.map m).pointers = (none, none) := by
    apply hrun.invariant
    · rintro s rfl
      obtain ⟨rfl, hmaps, hpointers, -⟩ := procmmNewMap_pointers hfork
      rw [hmaps]
      exact ⟨Nat.lt_succ_self _, hpointers⟩
    · intro s s' hs hstep
      exact hstep.pointers hs
  exact Prod.mk.inj hnull.2

/-- A map without a break has no counterpart of a break. -/
theorem not_sameBreak (h : (k'.map m).brk = none) :
  ¬ SameBreak k src k' m
  := by
  rintro ⟨a, a', -, ha', -⟩
  rw [h] at ha'
  nomatch ha'

/-- In no state after a fork does the child have a break or a stack, whatever the processes have
done since: calls of `brk` and faults do not give what they gave in the parent. -/
theorem child_never_works {brk stack : Nat} (hbrk : (k.map src).brk = some brk)
    (hstack : (k.map src).stack = some stack)
    (hfork : procmmNewMap bootP4 grow k (some src) = some (m, k₁))
    (hrun : Reachable (· = k₁) (Kernel.Step bootP4 grow) k') :
  ¬ ChildWorks bootP4 k src k' m ∧ ¬ SameBreak k src k' m ∧ ¬ SameStack k src k' m
    ∧ ¬ SameCalls bootP4 k src k' m
    ∧ ((k.area stack).start < kernelOffset → ¬ SameFaults bootP4 k src k' m)
  := by
  obtain ⟨hbrk', hstack'⟩ := pointers_of_run hfork hrun
  have hbreak : ¬ SameBreak k src k' m := not_sameBreak hbrk'
  refine ⟨fun hworks => hbreak hworks.1.1, hbreak, ?_, ?_, ?_⟩
  · rintro ⟨a, a', -, ha', -⟩
    rw [hstack'] at ha'
    cases ha'
  · intro hsame
    have hzero := hsame 0
    rw [syscallBrk, hbrk', syscallBrk, hbrk] at hzero
    cases hzero
  · intro hlow hsame
    -- a fault in the first page of the stack: the parent goes on to map a page
    have hfault := hsame (k.area stack).start
    have hinc : (k.area stack).start ≤ incptr (k.area stack).start pageSize := by
      rw [kernelOffset] at hlow
      rw [incptr_of_lt]
      · exact Nat.le_add_right _ _
      · rw [pageSize]
        omega
    rw [procmmPageFault, procmmPageFault, if_neg (Nat.not_le.mpr hlow),
      if_neg (Nat.not_le.mpr hlow), hstack', hstack] at hfault
    dsimp only at hfault
    rw [if_pos hinc] at hfault
    split at hfault
    · cases hfault
    · cases hfault

end Run

/-! ### A process with a break and a stack -/

/-- A process with one page for the program, a break of 32 bytes and a stack. -/
structure WithBreak (fs : List Nat) (k : Kernel) : Prop where
  ready : Ready 16 (withRoot 32 fun _ => False) fs k
  frames : 40 ≤ fs.length ∧ 0 ∉ fs
  live : k.live 0 = true
  P4 : (k.map 0).P4 = frame 32
  list : AreaList k 0 [0, 1, 2]
  areas : k.area 0 = ⟨0x1000, 0x2000, 0, 0⟩ ∧ k.area 1 = ⟨0x3000, 0x3020, 0, 0⟩
    ∧ k.area 2 = ⟨userspaceTop, userspaceTop, 0, 0⟩
  brk : (k.map 0).brk = some 1
  stack : (k.map 0).stack = some 2
  page : ∀ c, (0x1000 ≤ c ∧ c < 0x2000) ∨ (0x3000 ≤ c ∧ c < 0x3020) →
    ∃ f, f ≠ 0 ∧ lookup (words k.machine.mem) 32 c = addFlags (frame f) userFlags

theorem exists_withBreak :
  ∃ k fs, WithBreak fs k
  := by
  obtain ⟨k, fs, h⟩ := @exists_onePage 32 (List.range' 34 60) (fun _ _ => 0) 33
    (fun _ _ => by decide) (by decide) ⟨by decide, by decide⟩ (by decide)
  obtain ⟨new, hfs, hnew⟩ := h.frames
  have hlen : (List.range' 34 60).length = new.length + fs.length := by
    rw [hfs, List.length_append]
  rw [List.length_range'] at hlen
  have hmem : ∀ g ∈ fs, g ∈ List.range' 34 60 := by
    intro g hg
    rw [hfs]
    exact List.mem_append_right _ hg
  have hzero : 0 ∉ fs := by
    intro hz
    have hz' := hmem 0 hz
    revert hz'
    decide
  have hstop : (k.area 0).stop = 0x2000 := by
    rw [h.area]
  have hnext : nextPage (k.area 0).stop = 0x3000 := by
    rw [hstop]
    rfl
  have hlast : [0].getLast? = some 0 := rfl
  have htop : nextPage (k.area 0).stop + 32 < userspaceTop := by
    rw [hnext]
    decide
  have hturns : turns 0x3000 (0x3000 + 32) = 1 := rfl
  obtain ⟨start, k', hcall⟩ := @Ready.exists_procmmSetup 16 0 32 32 0 _ fs [0] (fun _ => 0) k
    h.ready h.list hlast h.live h.P4 (by rw [hstop]; decide) htop (by rw [h.heap]; decide)
    (by rw [hnext, hturns]; omega)
  obtain ⟨used, fs', rfl, hused, hready, rfl, hsetup⟩ :=
    h.ready.procmmSetup h.list hlast h.live h.P4 (by rw [hstop]; decide) htop hcall
  rw [hnext] at hsetup hused
  rw [hturns] at hused
  have hlist := hsetup.list
  have hbrk := hsetup.brk
  have hstack := hsetup.stack
  rw [h.areas] at hlist hbrk hstack
  have hroot : k.Root 32 := ⟨0, h.live, h.P4⟩
  refine ⟨k', fs', hready, ⟨?_, ?_⟩, ?_, ?_, hlist, ⟨?_, hbrk.2, hstack.2⟩, hbrk.1, hstack.1, ?_⟩
  · rw [List.length_append] at hlen
    omega
  · intro hz
    exact hzero (List.mem_append_right _ hz)
  · rw [hsetup.keeps.live]
    exact h.live
  · rw [hsetup.keeps.P4]
    exact h.P4
  · rw [hsetup.old 0 (by rw [h.areas]; decide), h.area]
  · have hstepped : ∀ c, c < userspaceTop →
        (Stepped 0x3000 (0x3000 + 32) c ↔ 0x3000 ≤ c ∧ stripFlags c < 0x3000 + 32) :=
      fun c hc => stepped_iff (by decide) (by decide) hc
    have hstrip : ∀ c, stripFlags c ≤ c := fun c => Nat.div_mul_le_self c pageSize
    rintro c (⟨hlo, hhi⟩ | ⟨hlo, hhi⟩)
    · have hctop : c < userspaceTop := Nat.lt_trans hhi (by decide)
      refine ⟨33, by decide, ?_⟩
      rw [hsetup.other (Or.inr hroot) (user_ne_kernel hctop).1, h.page c hlo hhi]
      rintro ⟨-, hstep⟩
      have hle := ((hstepped c hctop).mp hstep).1
      omega
    · have hctop : c < userspaceTop := Nat.lt_trans hhi (by decide)
      have hle := hstrip c
      obtain ⟨f, hf, heq⟩ := hsetup.page ((hstepped c hctop).mpr ⟨hlo, by omega⟩)
      refine ⟨f, ?_, heq⟩
      rintro rfl
      exact hzero (List.mem_append_left _ hf)

section WithBreak

variable {fs : List Nat} {k : Kernel} (h : WithBreak fs k)

include h

/-- The addresses of the three areas. -/
theorem WithBreak.has {a c : Nat} (ha : a ∈ [0, 1, 2]) (hc : (k.area a).Has c) :
  (0x1000 ≤ c ∧ c < 0x2000) ∨ (0x3000 ≤ c ∧ c < 0x3020)
  := by
  simp only [List.mem_cons, List.not_mem_nil, or_false] at ha
  obtain rfl | rfl | rfl := ha
  · rw [h.areas.1] at hc
    exact Or.inl hc
  · rw [h.areas.2.1] at hc
    exact Or.inr hc
  · rw [h.areas.2.2] at hc
    exact absurd hc.2 (Nat.not_lt.mpr hc.1)

theorem WithBreak.forkable :
  Forkable k 32 [0, 1, 2] ∧ NoNull k 32 [0, 1, 2]
  := by
  refine ⟨⟨?_, ?_, ?_⟩, ?_⟩
  · rw [List.forall_mem_cons, List.forall_mem_cons, List.forall_mem_singleton, h.areas.1,
      h.areas.2.1, h.areas.2.2]
    decide
  · rw [List.forall_mem_cons, List.forall_mem_cons, List.forall_mem_singleton, h.areas.1,
      h.areas.2.1, h.areas.2.2]
    decide
  · intro a ha c hc
    obtain ⟨f, -, heq⟩ := h.page c (h.has ha hc)
    rw [heq]
    exact (userFlags_entry f).1
  · intro a ha c hc
    obtain ⟨f, hf, heq⟩ := h.page c (h.has ha hc)
    rw [heq, (userFlags_entry f).2]
    exact hf

/-- The process can be forked. -/
theorem WithBreak.fork :
  ∃ k₁, procmmNewMap (frame 16) (fun _ => 0) k (some 0) = some (k.maps, k₁)
  := by
  have hpages : areaPages k.area [0, 1, 2] = 2 := by
    rw [areaPages, List.map_cons, List.map_cons, List.map_singleton, h.areas.1, h.areas.2.1,
      h.areas.2.2]
    decide
  have hframes : copyFrames (fun _ => 0) k [0, 1, 2] = 9 := by
    rw [copyFrames, hpages]
    rfl
  have hnone : heapPages (fun _ => 0) (k.areas + k.maps) ([0, 1, 2].length + 1) = 0 := rfl
  obtain ⟨k₁, r', zs, fs', hcall, -⟩ := @Ready.fork 16 _ fs (fun _ => 0) k 0 32 [0, 1, 2] h.ready
    h.live h.P4 h.list h.forkable.1 (by rw [hnone]; exact h.ready.heap.2.2)
    (by rw [hframes]; exact Nat.le_trans (by decide) h.frames.1) h.forkable.2
    (fun hmem => h.frames.2 (List.mem_of_mem_take hmem))
  exact ⟨k₁, hcall⟩

end WithBreak

/-- A process is forked: the child has neither break nor stack. -/
theorem child_never_works_withBreak :
  ∃ k fs k₁, WithBreak fs k ∧ procmmNewMap (frame 16) (fun _ => 0) k (some 0) = some (k.maps, k₁)
    ∧ ¬ ChildWorks (frame 16) k 0 k₁ k.maps
  := by
  obtain ⟨k, fs, h⟩ := exists_withBreak
  obtain ⟨k₁, hfork⟩ := h.fork
  exact ⟨k, fs, k₁, h, hfork, (child_never_works h.brk h.stack hfork (.start rfl)).1⟩

/-- In the parent a call of `brk(0)` returns the end of the break; in the child it does not
return. -/
theorem child_break_lost :
  ∃ k fs k₁, WithBreak fs k ∧ procmmNewMap (frame 16) (fun _ => 0) k (some 0) = some (k.maps, k₁)
    ∧ (syscallBrk (frame 16) k 0 0).map Prod.fst = some 0x3020
    ∧ syscallBrk (frame 16) k₁ k.maps 0 = none
    ∧ ¬ ChildWorks (frame 16) k 0 k₁ k.maps
  := by
  obtain ⟨k, fs, h⟩ := exists_withBreak
  obtain ⟨k₁, hfork⟩ := h.fork
  have hnull := (pointers_of_run hfork (.start rfl)).1
  refine ⟨k, fs, k₁, h, hfork, ?_, ?_, fun hworks => not_sameBreak hnull hworks.1.1⟩
  · rw [syscallBrk, h.brk]
    dsimp only
    rw [if_neg (fun hne => hne rfl), Option.map_some, h.areas.2.1]
  · rw [syscallBrk, hnull]

end Procmm
