import Mathlib.Data.List.Perm.Basic
import Mittos64.Lib.Run
import Mittos64.Mem.Pmm

/-!
# Owners of frames

Runs of `pmm_alloc` and `pmm_free` by owners that write to the frames they own and nowhere else.
The links of the free stack lie in the free frames, which nobody owns, so the stack is a stack of
frames without duplicates whatever the owners write, and a frame is always on the stack or owned,
but not both.
-/

namespace Mem

/-- The frames that are free, in the order of a stack, and the frames that are owned. -/
structure Frames where
  free : List Nat
  owned : List Nat

/-- What happens to the frames: one is allocated, one is freed, or owners write to theirs. -/
inductive Use where
  | alloc (f : Nat)
  | free (f : Nat)
  | write

/-- A stack of frames: an allocation takes the first free frame, and a frame that is freed becomes
the first one. -/
inductive Frames.Step : Frames → Use → Frames → Prop where
  | alloc {f : Nat} {free owned : List Nat} :
      Step ⟨f :: free, owned⟩ (.alloc f) ⟨free, f :: owned⟩
  | free {f : Nat} {free owned : List Nat} (h : f ∈ owned) :
      Step ⟨free, owned⟩ (.free f) ⟨f :: free, owned.erase f⟩
  | write {s : Frames} : Step s .write s

/-- The machine, and the frames that are owned. -/
structure Owners where
  machine : Machine
  owned : List Nat

/-- A call of `pmm_alloc` or of `pmm_free`, for an owned frame, or a write by owners. -/
inductive Owners.Step : Owners → Use → Owners → Prop where
  | alloc {s : Owners} {page : Nat} {m : Machine} (h : pmmAlloc s.machine = some (page, m)) :
      Step s (.alloc (page / pageSize)) ⟨m, page / pageSize :: s.owned⟩
  | free {s : Owners} {page : Nat} (h : page / pageSize ∈ s.owned) :
      Step s (.free (page / pageSize))
        ⟨pmmFree s.machine page, s.owned.erase (page / pageSize)⟩
  | write {s : Owners} {mem : Memory}
      (h : ∀ x, x / pageSize ∉ s.owned → mem x = s.machine.mem x) :
      Step s .write ⟨s.machine.withMem mem, s.owned⟩

/-- No frame is free or owned twice, and none is both. -/
def Frames.Distinct (s : Frames) : Prop :=
  (s.free ++ s.owned).Nodup

/-- The kernel reaches the frame by a pointer. -/
def Reached (f : Nat) : Prop :=
  frame f < 2 ^ 64 ∧ p2v (frame f) ≠ 0

/-- The running allocator has the frames in its stack. -/
structure Represents (s : Owners) (t : Frames) : Prop where
  running : s.machine.pmmRunning = true
  stack : FreeStack s.machine.mem s.machine.pmmStack t.free
  owned : s.owned = t.owned
  distinct : t.Distinct
  reached : ∀ f ∈ t.owned, Reached f

/-! ### The stack of frames -/

/-- A step loses no frame. -/
theorem Frames.Step.perm {s s' : Frames} {e : Use} (h : Frames.Step s e s') :
  (s'.free ++ s'.owned).Perm (s.free ++ s.owned)
  := by
  cases h with
  | alloc => exact List.perm_middle
  | @free f free owned hmem =>
      have hperm := (List.perm_cons_erase hmem).symm
      rw [List.cons_append]
      exact List.perm_middle.symm.trans (hperm.append_left free)
  | write => exact List.Perm.refl _

/-- A run loses no frame. -/
theorem Frames.perm_of_run {s s' : Frames} {es : List Use} (h : Runs Frames.Step s es s') :
  (s'.free ++ s'.owned).Perm (s.free ++ s.owned)
  := by
  induction h with
  | nil s => exact List.Perm.refl _
  | cons hfirst _ ih => exact ih.trans hfirst.perm

/-! ### The allocator -/

section Represents

variable {s s' : Owners} {t : Frames} {e : Use}

/-- A free frame has no owner. -/
theorem Frames.Distinct.not_owned (h : t.Distinct) {f : Nat} (hf : f ∈ t.free) :
  f ∉ t.owned
  := fun hmem => (List.nodup_append.mp h).2.2 f hf f hmem rfl

/-- `pmm_alloc` returns when there is a free frame, and then it returns the first one. -/
theorem Represents.alloc_iff (h : Represents s t) {page : Nat} {m : Machine} :
  pmmAlloc s.machine = some (page, m) ↔ ∃ f free, t.free = f :: free ∧ page = frame f
    ∧ m = { s.machine.take (frame f) with pmmStack := s.machine.mem.load (frame f) 8 }
  := by
  have hstack := h.stack
  cases hfree : t.free with
  | nil =>
      rw [hfree] at hstack
      have hnull : s.machine.pmmStack = 0 := hstack
      rw [pmmAlloc, if_pos h.running, if_pos hnull]
      constructor
      · intro heq
        cases heq
      · rintro ⟨f, free, heq, -⟩
        cases heq
  | cons f free =>
      rw [hfree] at hstack
      obtain ⟨hne, hv, hf, -⟩ := hstack
      rw [pmmAlloc_running h.running hne, hv, v2p_p2v hf]
      constructor
      · intro heq
        obtain ⟨rfl, rfl⟩ := Prod.mk.inj (Option.some.inj heq)
        exact ⟨f, free, rfl, rfl, rfl⟩
      · rintro ⟨f', free', heq, rfl, rfl⟩
        obtain ⟨rfl, rfl⟩ := List.cons.inj heq
        rfl

/-- Every step of the allocator is a step of the stack of frames. -/
theorem Represents.step (h : Represents s t) (hstep : Owners.Step s e s') :
  ∃ t', Frames.Step t e t' ∧ Represents s' t'
  := by
  obtain ⟨free, owned⟩ := t
  have howned : s.owned = owned := h.owned
  cases hstep with
  | @alloc page m halloc =>
      obtain ⟨f, rest, rfl, rfl, rfl⟩ := h.alloc_iff.mp halloc
      obtain ⟨hne, hv, hf, hstack⟩ := h.stack
      rw [frame_div, howned]
      refine ⟨_, .alloc, h.running, hstack, rfl, ?_, ?_⟩
      · exact (List.perm_middle.nodup_iff).mpr h.distinct
      · intro g hg
        rcases List.mem_cons.mp hg with rfl | hg
        · refine ⟨hf, ?_⟩
          rw [← hv]
          exact hne
        · exact h.reached g hg
  | @free page hmem =>
      rw [howned] at hmem ⊢
      obtain ⟨hlt, hne⟩ := h.reached _ hmem
      have hpage : page < 2 ^ 64 := by
        rw [frame] at hlt
        rw [pageSize] at hlt
        omega
      have hnot : page / pageSize ∉ free := fun hfree => h.distinct.not_owned hfree hmem
      rw [← stripFlags_eq] at hne
      have hstep := @Frames.Step.free _ free owned hmem
      refine ⟨_, hstep, pmmFree_running _ _, h.stack.free hpage hne hnot, rfl, ?_, ?_⟩
      · exact (hstep.perm.nodup_iff).mpr h.distinct
      · intro g hg
        exact h.reached g (List.mem_of_mem_erase hg)
  | @write mem hmem =>
      rw [howned] at hmem ⊢
      refine ⟨_, .write, h.running, h.stack.congr ?_, rfl, h.distinct, h.reached⟩
      -- the links lie in free frames, which nobody writes to
      intro f hf
      apply words_congr
      intro x hx hx'
      apply hmem
      have hframe : x / pageSize = f := by
        simp only [frame, pageSize] at hx hx' ⊢
        omega
      rw [hframe]
      exact h.distinct.not_owned hf

/-- In every run of the allocator and its owners, the free stack is a stack of frames without
duplicates: the run is one of the stack of frames, no frame is lost or has two owners, and as long as
there is a free frame `pmm_alloc` returns one that nobody owns. -/
theorem pmm_refines_stack {es : List Use} (h : Represents s t) (hrun : Runs Owners.Step s es s') :
  ∃ t', Runs Frames.Step t es t' ∧ Represents s' t'
    ∧ (t'.free ++ s'.owned).Nodup ∧ (t'.free ++ s'.owned).Perm (t.free ++ s.owned)
    ∧ (t'.free ≠ [] → ∃ page m, pmmAlloc s'.machine = some (page, m))
    ∧ ∀ page m, pmmAlloc s'.machine = some (page, m) →
        page / pageSize ∈ t'.free ∧ page / pageSize ∉ s'.owned
  := by
  obtain ⟨t', hrun', h'⟩ := hrun.simulate (fun hrel hstep => hrel.step hstep) h
  refine ⟨t', hrun', h', ?_, ?_, ?_, ?_⟩
  · rw [h'.owned]
    exact h'.distinct
  · rw [h'.owned, h.owned]
    exact Frames.perm_of_run hrun'
  · intro hne
    obtain ⟨f, free, hfree⟩ := List.exists_cons_of_ne_nil hne
    exact ⟨_, _, h'.alloc_iff.mpr ⟨f, free, hfree, rfl, rfl⟩⟩
  · intro page m halloc
    obtain ⟨f, free, hfree, rfl, -⟩ := h'.alloc_iff.mp halloc
    have hmem : f ∈ t'.free := by
      rw [hfree]
      exact List.mem_cons_self
    rw [frame_div, h'.owned]
    exact ⟨hmem, h'.distinct.not_owned hmem⟩

end Represents

/-! ### One frame -/

/-- A machine with the free frame 5. -/
def oneFrame : Machine where
  mem := fun _ => 0
  pmmRunning := true
  pmmPos := 0
  pmmStack := p2v (frame 5)
  taken := []
  freed := []

theorem represents_oneFrame :
  Represents ⟨oneFrame, []⟩ ⟨[5], []⟩
  := ⟨rfl, ⟨by decide, rfl, by decide, rfl⟩, rfl, by rw [Frames.Distinct]; decide, nofun⟩

/-- The frame is allocated, written to and freed. -/
theorem pmm_refines_stack_oneFrame :
  ∃ s' t', Runs Owners.Step ⟨oneFrame, []⟩ [.alloc 5, .write, .free 5] s'
    ∧ Runs Frames.Step ⟨[5], []⟩ [.alloc 5, .write, .free 5] t'
    ∧ t'.free = [5] ∧ s'.owned = []
  := by
  obtain ⟨m, halloc⟩ : ∃ m, pmmAlloc oneFrame = some (frame 5, m) :=
    ⟨_, represents_oneFrame.alloc_iff.mpr ⟨5, [], rfl, rfl, rfl⟩⟩
  have halloc' : Owners.Step ⟨oneFrame, []⟩ (.alloc 5) ⟨m, [5]⟩ := by
    have hstep := @Owners.Step.alloc ⟨oneFrame, []⟩ _ _ halloc
    rw [frame_div] at hstep
    exact hstep
  have hwrite : Owners.Step ⟨m, [5]⟩ .write ⟨m.withMem (m.mem.store (frame 5) 8 1), [5]⟩ := by
    apply Owners.Step.write
    intro x hx
    apply Memory.store_of_notMem
    have hne : x / pageSize ≠ 5 := fun heq => hx (by rw [heq]; exact List.mem_cons_self)
    simp only [frame, pageSize] at hne ⊢
    omega
  have hfree : Owners.Step ⟨m.withMem (m.mem.store (frame 5) 8 1), [5]⟩ (.free 5)
      ⟨pmmFree (m.withMem (m.mem.store (frame 5) 8 1)) (frame 5), []⟩ := by
    have hstep := @Owners.Step.free ⟨m.withMem (m.mem.store (frame 5) 8 1), [5]⟩ (frame 5)
      (by rw [frame_div]; exact List.mem_cons_self)
    rw [frame_div, List.erase_cons_head] at hstep
    exact hstep
  have hrun := Runs.cons halloc' (Runs.cons hwrite (Runs.cons hfree (Runs.nil _)))
  obtain ⟨t', hrun', -, -, hperm, -⟩ := pmm_refines_stack represents_oneFrame hrun
  refine ⟨_, t', hrun, hrun', ?_, rfl⟩
  rw [List.append_nil, List.append_nil] at hperm
  exact List.perm_singleton.mp hperm

end Mem
