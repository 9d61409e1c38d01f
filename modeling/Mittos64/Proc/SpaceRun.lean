import Mittos64.Lib.Run
import Mittos64.Proc.SpaceCalls

/-!
# Runs of calls on all maps

A run starts before the first process, and goes on with proper calls.  As long as the maps are freed
only when all their page steps meet pages of their own, no frame gets two uses.  When no call maps a
page anew, and the areas grow in step with their pages, this is so for all maps at all times: then
`procmm_free_map` frees exactly the frames of the address space.
-/

open DList

namespace Procmm

open Mem

/-- The kernel before the first process. -/
def Empty (b : Nat) (k : Kernel) : Prop :=
  (∃ fs, Ready b (fun _ => False) fs k) ∧ k.maps = 0 ∧ k.areas = 0

/-- A proper call, of `procmm_free_map` only when all page steps meet pages of their own. -/
def WholeStep (b : Nat) (grow : Nat → Nat) (k k' : Kernel) : Prop :=
  ∃ e, k.Proper b grow e ∧ k.Whole e ∧ k.step (frame b) grow e = some k'

/-- A proper call that maps no page anew, and makes an area larger only in step with its pages. -/
def FreshStep (b : Nat) (grow : Nat → Nat) (k : Kernel) (e : Call) (k' : Kernel) : Prop :=
  k.Proper b grow e ∧ k.Fresh e ∧ k.InStep e ∧ k.step (frame b) grow e = some k'

section Runs

variable {b m r : Nat} {grow : Nat → Nat} {k k' : Kernel} {fs : List Nat} {e : Call}

/-- A kernel without maps and areas is in order. -/
theorem held_of_ready (hready : Ready b (fun _ => False) fs k) (hmaps : k.maps = 0)
    (hareas : k.areas = 0) :
  Held b fs k ∧ Covering k
  := by
  have hnot : ∀ {m}, k.live m ≠ true := by
    intro m hlive
    have hlt := (hready.aligned hlive).1
    rw [hmaps] at hlt
    exact Nat.not_lt_zero m hlt
  have hroot : k.Root = fun _ => False := by
    funext q
    apply propext
    exact ⟨fun hq => hnot hq.choose_spec.1, False.elim⟩
  refine ⟨⟨⟨?_, ?_⟩, ?_⟩, fun m r hlive => absurd hlive hnot⟩
  · rw [hroot]
    exact hready
  · rw [hroot]
    rintro f ⟨q, c, hq, -⟩
    exact hq.elim
  · refine ⟨fun hlive => absurd hlive hnot, ?_, fun hlive => absurd hlive hnot,
      fun hlive => absurd hlive hnot⟩
    intro a ha
    rw [hareas] at ha
    exact absurd ha (Nat.not_lt_zero a)

theorem Empty.held (h : Empty b k) :
  (∃ fs, Held b fs k) ∧ Covering k
  := by
  obtain ⟨⟨fs, hready⟩, hmaps, hareas⟩ := h
  obtain ⟨hheld, hcovering⟩ := held_of_ready hready hmaps hareas
  exact ⟨⟨fs, hheld⟩, hcovering⟩

/-- The kernel stays in order in every run. -/
theorem held_of_run (h : Reachable (Empty b) (WholeStep b grow) k) :
  ∃ fs, Held b fs k
  := by
  induction h with
  | start h => exact h.held.1
  | next _ hstep ih =>
      obtain ⟨fs, hheld⟩ := ih
      obtain ⟨e, hproper, hwhole, hcall⟩ := hstep
      exact (hheld.step hproper hwhole hcall).held

/-- When the maps are covered, all page steps meet pages of their own. -/
theorem Covering.whole (h : Covering k) (hheld : Held b fs k) (hproper : k.Proper b grow e) :
  k.Whole e
  := by
  cases e with
  | freeMap m =>
      intro r xs hP4 hlist
      obtain ⟨Z, hZ⟩ := h m r hproper hP4
      exact hZ.filled hheld.arranged hproper hlist
  | _ => trivial

/-- What a call keeps that maps no page anew. -/
theorem FreshStep.advances (h : FreshStep b grow k e k') (hheld : Held b fs k)
    (hcovering : Covering k) :
  Advances b k e k'
  := by
  obtain ⟨hproper, -, -, hcall⟩ := h
  exact hheld.step hproper (hcovering.whole hheld hproper) hcall

/-- The kernel stays in order, and its maps stay covered. -/
theorem FreshStep.covering (h : FreshStep b grow k e k')
    (hk : (∃ fs, Held b fs k) ∧ Covering k) :
  (∃ fs, Held b fs k') ∧ Covering k'
  := by
  obtain ⟨⟨fs, hheld⟩, hcovering⟩ := hk
  have hadvances := h.advances hheld hcovering
  exact ⟨hadvances.held, hadvances.covering h.2.1 h.2.2.1 hcovering⟩

theorem covering_of_run (h : Reachable (Empty b) (fun k k' => ∃ e, FreshStep b grow k e k') k) :
  (∃ fs, Held b fs k) ∧ Covering k
  := by
  apply h.invariant
  · exact fun k hk => hk.held
  · rintro k k' hk ⟨e, hstep⟩
    exact hstep.covering hk

/-- A run that maps no page anew is a run in which the maps are freed only when all page steps meet
pages of their own. -/
theorem wholeRun_of_fresh
    (h : Reachable (Empty b) (fun k k' => ∃ e, FreshStep b grow k e k') k) :
  Reachable (Empty b) (WholeStep b grow) k
  := by
  induction h with
  | start h => exact .start h
  | next hrun hstep ih =>
      obtain ⟨e, hproper, -, -, hcall⟩ := hstep
      obtain ⟨⟨fs, hheld⟩, hcovering⟩ := covering_of_run hrun
      exact ih.next ⟨e, hproper, hcovering.whole hheld hproper, hcall⟩

/-- A live map keeps its P4 and its frames while it is not freed. -/
theorem keepsFrames_of_runs {es : List Call} (hrun : Runs (FreshStep b grow) k es k')
    (hk : (∃ fs, Held b fs k) ∧ Covering k) (hlive : k.live m = true)
    (hP4 : (k.map m).P4 = frame r) (hes : Call.freeMap m ∉ es) :
  ((∃ fs, Held b fs k') ∧ Covering k') ∧ k'.live m = true ∧ (k'.map m).P4 = frame r
    ∧ ∀ f, UserFrame (words k.machine.mem) r f → UserFrame (words k'.machine.mem) r f
  := by
  induction hrun with
  | nil s => exact ⟨hk, hlive, hP4, fun _ hf => hf⟩
  | cons hstep _ ih =>
      obtain ⟨⟨fs, hheld⟩, hcovering⟩ := hk
      rw [List.mem_cons, not_or] at hes
      obtain ⟨hlive₁, hP4₁, hframes⟩ := (hstep.advances hheld hcovering).frames hlive hP4 hstep.2.1
        (fun heq => hes.1 heq.symm)
      obtain ⟨hk', hlive', hP4', hframes'⟩ :=
        ih (hstep.covering ⟨⟨fs, hheld⟩, hcovering⟩) hlive₁ hP4₁ hes.2
      exact ⟨hk', hlive', hP4', fun f hf => hframes' f (hframes f hf)⟩

end Runs

end Procmm
