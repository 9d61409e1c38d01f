import Mittos64.Proc.SpaceStart

/-!
# Frame conservation

`procmm_free_map` frees exactly the frames of the address space, in every run of proper calls that map
no page anew and make areas larger in step with their pages only.  Otherwise a page step can meet no
page, and then `procmm_unmap` frees the frame 0.
-/

open DList

namespace Procmm

open Mem

/-- After any run of calls that map no page anew, and make areas larger in step with their pages,
`procmm_free_map` frees the P4, the tables and the frames of the pages of the address space, each of
them once and no other frame; and the address space still has all frames it has had before. -/
theorem procmmFreeMap_conserves {b m r : Nat} {grow : Nat → Nat} {k k' : Kernel} {es : List Call}
    (h : Reachable (Empty b) (fun k k' => ∃ e, FreshStep b grow k e k') k) (hlive : k.live m = true)
    (hP4 : (k.map m).P4 = frame r) (hrun : Runs (FreshStep b grow) k es k')
    (hes : Call.freeMap m ∉ es) :
  FreesFrames b m r k'
    ∧ ∀ f, UserFrame (words k.machine.mem) r f → UserFrame (words k'.machine.mem) r f
  := by
  obtain ⟨⟨⟨fs, hheld⟩, hcovering⟩, hlive', hP4', hkeeps⟩ :=
    keepsFrames_of_runs hrun (covering_of_run h) hlive hP4 hes
  refine ⟨?_, hkeeps⟩
  obtain ⟨xs, hlist⟩ := hheld.arranged.exists_listed hlive'
  obtain ⟨Z, hZ⟩ := hcovering m r hlive' hP4'
  exact hheld.steady.ready.freesFrames hheld.steady.low hlive' hP4' ⟨m, hlive', hP4'⟩ hlist
    (hZ.filled hheld.arranged hlive' hlist)

/-- A first process, before it gets a page and after that. -/
theorem procmmFreeMap_conserves_onePage :
  ∃ k k' es, Runs (FreshStep 16 (fun _ => 0)) k es k' ∧ es ≠ []
    ∧ lookup (words k'.machine.mem) 32 0x1000 = addFlags (frame 33) userFlags
    ∧ FreesFrames 16 0 32 k'
    ∧ ∀ f, UserFrame (words k.machine.mem) 32 f → UserFrame (words k'.machine.mem) 32 f
  := by
  have hspare : Spare (32 :: 33 :: List.range' 34 3) := by
    refine ⟨by decide, ?_⟩
    decide
  obtain ⟨k₀, h₀, hmaps₀⟩ : ∃ k, Stage (32 :: 33 :: List.range' 34 3) k ∧ k.maps = 0 :=
    ⟨startKernel (fun _ _ => 0) _, stage_start (fun _ _ => by decide) hspare, rfl⟩
  obtain ⟨k, k', new, fs, hstep, hstep', hlive, hP4, -, -, -, hprocess⟩ :=
    h₀.newProcess (by decide) (by decide)
  rw [hmaps₀] at hstep' hlive hP4
  have hrun : Runs (FreshStep 16 (fun _ => 0)) k [.map 0 0x1000 0x2000 0] k' :=
    .cons hstep' (.nil k')
  have hnot : Call.freeMap 0 ∉ [Call.map 0 0x1000 0x2000 0] := by
    rw [List.mem_singleton]
    exact Call.noConfusion
  exact ⟨k, k', _, hrun, List.cons_ne_nil _ _, hprocess.page,
    procmmFreeMap_conserves (h₀.run.next ⟨_, hstep⟩) hlive hP4 hrun hnot⟩

/-- The second of two pages is not mapped, and `procmm_free_map` frees the frame 0 for it. -/
theorem procmmFreeMap_frees_null :
  ∃ m r k, Reachable (Empty 16)
      (fun k k' => ∃ e, k.Proper 16 (fun _ => 0) e ∧ k.step (frame 16) (fun _ => 0) e = some k') k
    ∧ k.live m = true ∧ (k.map m).P4 = frame r ∧ ¬ FreesFrames 16 m r k
  := by
  obtain ⟨q, r, k, hgap⟩ := exists_gap
  refine ⟨1, r, k, ?_, hgap.live.2, hgap.P4.2, ?_⟩
  · apply hgap.run.mono
    rintro k k' ⟨e, hproper, -, hcall⟩
    exact ⟨e, hproper, hcall⟩
  intro hfrees
  obtain ⟨fs, hheld⟩ := held_of_run hgap.run
  have hready := hheld.steady.ready
  have hroot : k.Root r := ⟨1, hgap.live.2, hgap.P4.2⟩
  -- the frame 0 is in use by the first process
  have hzero : ¬ UserFrame (words k.machine.mem) r 0 := by
    intro hframe
    apply hready.sound.not_mapped hroot hframe
    refine ⟨q, 0x1000, ⟨⟨0, hgap.live.1, hgap.P4.1⟩, ?_⟩, by decide, ?_, ?_⟩
    · rintro rfl
      have heq := hready.own hgap.live.1 hgap.live.2 (hgap.P4.1.trans hgap.P4.2.symm)
      cases heq
    · rw [hgap.null]
      exact (userFlags_entry 0).1
    · rw [hgap.null]
      exact (userFlags_entry 0).2.symm
  have hfilled := hfrees.filled hready hheld.steady.low hgap.P4.2 hroot hgap.list
    (hheld.arranged.top hgap.live.2 hgap.list) hzero
  apply hfilled.mapped 1 List.mem_cons_self 0x2000 _ hgap.hole
  rw [hgap.area.1]
  exact ⟨1, by decide, rfl, rfl⟩

end Procmm
