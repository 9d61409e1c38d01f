import Mittos64.Mem.Follow
import Mittos64.Mem.VmmLookup

/-!
# Running out of frames

`vmm_find_page` with `touch` asks `pmm_alloc` for every table that is missing, and `pmm_alloc`
follows the pointer to the top of the free stack without a look at it.  For any tables, whether
they are well formed or not, `vmm_set_page` therefore returns if and only if the free stack has a
frame for each table it makes; the frames it takes are the first ones of the stack, and all it
installs are these and the page it was given (`vmmSetPage_stack`).  It has a return value for
failures, and no run that uses it when the frames run out (`vmmSetPage_never_reports`).
-/

namespace Mem

/-- The number of tables that `vmm_find_page` makes along the path from the table `t`. -/
def toMake (T : Words) : Nat → List (Fin 512) → Nat
  | _, [] => 0
  | t, i :: path =>
      if T t i = 0 then path.length + 1 else toMake T (T t i / pageSize) path

/-- From the words `T` to the words `T'` the frames `new` have been cleared, and the entries that
are not zero and have changed point to them. -/
def Installs (T T' : Words) (new : List Nat) : Prop :=
  ∀ n j, T' n j = T n j ∨ (T' n j = 0 ∧ n ∈ new)
    ∨ ∃ f ∈ new, T' n j = addFlags (frame f) tableFlags

theorem Installs.refl (T : Words) :
  Installs T T []
  := by
  intro n j
  left
  rfl

/-- Linking one table. -/
theorem Installs.link (T : Words) (t f : Nat) (i : Fin 512) :
  Installs T (setWord (clearFrame T f) t i (addFlags (frame f) tableFlags)) [f]
  := by
  intro n j
  by_cases hedge : n = t ∧ j = i
  · right; right
    obtain ⟨rfl, rfl⟩ := hedge
    rw [setWord_self]
    exact ⟨f, List.mem_singleton_self f, rfl⟩
  · rw [setWord_of_ne _ _ (not_and_or.mp hedge)]
    by_cases hn : n = f
    · right; left
      rw [hn, clearFrame_self]
      exact ⟨rfl, List.mem_singleton_self f⟩
    · left
      apply clearFrame_of_ne _ _ hn

theorem Installs.trans {T T' T'' : Words} {new new' : List Nat} (h : Installs T T' new)
    (h' : Installs T' T'' new') :
  Installs T T'' (new ++ new')
  := by
  intro n j
  obtain hsame | ⟨hzero, hn⟩ | ⟨f, hf, hlink⟩ := h' n j
  · rw [hsame]
    obtain hsame' | ⟨hzero, hn⟩ | ⟨f, hf, hlink⟩ := h n j
    · exact .inl hsame'
    · exact .inr (.inl ⟨hzero, List.mem_append_left _ hn⟩)
    · exact .inr (.inr ⟨f, List.mem_append_left _ hf, hlink⟩)
  · exact .inr (.inl ⟨hzero, List.mem_append_right _ hn⟩)
  · exact .inr (.inr ⟨f, List.mem_append_right _ hf, hlink⟩)

/-- `pmm_alloc` returns the frame on the top of the stack, if there is one. -/
theorem Stacked.alloc {s : Machine} {f : Nat} {fs : List Nat} (h : Stacked (f :: fs) s) :
  ∃ s', pmmAlloc s = some (frame f, s') ∧ s'.mem = s.mem ∧ s'.taken = f :: s.taken
    ∧ Stacked fs s'
  := by
  obtain ⟨s', halloc, hmem, hrun, hfs⟩ := h.2.alloc h.1
  have htaken := (pmmAlloc_taken halloc).1
  rw [frame_div] at htaken
  exact ⟨s', halloc, hmem, htaken, hrun, hfs⟩

/-- The frames on the stack lie in the physical address space. -/
theorem Stacked.frame_lt {s : Machine} {f : Nat} {fs : List Nat} (h : Stacked (f :: fs) s) :
  frame f < 2 ^ 64
  := h.2.2.2.1

/-- Making a table from the top of the stack. -/
theorem Stacked.nextTable {s : Machine} {f t : Nat} {fs : List Nat} {i : Fin 512}
    (h : Stacked (f :: fs) s) (ht : t ∉ f :: fs) (hzero : words s.mem t i = 0) :
  ∃ s', Mem.nextTable true s (frame t) i = some (addFlags (frame f) tableFlags, s')
    ∧ words s'.mem = setWord (clearFrame (words s.mem) f) t i (addFlags (frame f) tableFlags)
    ∧ s'.taken = f :: s.taken ∧ Stacked fs s'
  := by
  obtain ⟨s₁, halloc, hmem, htaken, hfs⟩ := h.alloc
  have hnodup := List.nodup_cons.mp h.2.nodup
  have helt := addFlags_lt tableFlags h.frame_lt
  rw [List.mem_cons, not_or] at ht
  refine ⟨_, nextTable_touch hzero halloc, ?_, htaken, ?_⟩
  · rw [words_setEntry _ _ _ helt, words_clearPage, hmem]
  · apply stacked_source.setEntry (stacked_source.clearPage hfs hnodup.1) ht.2 helt

/-- In a table of zeros all tables of a path are missing. -/
theorem toMake_cleared {T : Words} {t : Nat} (h : ∀ j, T t j = 0) (path : List (Fin 512)) :
  toMake T t path = path.length ∧ ∀ n ∈ found T t path, n = t
  := by
  cases path with
  | nil => simp [toMake, found]
  | cons i path => simp [toMake, found, h i]

/-- `vmm_find_page` with `touch` takes a frame for each table it makes, and returns if and only if
there are as many. -/
theorem findTable_stack {path : List (Fin 512)} {s : Machine} {t : Nat} {fs : List Nat}
    (hfs : Stacked fs s) (hfound : ∀ n ∈ found (words s.mem) t path, n ∉ fs) :
  (fs.length < toMake (words s.mem) t path ∧ findTable true s (frame t) path = none)
    ∨ ∃ new rest s' u, fs = new ++ rest ∧ new.length = toMake (words s.mem) t path
      ∧ findTable true s (frame t) path = some (p2v (frame u), s') ∧ u ∉ rest
      ∧ (frame t < 2 ^ 64 → frame u < 2 ^ 64) ∧ Installs (words s.mem) (words s'.mem) new
      ∧ s'.taken = new.reverse ++ s.taken ∧ Stacked rest s'
  := by
  induction path generalizing s t fs with
  | nil =>
      right
      exact ⟨[], fs, s, t, rfl, rfl, rfl, hfound t (List.mem_singleton_self t), id, .refl _, rfl,
        hfs⟩
  | cons i path ih =>
      rw [found, List.forall_mem_cons] at hfound
      by_cases hzero : words s.mem t i = 0
      · have hmake : toMake (words s.mem) t (i :: path) = path.length + 1 := by
          rw [toMake, if_pos hzero]
        rw [hmake]
        cases fs with
        | nil =>
            left
            refine ⟨Nat.succ_pos _, ?_⟩
            rw [findTable, nextTable, entry_frame, if_neg (not_not_intro hzero), if_pos rfl,
              hfs.alloc_empty]
        | cons f fs =>
            obtain ⟨s₁, hnext, hwords, htaken, hfs₁⟩ := hfs.nextTable hfound.1 hzero
            obtain ⟨hne, -, -⟩ := child_addFlags f
            have hnotMem : f ∉ fs := (List.nodup_cons.mp hfs.2.nodup).1
            have hfind : findTable true s (frame t) (i :: path)
                = findTable true s₁ (frame f) path := by
              rw [findTable, hnext]
              simp only [if_neg hne]
              rw [stripFlags_eq, addFlags_div, frame_div]
            -- the new table is empty, so that the rest of the path is missing as well
            have hcleared : ∀ j, words s₁.mem f j = 0 := by
              intro j
              rw [hwords, setWord_of_ne, clearFrame_self]
              left
              rintro rfl
              apply hfound.1 List.mem_cons_self
            obtain ⟨hrest, hself⟩ := toMake_cleared hcleared path
            rw [hfind, ← hrest, List.length_cons, Nat.add_lt_add_iff_right]
            have hinstall : Installs (words s.mem) (words s₁.mem) [f] := by
              rw [hwords]
              apply Installs.link
            obtain hless | ⟨new, rest, s', u, rfl, hlen, hfind', hu, hlt, hnew, htaken', hs'⟩ :=
              ih (t := f) hfs₁ (fun n hn => by rwa [hself n hn])
            · left
              apply hless
            · right
              refine ⟨f :: new, rest, s', u, rfl, congrArg Nat.succ hlen, hfind', hu,
                fun _ => hlt hfs.frame_lt, hinstall.trans hnew, ?_, hs'⟩
              rw [htaken', htaken, List.reverse_cons, List.append_assoc]
              rfl
      · rw [if_neg hzero] at hfound
        have hfind : findTable true s (frame t) (i :: path)
            = findTable true s (frame (words s.mem t i / pageSize)) path := by
          rw [findTable, nextTable_of_ne hzero]
          simp only [if_neg hzero]
          rw [stripFlags_eq]
        rw [hfind, toMake, if_neg hzero]
        obtain hless | ⟨new, rest, s', u, hsplit, hlen, hfind', hu, hlt, hrest⟩ :=
          ih hfs hfound.2
        · left
          apply hless
        · right
          exact ⟨new, rest, s', u, hsplit, hlen, hfind', hu,
            fun _ => hlt (frame_div_lt (words_lt _ _ _)), hrest⟩

section SetPage

variable {bootP4 P4 r addr phys : Nat} (flags : Nat) {s : Machine}

/-- `vmm_set_page` returns if and only if the free stack has a frame for each table that is
missing; the frames it takes are the first ones of the stack, and it installs no others but the
page it was given. -/
theorem vmmSetPage_stack {fs : List Nat} (hfs : Stacked fs s)
    (hroot : resolveP4 bootP4 P4 = frame r) (hr : frame r < 2 ^ 64)
    (hfound : ∀ n ∈ found (words s.mem) r (tablePath addr), n ∉ fs) (hphys : phys < 2 ^ 64) :
  (fs.length < toMake (words s.mem) r (tablePath addr)
      ∧ vmmSetPage bootP4 s P4 addr phys flags = none)
    ∨ ∃ new rest s' v T', fs = new ++ rest
      ∧ new.length = toMake (words s.mem) r (tablePath addr)
      ∧ vmmSetPage bootP4 s P4 addr phys flags = some (v, s')
      ∧ Installs (words s.mem) T' new
      ∧ (words s'.mem = T'
        ∨ ∃ u, words s'.mem = setWord T' u (p1Offset addr) (addFlags phys flags))
      ∧ s'.taken = new.reverse ++ s.taken ∧ Stacked rest s'
  := by
  obtain ⟨hless, hnone⟩ | ⟨new, rest, s', u, hsplit, hlen, hfind, hu, hlt, hnew, htaken, hs'⟩ :=
    findTable_stack hfs hfound
  · left
    refine ⟨hless, ?_⟩
    rw [vmmSetPage, vmmFindPage, hroot, tablePath_stripFlags, hnone]
  · right
    by_cases hnull : p2v (frame u) = 0
    · refine ⟨new, rest, s', 0, words s'.mem, hsplit, hlen, ?_, hnew, .inl rfl, htaken, hs'⟩
      rw [vmmSetPage, vmmFindPage, hroot, tablePath_stripFlags, hfind]
      simp only [if_pos hnull]
    · have hvalue := addFlags_lt flags hphys
      have hset : vmmSetPage bootP4 s P4 addr phys flags
          = some (entry (setEntry s' (frame u) (p1Offset addr) (addFlags phys flags)).mem (frame u)
            (p1Offset addr), setEntry s' (frame u) (p1Offset addr) (addFlags phys flags)) := by
        rw [vmmSetPage, vmmFindPage, hroot, tablePath_stripFlags, hfind]
        simp only [if_neg hnull, v2p_p2v (hlt hr)]
      exact ⟨new, rest, _, _, words s'.mem, hsplit, hlen, hset, hnew,
        .inr ⟨u, words_setEntry s' u _ hvalue⟩, htaken, stacked_source.setEntry hs' hu hvalue⟩

/-- `vmm_set_page` reports a failure: it returns 0, with the tables as they were and no frame
taken. -/
def ReportsFailure (bootP4 P4 r addr phys flags : Nat) (s : Machine) : Prop :=
  ∃ s', vmmSetPage bootP4 s P4 addr phys flags = some (0, s')
    ∧ (∀ p t, p.length ≤ 3 → walk (words s.mem) r p = some t → ∀ j,
        words s'.mem t j = words s.mem t j)
    ∧ s'.taken = s.taken

/-- `vmm_set_page` never reports that there is no frame for a table. -/
theorem vmmSetPage_never_reports (hs : Stacked [] s) (hroot : resolveP4 bootP4 P4 = frame r)
    (hr : frame r < 2 ^ 64) (hphys : phys < 2 ^ 64)
    (hmake : 0 < toMake (words s.mem) r (tablePath addr)) :
  ¬ ReportsFailure bootP4 P4 r addr phys flags s
  := by
  rintro ⟨s', hset, -⟩
  obtain ⟨-, hnone⟩ | ⟨new, rest, -, -, -, hsplit, hlen, -⟩ :=
    vmmSetPage_stack flags hs hroot hr (fun _ _ => List.not_mem_nil) hphys
  · rw [hnone] at hset
    cases hset
  · rw [(List.append_eq_nil_iff.mp hsplit.symm).1] at hlen
    apply hmake.ne hlen

end SetPage

/-- A machine with a memory of zeros and no free frame. -/
def exhaustedMachine : Machine :=
  { blankMachine with pmmRunning := true }

theorem stacked_exhausted :
  Stacked [] exhaustedMachine
  := ⟨rfl, rfl⟩

theorem vmmSetPage_never_reports_exhausted :
  0 < toMake (words exhaustedMachine.mem) 1 (tablePath 0x400000)
    ∧ ¬ ReportsFailure 0x9000 0x1000 1 0x400000 0x7000 7 exhaustedMachine
  := by
  have hmake : 0 < toMake (words exhaustedMachine.mem) 1 (tablePath 0x400000) := by
    rw [tablePath, toMake, exhaustedMachine, blankMachine, words_zero, if_pos rfl]
    apply Nat.succ_pos
  refine ⟨hmake, ?_⟩
  apply vmmSetPage_never_reports 7 stacked_exhausted rfl (by decide) (by decide) hmake

/-- Mapping a page in an empty address space without a free frame. -/
theorem vmmSetPage_follows_null :
  ¬ ReportsFailure 0x9000 0x1000 1 0x400000 0x7000 7 exhaustedMachine
  := by
  have hnext : nextTable true exhaustedMachine 0x1000 (p4Offset 0x400000) = none := by
    rw [nextTable, if_neg, if_pos rfl, stacked_exhausted.alloc_empty]
    apply not_not_intro
    apply words_zero 1
  rintro ⟨s', hset, -⟩
  have hpath : tablePath (stripFlags 0x400000)
      = [p4Offset 0x400000, p3Offset 0x400000, p2Offset 0x400000] := by
    decide
  have hroot : resolveP4 0x9000 0x1000 = 0x1000 := by
    decide
  rw [vmmSetPage, vmmFindPage, hpath, hroot, findTable, hnext] at hset
  cases hset

end Mem
