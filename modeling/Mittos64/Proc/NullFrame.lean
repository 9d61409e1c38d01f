import Mittos64.Proc.Teardown

/-!
# Steps that meet no page

`vmm_get_page` returns 0 for a page that is not there, and `procmm_unmap` frees what it returns.  So
the first page step of `procmm_free_map` that meets no page, or one that an earlier step has met
already, frees the frame 0; and no later step takes this back.
-/

open DList

namespace Procmm

open Mem

/-- `procmm_free_map` returns, and frees the frames of the address space, each of them once, and no
other frame. -/
def FreesFrames (b m r : Nat) (k : Kernel) : Prop :=
  ∃ L k', procmmFreeMap (frame b) k m = some k' ∧ L.Nodup
    ∧ (∀ f, f ∈ L ↔ UserFrame (words k.machine.mem) r f)
    ∧ k'.machine.taken = k.machine.taken ∧ k'.machine.freed = L ++ k.machine.freed

/-! ### The frames that have been freed -/

section Freed

variable {s s' : Machine} {P4 p stop : Nat}

theorem setEntry_freed (s : Machine) (table : Nat) (i : Fin 512) (v : Nat) :
  (setEntry s table i v).freed = s.freed
  := (Machine.withMem_history s _).2

theorem nextTable_freed {touch : Bool} {table e : Nat} {i : Fin 512}
    (h : nextTable touch s table i = some (e, s')) :
  s'.freed = s.freed
  := by
  rw [nextTable] at h
  split_ifs at h
  · obtain ⟨-, rfl⟩ := Prod.mk.inj (Option.some.inj h)
    rfl
  · cases halloc : pmmAlloc s with
    | none =>
        rw [halloc] at h
        cases h
    | some r =>
        obtain ⟨q, s₁⟩ := r
        rw [halloc] at h
        obtain ⟨-, rfl⟩ := Prod.mk.inj (Option.some.inj h)
        rw [setEntry_freed, clearPage, (Machine.withMem_history s₁ _).2]
        exact (pmmAlloc_taken halloc).2
  · obtain ⟨-, rfl⟩ := Prod.mk.inj (Option.some.inj h)
    rfl

theorem findTable_freed {touch : Bool} {table t : Nat} {path : List (Fin 512)}
    (h : findTable touch s table path = some (t, s')) :
  s'.freed = s.freed
  := by
  induction path generalizing s table with
  | nil =>
      obtain ⟨-, rfl⟩ := Prod.mk.inj (Option.some.inj h)
      rfl
  | cons i path ih =>
      rw [findTable] at h
      cases hnext : nextTable touch s table i with
      | none =>
          rw [hnext] at h
          cases h
      | some r =>
          obtain ⟨e, s₁⟩ := r
          rw [hnext] at h
          dsimp only at h
          have hfirst := nextTable_freed hnext
          split_ifs at h
          · obtain ⟨-, rfl⟩ := Prod.mk.inj (Option.some.inj h)
            exact hfirst
          · rw [ih h, hfirst]

/-- `vmm_set_page` frees no frame. -/
theorem vmmSetPage_freed {bootP4 a phys flags v : Nat}
    (h : vmmSetPage bootP4 s P4 a phys flags = some (v, s')) :
  s'.freed = s.freed
  := by
  rw [vmmSetPage] at h
  cases hfind : vmmFindPage s (resolveP4 bootP4 P4) a true with
  | none =>
      rw [hfind] at h
      cases h
  | some r =>
      obtain ⟨P1, s₁⟩ := r
      rw [hfind] at h
      dsimp only at h
      have hfreed := findTable_freed hfind
      split_ifs at h
      · obtain ⟨-, rfl⟩ := Prod.mk.inj (Option.some.inj h)
        exact hfreed
      · obtain ⟨-, rfl⟩ := Prod.mk.inj (Option.some.inj h)
        rw [setEntry_freed]
        exact hfreed

theorem pmmFree_suffix (s : Machine) (page : Nat) :
  s.freed <:+ (pmmFree s page).freed
  := by
  rw [(pmmFree_history s page).2]
  apply List.suffix_cons

theorem freeEntries_suffix {below : Machine → Nat → Machine} {table : Nat} {is : List (Fin 512)}
    (hbelow : ∀ s t, s.freed <:+ (below s t).freed) :
  s.freed <:+ (freeEntries below s table is).freed
  := by
  induction is generalizing s with
  | nil => exact List.suffix_refl _
  | cons i is ih =>
      rw [freeEntries]
      split_ifs
      · obtain ⟨s₁, hs₁⟩ : ∃ s₁, s₁ = below s (stripFlags (entry s.mem table i)) := ⟨_, rfl⟩
        have hfirst := hbelow s (stripFlags (entry s.mem table i))
        rw [← hs₁] at hfirst ⊢
        dsimp only
        obtain ⟨s₂, hs₂⟩ : ∃ s₂, s₂ = pmmFree s₁ (stripFlags (entry s₁.mem table i)) := ⟨_, rfl⟩
        have hsecond := pmmFree_suffix s₁ (stripFlags (entry s₁.mem table i))
        rw [← hs₂] at hsecond ⊢
        have hrest := ih (s := setEntry s₂ table i 0)
        rw [setEntry_freed] at hrest
        exact (hfirst.trans hsecond).trans hrest
      · exact ih

theorem freeTable_suffix {level t : Nat} :
  s.freed <:+ (freeTable level s t).freed
  := by
  induction level generalizing s t with
  | zero => exact List.suffix_refl _
  | succ level ih =>
      apply freeEntries_suffix
      intro s t
      exact ih

theorem vmmFreeP4_suffix :
  s.freed <:+ (vmmFreeP4 s P4).freed
  := by
  rw [vmmFreeP4]
  apply List.IsSuffix.trans _ (pmmFree_suffix _ _)
  apply freeEntries_suffix
  intro s t
  exact freeTable_suffix

theorem unmapPages_suffix {bootP4 fuel : Nat} (h : unmapPages bootP4 fuel s P4 p stop = some s') :
  s.freed <:+ s'.freed
  := by
  induction fuel generalizing s p with
  | zero => cases h
  | succ fuel ih =>
      by_cases hp : p < stop
      · cases hset : vmmSetPage bootP4 (pmmFree s (vmmGetPage bootP4 s P4 p)) P4 p 0 0 with
        | none =>
            rw [unmapPages_of_none hp hset] at h
            cases h
        | some r =>
            obtain ⟨v, s₁⟩ := r
            rw [unmapPages_of_lt hp hset] at h
            have hrest := ih h
            rw [vmmSetPage_freed hset] at hrest
            exact (pmmFree_suffix _ _).trans hrest
      · rw [unmapPages_of_le hp] at h
        cases h
        exact List.suffix_refl _

end Freed

section Areas

variable {b r m a o : Nat} {own live : Nat → Prop} {fs xs ys : List Nat} {k k' : Kernel}

/-- What a call of `procmm_unmap` that returns has done to the pages. -/
theorem procmmUnmap_pages {bootP4 : Nat} (h : procmmUnmap bootP4 k a = some k') :
  unmapPages bootP4 (turns (k.area a).start (k.area a).stop + 1) k.machine
    (k.map (k.area a).map).P4 (k.area a).start (k.area a).stop = some k'.machine
  := by
  rw [procmmUnmap] at h
  dsimp only at h
  cases hloop : unmapPages bootP4 (turns (k.area a).start (k.area a).stop + 1) k.machine
      (k.map (k.area a).map).P4 (k.area a).start (k.area a).stop with
  | none =>
      rw [hloop] at h
      cases h
  | some s =>
      rw [hloop] at h
      cases h
      rfl

theorem unmapAreas_suffix {bootP4 fuel : Nat} {first : Option Nat}
    (h : unmapAreas bootP4 fuel k first = some k') :
  k.machine.freed <:+ k'.machine.freed
  := by
  induction fuel generalizing k first with
  | zero => cases h
  | succ fuel ih =>
      cases first with
      | none =>
          cases h
          exact List.suffix_refl _
      | some o =>
          rw [unmapAreas] at h
          cases hcall : procmmUnmap bootP4 k o with
          | none =>
              rw [hcall] at h
              cases h
          | some k₁ =>
              rw [hcall] at h
              exact (unmapPages_suffix (procmmUnmap_pages hcall)).trans (ih h)

/-! ### The first step that meets no page -/

/-- The loop of `procmm_unmap` frees the frame 0 when one of its pages is not mapped. -/
theorem Sound.unmapPages_null {p stop fuel : Nat} {s s' : Machine} (h : Sound b own live fs s)
    (hlow : LowPages (words s.mem) live) (hr : own r) (hstop : stop ≤ userspaceTop)
    (hnot : ¬ ∀ c, Stepped p stop c → lookup (words s.mem) r c ≠ 0)
    (hcall : Procmm.unmapPages (frame b) fuel s (frame r) p stop = some s') :
  ∃ L, s'.freed = L ++ s.freed ∧ 0 ∈ L
  := by
  induction fuel generalizing p fs s with
  | zero => cases hcall
  | succ fuel ih =>
      have hlive := h.owned hr
      have hp : p < stop := by
        by_contra hp
        exact hnot fun c hc => absurd hc (not_stepped_of_le (Nat.le_of_not_lt hp))
      have hinc : incptr p pageSize = p + pageSize := by
        apply incptr_of_lt
        rw [userspaceTop] at hstop
        rw [pageSize]
        omega
      have hself : Stepped p stop p := (stepped_of_lt hp).mpr (Or.inl ⟨rfl, rfl⟩)
      by_cases hne : lookup (words s.mem) r p = 0
      · have hrne : r ≠ 0 := by
          rintro rfl
          exact h.nonzero hlive
        have hget : vmmGetPage (frame b) s (frame r) p = 0 := by
          rw [h.half.vmmGetPage_eq (Or.inr hlive) (resolveP4_frame hrne), hne]
          rintro ⟨hkernel, -⟩
          exact hself.user hstop hkernel
        cases hset : vmmSetPage (frame b) (pmmFree s (vmmGetPage (frame b) s (frame r) p)) (frame r)
            p 0 0 with
        | none =>
            rw [unmapPages_of_none hp hset] at hcall
            cases hcall
        | some q =>
            obtain ⟨v, s₁⟩ := q
            rw [unmapPages_of_lt hp hset] at hcall
            obtain ⟨L, hL⟩ := unmapPages_suffix hcall
            rw [vmmSetPage_freed hset, (pmmFree_history _ _).2, hget, Nat.zero_div] at hL
            refine ⟨L ++ [0], ?_, List.mem_append_right L List.mem_cons_self⟩
            rw [List.append_assoc]
            exact hL.symm
      · have hroots : Roots b live r := Or.inr hlive
        obtain ⟨v, s₁, hset, hsound, hfirst⟩ := h.unmapPage hlow hr (hself.user hstop) hne
        rw [unmapPages_of_lt hp hset, hinc] at hcall
        have hrest : ¬ ∀ c, Stepped (p + pageSize) stop c → lookup (words s₁.mem) r c ≠ 0 := by
          intro hall
          apply hnot
          intro c hc
          obtain hsame | hlater := (stepped_of_lt hp).mp hc
          · rwa [lookup, hsame.1, hsame.2, ← lookup]
          · have hmapped := hall c hlater
            rw [(hfirst.lookup_of_ne hroots hmapped).1] at hmapped
            exact hmapped
        obtain ⟨L, hfreed, hmem⟩ := ih hsound (hfirst.lowPages hlow) hrest hcall
        refine ⟨L ++ [lookup (words s.mem) r p / pageSize], ?_, List.mem_append_left _ hmem⟩
        rw [hfreed, hfirst.history.2, List.append_assoc]

/-- The areas after the first one, when its pages have been unmapped. -/
theorem Filled.cons {L : List Nat} (hlist : Listed k m (o :: ys)) (htop : (k.area o).stop ≤ userspaceTop)
    (hmapped : ∀ c, (k.area o).Steps c → lookup (words k.machine.mem) r c ≠ 0)
    (hroots : Roots b live r)
    (hunmaps : Unmaps b live r (k.area o).Steps L k.machine k'.machine) (harea : k'.area = k.area)
    (h : Filled k' r ys) :
  Filled k r (o :: ys)
  := by
  have hlater : ∀ a ∈ ys, ∀ c, (k.area a).Steps c →
      lookup (words k.machine.mem) r c ≠ 0 ∧ ¬ (k.area o).Steps c := by
    intro a ha c hc
    have hne := h.mapped a ha c (by rwa [harea])
    obtain ⟨heq, hnot⟩ := hunmaps.lookup_of_ne hroots hne
    rw [heq] at hne
    exact ⟨hne, fun hfirst => hnot ⟨rfl, hfirst⟩⟩
  constructor
  · intro a ha
    obtain rfl | ha := List.mem_cons.mp ha
    · exact htop
    · have hle := h.top a ha
      rwa [harea] at hle
  · intro a ha c hc
    obtain rfl | ha := List.mem_cons.mp ha
    · exact hmapped c hc
    · exact (hlater a ha c hc).1
  · intro a ha a' ha' c hc hc'
    obtain heq | ha := List.mem_cons.mp ha
    · rw [heq] at hc ⊢
      obtain heq' | ha' := List.mem_cons.mp ha'
      · exact heq'.symm
      · exact absurd hc (hlater a' ha' c hc').2
    · obtain heq' | ha' := List.mem_cons.mp ha'
      · rw [heq'] at hc'
        exact absurd hc' (hlater a ha c hc).2
      · exact h.apart a ha a' ha' c (by rwa [harea]) (by rwa [harea])

/-- The loop of `procmm_free_map` frees the frame 0 when not all of its steps meet pages of their
own. -/
theorem Ready.unmapAreas_null {fuel : Nat} (h : Ready b own fs k)
    (hlow : LowPages (words k.machine.mem) k.Root) (hP4 : (k.map m).P4 = frame r) (hr : own r)
    (hlist : Listed k m xs) (htop : ∀ a ∈ xs, (k.area a).stop ≤ userspaceTop)
    (hnot : ¬ Filled k r xs) (hcall : Procmm.unmapAreas (frame b) fuel k xs.head? = some k') :
  ∃ L, k'.machine.freed = L ++ k.machine.freed ∧ 0 ∈ L
  := by
  induction xs generalizing fuel fs k with
  | nil =>
      exfalso
      apply hnot
      constructor <;> intro a ha <;> cases ha
  | cons o ys ih =>
      cases fuel with
      | zero => cases hcall
      | succ fuel =>
          have ho : o ∈ o :: ys := List.mem_cons_self
          rw [List.head?_cons, Procmm.unmapAreas, hlist.chain.2.head] at hcall
          by_cases hmapped : ∀ c, (k.area o).Steps c → lookup (words k.machine.mem) r c ≠ 0
          · obtain ⟨L, k₁, hunmap, hready, hunmaps, hdetached, hlist₁⟩ :=
              h.procmmUnmap hlow hP4 hr hlist (htop o ho) hmapped
            rw [hunmap] at hcall
            have hroots : Roots b k.Root r := Or.inr (h.sound.owned hr)
            have hnot₁ : ¬ Filled k₁ r ys := fun hfilled =>
              hnot (hfilled.cons hlist (htop o ho) hmapped hroots hunmaps hdetached.area)
            have hlow₁ : LowPages (words k₁.machine.mem) k₁.Root := by
              rw [hdetached.root]
              exact hunmaps.lowPages hlow
            have htop₁ : ∀ a ∈ ys, (k₁.area a).stop ≤ userspaceTop := by
              intro a ha
              rw [hdetached.area]
              exact htop a (List.mem_cons_of_mem o ha)
            obtain ⟨L', hfreed, hmem⟩ := ih hready hlow₁ ((hdetached.P4 m).trans hP4) hlist₁ htop₁
              hnot₁ hcall
            refine ⟨L' ++ L, ?_, List.mem_append_left L hmem⟩
            rw [hfreed, hunmaps.history.2, List.append_assoc]
          · cases hunmap : Procmm.procmmUnmap (frame b) k o with
            | none =>
                rw [hunmap] at hcall
                cases hcall
            | some k₁ =>
                rw [hunmap] at hcall
                have hpages := procmmUnmap_pages hunmap
                rw [hlist.map o ho, hP4] at hpages
                obtain ⟨L, hfreed, hmem⟩ :=
                  h.sound.unmapPages_null hlow hr (htop o ho) hmapped hpages
                obtain ⟨L', hL'⟩ := unmapAreas_suffix hcall
                refine ⟨L' ++ L, ?_, List.mem_append_right L' hmem⟩
                rw [← hL', hfreed, List.append_assoc]

/-- `procmm_free_map` frees the frames of the address space when all of its page steps meet pages of
their own. -/
theorem Ready.freesFrames (h : Ready b own fs k) (hlow : LowPages (words k.machine.mem) k.Root)
    (hlive : k.live m = true) (hP4 : (k.map m).P4 = frame r) (hr : own r) (hlist : Listed k m xs)
    (hfilled : Filled k r xs) :
  FreesFrames b m r k
  := by
  obtain ⟨L, k', hcall, hnodup, hmem, htaken, hfreed, -⟩ :=
    h.procmmFreeMap hlow hlive hP4 hr hlist hfilled
  exact ⟨L, k', hcall, hnodup, hmem, htaken, hfreed⟩

/-- When the frame 0 is not in the address space, `procmm_free_map` frees its frames only if all of
the page steps meet pages of their own. -/
theorem FreesFrames.filled (hfrees : FreesFrames b m r k) (h : Ready b own fs k)
    (hlow : LowPages (words k.machine.mem) k.Root) (hP4 : (k.map m).P4 = frame r) (hr : own r)
    (hlist : Listed k m xs) (htop : ∀ a ∈ xs, (k.area a).stop ≤ userspaceTop)
    (hzero : ¬ UserFrame (words k.machine.mem) r 0) :
  Filled k r xs
  := by
  by_contra hnot
  obtain ⟨L, k', hcall, -, hmem, -, hfreed⟩ := hfrees
  rw [Procmm.procmmFreeMap, hlist.chain.head] at hcall
  cases hloop : unmapAreas (frame b) (2 * k.areas + 1) k xs.head? with
  | none =>
      rw [hloop] at hcall
      cases hcall
  | some k₁ =>
      rw [hloop] at hcall
      obtain ⟨L₁, hfreed₁, hmem₁⟩ := h.unmapAreas_null hlow hP4 hr hlist htop hnot hloop
      have hsuffix : k₁.machine.freed <:+ k'.machine.freed := by
        rw [← Option.some.inj hcall]
        exact vmmFreeP4_suffix
      obtain ⟨L₂, hL₂⟩ := hsuffix
      rw [hfreed₁, hfreed, ← List.append_assoc] at hL₂
      have hL := List.append_cancel_right hL₂
      apply hzero
      rw [← hmem 0, ← hL]
      apply List.mem_append_right L₂ hmem₁

end Areas

end Procmm
